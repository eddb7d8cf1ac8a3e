import TablePack.Token.Heredoc
import TablePack.Token.Literal
import TablePack.Token.Locals
import TablePack.Token.Numeral

/-!
# Reading tokens

The scanner holds the rest of the text and what it remembers of the part before it. A step reads
one token, or some blank text, from the start of the rest; the rest becomes shorter with each step
(`length_step_lt`), so reading ends.

Where the same sign can be an operator or the opening of a literal, the newest tokens decide. A
literal is read where a value is expected, or after a name, a blank and a sign that hugs what
follows, unless the name is a local variable.

* `Token.scan` gives all tokens of a text, comments included;
* `Token.lex` drops the comments and tells apart the brackets that index and those that build
  arrays.
-/

namespace TablePack

open Token (Kind Lexeme)
open Text (span isBlank isSpace isIndent isNameStart isNameChar startsWord)

/-- The state of reading a text. -/
structure Scanner where
  /-- The text that is still to be read. -/
  rest : Text
  /-- The byte offset of the rest. -/
  pos : Nat := 0
  /-- The character before the rest; a newline at the start of the text. -/
  previous : Char := '\n'
  /-- The tokens read so far, newest first. -/
  tokens : List Token := []
  /-- The same tokens without the comments. -/
  recent : List Token := []
  /-- Heredocs that are announced on this line, in order. -/
  pending : List Heredoc := []
  /-- The local variables known so far. -/
  locals : List Text := []
  /-- The list of parameters that is open, if any. -/
  params : Option Parameters := none
deriving Repr

namespace Scanner

/-! ## Moving on -/

/-- Passes over the next `n` characters. -/
def advance (s : Scanner) (n : Nat) : Scanner :=
  { s with
    rest := s.rest.drop n
    pos := s.pos + Text.size (s.rest.take n)
    previous := (s.rest.take n).getLast?.getD s.previous }

/-- Reads a lexeme as the next token. -/
def emit (s : Scanner) (lexeme : Lexeme) : Scanner :=
  let token : Token := ⟨lexeme.kind, s.pos, s.rest.take (lexeme.more + 1)⟩
  { s.advance (lexeme.more + 1) with
    tokens := token :: s.tokens
    recent := if lexeme.kind = .comment then s.recent else token :: s.recent
    params := s.params.bind (·.track token) }

/-- Adds names to the local variables. -/
def bindNames (s : Scanner) (names : List Text) : Scanner :=
  { s with locals := names.foldl (fun known name => known.insert name) s.locals }

/-- Opens the list of parameters that the newest token starts, if it starts one. -/
def openParams (s : Scanner) : Scanner :=
  { s with params := Parameters.opened? s.recent <|> s.params }

@[simp] theorem rest_advance (s : Scanner) (n : Nat) : (s.advance n).rest = s.rest.drop n := rfl

@[simp] theorem rest_emit (s : Scanner) (lexeme : Lexeme) :
    (s.emit lexeme).rest = s.rest.drop (lexeme.more + 1) := rfl

@[simp] theorem rest_bindNames (s : Scanner) (names : List Text) :
    (s.bindNames names).rest = s.rest := rfl

@[simp] theorem rest_openParams (s : Scanner) : s.openParams.rest = s.rest := rfl

/-! ## Looking around -/

/-- Whether the rest starts a line. -/
def atLineStart (s : Scanner) : Bool := s.previous == '\n'

/-- Whether the newest token is a local variable. -/
def afterLocal (s : Scanner) : Bool :=
  match s.recent with
  | [] => false
  | t :: older => !Token.followsAccess older && s.locals.contains t.text

/-- Whether a sign that the character `next` follows starts the argument of a call. -/
def startsArgument (s : Scanner) (next : Option Char) : Bool :=
  match s.recent with
  | [] => false
  | t :: _ =>
    t.kind == .ident && t.stop < s.pos && next.any (fun c => !isSpace c && c != '=')
      && !s.afterLocal

/-- Whether a sign that the character `next` follows may start a literal. -/
def literalAllowed (s : Scanner) (next : Option Char) : Bool :=
  Token.valueExpected s.recent || s.startsArgument next

/-! ## Words -/

/-- The length of a word after its first character, with the sign that may end it. -/
def wordLength (t : Text) : Nat :=
  let n := span isNameChar t
  match t.drop n with
  | c :: u => if (c == '?' || c == '!') && u.head? != some '=' then n + 1 else n
  | [] => n

/-- Whether a colon that is no scope operator follows, so that the word before it is a label. -/
def startsLabel : Text → Bool
  | ':' :: t => t.head? != some ':'
  | _ => false

/-- Whether parameters without parentheses follow the name of a method. -/
def startsLineParams (t : Text) : Bool :=
  let n := span isIndent t
  n != 0 && (t.drop n).head?.any fun c => isNameStart c || c == '*' || c == '&'

/-- The kind of a word that is followed by `after`. -/
def wordKind (s : Scanner) (word after : Text) : Kind :=
  if word.head?.any Char.isUpper then .const
  else if Token.inDefName s.recent || Token.kindAt? s.recent 0 == some .dot
      || startsLabel after then
    .ident
  else
    match Keyword.ofText? word with
    | some keyword => .keyword keyword
    | none => .ident

/-- Whether a word of the given kind is a new local variable. -/
def bindsWord (s : Scanner) (kind : Kind) : Bool :=
  kind == .ident && !Token.inDefName s.recent && Token.kindAt? s.recent 0 != some .dot
    && (s.params.any (·.expecting) || Token.kindAt? s.recent 0 == some (.keyword .for_)
      || Token.inRescue s.recent)

/-- Whether the word that `t` continues is the receiver of a method that is being defined. -/
def namesReceiver (s : Scanner) (t : Text) : Bool :=
  Token.inDefName s.recent && (t.drop (wordLength t)).head? == some '.'

/-- Whether the word that `t` continues is the name of a method that is being defined. -/
def namesMethod (s : Scanner) (t : Text) : Bool :=
  Token.inDefName s.recent && !s.namesReceiver t

/-- The length of the word that `t` continues, after its first character. In a definition, the sign
of a setter belongs to the name. -/
def wordExtent (s : Scanner) (t : Text) : Nat :=
  if s.namesMethod t && Lexeme.startsSetter (t.drop (wordLength t)) then wordLength t + 1
  else wordLength t

/-- Reads a word that starts with `c` and that `t` continues. -/
def word (s : Scanner) (c : Char) (t : Text) : Scanner :=
  let n := s.wordExtent t
  let word := c :: t.take n
  let kind := s.wordKind word (t.drop n)
  let read := s.emit ⟨kind, n⟩
  { read.bindNames (if s.bindsWord kind then [word] else []) with
    params :=
      if s.namesMethod t && startsLineParams (t.drop n) then some (.start .line)
      else read.params }

/-! ## One step -/

/-- Passes over a line break that a backslash joins. -/
def continuation (s : Scanner) (t : Text) : Except Fault Scanner :=
  match t with
  | '\n' :: _ => .ok (s.advance 2)
  | '\r' :: '\n' :: _ => .ok (s.advance 3)
  | _ => .error ⟨s.pos, .unexpectedBackslash⟩

/-- Reads a newline, and passes over the bodies of the heredocs announced before it. -/
def newline (s : Scanner) : Except Fault Scanner :=
  let read := s.emit ⟨.newline, 0⟩
  match Heredoc.bodiesLength s.pending read.rest with
  | .error doc => .error ⟨doc.start, .unterminatedHeredoc⟩
  | .ok n => .ok { read.advance n with pending := [] }

/-- Reads an operator or a punctuation sign. -/
def sign (s : Scanner) (c : Char) (t : Text) : Except Fault Scanner :=
  match Sign.find? (c :: t) with
  | none => .error ⟨s.pos, .unexpectedCharacter c⟩
  | some sign =>
    let names := if sign.assigns then Token.targets s.recent else []
    .ok ((s.bindNames names).emit ⟨sign.kind, sign.text.length - 1⟩).openParams

/-- Reads a percent literal, or a sign where there is none. -/
def percent (s : Scanner) (c : Char) (t : Text) : Except Fault Scanner :=
  match Lexeme.percent? s.pos t with
  | .error fault => .error fault
  | .ok (some lexeme) => .ok (s.emit lexeme)
  | .ok none => s.sign c t

/-- Reads a sign that may also start a literal. -/
def literalOrSign (s : Scanner) (c : Char) (t : Text) : Except Fault Scanner :=
  if c = '"' || c = '`' then (Lexeme.quoted s.pos c true t).map s.emit
  else if c = '\'' then (Lexeme.quoted s.pos c false t).map s.emit
  else if c = ':' then (Lexeme.colon s.pos t).map s.emit
  else if !s.literalAllowed t.head? then s.sign c t
  else if c = '?' then
    match Lexeme.character? t with
    | some lexeme => .ok (s.emit lexeme)
    | none => s.sign c t
  else if c = '%' then s.percent c t
  else if c = '/' then (Lexeme.regexp s.pos t).map s.emit
  else if c = '<' then
    match Heredoc.announced? s.pos t with
    | some (doc, n) => .ok { s.emit ⟨.string, n⟩ with pending := s.pending ++ [doc] }
    | none => s.sign c t
  else s.sign c t

/-- Reads the name of a method that is an operator, or another sign. -/
def methodOrSign (s : Scanner) (c : Char) (t : Text) : Except Fault Scanner :=
  match if Token.inDefName s.recent then Sign.findMethod? (c :: t) else none with
  | some name => .ok (s.emit ⟨.ident, name.length - 1⟩)
  | none => s.literalOrSign c t

/-- One step of reading, from the first character `c` of the rest, which `t` follows. -/
def step (s : Scanner) (c : Char) (t : Text) : Except Fault Scanner :=
  if isBlank c then .ok (s.advance 1)
  else if c = '\\' then s.continuation t
  else if c = '\n' then s.newline
  else if c = '#' then .ok (s.emit (Lexeme.comment t))
  else if c = '=' && s.atLineStart && startsWord "=begin".toList (c :: t) then
    (Lexeme.document s.pos t).map s.emit
  else if c = '_' && s.atLineStart
      && Text.withoutReturn (Text.line (c :: t)) == "__END__".toList then
    .ok (s.advance (t.length + 1))
  else if c.isDigit then (Numeral.read s.pos (c :: t)).map s.emit
  else if isNameStart c then .ok (s.word c t)
  else if c = '@' || c = '$' then (Lexeme.var s.pos c t).map s.emit
  else s.methodOrSign c t

/-! ## The rest becomes shorter -/

/-- A state whose rest is strictly shorter than that of `s`. -/
def Shrinks (s : Scanner) (r : Except Fault Scanner) : Prop :=
  ∀ s', r = .ok s' → s'.rest.length < s.rest.length

theorem length_drop_succ_lt {s : Scanner} {c : Char} {t : Text} (h : s.rest = c :: t) (n : Nat) :
    (s.rest.drop (n + 1)).length < s.rest.length := by
  simp only [h, List.drop_succ_cons, List.length_drop, List.length_cons]
  omega

theorem shrinks_emit {s : Scanner} {c : Char} {t : Text} (h : s.rest = c :: t) (lexeme : Lexeme) :
    Shrinks s (.ok (s.emit lexeme)) := by
  rintro _ ⟨⟩
  exact length_drop_succ_lt h _

theorem shrinks_error (s : Scanner) (fault : Fault) : Shrinks s (.error fault) := by
  rintro _ ⟨⟩

theorem shrinks_map {s : Scanner} {c : Char} {t : Text} (h : s.rest = c :: t)
    (r : Except Fault Lexeme) : Shrinks s (r.map s.emit) := by
  cases r with
  | error fault => exact shrinks_error s fault
  | ok lexeme => exact shrinks_emit h lexeme

theorem shrinks_word {s : Scanner} {c : Char} {t : Text} (h : s.rest = c :: t) :
    Shrinks s (.ok (s.word c t)) := by
  rintro _ ⟨⟩
  exact length_drop_succ_lt h _

theorem shrinks_continuation {s : Scanner} {c : Char} {t : Text} (h : s.rest = c :: t) :
    Shrinks s (s.continuation t) := by
  simp only [continuation]
  split
  · rintro _ ⟨⟩
    exact length_drop_succ_lt h 1
  · rintro _ ⟨⟩
    exact length_drop_succ_lt h 2
  · exact shrinks_error s _

theorem shrinks_newline {s : Scanner} {c : Char} {t : Text} (h : s.rest = c :: t) :
    Shrinks s s.newline := by
  simp only [newline]
  split
  · exact shrinks_error s _
  · rintro _ ⟨⟩
    have hlt := length_drop_succ_lt h 0
    simp only [rest_advance, rest_emit, List.length_drop] at hlt ⊢
    omega

theorem shrinks_sign {s : Scanner} {c : Char} {t : Text} (h : s.rest = c :: t) :
    Shrinks s (s.sign c t) := by
  simp only [sign]
  split
  · exact shrinks_error s _
  · rintro _ ⟨⟩
    exact length_drop_succ_lt h _

theorem shrinks_percent {s : Scanner} {c : Char} {t : Text} (h : s.rest = c :: t) :
    Shrinks s (s.percent c t) := by
  simp only [percent]
  split
  · exact shrinks_error s _
  · exact shrinks_emit h _
  · exact shrinks_sign h

theorem shrinks_literalOrSign {s : Scanner} {c : Char} {t : Text} (h : s.rest = c :: t) :
    Shrinks s (s.literalOrSign c t) := by
  unfold literalOrSign
  split
  · exact shrinks_map h _
  split
  · exact shrinks_map h _
  split
  · exact shrinks_map h _
  split
  · exact shrinks_sign h
  split
  · split
    · exact shrinks_emit h _
    · exact shrinks_sign h
  split
  · exact shrinks_percent h
  split
  · exact shrinks_map h _
  split
  · split
    · rintro _ ⟨⟩
      exact length_drop_succ_lt h _
    · exact shrinks_sign h
  · exact shrinks_sign h

theorem shrinks_methodOrSign {s : Scanner} {c : Char} {t : Text} (h : s.rest = c :: t) :
    Shrinks s (s.methodOrSign c t) := by
  unfold methodOrSign
  split
  · exact shrinks_emit h _
  · exact shrinks_literalOrSign h

theorem shrinks_step {s : Scanner} {c : Char} {t : Text} (h : s.rest = c :: t) :
    Shrinks s (s.step c t) := by
  unfold step
  split
  · rintro _ ⟨⟩
    exact length_drop_succ_lt h 0
  split
  · exact shrinks_continuation h
  split
  · exact shrinks_newline h
  split
  · exact shrinks_emit h _
  split
  · exact shrinks_map h _
  split
  · rintro _ ⟨⟩
    exact length_drop_succ_lt h _
  split
  · exact shrinks_map h _
  split
  · exact shrinks_word h
  split
  · exact shrinks_map h _
  · exact shrinks_methodOrSign h

/-- Each step that succeeds leaves a shorter text to be read. -/
theorem length_step_lt {s s' : Scanner} {c : Char} {t : Text} (h : s.rest = c :: t)
    (hs : s.step c t = .ok s') : s'.rest.length < s.rest.length :=
  shrinks_step h s' hs

/-! ## The whole text -/

/-- Reads until the text ends. A heredoc that is announced must have had its body by then. -/
def run (s : Scanner) : Except Fault Scanner :=
  match _h : s.rest with
  | [] =>
    match s.pending with
    | [] => .ok s
    | doc :: _ => .error ⟨doc.start, .unterminatedHeredoc⟩
  | c :: t =>
    match _hs : s.step c t with
    | .error fault => .error fault
    | .ok s' => run s'
termination_by s.rest.length
decreasing_by exact length_step_lt _h _hs

end Scanner

namespace Token

/-- All tokens of a text, in order, comments included. -/
def scan (source : Text) : Except Fault (List Token) :=
  (Scanner.run { rest := source }).map fun s => s.tokens.reverse

/-- A bracket that hugs the end of a value indexes it; any other one builds an array. -/
def tellBracket (previous : Option Token) (t : Token) : Token :=
  if t.kind = .lbracket then
    if previous.any fun p => p.kind.endsPrimary && p.stop == t.start then
      { t with kind := .indexBracket }
    else { t with kind := .arrayBracket }
  else t

/-- The tokens with every opening bracket told apart. -/
def tellBrackets (tokens : List Token) : List Token :=
  List.zipWith tellBracket (none :: tokens.map some) tokens

/-- The tokens of a text without its comments, and with the opening brackets told apart. -/
def lex (source : Text) : Except Fault (List Token) :=
  (scan source).map fun tokens => tellBrackets (tokens.filter fun t => t.kind != .comment)

end Token

end TablePack
