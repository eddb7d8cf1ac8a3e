import TablePack.Buffer.Quoting
import TablePack.Token.Heredoc
import TablePack.Token.Locals
import TablePack.Token.Numeral
import TablePack.Token.Symbols

/-!
# Reading tokens from a buffer

The lexer is the scanner as it works on bytes: it goes forward over the bytes of a buffer, and keeps
a token as its kind, its position and its length. The text of a token is cut out of the buffer
whenever it is needed.

`Lexer.step` reads one token, or some blank text.
-/

namespace TablePack

open Token (Kind)

/-- A token as the lexer keeps it: its kind, its position, and its number of bytes. -/
structure Extent where
  kind : Kind
  start : Nat
  len : Nat
deriving Repr, DecidableEq

namespace Extent

/-- The position just past a token. -/
def stop (m : Extent) : Nat := m.start + m.len

/-- The text of a token. -/
def text (src : Buffer) (m : Extent) : Checked Text := src.text m.start m.stop

/-- The token with its text. -/
def token (src : Buffer) (m : Extent) : Checked Token := do
  let text ← m.text src
  return ⟨m.kind, m.start, text⟩

end Extent

/-- A heredoc that is announced, with the bytes that end its body. -/
structure Announcement where
  name : Buffer
  indented : Bool
  start : Nat
deriving Repr, DecidableEq

/-- The state of reading a buffer. -/
structure Lexer where
  /-- The position of the next byte. -/
  pos : Nat := 0
  /-- The tokens read so far, newest first. -/
  out : List Extent := []
  /-- Heredocs that are announced on this line, in order. -/
  heredocs : List Announcement := []
  /-- The local variables known so far. -/
  locals : List Text := []
  /-- The list of parameters that is open, if any. -/
  params : Option Parameters := none
deriving Repr

namespace Lexer

/-! ## Looking around -/

/-- The tokens without the comments, newest first. -/
def recent (l : Lexer) : List Extent := l.out.filter fun m => m.kind != .comment

/-- The kind of the token `n` places back. -/
def kindAt? (l : Lexer) (n : Nat) : Option Kind := l.recent[n]?.map (·.kind)

/-- Whether the next word names the method of a definition. -/
def inDefName (l : Lexer) : Bool :=
  l.kindAt? 0 == some (.keyword .def_)
    || l.kindAt? 0 == some .dot && l.kindAt? 2 == some (.keyword .def_)

/-- Whether a value comes next. -/
def valueExpected (l : Lexer) : Bool := (l.kindAt? 0).all (!·.endsPrimary)

section

variable (src : Buffer)

/-- The text of the token `n` places back. -/
def textAt? (l : Lexer) (n : Nat) : Checked (Option Text) :=
  match l.recent[n]? with
  | none => .ok none
  | some m => (m.text src).map some

/-- Whether the lexer is at the start of a line. -/
def atLineStart (l : Lexer) : Checked Bool :=
  if l.pos = 0 then .ok true
  else do
    let i ← Checked.minus l.pos 1
    let b ← src.byte i
    return b == ascii '\n'

/-- Whether a word stands at a position, with white space or the end of the buffer after it. -/
def wordAt (i : Nat) (word : Text) : Checked Bool := do
  let rest ← src.tail i
  return rest.startsWith word && (src.get? (i + word.bytes.length)).all Byte.isSpace

/-- Whether the rest of the line is the given one. -/
def lineIs (l : Lexer) (content : Text) : Checked Bool := do
  let rest ← src.tail l.pos
  let line ← rest.part 0 (rest.count (· != ascii '\n'))
  return line.withoutReturn == .ofText content

/-- Whether the newest token is a local variable. -/
def afterLocal (l : Lexer) : Checked Bool := do
  match ← l.textAt? src 0 with
  | none => return false
  | some name =>
    return l.kindAt? 1 != some .dot && l.kindAt? 1 != some .colons && l.locals.contains name

/-- Whether a sign at this position starts the argument of a call. -/
def startsArgument (l : Lexer) : Checked Bool :=
  match l.recent.head? with
  | none => .ok false
  | some m =>
    if m.kind == .ident && m.stop < l.pos
        && (src.get? (l.pos + 1)).any (fun b => !Byte.isSpace b && b != ascii '=') then do
      return !(← l.afterLocal src)
    else .ok false

/-- Whether a sign at this position may start a literal. -/
def literalAllowed (l : Lexer) : Checked Bool :=
  if l.valueExpected then .ok true else l.startsArgument src

/-! ## Tokens and locals -/

/-- Goes on to `stop`, and takes the bytes up to there as the next token. -/
def emit (l : Lexer) (kind : Kind) (stop : Nat) : Checked Lexer := do
  let len ← Checked.minus stop l.pos
  let text ← src.text l.pos stop
  return { l with
    pos := stop
    out := ⟨kind, l.pos, len⟩ :: l.out
    params := l.params.bind (·.track ⟨kind, l.pos, text⟩) }

/-- Walks back from an assignment over its list of targets. -/
def collectTargets (wanted : Bool) (names : List Text) : List Extent → Checked (List Text)
  | [] => .ok (Token.keepTargets (!wanted) names)
  | m :: older =>
    match m.kind with
    | .ident =>
      if !wanted then .ok (Token.keepTargets false names)
      else if older.head?.any fun u => u.kind == .dot || u.kind == .colons then
        .ok (Token.keepTargets (!names.isEmpty) names)
      else do
        let name ← m.text src
        collectTargets false (names ++ [name]) older
    | .comma =>
      if wanted then .ok (Token.keepTargets false names) else collectTargets true names older
    | .rparen =>
      if wanted then collectTargets wanted names older else .ok (Token.keepTargets false names)
    | .op => do
      let text ← m.text src
      if text = ['*'] then collectTargets wanted names older
      else .ok (Token.keepTargets false names)
    | .lparen =>
      if older.head?.any fun u => (u.kind == .ident || u.kind == .const) && u.stop == m.start then
        .ok (Token.keepTargets false names)
      else collectTargets false names older
    | .newline | .semi | .pipe | .lbrace | .keyword _ => .ok (Token.keepTargets (!wanted) names)
    | _ => .ok (Token.keepTargets false names)

/-- Adds the targets of an assignment at this position to the local variables. -/
def bindTargets (l : Lexer) : Checked Lexer := do
  let names ← collectTargets src true [] l.recent
  return { l with locals := names.foldl (fun known name => known.insert name) l.locals }

/-- Whether the next name is bound to the error of a `rescue` clause on the same line. -/
def inRescue (l : Lexer) : Checked Bool := do
  let text ← l.textAt? src 0
  return text == some "=>".toList
    && ((l.recent.drop 1).takeWhile fun m => m.kind != .newline && m.kind != .semi).any
      fun m => m.kind == .keyword .rescue_

/-- Whether the token `n` places back names the method of a definition. -/
def namesDef (l : Lexer) (n : Nat) : Bool :=
  l.kindAt? (n + 1) == some (.keyword .def_)
    || l.kindAt? (n + 1) == some .dot && l.kindAt? (n + 3) == some (.keyword .def_)

/-- What ends the list of parameters that the newest token opens, if it opens one. -/
def opened? (l : Lexer) : Checked (Option Parameters.Ending) :=
  match l.recent with
  | m :: n :: _ =>
    match m.kind, n.kind with
    | .lparen, .op => do
      let text ← n.text src
      return if text = "->".toList then some .paren else none
    | .lparen, .ident => .ok (if l.namesDef 1 then some .paren else none)
    | .pipe, .lbrace => .ok (some .pipe)
    | .pipe, .keyword .do_ => .ok (some .pipe)
    | _, _ => .ok none
  | _ => .ok none

/-- Opens the list of parameters that the newest token starts, if it starts one. -/
def openParams (l : Lexer) : Checked Lexer := do
  match ← l.opened? src with
  | none => return l
  | some ending => return { l with params := some (.start ending) }

/-! ## Blank text and comments -/

/-- Passes over a line break that a backslash joins. -/
def continuation (l : Lexer) : Checked Lexer :=
  if src.get? (l.pos + 1) == some (ascii '\n') then .ok { l with pos := l.pos + 2 }
  else if src.get? (l.pos + 1) == some (ascii '\r')
      && src.get? (l.pos + 2) == some (ascii '\n') then
    .ok { l with pos := l.pos + 3 }
  else src.fail l.pos .unexpectedBackslash

/-- Reads a comment up to the end of its line. -/
def lineComment (l : Lexer) : Checked Lexer := do
  let stop ← src.eatWhile (· != ascii '\n') l.pos
  l.emit src .comment stop

/-- The position after an embedded document that starts at `start`, from a position inside it. -/
def documentEnd (start pos : Nat) : Checked Nat :=
  match _h : src.eatWhile (· != ascii '\n') pos with
  | .error stop => .error stop
  | .ok lineEnd =>
    if lineEnd < src.size then do
      if ← wordAt src (lineEnd + 1) "=end".toList then
        src.eatWhile (· != ascii '\n') (lineEnd + 1)
      else documentEnd start (lineEnd + 1)
    else src.fail start .unterminatedDocument
termination_by src.size - pos
decreasing_by
  have hle := src.gives_eatWhile _ _ _ _h
  omega

/-- Reads an embedded document. -/
def document (l : Lexer) : Checked Lexer := do
  let stop ← documentEnd src l.pos l.pos
  l.emit src .comment stop

/-- A line of a heredoc without its indentation, where the heredoc may be indented. -/
def unindented (doc : Announcement) (line : Buffer) : Checked Buffer :=
  if doc.indented then line.tail (line.count Byte.isIndent) else .ok line

/-- The position after the body of a heredoc. -/
def bodyEnd (doc : Announcement) (pos : Nat) : Checked Nat :=
  if pos < src.size then do
    let rest ← src.tail pos
    let line ← rest.part 0 (rest.count (· != ascii '\n'))
    let text ← unindented doc line.withoutReturn
    if text = doc.name then return min (pos + rest.count (· != ascii '\n') + 1) src.size
    else bodyEnd doc (min (pos + rest.count (· != ascii '\n') + 1) src.size)
  else src.fail doc.start .unterminatedHeredoc
termination_by src.size - pos

/-- The position after the bodies of several heredocs. -/
def bodiesEnd : List Announcement → Nat → Checked Nat
  | [], pos => .ok pos
  | doc :: docs, pos => do
    let stop ← bodyEnd src doc pos
    bodiesEnd docs stop

/-- Reads a newline, and passes over the bodies of the heredocs announced before it. -/
def newline (l : Lexer) : Checked Lexer := do
  let read ← l.emit src .newline (l.pos + 1)
  let stop ← bodiesEnd src l.heredocs read.pos
  return { read with pos := stop, heredocs := [] }

/-! ## Numbers -/

/-- The radix of a numeral that starts at a position with a marked zero. -/
def radix? (start : Nat) : Option Nat :=
  if src.get? start == some (ascii '0') then
    match src.get? (start + 1) with
    | none => none
    | some mark =>
      if mark == ascii 'x' || mark == ascii 'X' then some 16
      else if mark == ascii 'b' || mark == ascii 'B' then some 2
      else if mark == ascii 'o' || mark == ascii 'O' then some 8
      else if mark == ascii 'd' || mark == ascii 'D' then some 10
      else none
  else none

/-- The digits after a radix mark, checked. -/
def marked (start radix : Nat) : Checked (Kind × Nat) := do
  let stop ← src.eatWhile (fun b => Byte.isAlphanum b || b == ascii '_') (start + 2)
  let digits ← src.text (start + 2) stop
  if digits.isEmpty || !digits.all (fun c => c == '_' || (Numeral.digit? radix c).isSome) then
    src.fail start .invalidNumeral
  else return (.int, stop)

/-- A fraction at a position, if there is one. -/
def fraction (pos : Nat) : Checked (Kind × Nat) :=
  if src.get? pos == some (ascii '.') && (src.get? (pos + 1)).any Byte.isDigit then do
    let stop ← src.eatWhile Byte.isDigitOrScore (pos + 1)
    return (.float, stop)
  else .ok (.int, pos)

/-- The length of the sign of an exponent at a position. -/
def signLength (pos : Nat) : Nat :=
  if (src.get? pos).any fun b => b == ascii '+' || b == ascii '-' then 1 else 0

/-- An exponent at a position, if there is one. -/
def exponent (kind : Kind) (pos : Nat) : Checked (Kind × Nat) :=
  if (src.get? pos).any (fun b => b == ascii 'e' || b == ascii 'E')
      && (src.get? (pos + 1 + signLength src (pos + 1))).any Byte.isDigit then do
    let stop ← src.eatWhile Byte.isDigitOrScore (pos + (1 + signLength src (pos + 1)))
    return (.float, stop)
  else .ok (kind, pos)

/-- A numeral without a radix mark. -/
def unmarked (start : Nat) : Checked (Kind × Nat) := do
  let whole ← src.eatWhile Byte.isDigitOrScore start
  let (kind, fractional) ← fraction src whole
  let (kind, stop) ← exponent src kind fractional
  let digits ← src.part start stop
  if kind = .int ∧ 1 < digits.size then
    let first ← digits.byte 0
    if first == ascii '0' && digits.bytes.any (fun b => b == ascii '8' || b == ascii '9') then
      src.fail start .invalidOctalDigit
    else return (kind, stop)
  else return (kind, stop)

/-- The rational and imaginary suffixes at a position, each of them tried once. -/
def suffixed (kind : Kind) (pos : Nat) : List UInt8 → Kind × Nat
  | [] => (kind, pos)
  | suffix :: more =>
    if src.get? pos == some suffix && !(src.get? (pos + 1)).any Byte.isNameChar then
      suffixed .float (pos + 1) more
    else if src.get? pos == some (ascii 'r') && src.get? (pos + 1) == some (ascii 'i')
        && !(src.get? (pos + 2)).any Byte.isNameChar then
      (.float, pos + 2)
    else suffixed kind pos more

/-- The numeral at a position, without its suffix. -/
def numeral (start : Nat) : Checked (Kind × Nat) :=
  match radix? src start with
  | some radix => marked src start radix
  | none => unmarked src start

/-- Reads a numeral. -/
def number (l : Lexer) : Checked Lexer := do
  let (kind, body) ← numeral src l.pos
  let (kind, stop) := suffixed src kind body [ascii 'r', ascii 'i']
  if (src.get? stop).any Byte.isNameChar then src.fail stop .afterNumeral
  else l.emit src kind stop

/-! ## Words -/

/-- Whether the sign of a setter stands at a position, and no longer operator. -/
def setterAt (pos : Nat) : Bool :=
  src.get? pos == some (ascii '=')
    && !(src.get? (pos + 1)).any fun b => b == ascii '=' || b == ascii '~' || b == ascii '>'

/-- Whether a colon that is no scope operator stands at a position. -/
def labelAt (pos : Nat) : Bool :=
  src.get? pos == some (ascii ':') && src.get? (pos + 1) != some (ascii ':')

/-- Whether parameters without parentheses follow the name of a method. -/
def startsLineParams (pos : Nat) : Checked Bool := do
  let rest ← src.tail pos
  return 0 < rest.count Byte.isIndent
    && (rest.get? (rest.count Byte.isIndent)).any
      fun b => Byte.isNameStart b || b == ascii '*' || b == ascii '&'

/-- The position after a word, with the sign that may end it. -/
def wordEnd (start : Nat) : Checked Nat := do
  let stop ← src.eatWhile Byte.isNameChar start
  if (src.get? stop).any (fun b => b == ascii '?' || b == ascii '!')
      && src.get? (stop + 1) != some (ascii '=') then
    return stop + 1
  else return stop

/-- The kind of the word from `start` up to a position. -/
def wordKind (l : Lexer) (word : Text) (stop : Nat) : Checked Kind := do
  let first ← Checked.item word.bytes.toArray 0
  if Byte.isUpper first then return .const
  else if l.inDefName || l.kindAt? 0 == some .dot || labelAt src stop then return .ident
  else
    match Keyword.ofText? word with
    | some keyword => return .keyword keyword
    | none => return .ident

/-- Whether a word of the given kind is a new local variable. -/
def bindsWord (l : Lexer) (kind : Kind) : Checked Bool :=
  if kind == .ident && !l.inDefName && l.kindAt? 0 != some .dot then
    if l.params.any (·.expecting) || l.kindAt? 0 == some (.keyword .for_) then .ok true
    else l.inRescue src
  else .ok false

/-- Whether the word up to a position names the method of a definition, and not its receiver. -/
def namesMethod (l : Lexer) (word : Nat) : Bool :=
  l.inDefName && src.get? word != some (ascii '.')

/-- The position after a word. In a definition, the sign of a setter belongs to the name. -/
def identEnd (l : Lexer) (word : Nat) : Nat :=
  if l.namesMethod src word && setterAt src word then word + 1 else word

/-- Opens the list of parameters that follows the name of a method without parentheses. -/
def openLine (l : Lexer) (method : Bool) : Checked Lexer :=
  if method then do
    let listed ← startsLineParams src l.pos
    return if listed then { l with params := some (.start .line) } else l
  else .ok l

/-- Reads a word. -/
def ident (l : Lexer) : Checked Lexer := do
  let word ← wordEnd src l.pos
  let text ← src.text l.pos (l.identEnd src word)
  let kind ← l.wordKind src text (l.identEnd src word)
  let binds ← l.bindsWord src kind
  let read ← l.emit src kind (l.identEnd src word)
  openLine src { read with locals := if binds then read.locals.insert text else read.locals }
    (l.namesMethod src word)

/-- The position after the name of a variable that starts at `start`, of which the bytes up to a
position are read already. -/
def nameAfter (start pos : Nat) : Checked Nat :=
  if (src.get? pos).any Byte.isNameChar then src.eatWhile Byte.isNameChar pos
  else src.fail start .invalidVariable

/-- The position after an instance, class or global variable. -/
def varEnd (start : Nat) : Checked Nat :=
  if src.get? start == some (ascii '@') && src.get? (start + 1) == some (ascii '@')
      || src.get? start == some (ascii '$') && src.get? (start + 1) == some (ascii '-') then
    nameAfter src start (start + 2)
  else if src.get? start == some (ascii '$')
      && (src.get? (start + 1)).any (fun b => !Byte.isNameChar b && Byte.isGraphic b) then
    .ok (start + 2)
  else nameAfter src start (start + 1)

/-- Reads an instance, class or global variable. -/
def var (l : Lexer) (kind : Kind) : Checked Lexer := do
  let stop ← varEnd src l.pos
  l.emit src kind stop

/-! ## Literals -/

/-- Reads a string between two quotes. -/
def quoted (l : Lexer) (q : UInt8) (interpolates : Bool) : Checked Lexer := do
  let stop ← src.literal l.pos q q interpolates
  l.emit src .string stop

/-- The operator at the start of a buffer that is the name of a method. -/
def findMethod? (rest : Buffer) : Option Text := Sign.methods.find? fun name => rest.startsWith name

/-- Makes the newest token start at the byte before it. -/
def extendBack (l : Lexer) (start : Nat) : Lexer :=
  match l.out with
  | [] => l
  | m :: older => { l with out := ⟨m.kind, start, m.len + 1⟩ :: older }

/-- The position after a symbol's name, with the sign that may end it. -/
def symbolEnd (start : Nat) : Checked Nat := do
  let stop ← src.eatWhile Byte.isNameChar start
  if (src.get? stop).any (fun b => b == ascii '?' || b == ascii '!') || setterAt src stop then
    return stop + 1
  else return stop

/-- Reads what a colon starts: a scope operator, a symbol, or a plain colon. -/
def colon (l : Lexer) : Checked Lexer :=
  if src.get? (l.pos + 1) == some (ascii ':') then l.emit src .colons (l.pos + 2)
  else if src.get? (l.pos + 1) == some (ascii '"')
      || src.get? (l.pos + 1) == some (ascii '\'') then do
    let q ← src.byte (l.pos + 1)
    let stop ← src.literal (l.pos + 1) q q (q == ascii '"')
    l.emit src .symbol stop
  else if src.get? (l.pos + 1) == some (ascii '@')
      || src.get? (l.pos + 1) == some (ascii '$') then do
    let read ← { l with pos := l.pos + 1 }.var src .symbol
    return read.extendBack l.pos
  else if (src.get? (l.pos + 1)).any Byte.isNameStart then do
    let stop ← symbolEnd src (l.pos + 1)
    l.emit src .symbol stop
  else do
    let rest ← src.tail (l.pos + 1)
    match findMethod? rest with
    | none => l.emit src .op (l.pos + 1)
    | some name =>
      if name = ['`'] then l.emit src .op (l.pos + 1)
      else l.emit src .symbol (l.pos + (1 + name.bytes.length))

/-- The number of bytes of a character literal, up to the first byte of the character. -/
def characterLength? (pos : Nat) : Option Nat :=
  match src.get? (pos + 1) with
  | none => none
  | some b =>
    if b == ascii '\\' && (src.get? (pos + 2)).isSome then some 3
    else if Byte.isSpace b then none
    else if Byte.isNameChar b && (src.get? (pos + 2)).any Byte.isNameChar then none
    else some 2

/-- Reads a character literal, if there is one. -/
def character? (l : Lexer) : Checked (Option Lexer) :=
  match characterLength? src l.pos with
  | none => .ok none
  | some n => do
    -- the other bytes of the character
    let stop ← src.eatWhile Byte.isContinuation (l.pos + n)
    let read ← l.emit src .string stop
    return some read

/-- The form of a percent literal: its kind, whether it interpolates, and how far from the percent
sign its delimiter stands. -/
def percentForm? (pos : Nat) : Option (Kind × Bool × Nat) :=
  match src.get? (pos + 1) with
  | none => none
  | some b =>
    let delimited := (src.get? (pos + 2)).any fun d => !Byte.isAlphanum d
    if delimited && (b == ascii 'q' || b == ascii 'w' || b == ascii 'i') then
      some (.string, false, 2)
    else if delimited && b == ascii 's' then some (.symbol, false, 2)
    else if delimited
        && (b == ascii 'Q' || b == ascii 'W' || b == ascii 'I' || b == ascii 'x') then
      some (.string, true, 2)
    else if delimited && b == ascii 'r' then some (.regexp, true, 2)
    else if !Byte.isAlphanum b && b != ascii '=' then some (.string, true, 1)
    else none

/-- The position after the flags of a regular expression. -/
def flagsEnd (kind : Kind) (pos : Nat) : Checked Nat :=
  if kind = .regexp then src.eatWhile Byte.isLower pos else .ok pos

/-- Reads a percent literal, if there is one. -/
def percent? (l : Lexer) : Checked (Option Lexer) :=
  match percentForm? src l.pos with
  | none => .ok none
  | some (kind, interpolates, ahead) => do
    let opener ← src.byte (l.pos + ahead)
    if Byte.isSpace opener then return none
    else
      let body ← src.literal (l.pos + ahead) opener (Buffer.closing opener) interpolates
      let stop ← flagsEnd src kind body
      let read ← l.emit src kind stop
      return some read

/-- Reads a regular expression. -/
def regexp (l : Lexer) : Checked Lexer := do
  let body ← src.regexp l.pos
  let stop ← flagsEnd src .regexp body
  l.emit src .regexp stop

/-- The name of a heredoc between quotes, of which the first one stands at a position; and the
position after the last one. -/
def quotedName? (q : UInt8) (pos : Nat) : Checked (Option (Buffer × Nat)) := do
  let body ← src.tail (pos + 1)
  if (body.count fun b => b != q && b != ascii '\n') < body.size then
    let last ← body.byte (body.count fun b => b != q && b != ascii '\n')
    if last != q || (body.count fun b => b != q && b != ascii '\n') == 0 then return none
    else
      let name ← body.part 0 (body.count fun b => b != q && b != ascii '\n')
      return some (name, pos + ((body.count fun b => b != q && b != ascii '\n') + 2))
  else return none

/-- The name of a heredoc without quotes, and the position after it. -/
def plainName? (pos : Nat) : Checked (Option (Buffer × Nat)) := do
  let rest ← src.tail pos
  let name ← src.part pos (pos + rest.count Byte.isNameChar)
  return some (name, pos + rest.count Byte.isNameChar)

/-- The name of a heredoc at a position, and the position after it and its quotes. -/
def heredocName? (pos : Nat) : Checked (Option (Buffer × Nat)) :=
  match src.get? pos with
  | none => .ok none
  | some q =>
    if q == ascii '\'' || q == ascii '"' || q == ascii '`' then quotedName? src q pos
    else if Byte.isNameStart q then plainName? src pos
    else .ok none

/-- Reads the announcement of a heredoc, if there is one. -/
def announced? (l : Lexer) : Checked (Option Lexer) :=
  if src.get? (l.pos + 1) == some (ascii '<') then do
    let indented := (src.get? (l.pos + 2)).any fun b => b == ascii '~' || b == ascii '-'
    match ← heredocName? src (l.pos + 2 + if indented then 1 else 0) with
    | none => return none
    | some (name, stop) =>
      let read ← l.emit src .string stop
      return some { read with heredocs := read.heredocs ++ [⟨name, indented, l.pos⟩] }
  else .ok none

/-! ## Signs -/

/-- Reads the name of a method that is an operator, if there is one. -/
def method? (l : Lexer) : Checked (Option Lexer) :=
  if l.inDefName then do
    let rest ← src.tail l.pos
    match findMethod? rest with
    | none => return none
    | some name =>
      let read ← l.emit src .ident (l.pos + name.bytes.length)
      return some read
  else .ok none

/-- Adds the names that a sign assigns to to the local variables. -/
def bindFor (l : Lexer) (sign : Sign) : Checked Lexer :=
  if sign.assigns then l.bindTargets src else .ok l

/-- Reads an operator or a punctuation sign. -/
def sign (l : Lexer) : Checked Lexer := do
  let rest ← src.tail l.pos
  match Sign.table.find? fun sign => rest.startsWith sign.text with
  | none =>
    let ahead ← src.text l.pos src.size
    src.fail l.pos (.unexpectedCharacter (ahead.head?.getD '\ufffd'))
  | some sign =>
    let bound ← l.bindFor src sign
    let read ← bound.emit src sign.kind (l.pos + sign.text.bytes.length)
    read.openParams src

/-- Reads the literal that the byte `b` starts, if there is one. -/
def literal? (l : Lexer) (b : UInt8) : Checked (Option Lexer) :=
  if b == ascii '?' then l.character? src
  else if b == ascii '%' then l.percent? src
  else if b == ascii '/' then (l.regexp src).map some
  else if b == ascii '<' then l.announced? src
  else .ok none

/-- Reads a sign that may also start a literal. -/
def literalOrSign (l : Lexer) (b : UInt8) : Checked Lexer :=
  if b == ascii '"' || b == ascii '`' then l.quoted src b true
  else if b == ascii '\'' then l.quoted src b false
  else if b == ascii ':' then l.colon src
  else if b == ascii '?' || b == ascii '%' || b == ascii '/' || b == ascii '<' then do
    if ← l.literalAllowed src then
      match ← l.literal? src b with
      | some read => return read
      | none => l.sign src
    else l.sign src
  else l.sign src

/-- Whether an embedded document starts here, where the next byte is `b`. -/
def opensDocument (l : Lexer) (b : UInt8) : Checked Bool := do
  if b == ascii '=' then
    if ← l.atLineStart src then wordAt src l.pos "=begin".toList else return false
  else return false

/-- Whether the program ends here, where the next byte is `b`. -/
def endsProgram (l : Lexer) (b : UInt8) : Checked Bool := do
  if b == ascii '_' then
    if ← l.atLineStart src then l.lineIs src "__END__".toList else return false
  else return false

/-- One step of reading. -/
def step (l : Lexer) : Checked Lexer := do
  let b ← src.byte l.pos
  if Byte.isBlank b then return { l with pos := l.pos + 1 }
  else if b == ascii '\\' then l.continuation src
  else if b == ascii '\n' then l.newline src
  else if b == ascii '#' then l.lineComment src
  else if ← l.opensDocument src b then l.document src
  else if ← l.endsProgram src b then return { l with pos := src.size }
  else if Byte.isDigit b then l.number src
  else if Byte.isNameStart b then l.ident src
  else if b == ascii '@' || b == ascii '$' then l.var src .var
  else
    match ← l.method? src with
    | some read => return read
    | none => l.literalOrSign src b

end

end Lexer

end TablePack
