import TablePack.Token.Quoting
import TablePack.Token.Symbols

/-!
# Literals, symbols, variables and comments

For each of these, the lexeme at a place where its first character has been seen. The text that is
passed on is the one after that character; `start` is the byte offset of the first character.
-/

namespace TablePack

namespace Token.Lexeme

open Text (span isNameStart isNameChar continuesName isSpace isWide isGraphic startsWord)

/-! ## Comments -/

/-- A comment up to the end of its line. -/
def comment (t : Text) : Lexeme := ⟨.comment, span (· != '\n') t⟩

/-- The number of characters of an embedded document, added to the `n` that are already read. It
ends with the first line that starts with the closing word, and that line's newline is not part of
it. -/
def documentLength? (n : Nat) : Text → Option Nat
  | [] => none
  | c :: t =>
    if c = '\n' && startsWord "=end".toList t then some (n + 1 + span (· != '\n') t)
    else documentLength? (n + 1) t

/-- An embedded document. -/
def document (start : Nat) (t : Text) : Except Fault Lexeme :=
  match documentLength? 0 t with
  | some n => .ok ⟨.comment, n⟩
  | none => .error ⟨start, .unterminatedDocument⟩

/-! ## Variables and symbols -/

/-- The length of a variable's name of which `n` characters are read already. -/
def nameAfter? (n : Nat) (t : Text) : Option Nat :=
  if continuesName t then some (n + span isNameChar t) else none

/-- The length of a variable, without its first character, which is `sigil`. -/
def variableLength? (sigil : Char) (t : Text) : Option Nat :=
  match t with
  | c :: u =>
    if sigil = '@' && c = '@' || sigil = '$' && c = '-' then nameAfter? 1 u
    else if sigil = '$' && !isNameChar c && isGraphic c then some 1
    else nameAfter? 0 t
  | [] => none

/-- An instance, class or global variable. -/
def var (start : Nat) (sigil : Char) (t : Text) : Except Fault Lexeme :=
  match variableLength? sigil t with
  | some n => .ok ⟨.var, n⟩
  | none => .error ⟨start, .invalidVariable⟩

/-- Whether a text starts with the sign of a setter, and not with a longer operator. -/
def startsSetter : Text → Bool
  | '=' :: t => !t.head?.any (fun c => c == '=' || c == '~' || c == '>')
  | _ => false

/-- The length of the sign that ends a symbol's name. -/
def symbolMark (t : Text) : Nat :=
  if t.head?.any (fun c => c == '?' || c == '!') || startsSetter t then 1 else 0

/-- What a colon starts: a scope operator, a symbol, or a plain colon. -/
def colon (start : Nat) (t : Text) : Except Fault Lexeme :=
  match t with
  | ':' :: _ => .ok ⟨.colons, 1⟩
  | c :: u =>
    if c = '"' || c = '\'' then
      (Quoting.literal (start + 1) c (c = '"') u).map fun n => ⟨.symbol, 1 + n⟩
    else if c = '@' || c = '$' then
      match variableLength? c u with
      | some n => .ok ⟨.symbol, 1 + n⟩
      | none => .error ⟨start + 1, .invalidVariable⟩
    else if isNameStart c then
      let n := span isNameChar u
      .ok ⟨.symbol, 1 + n + symbolMark (u.drop n)⟩
    else
      match Sign.findMethod? t with
      | some name => .ok (if name = ['`'] then ⟨.op, 0⟩ else ⟨.symbol, name.length⟩)
      | none => .ok ⟨.op, 0⟩
  | [] => .ok ⟨.op, 0⟩

/-! ## Quoted literals -/

/-- A string that starts with the quote `q`. -/
def quoted (start : Nat) (q : Char) (interpolates : Bool) (t : Text) : Except Fault Lexeme :=
  (Quoting.literal start q interpolates t).map fun n => ⟨.string, n⟩

/-- A character literal after its question mark: an escaped character, or one that starts no word.
-/
def character? : Text → Option Lexeme
  | '\\' :: _ :: _ => some ⟨.string, 2⟩
  | c :: t =>
    if isSpace c || isNameChar c && (isWide c || continuesName t) then none
    else some ⟨.string, 1⟩
  | [] => none

/-- The form of a percent literal: its kind, whether it interpolates, and how many letters stand
before its delimiter. -/
def percentForm? (t : Text) : Option (Kind × Bool × Nat) :=
  match t with
  | letter :: u =>
    if u.head?.any (!·.isAlphanum) && "qwi".toList.contains letter then some (.string, false, 1)
    else if u.head?.any (!·.isAlphanum) && letter = 's' then some (.symbol, false, 1)
    else if u.head?.any (!·.isAlphanum) && "QWIx".toList.contains letter then
      some (.string, true, 1)
    else if u.head?.any (!·.isAlphanum) && letter = 'r' then some (.regexp, true, 1)
    else if !letter.isAlphanum && letter ≠ '=' then some (.string, true, 0)
    else none
  | [] => none

/-- The length of the flags after a regular expression. -/
def flags (kind : Kind) (t : Text) : Nat := if kind = .regexp then span Char.isLower t else 0

/-- A percent literal after its percent sign, if there is one. White space does not delimit. A
delimiter outside ASCII cannot be closed between two characters. -/
def percent? (start : Nat) (t : Text) : Except Fault (Option Lexeme) :=
  match percentForm? t with
  | none => .ok none
  | some (kind, interpolates, letters) =>
    match t.drop letters with
    | [] => .ok none
    | delimiter :: u =>
      if isSpace delimiter then .ok none
      else
        match Quoting.literal (start + 1 + letters) delimiter interpolates u with
        | .error fault => .error fault
        | .ok n =>
          if isWide delimiter then .error ⟨start, .splitCharacter⟩
          else .ok (some ⟨kind, letters + 1 + n + flags kind (u.drop n)⟩)

/-- A regular expression after its opening slash. -/
def regexp (start : Nat) (t : Text) : Except Fault Lexeme :=
  (Quoting.regexp start t).map fun n => ⟨.regexp, n + flags .regexp (t.drop n)⟩

end Token.Lexeme

end TablePack
