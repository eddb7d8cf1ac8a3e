import TablePack.Text.Class

/-!
# Heredocs

A heredoc is announced by `<<` and a name, and its body starts on the next line. The body ends with
the line that holds the name alone, indented if the announcement allows it.
-/

namespace TablePack

/-- A heredoc that is announced and whose body is still to come. -/
structure Heredoc where
  /-- The word that ends the body. -/
  name : Text
  /-- Whether the last line of the body may be indented. -/
  indented : Bool
  /-- The byte offset of the announcement. -/
  start : Nat
deriving Repr, DecidableEq

namespace Heredoc

open Text (isNameStart isNameChar isIndent)

/-- The name at the start of an announcement, after the angles and the mark, and the number of
characters that it takes with its quotes. -/
def name? : Text → Option (Text × Nat)
  | [] => none
  | q :: t =>
    if q = '\'' || q = '"' || q = '`' then
      let name := t.takeWhile fun c => c != q && c != '\n'
      if !name.isEmpty && (t.drop name.length).head? == some q then some (name, name.length + 2)
      else none
    else if isNameStart q then
      let name := (q :: t).takeWhile isNameChar
      some (name, name.length)
    else none

/-- The heredoc announced at byte `start`, where the text after the first angle is `t`; and the
number of characters of the announcement after that angle. -/
def announced? (start : Nat) : Text → Option (Heredoc × Nat)
  | '<' :: t =>
    let indented := t.head?.any fun c => c == '~' || c == '-'
    let mark := if indented then 1 else 0
    (name? (t.drop mark)).map fun found => (⟨found.1, indented, start⟩, 1 + mark + found.2)
  | _ => none

/-- Whether a line ends the body. -/
def endsAt (doc : Heredoc) (line : Text) : Bool :=
  let l := Text.withoutReturn line
  (if doc.indented then l.dropWhile isIndent else l) == doc.name

/-- The number of characters of a body at the start of the text, up to the end of its last line.
The newline of that line is counted even where the text ends without it. There is no number when no
line ends the body. -/
def bodyLength? (doc : Heredoc) : Text → Option Nat
  | [] => none
  | c :: t =>
    let n := (Text.line (c :: t)).length + 1
    if doc.endsAt (Text.line (c :: t)) then some n
    else (bodyLength? doc (Text.afterLine (c :: t))).map (n + ·)
termination_by t => t.length
decreasing_by exact Text.length_afterLine_lt (List.cons_ne_nil c t)

/-- The number of characters of several bodies, one after another, or the first heredoc whose body
does not end. -/
def bodiesLength : List Heredoc → Text → Except Heredoc Nat
  | [], _ => .ok 0
  | doc :: docs, t =>
    match doc.bodyLength? t with
    | none => .error doc
    | some n => (bodiesLength docs (t.drop n)).map (n + ·)

end Heredoc

end TablePack
