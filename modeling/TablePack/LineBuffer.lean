import TablePack.Text.Position

/-!
# Line buffers

A text cut into lines, to be edited by line and column. A carriage return stays at the end of its
line. An edit replaces all between two positions, so the lines it touches become one.
-/

namespace TablePack

/-- A replacement of the text between two positions. -/
structure Edit where
  start : Position
  stop : Position
  text : Text
deriving Repr, DecidableEq

/-- A text in lines. -/
structure LineBuffer where
  lines : List Text
  /-- What ends the last line: the newline of the text if it had one, and otherwise the ending that
  most of its lines have. -/
  ending : Text
deriving Repr, DecidableEq

namespace LineBuffer

/-- The number of lines that end with a carriage return and a newline. -/
def returnCount (source : Text) : Nat :=
  (Text.lines source).dropLast.countP fun l => l.getLast? == some '\r'

/-- The ending that most lines of a text have; a bare newline where it is a draw. -/
def commonEnding (source : Text) : Text :=
  if source.count '\n' - returnCount source < returnCount source then ['\r', '\n'] else ['\n']

/-- The lines of a text. A newline at its end starts no further line. -/
def ofText (source : Text) : LineBuffer :=
  if source.getLast? = some '\n' then ⟨Text.lines source.dropLast, ['\n']⟩
  else ⟨Text.lines source, commonEnding source⟩

/-- The number of lines. -/
def lineCount (b : LineBuffer) : Nat := b.lines.length

/-- The difference of two numbers, if it does not go below zero. Arithmetic is assumed to be checked
for overflow, and a build without these checks, where the difference wraps around, is not
modelled. -/
def minus? (n k : Nat) : Option Nat := if k ≤ n then some (n - k) else none

/-- The lines from index `first` up to index `stop`, which is not included. -/
def between? (lines : List Text) (first stop : Nat) : Option (List Text) :=
  if first ≤ stop ∧ stop ≤ lines.length then some ((lines.take stop).drop first) else none

/-- The number of bytes of lines, each with a newline. -/
def terminatedSize (lines : List Text) : Nat := lines.foldr (fun l n => Text.size l + 1 + n) 0

/-- The number of bytes that an edit removes from the lines it touches, which are all but those
before its start in the first line and those after its stop in the last one. -/
def removed? (e : Edit) (touched : List Text) (last : Text) : Option Nat := do
  let whole ← minus? (terminatedSize touched) 1
  let behind ← minus? whole e.start.column
  let kept ← minus? (Text.size last) e.stop.column
  minus? behind kept

/-- Makes an edit, and counts the bytes that it removes. There is no result where a line is missing,
a column lies outside its line or inside a character, or a count goes below zero. -/
def replace? (b : LineBuffer) (e : Edit) : Option (Nat × LineBuffer) := do
  let start ← minus? e.start.line 1
  let stop ← minus? e.stop.line 1
  let first ← b.lines[start]?
  let last ← b.lines[stop]?
  let touched ← between? b.lines start e.stop.line
  let removed ← removed? e touched last
  let before ← (Text.cut? e.start.column first).map (·.1)
  let after ← (Text.cut? e.stop.column last).map (·.2)
  let line := before ++ e.text ++ after
  some (removed, { b with lines := b.lines.take start ++ line :: b.lines.drop e.stop.line })

/-- The text of a buffer. It ends with a newline. -/
def toText (b : LineBuffer) : Text := ['\n'].intercalate b.lines ++ b.ending

end LineBuffer

end TablePack
