import TablePack.Checked

/-!
# Buffers

A buffer holds the bytes of a text. It is read by byte positions, which may fall inside a character;
only taking a part of the buffer as text looks at where characters start.

* `Byte` has the classes of bytes;
* `Buffer.text` is a part of the buffer as text, whose ends must not divide a character;
* `Buffer.eatWhile` passes over the bytes of a class;
* `Buffer.fail` reports a problem by its line and column.
-/

namespace TablePack

/-- The bytes of a text in UTF-8. -/
def Text.bytes (t : Text) : List UInt8 := t.flatMap String.utf8EncodeChar

/-- The byte of a character in ASCII. -/
def ascii (c : Char) : UInt8 := UInt8.ofNat c.toNat

/-! ## Classes of bytes -/

namespace Byte

/-- The bytes that separate tokens within a line. -/
def isBlank (b : UInt8) : Bool :=
  b == ascii ' ' || b == ascii '\t' || b == ascii '\r' || b == 0x0b || b == 0x0c

/-- White space, without the vertical tab. -/
def isSpace (b : UInt8) : Bool :=
  b == ascii ' ' || b == ascii '\t' || b == ascii '\n' || b == 0x0c || b == ascii '\r'

/-- A space or a tab. -/
def isIndent (b : UInt8) : Bool := b == ascii ' ' || b == ascii '\t'

def isDigit (b : UInt8) : Bool := ascii '0' ≤ b && b ≤ ascii '9'

def isUpper (b : UInt8) : Bool := ascii 'A' ≤ b && b ≤ ascii 'Z'

def isLower (b : UInt8) : Bool := ascii 'a' ≤ b && b ≤ ascii 'z'

def isAlphanum (b : UInt8) : Bool := isUpper b || isLower b || isDigit b

/-- The bytes that may start a name, all those outside ASCII among them. -/
def isNameStart (b : UInt8) : Bool := isUpper b || isLower b || b == ascii '_' || 0x80 ≤ b

/-- The bytes that may continue a name. -/
def isNameChar (b : UInt8) : Bool := isNameStart b || isDigit b

/-- Digits and the underscores between them. -/
def isDigitOrScore (b : UInt8) : Bool := isDigit b || b == ascii '_'

/-- The printed ASCII characters, without the space. -/
def isGraphic (b : UInt8) : Bool := 0x21 ≤ b && b ≤ 0x7e

/-- The bytes of a character after its first one. -/
def isContinuation (b : UInt8) : Bool := b &&& 0xc0 == 0x80

end Byte

/-- The bytes of a text, or of a part of it. -/
structure Buffer where
  bytes : Array UInt8
deriving Repr, DecidableEq

namespace Buffer

/-- The buffer of a text. -/
def ofText (t : Text) : Buffer := ⟨t.bytes.toArray⟩

/-- The number of bytes. -/
def size (src : Buffer) : Nat := src.bytes.size

/-! ## Parts -/

/-- The byte at a position, if there is one. -/
def get? (src : Buffer) (i : Nat) : Option UInt8 := src.bytes[i]?

/-- The byte at a position. -/
def byte (src : Buffer) (i : Nat) : Checked UInt8 := Checked.item src.bytes i

/-- The bytes from one position up to another. -/
def part (src : Buffer) (start stop : Nat) : Checked Buffer :=
  (Checked.part src.bytes start stop).map mk

/-- The bytes from a position on. -/
def tail (src : Buffer) (start : Nat) : Checked Buffer := (Checked.tail src.bytes start).map mk

/-- Whether a position lies between two characters. -/
def isBoundary (src : Buffer) (i : Nat) : Bool :=
  i == 0 || i == src.size || (src.get? i).any fun b => !Byte.isContinuation b

/-- The text of the bytes from one position up to another. -/
def text (src : Buffer) (start stop : Nat) : Checked Text := do
  let bytes ← Checked.part src.bytes start stop
  if src.isBoundary start && src.isBoundary stop then
    match String.fromUTF8? ⟨bytes⟩ with
    | some s => .ok s.toList
    | none => .error (.panic .boundary)
  else .error (.panic .boundary)

/-! ## Looking ahead -/

/-- Whether the bytes from a position on are those of a word. -/
def holdsAt (src : Buffer) (i : Nat) : List UInt8 → Bool
  | [] => true
  | b :: word => src.get? i == some b && holdsAt src (i + 1) word

/-- Whether a buffer starts with the bytes of a word. -/
def startsWith (src : Buffer) (word : Text) : Bool := src.holdsAt 0 word.bytes

/-- The number of bytes in a class that the buffer starts with. -/
def count (src : Buffer) (p : UInt8 → Bool) : Nat := (src.bytes.takeWhile p).size

/-- A line without the carriage return at its end, if it has one. -/
def withoutReturn (line : Buffer) : Buffer :=
  if line.bytes.back? = some (ascii '\r') then ⟨line.bytes.pop⟩ else line

/-- The position after the bytes in a class that stand at a position. -/
def eatWhile (src : Buffer) (p : UInt8 → Bool) (pos : Nat) : Checked Nat :=
  if pos < src.size then do
    let b ← src.byte pos
    if p b then eatWhile src p (pos + 1) else .ok pos
  else .ok pos
termination_by src.size - pos

theorem gives_eatWhile (src : Buffer) (p : UInt8 → Bool) (pos : Nat) :
    Checked.Gives (pos ≤ ·) (src.eatWhile p pos) := by
  fun_induction eatWhile src p pos with
  | case1 pos hlt ih =>
    refine (Checked.Gives.any _).bind fun b _ => ?_
    split
    · exact fun stop h => Nat.le_of_succ_le (ih stop h)
    · exact .ok (Nat.le_refl _)
  | case2 pos hge => exact .ok (Nat.le_refl _)

/-- A byte of the class is passed over. -/
theorem gives_eatWhile_of_byte {src : Buffer} {p : UInt8 → Bool} {pos : Nat} {b : UInt8}
    (hb : src.byte pos = .ok b) (hp : p b) : Checked.Gives (pos < ·) (src.eatWhile p pos) := by
  rw [eatWhile]
  split
  · rw [hb]
    change Checked.Gives _ (if p b then src.eatWhile p (pos + 1) else .ok pos)
    rw [if_pos hp]
    exact src.gives_eatWhile p (pos + 1)
  · rename_i hge
    rw [byte, Checked.item, Array.getElem?_eq_none (Nat.le_of_not_lt hge)] at hb
    cases hb

/-! ## Problems -/

/-- The positions at which lines start. -/
def lineStarts (src : Buffer) : Array Nat :=
  #[0] ++ (src.bytes.zipIdx.filter fun entry => entry.1 == ascii '\n').map fun entry => entry.2 + 1

/-- The line and the column of a position. -/
def position (src : Buffer) (offset : Nat) : Checked Position := do
  let starts := src.lineStarts
  let line := bisect (fun k => starts[k]?.any (· ≤ offset)) 0 starts.size
  let above ← Checked.minus line 1
  let start ← Checked.item starts above
  let column ← Checked.minus offset start
  return ⟨line, column⟩

/-- Reports a problem at a position. -/
def fail {α : Type} (src : Buffer) (offset : Nat) (problem : Problem) : Checked α := do
  let position ← src.position offset
  .error (.error (.invalidSource position problem))

theorem gives_fail {α : Type} {P : α → Prop} (src : Buffer) (offset : Nat) (problem : Problem) :
    Checked.Gives P (src.fail offset problem) :=
  (Checked.Gives.any _).bind fun _ _ => .error _

end Buffer

end TablePack
