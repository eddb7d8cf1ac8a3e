import TablePack.Packed

/-!
# Encodings

A table is packed in the least number of bytes per element that holds its greatest one. The width
decides the variant: byte planes for most widths, and a flat buffer for words of four and of eight
bytes where flat buffers are wanted. More than eight bytes per element are not supported.
-/

namespace TablePack

/-- Why a list of numbers cannot be packed. -/
inductive EncodeError where
  | empty
  /-- The greatest number needs more than eight bytes. -/
  | oversize (max width : Nat)
deriving Repr, DecidableEq

/-- The wording of the error. -/
def EncodeError.message : EncodeError → String
  | empty => "cannot encode an empty table"
  | oversize max width =>
    "maximum value " ++ toString max ++ " needs " ++ toString width
      ++ " bytes; at most 8 are supported"

/-- The number of binary digits of a number; zero has none. -/
def bitLength (n : Nat) : Nat := if n = 0 then 0 else n.log2 + 1

/-- The number of bytes that a number needs, at least one. -/
def byteWidth (n : Nat) : Nat := max ((bitLength n + 7) / 8) 1

/-- The variant for elements of the given width. -/
def Variant.ofWidth (flat : Bool) : Nat → Variant
  | 1 => array8
  | 2 => array16
  | 3 => array24
  | 4 => if flat then array32Offset else array32
  | 8 => if flat then array64Offset else arrayGeneric
  | _ => arrayGeneric

/-- A list of numbers in packed form. -/
structure Encoding where
  variant : Variant
  /-- The number of bytes per element. -/
  width : Nat
  buffers : List (List UInt8)
deriving Repr, DecidableEq

namespace Encoding

/-- The byte of weight `256 ^ k` of a number. -/
def byteAt (k n : Nat) : UInt8 := (n >>> (8 * k)).toUInt8

/-- The byte planes of a list of numbers, the most significant one first. -/
def planes (width : Nat) (numbers : List Nat) : List (List UInt8) :=
  (List.range width).map fun k => numbers.map (byteAt (width - 1 - k))

/-- The numbers one after another, each with its least significant byte first. -/
def flat (width : Nat) (numbers : List Nat) : List UInt8 :=
  numbers.flatMap fun n => (List.range width).map fun k => byteAt k n

/-- The buffers of a variant for elements of the given width. -/
def buffersFor (variant : Variant) (width : Nat) (numbers : List Nat) : List (List UInt8) :=
  match variant.stride? with
  | some _ => [flat width numbers]
  | none => planes width numbers

/-- Packs a list of numbers. -/
def ofNumbers (flatOffsets : Bool) (numbers : List Nat) : Except EncodeError Encoding :=
  match numbers.max? with
  | none => .error .empty
  | some max =>
    let width := byteWidth max
    if 8 < width then .error (.oversize max width)
    else
      let variant := Variant.ofWidth flatOffsets width
      .ok ⟨variant, width, buffersFor variant width numbers⟩

/-- The number of bytes of all buffers. -/
def size (e : Encoding) : Nat := e.buffers.foldr (fun buffer n => buffer.length + n) 0

/-- The packed table that an encoding describes. -/
def unpack (e : Encoding) : Except Malformed Packed := Packed.ofBuffers e.variant e.buffers

end Encoding

end TablePack
