import TablePack.Packed.Flat
import TablePack.Packed.Planes

/-!
# Packed tables

A packed table is read by index, like the list of numbers that it stands for. The variants with a
fixed number of planes put their bytes together directly; the generic variant folds over its
planes.
-/

namespace TablePack

/-- A packed table of each variant. -/
inductive Packed where
  | array8 (planes : Planes)
  | array16 (planes : Planes)
  | array24 (planes : Planes)
  | array32 (planes : Planes)
  | array32Offset (flat : Flat 4)
  | array64Offset (flat : Flat 8)
  | arrayGeneric (planes : Planes)

namespace Packed

/-- Planes for a variant that takes `count` of them. -/
def fixedPlanes (variant : Variant) (count : Nat) (buffers : List (List UInt8)) :
    Except Malformed Planes :=
  if buffers.length = count then Planes.ofBuffers buffers
  else .error (.wrongPlaneCount variant count buffers.length)

/-- A flat buffer for a variant that takes one. -/
def singleFlat (variant : Variant) (stride : Nat) (buffers : List (List UInt8)) :
    Except Malformed (Flat stride) :=
  match buffers with
  | [buffer] => Flat.ofBuffer stride buffer
  | _ => .error (.bufferCount variant buffers.length)

/-- The packed table of a variant that the given buffers hold. -/
def ofBuffers (variant : Variant) (buffers : List (List UInt8)) : Except Malformed Packed :=
  match variant with
  | .array8 => (fixedPlanes variant 1 buffers).map array8
  | .array16 => (fixedPlanes variant 2 buffers).map array16
  | .array24 => (fixedPlanes variant 3 buffers).map array24
  | .array32 => (fixedPlanes variant 4 buffers).map array32
  | .array32Offset => (singleFlat variant 4 buffers).map array32Offset
  | .array64Offset => (singleFlat variant 8 buffers).map array64Offset
  | .arrayGeneric => (Planes.ofBuffers buffers).map arrayGeneric

/-- The variant of a packed table. -/
def variant : Packed → Variant
  | array8 _ => .array8
  | array16 _ => .array16
  | array24 _ => .array24
  | array32 _ => .array32
  | array32Offset _ => .array32Offset
  | array64Offset _ => .array64Offset
  | arrayGeneric _ => .arrayGeneric

/-- The number of elements. -/
def length : Packed → Nat
  | array8 p | array16 p | array24 p | array32 p | arrayGeneric p => p.length
  | array32Offset f => f.length
  | array64Offset f => f.length

/-- The word at index `i`, if there is one. -/
def word? (t : Packed) (i : Nat) : Option UInt64 :=
  match t with
  | array8 p => p.byte? 0 i
  | array16 p => do return (← p.byte? 0 i) <<< 8 ||| (← p.byte? 1 i)
  | array24 p => do return (← p.byte? 0 i) <<< 16 ||| (← p.byte? 1 i) <<< 8 ||| (← p.byte? 2 i)
  | array32 p => do
    return (← p.byte? 0 i) <<< 24 ||| (← p.byte? 1 i) <<< 16 ||| (← p.byte? 2 i) <<< 8
      ||| (← p.byte? 3 i)
  | array32Offset f => f.word? i
  | array64Offset f => f.word? i
  | arrayGeneric p => p.word? i

/-- The element at index `i`, if there is one. -/
def get? (t : Packed) (i : Nat) : Option Nat := (t.word? i).map UInt64.toNat

/-- All elements, in order. -/
def toList (t : Packed) : List Nat := (List.range t.length).filterMap t.get?

end Packed

end TablePack
