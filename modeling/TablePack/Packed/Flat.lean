import TablePack.Packed.Variant

/-!
# Flat buffers

A flat buffer holds the elements of a table one after another, each in the same number of bytes,
the least significant byte first.
-/

namespace TablePack

/-- A buffer of words of `stride` bytes. -/
structure Flat (stride : Nat) where
  bytes : Array UInt8
  whole : stride ∣ bytes.size

namespace Flat

variable {stride : Nat}

/-- The words in the given buffer. -/
def ofBuffer (stride : Nat) (buffer : List UInt8) : Except Malformed (Flat stride) :=
  if h : stride ∣ buffer.length then .ok ⟨buffer.toArray, by simpa using h⟩
  else .error (.partialWord buffer.length stride)

/-- The number of elements. -/
def length (f : Flat stride) : Nat := f.bytes.size / stride

/-- The word that some bytes spell, the least significant one first. -/
def ofBytes (bytes : List UInt8) : UInt64 :=
  bytes.foldr (fun b word => word <<< 8 ||| b.toUInt64) 0

/-- The word at index `i`, if all of its bytes are there. Arithmetic is assumed to be checked for
overflow: an offset that no machine word holds has no word here, where a build without these checks
wraps around and may read one from the buffer. -/
def word? (f : Flat stride) (i : Nat) : Option UInt64 :=
  let first := i * stride
  if first + stride ≤ f.bytes.size then
    some (ofBytes (f.bytes.extract first (first + stride)).toList)
  else none

/-- The element at index `i`, if there is one. -/
def get? (f : Flat stride) (i : Nat) : Option Nat := (f.word? i).map UInt64.toNat

end Flat

end TablePack
