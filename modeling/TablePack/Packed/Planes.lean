import TablePack.Packed.Variant

/-!
# Byte planes

A table in byte planes keeps the bytes of equal weight together: the first plane holds the most
significant byte of every element, the last plane the least significant one. Read across the planes
at one index, the bytes spell the element.
-/

namespace TablePack

/-- One to eight planes of equal size, the most significant one first. -/
structure Planes where
  rows : List (Array UInt8)
  /-- The number of elements. -/
  length : Nat
  count_bounds : 1 ≤ rows.length ∧ rows.length ≤ 8
  size_row : ∀ row ∈ rows, row.size = length

namespace Planes

/-- The planes in the given buffers. -/
def ofBuffers (buffers : List (List UInt8)) : Except Malformed Planes :=
  if hn : 1 ≤ buffers.length ∧ buffers.length ≤ 8 then
    let length := (buffers.headD []).length
    match hk : buffers.findIdx? (·.length != length) with
    | some k => .error (.unevenPlane k (buffers[k]?.getD []).length length)
    | none =>
      .ok
        { rows := buffers.map List.toArray
          length := length
          count_bounds := by simpa using hn
          size_row := by
            intro row hrow
            obtain ⟨buffer, hbuffer, rfl⟩ := List.mem_map.1 hrow
            simpa using List.findIdx?_eq_none_iff.1 hk buffer hbuffer }
  else .error (.planeCount buffers.length)

/-- The byte of element `i` in plane `k`, if there is one. -/
def byte? (p : Planes) (k i : Nat) : Option UInt64 := do
  let row ← p.rows[k]?
  let b ← row[i]?
  return b.toUInt64

/-- The word at index `i`, if every plane has a byte there. -/
def word? (p : Planes) (i : Nat) : Option UInt64 :=
  p.rows.foldlM (fun word row => row[i]?.map (word <<< 8 ||| ·.toUInt64)) 0

/-- The element at index `i`, if there is one. -/
def get? (p : Planes) (i : Nat) : Option Nat := (p.word? i).map UInt64.toNat

end Planes

end TablePack
