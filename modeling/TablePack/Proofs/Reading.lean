import Mathlib.Algebra.BigOperators.Intervals
import Mathlib.Tactic
import TablePack.Proofs.Codec

/-!
# Reading packed tables

Which buffers a variant takes, and what is read from them. `Variant.Takes` says of each variant how
many buffers it needs and how long they are. The elements are compared with sums over the bytes in
the buffers, each byte with the weight of its place (`byteOf`).

In between stand the bytes of one element in the order of their weights (`Variant.bytesAt`), which
are a column of the planes or a stretch of the flat buffer. That no index past the end has an
element rests on checked arithmetic (`Flat.word?`).

* `Packed.exists_ofBuffers_iff`: the buffers that make a packed table;
* `Packed.get?_of_ofBuffers`: the element at an index, by its bytes;
* `Packed.ofBuffers_exact`: both, with the elements as sums.
-/

namespace TablePack

open Finset (range)

/-! ## Buffers of a variant -/

/-- From `low` to `high` buffers, all of the same length. -/
def EvenBuffers (low high : ℕ) (buffers : List (List UInt8)) : Prop :=
  low ≤ buffers.length ∧ buffers.length ≤ high ∧
    ∀ a ∈ buffers, ∀ b ∈ buffers, a.length = b.length

/-- One buffer that holds whole words of `stride` bytes. -/
def WordBuffer (stride : ℕ) (buffers : List (List UInt8)) : Prop :=
  ∃ buffer, buffers = [buffer] ∧ stride ∣ buffer.length

/-- The buffers that make a packed table of a variant. -/
def Variant.Takes : Variant → List (List UInt8) → Prop
  | array8 => EvenBuffers 1 1
  | array16 => EvenBuffers 2 2
  | array24 => EvenBuffers 3 3
  | array32 => EvenBuffers 4 4
  | array32Offset => WordBuffer 4
  | array64Offset => WordBuffer 8
  | arrayGeneric => EvenBuffers 1 8

lemma Variant.takes_iff_of_planes {variant : Variant} (hvariant : variant.stride? = none)
    {buffers : List (List UInt8)} :
    variant.Takes buffers ↔
      (∀ count ∈ variant.planeCount?, buffers.length = count) ∧ EvenBuffers 1 8 buffers := by
  cases variant with
  | arrayGeneric => simp [Takes, planeCount?]
  | array32Offset => cases hvariant
  | array64Offset => cases hvariant
  | _ =>
    simp only [Takes, planeCount?, EvenBuffers, Option.mem_some, forall_eq']
    grind

lemma Variant.takes_iff_of_flat {variant : Variant} {stride : ℕ}
    (hvariant : variant.stride? = some stride) {buffers : List (List UInt8)} :
    variant.Takes buffers ↔ WordBuffer stride buffers := by
  cases variant <;> cases hvariant <;> rfl

lemma Planes.exists_ofBuffers_iff {buffers : List (List UInt8)} :
    (∃ p, ofBuffers buffers = .ok p) ↔ EvenBuffers 1 8 buffers := by
  constructor
  · rintro ⟨p, hp⟩
    obtain ⟨-, hpos, hle, hlen⟩ := ofBuffers_eq_ok hp
    exact ⟨hpos, hle, fun a ha b hb => (hlen a ha).trans (hlen b hb).symm⟩
  · rintro ⟨hpos, hle, hlen⟩
    obtain ⟨buffer, hbuffer⟩ := List.exists_mem_of_length_pos hpos
    obtain ⟨p, hp, -⟩ := exists_ofBuffers hpos hle fun a ha => hlen a ha buffer hbuffer
    exact ⟨p, hp⟩

lemma Flat.ofBuffer_eq_ok {stride : ℕ} {buffer : List UInt8} {f : Flat stride}
    (h : ofBuffer stride buffer = .ok f) : f.bytes = buffer.toArray ∧ stride ∣ buffer.length := by
  unfold ofBuffer at h
  split_ifs at h with hwhole
  cases h
  exact ⟨rfl, hwhole⟩

namespace Packed

lemma exists_of_map_eq_ok {α : Type} {x : Except Malformed α} {f : α → Packed} {t : Packed}
    (h : x.map f = .ok t) : ∃ a, x = .ok a := by
  cases x with
  | error e => cases h
  | ok a => exact ⟨a, rfl⟩

lemma fixedPlanes_eq_ok {variant : Variant} {count : ℕ} {buffers : List (List UInt8)} {p : Planes}
    (h : fixedPlanes variant count buffers = .ok p) :
    buffers.length = count ∧ Planes.ofBuffers buffers = .ok p := by
  unfold fixedPlanes at h
  split_ifs at h with hcount
  exact ⟨hcount, h⟩

/-- What a packed table in byte planes was made from, and how it is read. -/
lemma planes_of_ofBuffers {variant : Variant} {buffers : List (List UInt8)} {t : Packed}
    (hvariant : variant.stride? = none) (h : ofBuffers variant buffers = .ok t) :
    (∀ count ∈ variant.planeCount?, buffers.length = count) ∧
      ∃ p, Planes.ofBuffers buffers = .ok p ∧ t.Reads variant p.length p.word? := by
  obtain ⟨hcount, p, hp⟩ : (∀ count ∈ variant.planeCount?, buffers.length = count) ∧
      ∃ p, Planes.ofBuffers buffers = .ok p := by
    cases variant with
    | arrayGeneric => exact ⟨by simp [Variant.planeCount?], exists_of_map_eq_ok h⟩
    | array32Offset => cases hvariant
    | array64Offset => cases hvariant
    | _ =>
      obtain ⟨p, hp⟩ := exists_of_map_eq_ok h
      obtain ⟨hcount, hp⟩ := fixedPlanes_eq_ok hp
      exact ⟨by simpa [Variant.planeCount?] using hcount, p, hp⟩
  obtain ⟨t', ht', hreads⟩ := ofBuffers_of_planes hvariant hcount hp
  obtain rfl := Except.ok.inj (h.symm.trans ht')
  exact ⟨hcount, p, hp, hreads⟩

/-- What a flat packed table was made from, and how it is read. -/
lemma flat_of_ofBuffers {variant : Variant} {stride : ℕ} {buffers : List (List UInt8)} {t : Packed}
    (hvariant : variant.stride? = some stride) (h : ofBuffers variant buffers = .ok t) :
    ∃ (buffer : List UInt8) (f : Flat stride), buffers = [buffer] ∧
      Flat.ofBuffer stride buffer = .ok f ∧ t.Reads variant f.length f.word? := by
  obtain ⟨f, hf⟩ : ∃ f, singleFlat variant stride buffers = .ok f := by
    cases variant <;> cases hvariant <;> exact exists_of_map_eq_ok h
  unfold singleFlat at hf
  split at hf
  · rename_i buffer
    obtain ⟨t', ht', hreads⟩ := ofBuffers_of_flat hvariant hf
    obtain rfl := Except.ok.inj (h.symm.trans ht')
    exact ⟨buffer, f, rfl, hf, hreads⟩
  · cases hf

lemma exists_ofBuffers_iff {variant : Variant} {buffers : List (List UInt8)} :
    (∃ t, ofBuffers variant buffers = .ok t) ↔ variant.Takes buffers := by
  cases hvariant : variant.stride? with
  | none =>
    rw [Variant.takes_iff_of_planes hvariant, ← Planes.exists_ofBuffers_iff]
    constructor
    · rintro ⟨t, ht⟩
      obtain ⟨hcount, p, hp, -⟩ := planes_of_ofBuffers hvariant ht
      exact ⟨hcount, p, hp⟩
    · rintro ⟨hcount, p, hp⟩
      obtain ⟨t, ht, -⟩ := ofBuffers_of_planes hvariant hcount hp
      exact ⟨t, ht⟩
  | some stride =>
    rw [Variant.takes_iff_of_flat hvariant]
    constructor
    · rintro ⟨t, ht⟩
      obtain ⟨buffer, f, hbuffer, hf, -⟩ := flat_of_ofBuffers hvariant ht
      exact ⟨buffer, hbuffer, (Flat.ofBuffer_eq_ok hf).2⟩
    · rintro ⟨buffer, rfl, hwhole⟩
      obtain ⟨t, ht, -⟩ := ofBuffers_of_flat hvariant (dif_pos hwhole)
      exact ⟨t, ht⟩

end Packed

/-! ## Bytes of an element -/

/-- The byte at index `i` of buffer `k`. -/
def byteOf (buffers : List (List UInt8)) (k i : ℕ) : ℕ := ((buffers.getD k []).getD i 0).toNat

namespace Variant

/-- The number of bytes per element: one in each plane, or those of a word. -/
def bytesPer (variant : Variant) (buffers : List (List UInt8)) : ℕ :=
  variant.stride?.getD buffers.length

/-- The bytes of element `i`, the least significant one first. -/
def bytesAt (variant : Variant) (buffers : List (List UInt8)) (i : ℕ) : List UInt8 :=
  match variant.stride? with
  | none => (buffers.map fun buffer => buffer.getD i 0).reverse
  | some stride => ((buffers.headD []).drop (i * stride)).take stride

lemma bytesAt_of_planes {variant : Variant} (hvariant : variant.stride? = none)
    (buffers : List (List UInt8)) (i : ℕ) :
    variant.bytesAt buffers i = (buffers.map fun buffer => buffer.getD i 0).reverse := by
  rw [bytesAt, hvariant]

lemma bytesAt_of_flat {variant : Variant} {stride : ℕ} (hvariant : variant.stride? = some stride)
    (buffer : List UInt8) (i : ℕ) :
    variant.bytesAt [buffer] i = (buffer.drop (i * stride)).take stride := by
  rw [bytesAt, hvariant]
  rfl

lemma stride_bounds {variant : Variant} {stride : ℕ} (hvariant : variant.stride? = some stride) :
    1 ≤ stride ∧ stride ≤ 8 := by
  cases variant <;> cases hvariant <;> exact ⟨by norm_num, by norm_num⟩

end Variant

namespace Packed

variable {variant : Variant} {buffers : List (List UInt8)} {t : Packed}

/-- How long the buffers of a packed table are. -/
lemma length_of_ofBuffers (h : ofBuffers variant buffers = .ok t) :
    (variant.stride? = none → ∀ buffer ∈ buffers, buffer.length = t.length) ∧
      ∀ stride, variant.stride? = some stride →
        ∃ buffer, buffers = [buffer] ∧ buffer.length = t.length * stride := by
  refine ⟨fun hvariant => ?_, fun stride hvariant => ?_⟩
  · obtain ⟨-, p, hp, hreads⟩ := planes_of_ofBuffers hvariant h
    rw [hreads.length_eq]
    exact (Planes.ofBuffers_eq_ok hp).2.2.2
  · obtain ⟨buffer, f, rfl, hf, hreads⟩ := flat_of_ofBuffers hvariant h
    obtain ⟨hbytes, hwhole⟩ := Flat.ofBuffer_eq_ok hf
    refine ⟨buffer, rfl, ?_⟩
    rw [hreads.length_eq, Flat.length, hbytes, List.size_toArray, Nat.div_mul_cancel hwhole]

/-- An index has an element exactly if it is below the length, and its bytes spell the element. -/
lemma get?_of_ofBuffers (h : ofBuffers variant buffers = .ok t) (i : ℕ) :
    t.get? i = if i < t.length then
      some (Nat.ofDigits 256 ((variant.bytesAt buffers i).map UInt8.toNat)) else none := by
  cases hvariant : variant.stride? with
  | none =>
    obtain ⟨-, p, hp, hreads⟩ := planes_of_ofBuffers hvariant h
    rw [get?, hreads.word?_eq, hreads.length_eq, Variant.bytesAt_of_planes hvariant,
      List.map_reverse, List.map_map]
    refine (p.get?_eq i).trans ?_
    rw [(Planes.ofBuffers_eq_ok hp).1, List.map_map]
    simp [Function.comp_def]
  | some stride =>
    obtain ⟨buffer, f, rfl, hf, hreads⟩ := flat_of_ofBuffers hvariant h
    obtain ⟨hpos, hle⟩ := Variant.stride_bounds hvariant
    rw [get?, hreads.word?_eq, hreads.length_eq, Variant.bytesAt_of_flat hvariant]
    refine (f.get?_eq hpos hle i).trans ?_
    rw [(Flat.ofBuffer_eq_ok hf).1]

lemma length_bytesAt (h : ofBuffers variant buffers = .ok t) {i : ℕ} (hi : i < t.length) :
    (variant.bytesAt buffers i).length = variant.bytesPer buffers := by
  cases hvariant : variant.stride? with
  | none => simp [Variant.bytesAt_of_planes hvariant, Variant.bytesPer, hvariant]
  | some stride =>
    obtain ⟨buffer, rfl, hlen⟩ := (length_of_ofBuffers h).2 stride hvariant
    have hroom : (i + 1) * stride ≤ t.length * stride := Nat.mul_le_mul_right stride hi
    rw [Variant.bytesAt_of_flat hvariant, Variant.bytesPer, hvariant, List.length_take,
      List.length_drop, hlen, Option.getD_some]
    rw [Nat.succ_mul] at hroom
    omega

/-! ## Elements as sums -/

lemma ofDigits_eq_sum (base : ℕ) (digits : List ℕ) :
    Nat.ofDigits base digits = ∑ j ∈ range digits.length, digits.getD j 0 * base ^ j := by
  induction digits with
  | nil => rfl
  | cons d digits ih =>
    rw [Nat.ofDigits_cons, ih, List.length_cons, Finset.sum_range_succ', Finset.mul_sum]
    simp only [List.getD_cons_zero, List.getD_cons_succ, pow_succ', pow_zero, mul_one]
    rw [add_comm]
    refine congrArg (· + d) (Finset.sum_congr rfl fun j _ => ?_)
    ring

/-- A packed table in byte planes: the planes have one byte for each element, each element is the
sum of its bytes, the first one of the greatest weight, and the reader for any number of planes
reads the same. -/
structure ReadsPlanes (t : Packed) (buffers : List (List UInt8)) : Prop where
  length_eq : ∀ buffer ∈ buffers, buffer.length = t.length
  get?_eq : ∀ i < t.length, t.get? i = some
    (∑ k ∈ range buffers.length, byteOf buffers k i * 256 ^ (buffers.length - 1 - k))
  generic : ∃ p, Planes.ofBuffers buffers = .ok p ∧ ∀ i, t.get? i = p.get? i

/-- A flat packed table: the buffer has one word for each element, and each element is the sum of
the bytes of its word, the first one of the least weight. -/
structure ReadsWords (t : Packed) (stride : ℕ) (buffers : List (List UInt8)) : Prop where
  length_eq : ∃ buffer, buffers = [buffer] ∧ buffer.length = t.length * stride
  get?_eq : ∀ i < t.length, t.get? i = some
    (∑ j ∈ range stride, byteOf buffers 0 (i * stride + j) * 256 ^ j)

lemma readsPlanes_of_ofBuffers (hvariant : variant.stride? = none)
    (h : ofBuffers variant buffers = .ok t) : t.ReadsPlanes buffers := by
  obtain ⟨-, p, hp, hreads⟩ := planes_of_ofBuffers hvariant h
  refine ⟨(length_of_ofBuffers h).1 hvariant, fun i hi => ?_, p, hp, fun i => ?_⟩
  · rw [get?_of_ofBuffers h, if_pos hi, Variant.bytesAt_of_planes hvariant, ofDigits_eq_sum,
      ← Finset.sum_range_reflect]
    simp only [List.length_map, List.length_reverse]
    refine congrArg some (Finset.sum_congr rfl fun k hk => ?_)
    have hk : k < buffers.length := Finset.mem_range.1 hk
    -- read backwards, the byte of this weight stands in plane `k`
    have hplane : buffers.length - 1 - (buffers.length - 1 - k) = k := by omega
    simp [byteOf, List.getD_eq_getElem?_getD, hk, hplane,
      show buffers.length - 1 - k < buffers.length by omega]
  · rw [get?, hreads.word?_eq]
    rfl

lemma readsWords_of_ofBuffers {stride : ℕ} (hvariant : variant.stride? = some stride)
    (h : ofBuffers variant buffers = .ok t) : t.ReadsWords stride buffers := by
  refine ⟨(length_of_ofBuffers h).2 stride hvariant, fun i hi => ?_⟩
  have hlength := length_bytesAt h hi
  obtain ⟨buffer, rfl, hlen⟩ := (length_of_ofBuffers h).2 stride hvariant
  rw [Variant.bytesPer, hvariant, Option.getD_some] at hlength
  rw [get?_of_ofBuffers h, if_pos hi, ofDigits_eq_sum, List.length_map, hlength,
    Variant.bytesAt_of_flat hvariant]
  refine congrArg some (Finset.sum_congr rfl fun j hj => ?_)
  have hj : j < stride := Finset.mem_range.1 hj
  rw [byteOf, List.getD_cons_zero, List.getD_eq_getElem?_getD, List.getD_eq_getElem?_getD,
    List.getElem?_map, List.getElem?_take_of_lt hj, List.getElem?_drop]
  cases buffer[i * stride + j]? <;> rfl

/-- Buffers make a packed table exactly if they are as many and as long as the variant asks for. An
index has an element exactly if it is below the length of the table, and the element is the sum of
its bytes in the buffers, each with the weight of its place. All variants in byte planes are read
as the generic one is. -/
theorem ofBuffers_exact (variant : Variant) (buffers : List (List UInt8)) :
    ((∃ t, ofBuffers variant buffers = .ok t) ↔ variant.Takes buffers) ∧
    ∀ t, ofBuffers variant buffers = .ok t →
      t.variant = variant ∧ (∀ i, t.get? i = none ↔ t.length ≤ i) ∧
      (variant.stride? = none → t.ReadsPlanes buffers) ∧
      ∀ stride, variant.stride? = some stride → t.ReadsWords stride buffers := by
  refine ⟨exists_ofBuffers_iff, fun t ht => ⟨?_, fun i => ?_,
    fun hvariant => readsPlanes_of_ofBuffers hvariant ht,
    fun stride hvariant => readsWords_of_ofBuffers hvariant ht⟩⟩
  · cases hvariant : variant.stride? with
    | none =>
      obtain ⟨-, p, -, hreads⟩ := planes_of_ofBuffers hvariant ht
      exact hreads.variant_eq
    | some stride =>
      obtain ⟨buffer, f, -, -, hreads⟩ := flat_of_ofBuffers hvariant ht
      exact hreads.variant_eq
  · rw [get?_of_ofBuffers ht]
    split_ifs with hi
    · simpa using hi
    · simpa using hi

/-- Eight full planes lose no bits, and an index whose first byte would stand past all words has no
element. -/
theorem ofBuffers_exact_full :
    (∃ t, ofBuffers .arrayGeneric (List.replicate 8 [255]) = .ok t ∧
      t.get? 0 = some (2 ^ 64 - 1)) ∧
    ∃ t, ofBuffers .array32Offset [[1, 2, 3, 4]] = .ok t ∧ t.get? 0 = some 0x04030201 ∧
      t.get? (2 ^ 62) = none := by
  obtain ⟨htakes, hreads⟩ := ofBuffers_exact .arrayGeneric (List.replicate 8 [255])
  obtain ⟨t, ht⟩ := htakes.2 ⟨by decide, by decide, by decide⟩
  obtain ⟨htakes', hreads'⟩ := ofBuffers_exact .array32Offset [[1, 2, 3, 4]]
  obtain ⟨t', ht'⟩ := htakes'.2 ⟨_, rfl, by decide⟩
  obtain ⟨-, -, hplanes, -⟩ := hreads t ht
  obtain ⟨-, hnone, -, hwords⟩ := hreads' t' ht'
  have hplanes := hplanes rfl
  have hwords := hwords 4 rfl
  have hlength : t.length = 1 := (hplanes.length_eq [255] (by simp)).symm
  have hlength' : t'.length = 1 := by
    obtain ⟨buffer, hbuffer, hlen⟩ := hwords.length_eq
    cases hbuffer
    simp at hlen
    omega
  refine ⟨⟨t, ht, ?_⟩, t', ht', ?_, (hnone _).2 (by omega)⟩
  · rw [hplanes.get?_eq 0 (by omega)]
    decide
  · rw [hwords.get?_eq 0 (by omega)]
    decide

end Packed

end TablePack
