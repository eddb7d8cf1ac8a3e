import Mathlib.Tactic
import TablePack.Proofs.Reading
import TablePack.Proofs.Width

/-!
# Canonical buffers

The elements of any packed table can be packed again. They then take at most as many bytes each as
before, and fewer exactly if the most significant byte of every element is zero. Since the bytes of
an element are its digits in base 256, packing with the old width writes the old buffers.

* `Packed.toList_of_ofBuffers`: the elements of a packed table, by their bytes;
* `Packed.buffersFor_toList`: the buffers of the elements;
* `Encoding.ofNumbers_toList`: which buffers come back.
-/

namespace TablePack

/-! ## Digits -/

/-- The bytes of a number are the ones that spell it. -/
lemma Encoding.byteAt_ofDigits {bytes : List UInt8} {k : ℕ} (hk : k < bytes.length) :
    byteAt k (Nat.ofDigits 256 (bytes.map UInt8.toNat)) = bytes[k] := by
  have hdigits : ∀ d ∈ bytes.map UInt8.toNat, d < 256 := by
    simpa using fun b _ => UInt8.toNat_lt b
  have hdrop : (bytes.map UInt8.toNat).drop k
      = bytes[k].toNat :: (bytes.map UInt8.toNat).drop (k + 1) := by
    rw [List.drop_eq_getElem_cons (by simpa using hk), List.getElem_map]
  rw [← UInt8.toNat_inj, toNat_byteAt, Nat.ofDigits_div_pow_eq_ofDigits_drop k (by norm_num) _
    hdigits, hdrop, Nat.ofDigits_cons, Nat.add_mul_mod_self_left, Nat.mod_eq_of_lt]
  exact UInt8.toNat_lt _

/-- A number needs all of its bytes exactly if the last one, of the greatest weight, is not
zero. -/
lemma pow_le_ofDigits_iff {bytes : List UInt8} (hne : bytes ≠ []) :
    256 ^ (bytes.length - 1) ≤ Nat.ofDigits 256 (bytes.map UInt8.toNat) ↔
      (bytes.getD (bytes.length - 1) 0).toNat ≠ 0 := by
  obtain ⟨lower, top, rfl⟩ := (List.eq_nil_or_concat bytes).resolve_left hne
  have hlower := ofDigits_toNat_lt lower
  have htop : ((lower ++ [top]).getD lower.length 0).toNat = top.toNat := by simp
  rw [List.concat_eq_append, List.length_append, List.length_singleton, Nat.add_sub_cancel, htop,
    List.map_append, Nat.ofDigits_append, List.length_map, List.map_singleton,
    Nat.ofDigits_singleton]
  constructor
  · intro hle hzero
    rw [hzero] at hle
    omega
  · intro hzero
    have hmul := Nat.mul_le_mul_left (256 ^ lower.length) (Nat.one_le_iff_ne_zero.2 hzero)
    omega

/-! ## Elements and their bytes -/

namespace Variant

/-- The most significant byte of element `i`: in the first plane, or at the end of the word. -/
def leadingByte (variant : Variant) (buffers : List (List UInt8)) (i : ℕ) : ℕ :=
  match variant.stride? with
  | none => byteOf buffers 0 i
  | some stride => byteOf buffers 0 (i * stride + (stride - 1))

lemma leadingByte_of_planes {variant : Variant} (hvariant : variant.stride? = none)
    (buffers : List (List UInt8)) (i : ℕ) :
    variant.leadingByte buffers i = byteOf buffers 0 i := by
  rw [leadingByte, hvariant]

lemma leadingByte_of_flat {variant : Variant} {stride : ℕ}
    (hvariant : variant.stride? = some stride) (buffers : List (List UInt8)) (i : ℕ) :
    variant.leadingByte buffers i = byteOf buffers 0 (i * stride + (stride - 1)) := by
  rw [leadingByte, hvariant]

/-- The variants that stand for elements of a width, with words for four and eight bytes if
`flat` holds. -/
inductive StandsFor (flat : Bool) : ℕ → Variant → Prop
  | one : StandsFor flat 1 array8
  | two : StandsFor flat 2 array16
  | three : StandsFor flat 3 array24
  | fourPlanes : flat = false → StandsFor flat 4 array32
  | fourWords : flat = true → StandsFor flat 4 array32Offset
  | planes {width : ℕ} : 5 ≤ width → width ≤ 7 → StandsFor flat width arrayGeneric
  | eightPlanes : flat = false → StandsFor flat 8 arrayGeneric
  | eightWords : flat = true → StandsFor flat 8 array64Offset

lemma standsFor_iff {flat : Bool} {width : ℕ} {variant : Variant} (hpos : 1 ≤ width)
    (hle : width ≤ 8) : StandsFor flat width variant ↔ variant = ofWidth flat width := by
  constructor
  · rintro (_ | _ | _ | rfl | rfl | ⟨hlow, hhigh⟩ | rfl | rfl)
    case planes => interval_cases width <;> rfl
    all_goals rfl
  · rintro rfl
    interval_cases width
    · exact .one
    · exact .two
    · exact .three
    · cases flat with
      | false => exact .fourPlanes rfl
      | true => exact .fourWords rfl
    · exact .planes (by decide) (by decide)
    · exact .planes (by decide) (by decide)
    · exact .planes (by decide) (by decide)
    · cases flat with
      | false => exact .eightPlanes rfl
      | true => exact .eightWords rfl

end Variant

namespace Packed

variable {variant : Variant} {buffers : List (List UInt8)} {t : Packed}

lemma bytesPer_bounds (h : ofBuffers variant buffers = .ok t) :
    1 ≤ variant.bytesPer buffers ∧ variant.bytesPer buffers ≤ 8 := by
  cases hvariant : variant.stride? with
  | none =>
    obtain ⟨-, p, hp, -⟩ := planes_of_ofBuffers hvariant h
    obtain ⟨-, hpos, hle, -⟩ := Planes.ofBuffers_eq_ok hp
    simp [Variant.bytesPer, hvariant, hpos, hle]
  | some stride => simpa [Variant.bytesPer, hvariant] using Variant.stride_bounds hvariant

lemma leadingByte_eq (h : ofBuffers variant buffers = .ok t) (i : ℕ) :
    variant.leadingByte buffers i
      = ((variant.bytesAt buffers i).getD (variant.bytesPer buffers - 1) 0).toNat := by
  obtain ⟨hpos, -⟩ := bytesPer_bounds h
  cases hvariant : variant.stride? with
  | none =>
    rw [Variant.bytesPer, hvariant, Option.getD_none] at hpos ⊢
    rw [Variant.leadingByte_of_planes hvariant, Variant.bytesAt_of_planes hvariant, byteOf]
    simp [List.getD_eq_getElem?_getD, Nat.lt_of_succ_le hpos]
  | some stride =>
    obtain ⟨buffer, rfl, -⟩ := (length_of_ofBuffers h).2 stride hvariant
    rw [Variant.bytesPer, hvariant, Option.getD_some] at hpos ⊢
    rw [Variant.leadingByte_of_flat hvariant, Variant.bytesAt_of_flat hvariant, byteOf,
      List.getD_cons_zero, List.getD_eq_getElem?_getD, List.getD_eq_getElem?_getD,
      List.getElem?_take_of_lt (by omega), List.getElem?_drop]

/-- The elements of a packed table are spelled by their bytes. -/
lemma toList_of_ofBuffers (h : ofBuffers variant buffers = .ok t) :
    t.toList = (List.range t.length).map fun i =>
      Nat.ofDigits 256 ((variant.bytesAt buffers i).map UInt8.toNat) := by
  rw [toList, ← List.filterMap_eq_map]
  refine List.filterMap_congr fun i hi => ?_
  rw [get?_of_ofBuffers h, if_pos (List.mem_range.1 hi)]
  rfl

lemma lt_pow_of_mem_toList (h : ofBuffers variant buffers = .ok t) {n : ℕ} (hn : n ∈ t.toList) :
    n < 256 ^ variant.bytesPer buffers := by
  rw [toList_of_ofBuffers h] at hn
  obtain ⟨i, hi, rfl⟩ := List.mem_map.1 hn
  rw [← length_bytesAt h (List.mem_range.1 hi)]
  exact ofDigits_toNat_lt _

/-- An element that needs all of its bytes has a most significant byte that is not zero. -/
lemma exists_pow_le_iff (h : ofBuffers variant buffers = .ok t) :
    (∃ n ∈ t.toList, 256 ^ (variant.bytesPer buffers - 1) ≤ n) ↔
      ∃ i < t.length, variant.leadingByte buffers i ≠ 0 := by
  have hiff : ∀ i < t.length,
      256 ^ (variant.bytesPer buffers - 1)
          ≤ Nat.ofDigits 256 ((variant.bytesAt buffers i).map UInt8.toNat) ↔
        variant.leadingByte buffers i ≠ 0 := by
    intro i hi
    have hlength := length_bytesAt h hi
    have hne : variant.bytesAt buffers i ≠ [] :=
      List.ne_nil_of_length_pos (hlength ▸ (bytesPer_bounds h).1)
    rw [leadingByte_eq h i, ← hlength, pow_le_ofDigits_iff hne]
  rw [toList_of_ofBuffers h]
  simp only [List.mem_map, List.mem_range, exists_exists_and_eq_and]
  exact exists_congr fun i => and_congr_right (hiff i)

/-! ## The buffers of the elements -/

lemma planes_toList (h : ofBuffers variant buffers = .ok t) (hvariant : variant.stride? = none) :
    Encoding.planes buffers.length t.toList = buffers := by
  refine List.ext_getElem (by simp [Encoding.planes]) fun k hk hk' => ?_
  have hlength : buffers[k].length = t.length :=
    (length_of_ofBuffers h).1 hvariant _ (List.getElem_mem hk')
  refine List.ext_getElem (by simp [Encoding.planes, toList_of_ofBuffers h, hlength])
    fun i hi hi' => ?_
  have hweight : buffers.length - 1 - k < (variant.bytesAt buffers i).length := by
    rw [Variant.bytesAt_of_planes hvariant, List.length_reverse, List.length_map]
    omega
  -- counted from the last plane, this one has the weight of its byte
  have hbyte : (variant.bytesAt buffers i)[buffers.length - 1 - k] = buffers[k][i] := by
    simp [Variant.bytesAt_of_planes hvariant, hi',
      show buffers.length - 1 - (buffers.length - 1 - k) = k by omega]
  simp only [Encoding.planes, toList_of_ofBuffers h, List.getElem_map, List.getElem_range]
  rw [Encoding.byteAt_ofDigits hweight, hbyte]

/-- The words of a buffer, one after another. -/
lemma flatMap_take_drop (buffer : List UInt8) (stride count : ℕ) :
    (List.range count).flatMap (fun i => (buffer.drop (i * stride)).take stride)
      = buffer.take (count * stride) := by
  induction count with
  | zero => simp
  | succ count ih =>
    rw [List.range_succ, List.flatMap_append, ih, List.flatMap_singleton, Nat.succ_mul,
      List.take_add]

lemma flat_toList {stride : ℕ} {buffer : List UInt8} (h : ofBuffers variant [buffer] = .ok t)
    (hvariant : variant.stride? = some stride) : Encoding.flat stride t.toList = buffer := by
  obtain ⟨buffer', hbuffer, hlength⟩ := (length_of_ofBuffers h).2 stride hvariant
  obtain rfl := List.singleton_inj.1 hbuffer
  have hword : ∀ i ∈ List.range t.length,
      ((List.range stride).map fun k => Encoding.byteAt k
        (Nat.ofDigits 256 ((variant.bytesAt [buffer] i).map UInt8.toNat)))
        = (buffer.drop (i * stride)).take stride := by
    intro i hi
    have hbytes : (variant.bytesAt [buffer] i).length = stride := by
      simpa [Variant.bytesPer, hvariant] using length_bytesAt h (List.mem_range.1 hi)
    rw [← Variant.bytesAt_of_flat hvariant]
    refine List.ext_getElem (by simpa using hbytes.symm) fun k _ hk => ?_
    rw [List.getElem_map, List.getElem_range, Encoding.byteAt_ofDigits hk]
  rw [Encoding.flat, toList_of_ofBuffers h, List.flatMap_map, List.flatMap_congr hword,
    flatMap_take_drop, ← hlength, List.take_length]

/-- Packing the elements with the width that they had writes the buffers that they were read
from. -/
lemma buffersFor_toList (h : ofBuffers variant buffers = .ok t) :
    Encoding.buffersFor variant (variant.bytesPer buffers) t.toList = buffers := by
  cases hvariant : variant.stride? with
  | none =>
    rw [Encoding.buffersFor, Variant.bytesPer, hvariant]
    exact planes_toList h hvariant
  | some stride =>
    obtain ⟨buffer, rfl, -⟩ := (length_of_ofBuffers h).2 stride hvariant
    rw [Encoding.buffersFor, Variant.bytesPer, hvariant]
    exact congrArg ([·]) (flat_toList h hvariant)

end Packed

/-! ## Packing again -/

namespace Encoding

lemma width_eq_bytesPer_iff {variant : Variant} {buffers : List (List UInt8)} {t : Packed}
    {flatOffsets : Bool} {e : Encoding} (h : Packed.ofBuffers variant buffers = .ok t)
    (he : ofNumbers flatOffsets t.toList = .ok e) :
    e.width ≤ variant.bytesPer buffers ∧
      (e.width = variant.bytesPer buffers ↔
        variant.bytesPer buffers = 1 ∨ ∃ i < t.length, variant.leadingByte buffers i ≠ 0) := by
  obtain ⟨hpos, -⟩ := Packed.bytesPer_bounds h
  have hwidth := (ofNumbers_eq_ok he).1
  have hle : e.width ≤ variant.bytesPer buffers :=
    (width_le_iff he).2 ⟨hpos, fun n hn => Packed.lt_pow_of_mem_toList h hn⟩
  -- one byte less would do exactly if it held all elements
  have hless : e.width ≤ variant.bytesPer buffers - 1 ↔ _ := width_le_iff he
  refine ⟨hle, fun hfull => ?_, ?_⟩
  · by_contra! hzero
    have hsmall : ∀ n ∈ t.toList, n < 256 ^ (variant.bytesPer buffers - 1) := by
      by_contra! hlarge
      obtain ⟨i, hi, hlead⟩ := (Packed.exists_pow_le_iff h).1 hlarge
      exact hlead (hzero.2 i hi)
    have := hless.2 ⟨by omega, hsmall⟩
    omega
  · rintro (hone | hlead)
    · omega
    · obtain ⟨n, hn, hlarge⟩ := (Packed.exists_pow_le_iff h).2 hlead
      by_contra hne
      have := (hless.1 (by omega)).2 n hn
      omega

/-- The elements of a packed table that is not empty can be packed again, in at most as many bytes
each. The same variant, width and buffers come back exactly if the buffers are canonical: an element
has one byte or some element has a most significant byte that is not zero, and the variant is the
one that stands for elements of this width. -/
theorem ofNumbers_toList {variant : Variant} {buffers : List (List UInt8)} {t : Packed}
    (h : Packed.ofBuffers variant buffers = .ok t) (hpos : 0 < t.length) (flatOffsets : Bool) :
    ∃ e, ofNumbers flatOffsets t.toList = .ok e ∧ e.width ≤ variant.bytesPer buffers ∧
      (e = ⟨variant, variant.bytesPer buffers, buffers⟩ ↔
        (variant.bytesPer buffers = 1 ∨ ∃ i < t.length, variant.leadingByte buffers i ≠ 0) ∧
          Variant.StandsFor flatOffsets (variant.bytesPer buffers) variant) := by
  obtain ⟨hone, hle⟩ := Packed.bytesPer_bounds h
  have hne : t.toList ≠ [] := by
    rw [Packed.toList_of_ofBuffers h]
    simpa using hpos.ne'
  have hlt : ∀ n ∈ t.toList, n < 2 ^ 64 := fun n hn =>
    (Packed.lt_pow_of_mem_toList h hn).trans_le
      ((Nat.pow_le_pow_right (by norm_num) hle).trans_eq (by norm_num))
  obtain ⟨e, he⟩ := exists_ofNumbers flatOffsets hne hlt
  obtain ⟨hwidth, hfull⟩ := width_eq_bytesPer_iff h he
  obtain ⟨-, -, -, hvariant, hbuffers⟩ := ofNumbers_eq_ok he
  refine ⟨e, he, hwidth, ?_⟩
  rw [← hfull, Variant.standsFor_iff hone hle]
  constructor
  · rintro rfl
    exact ⟨rfl, hvariant⟩
  · rintro ⟨hsame, hchosen⟩
    rw [hsame] at hvariant hbuffers
    rw [← hchosen] at hvariant
    rw [hvariant, Packed.buffersFor_toList h] at hbuffers
    cases e
    rw [Encoding.mk.injEq]
    exact ⟨hvariant, hsame, hbuffers⟩

/-- Words of four bytes come back where words are asked for, and not where their last byte is zero;
eight planes come back where they are not. -/
theorem ofNumbers_toList_words :
    (∃ t, Packed.ofBuffers .array32Offset [[1, 0, 0, 9]] = .ok t ∧
      ofNumbers true t.toList = .ok ⟨.array32Offset, 4, [[1, 0, 0, 9]]⟩ ∧
      ofNumbers false t.toList ≠ .ok ⟨.array32Offset, 4, [[1, 0, 0, 9]]⟩) ∧
    (∃ t, Packed.ofBuffers .array32Offset [[1, 0, 9, 0]] = .ok t ∧
      ofNumbers true t.toList ≠ .ok ⟨.array32Offset, 4, [[1, 0, 9, 0]]⟩) ∧
    ∃ t, Packed.ofBuffers .arrayGeneric [[9], [0], [0], [0], [0], [0], [0], [1]] = .ok t ∧
      ofNumbers false t.toList
        = .ok ⟨.arrayGeneric, 8, [[9], [0], [0], [0], [0], [0], [0], [1]]⟩ ∧
      ofNumbers true t.toList
        ≠ .ok ⟨.arrayGeneric, 8, [[9], [0], [0], [0], [0], [0], [0], [1]]⟩ := by
  have hword (word : List UInt8) (hlength : word.length = 4) :
      ∃ t, Packed.ofBuffers .array32Offset [word] = .ok t ∧ t.length = 1 := by
    obtain ⟨t, ht⟩ := Packed.exists_ofBuffers_iff.2
      (show Variant.array32Offset.Takes [word] from ⟨word, rfl, by omega⟩)
    obtain ⟨buffer, hbuffer, hsize⟩ := (Packed.length_of_ofBuffers ht).2 4 rfl
    cases hbuffer
    exact ⟨t, ht, by omega⟩
  obtain ⟨t₁, ht₁, hlength₁⟩ := hword [1, 0, 0, 9] rfl
  obtain ⟨t₂, ht₂, hlength₂⟩ := hword [1, 0, 9, 0] rfl
  obtain ⟨t₃, ht₃⟩ := Packed.exists_ofBuffers_iff.2
    (show Variant.arrayGeneric.Takes [[9], [0], [0], [0], [0], [0], [0], [1]] from
      ⟨by simp, by simp, by simp⟩)
  have hlength₃ : [1].length = t₃.length := (Packed.length_of_ofBuffers ht₃).1 rfl [1] (by simp)
  obtain ⟨e₁, he₁, -, hiff₁⟩ := ofNumbers_toList ht₁ (by omega) true
  obtain ⟨f₁, hf₁, -, hiff₁'⟩ := ofNumbers_toList ht₁ (by omega) false
  obtain ⟨e₂, he₂, -, hiff₂⟩ := ofNumbers_toList ht₂ (by omega) true
  obtain ⟨e₃, he₃, -, hiff₃⟩ := ofNumbers_toList ht₃ (by simp [← hlength₃]) false
  obtain ⟨f₃, hf₃, -, hiff₃'⟩ := ofNumbers_toList ht₃ (by simp [← hlength₃]) true
  refine ⟨⟨t₁, ht₁, ?_, fun hsame => ?_⟩, ⟨t₂, ht₂, fun hsame => ?_⟩, t₃, ht₃, ?_, fun hsame => ?_⟩
  · rw [he₁]
    exact congrArg Except.ok (hiff₁.2 ⟨.inr ⟨0, by omega, by decide⟩, .fourWords rfl⟩)
  · rw [hsame] at hf₁
    cases (hiff₁'.1 (Except.ok.inj hf₁).symm).2 with
    | fourWords hflat => cases hflat
  · rw [hsame] at he₂
    obtain ⟨hone | ⟨i, hi, hlead⟩, -⟩ := hiff₂.1 (Except.ok.inj he₂).symm
    · cases hone
    · rw [hlength₂, Nat.lt_one_iff] at hi
      subst hi
      exact hlead rfl
  · rw [he₃]
    exact congrArg Except.ok
      (hiff₃.2 ⟨.inr ⟨0, by simp [← hlength₃], by decide⟩, .eightPlanes rfl⟩)
  · rw [hsame] at hf₃
    cases (hiff₃'.1 (Except.ok.inj hf₃).symm).2 with
    | planes hlow hhigh => exact absurd hhigh (by decide)
    | eightPlanes hflat => cases hflat

end Encoding

end TablePack
