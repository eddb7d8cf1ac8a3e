import Mathlib.Data.Nat.Digits.Lemmas
import Mathlib.Tactic
import TablePack.Packed.Encoding

/-!
# Packed tables hold the numbers they are made from

Both layouts spell a number by its digits in base 256: a flat buffer holds them one after another,
the least significant one first, and the planes hold them at one index, the most significant one
first. All readers are therefore compared with `Nat.ofDigits 256`, the ones that put together a
fixed number of planes by way of the one that folds over all of them. They work on words of eight
bytes, which is enough for what they put together: no bits are shifted out.

* `Planes.get?_eq`, `Flat.get?_eq`: what the two readers read;
* `Encoding.exists_unpack`: a packed list of numbers is unpacked to the same list;
* `Encoding.unpack_ofNumbers`: every list of numbers of at most eight bytes comes back.
-/

namespace TablePack

/-! ## Bytes of a number -/

/-- A byte below a shifted word that has room for it. -/
lemma toNat_shiftLeft_or {word : UInt64} (h : word.toNat < 256 ^ 7) (b : UInt8) :
    (word <<< 8 ||| b.toUInt64).toNat = b.toNat + 256 * word.toNat := by
  have hshift : (word <<< 8).toNat = 2 ^ 8 * word.toNat := by
    rw [UInt64.toNat_shiftLeft, show (8 : UInt64).toNat % 64 = 8 from rfl, Nat.shiftLeft_eq,
      Nat.mul_comm, Nat.mod_eq_of_lt (by omega)]
  rw [UInt64.toNat_or, hshift, UInt8.toNat_toUInt64, ← Nat.two_pow_add_eq_or_of_lt b.toNat_lt]
  omega

lemma ofDigits_toNat_lt (bytes : List UInt8) :
    Nat.ofDigits 256 (bytes.map UInt8.toNat) < 256 ^ bytes.length := by
  rw [← List.length_map UInt8.toNat]
  refine Nat.ofDigits_lt_base_pow_length (by norm_num) ?_
  simpa using fun b _ => UInt8.toNat_lt b

/-- A word is spelled by its bytes. -/
lemma Flat.toNat_ofBytes {bytes : List UInt8} (h : bytes.length ≤ 8) :
    (ofBytes bytes).toNat = Nat.ofDigits 256 (bytes.map UInt8.toNat) := by
  induction bytes with
  | nil => rfl
  | cons b bytes ih =>
    rw [List.length_cons] at h
    have hword := ih (by omega)
    have hbound : Nat.ofDigits 256 (bytes.map UInt8.toNat) < 256 ^ 7 :=
      (ofDigits_toNat_lt bytes).trans_le (Nat.pow_le_pow_right (by norm_num) (by omega))
    rw [List.map_cons, Nat.ofDigits_cons, ← hword]
    exact toNat_shiftLeft_or (hword.trans_lt hbound) b

lemma bitLength_le_iff {n k : ℕ} : bitLength n ≤ k ↔ n < 2 ^ k := by
  unfold bitLength
  split_ifs with hn
  · simp [hn]
  · rw [Nat.succ_le_iff, Nat.log2_lt hn]

/-- The width of a number is the least number of bytes, at least one, that hold it. -/
lemma byteWidth_le_iff {n width : ℕ} : byteWidth n ≤ width ↔ 1 ≤ width ∧ n < 256 ^ width := by
  have hbits : (bitLength n + 7) / 8 ≤ width ↔ n < 256 ^ width := by
    rw [show 256 ^ width = 2 ^ (8 * width) from (pow_mul 2 8 width).symm, ← bitLength_le_iff]
    omega
  rw [byteWidth, max_le_iff, hbits, and_comm]

lemma lt_pow_byteWidth (n : ℕ) : n < 256 ^ byteWidth n := (byteWidth_le_iff.1 le_rfl).2

lemma one_le_byteWidth (n : ℕ) : 1 ≤ byteWidth n := (byteWidth_le_iff.1 le_rfl).1

namespace Encoding

lemma toNat_byteAt (k n : ℕ) : (byteAt k n).toNat = n / 256 ^ k % 256 := by
  rw [byteAt, Nat.shiftRight_eq_div_pow, pow_mul]
  simp

/-- The bytes of a number spell it. -/
lemma ofDigits_byteAt (width n : ℕ) :
    Nat.ofDigits 256 ((List.range width).map fun k => (byteAt k n).toNat) = n % 256 ^ width := by
  induction width with
  | zero => simp [Nat.mod_one]
  | succ width ih =>
    rw [List.range_succ, List.map_append, List.map_singleton, Nat.ofDigits_append, ih,
      Nat.ofDigits_singleton, List.length_map, List.length_range, toNat_byteAt, pow_succ,
      Nat.mod_mul]

end Encoding

/-! ## Planes -/

namespace Planes

/-- Reading stops at the first plane that has no byte at the index. -/
lemma foldlM_rows (rows : List (Array UInt8)) (i : ℕ) (word : UInt64) :
    rows.foldlM (fun (word : UInt64) row => row[i]?.map (word <<< 8 ||| ·.toUInt64)) word =
      if ∀ row ∈ rows, i < row.size then
        some (rows.foldl (fun (word : UInt64) row => word <<< 8 ||| (row.getD i 0).toUInt64) word)
      else none := by
  induction rows generalizing word with
  | nil => simp
  | cons row rows ih =>
    by_cases hi : i < row.size
    · simp [List.foldlM_cons, hi, ih]
    · simp [List.foldlM_cons, hi]

/-- The element at an index is spelled by the bytes of the planes there. -/
lemma get?_eq (p : Planes) (i : ℕ) :
    p.get? i = if i < p.length then
      some (Nat.ofDigits 256 (p.rows.map fun row => (row.getD i 0).toNat).reverse) else none := by
  have hsizes : (∀ row ∈ p.rows, i < row.size) ↔ i < p.length := by
    obtain ⟨row, hrow⟩ := List.exists_mem_of_length_pos p.count_bounds.1
    refine ⟨fun h => (h row hrow).trans_eq (p.size_row row hrow), fun h row hrow => ?_⟩
    exact h.trans_eq (p.size_row row hrow).symm
  have hcount : (p.rows.map fun row => row.getD i 0).reverse.length ≤ 8 := by
    simpa using p.count_bounds.2
  have hword := Flat.toNat_ofBytes hcount
  rw [Flat.ofBytes, List.foldr_reverse, List.foldl_map, List.map_reverse, List.map_map] at hword
  rw [get?, word?, foldlM_rows]
  simp only [hsizes]
  split_ifs
  · exact congrArg some hword
  · rfl

lemma exists_ofBuffers {buffers : List (List UInt8)} {n : ℕ} (hpos : 1 ≤ buffers.length)
    (hle : buffers.length ≤ 8) (hlen : ∀ buffer ∈ buffers, buffer.length = n) :
    ∃ p, ofBuffers buffers = .ok p ∧ p.rows = buffers.map List.toArray ∧ p.length = n := by
  have hhead : (buffers.headD []).length = n := by
    cases buffers with
    | nil => simp at hpos
    | cons buffer buffers => exact hlen buffer (by simp)
  have hfind : buffers.findIdx? (·.length != (buffers.headD []).length) = none := by
    rw [List.findIdx?_eq_none_iff, hhead]
    simpa using hlen
  rw [ofBuffers, dif_pos ⟨hpos, hle⟩]
  dsimp only
  split
  · rename_i k hk
    rw [hfind] at hk
    cases hk
  · exact ⟨_, rfl, rfl, hhead⟩

/-- Planes are made of one to eight buffers of the same length. -/
lemma ofBuffers_eq_ok {buffers : List (List UInt8)} {p : Planes} (h : ofBuffers buffers = .ok p) :
    p.rows = buffers.map List.toArray ∧ 1 ≤ buffers.length ∧ buffers.length ≤ 8 ∧
      ∀ buffer ∈ buffers, buffer.length = p.length := by
  unfold ofBuffers at h
  split_ifs at h with hn
  dsimp only at h
  split at h
  · cases h
  · rename_i hk
    cases h
    exact ⟨rfl, hn.1, hn.2, by simpa using hk⟩

/-- The planes of a list of numbers hold these numbers. -/
lemma exists_ofBuffers_planes {width : ℕ} {numbers : List ℕ} (hpos : 1 ≤ width) (hle : width ≤ 8)
    (hlt : ∀ n ∈ numbers, n < 256 ^ width) :
    ∃ p, ofBuffers (Encoding.planes width numbers) = .ok p ∧ p.length = numbers.length ∧
      ∀ i, p.get? i = numbers[i]? := by
  have hcount : (Encoding.planes width numbers).length = width := by simp [Encoding.planes]
  obtain ⟨p, hp, hrows, hlength⟩ := exists_ofBuffers (hpos.trans_eq hcount.symm)
    (hcount.trans_le hle) (n := numbers.length) (by simp [Encoding.planes])
  refine ⟨p, hp, hlength, fun i => ?_⟩
  rw [get?_eq, hlength]
  split_ifs with hi
  · -- read backwards, the bytes at an index are those of the number from the least one on
    have hbytes : (p.rows.map fun row => (row.getD i 0).toNat).reverse
        = (List.range width).map fun k => (Encoding.byteAt k numbers[i]).toNat := by
      refine List.ext_getElem (by simp [hrows, Encoding.planes]) fun k hk _ => ?_
      have hk : k < width := by simpa [hrows, Encoding.planes] using hk
      simp [hrows, Encoding.planes, hi, show width - 1 - (width - 1 - k) = k by omega]
    rw [hbytes, Encoding.ofDigits_byteAt, Nat.mod_eq_of_lt (hlt _ (List.getElem_mem hi)),
      List.getElem?_eq_getElem hi]
  · rw [List.getElem?_eq_none (by omega)]

end Planes

/-! ## Flat buffers -/

lemma Encoding.length_flat (width : ℕ) (numbers : List ℕ) :
    (flat width numbers).length = numbers.length * width := by
  simp [flat, List.length_flatMap]

lemma Encoding.drop_flat (width i : ℕ) (numbers : List ℕ) :
    (flat width numbers).drop (i * width) = flat width (numbers.drop i) := by
  induction i generalizing numbers with
  | zero => simp
  | succ i ih =>
    cases numbers with
    | nil => simp [flat]
    | cons n numbers =>
      have hlen : ((List.range width).map fun k => byteAt k n).length = width := by simp
      rw [List.drop_succ_cons, ← ih, Nat.succ_mul, Nat.add_comm, ← List.drop_drop]
      simp only [flat, List.flatMap_cons]
      rw [List.drop_left' hlen]

namespace Flat

variable {stride : ℕ}

/-- The element at an index is spelled by the bytes of the buffer there. -/
lemma get?_eq (f : Flat stride) (hpos : 1 ≤ stride) (hle : stride ≤ 8) (i : ℕ) :
    f.get? i = if i < f.length then
      some (Nat.ofDigits 256 (((f.bytes.toList.drop (i * stride)).take stride).map UInt8.toNat))
      else none := by
  have hthere : i * stride + stride ≤ f.bytes.size ↔ i < f.length := by
    rw [← Nat.succ_mul, ← Nat.le_div_iff_mul_le hpos]
    exact Iff.rfl
  simp only [get?, word?, hthere]
  split_ifs
  · refine congrArg some ?_
    rw [Array.toList_extract, List.extract_eq_take_drop, Nat.add_sub_cancel_left, toNat_ofBytes]
    exact (List.length_take_le _ _).trans hle
  · rfl

/-- The flat buffer of a list of numbers holds these numbers. -/
lemma exists_ofBuffer_flat {numbers : List ℕ} (hpos : 1 ≤ stride) (hle : stride ≤ 8)
    (hlt : ∀ n ∈ numbers, n < 256 ^ stride) :
    ∃ f : Flat stride, ofBuffer stride (Encoding.flat stride numbers) = .ok f ∧
      f.length = numbers.length ∧ ∀ i, f.get? i = numbers[i]? := by
  have hlen := Encoding.length_flat stride numbers
  have hwhole : stride ∣ (Encoding.flat stride numbers).length := by
    rw [hlen]
    exact Nat.dvd_mul_left _ _
  refine ⟨_, by rw [ofBuffer, dif_pos hwhole], ?_, fun i => ?_⟩
  · simp [length, hlen, Nat.mul_div_cancel _ hpos]
  · rw [get?_eq _ hpos hle]
    simp only [length, List.size_toArray, hlen, Nat.mul_div_cancel _ hpos]
    split_ifs with hi
    · rw [Encoding.drop_flat, List.drop_eq_getElem_cons hi, Encoding.flat,
        List.flatMap_cons, List.take_left' (by simp), List.map_map]
      have hbytes := Encoding.ofDigits_byteAt stride numbers[i]
      rw [Nat.mod_eq_of_lt (hlt _ (List.getElem_mem hi))] at hbytes
      rw [List.getElem?_eq_getElem hi]
      exact congrArg some hbytes
    · rw [List.getElem?_eq_none (by omega)]

end Flat

/-! ## Packed tables -/

namespace Packed

/-- A packed table stands for a list of numbers. -/
structure Holds (t : Packed) (numbers : List ℕ) : Prop where
  length_eq : t.length = numbers.length
  get?_eq : ∀ i, t.get? i = numbers[i]?

lemma filterMap_range_getElem? (numbers : List ℕ) :
    (List.range numbers.length).filterMap (numbers[·]?) = numbers := by
  induction numbers with
  | nil => rfl
  | cons n numbers ih =>
    rw [List.length_cons, List.range_succ_eq_map, List.filterMap_cons, List.filterMap_map]
    exact congrArg (n :: ·) ih

lemma Holds.toList_eq {t : Packed} {numbers : List ℕ} (h : t.Holds numbers) :
    t.toList = numbers := by
  rw [toList, h.length_eq, show t.get? = (numbers[·]?) from funext h.get?_eq,
    filterMap_range_getElem?]

/-- The readers that put together a fixed number of planes read what the one that folds over all
planes reads. -/
lemma word?_planes (p : Planes) (i : ℕ) :
    (p.rows.length = 1 → (array8 p).word? i = p.word? i) ∧
    (p.rows.length = 2 → (array16 p).word? i = p.word? i) ∧
    (p.rows.length = 3 → (array24 p).word? i = p.word? i) ∧
    (p.rows.length = 4 → (array32 p).word? i = p.word? i) := by
  refine ⟨fun h => ?_, fun h => ?_, fun h => ?_, fun h => ?_⟩
  · obtain ⟨r₀, hrows⟩ := List.length_eq_one_iff.1 h
    cases h₀ : r₀[i]? <;> simp [word?, Planes.word?, Planes.byte?, hrows, h₀]
  · obtain ⟨r₀, r₁, hrows⟩ := List.length_eq_two.1 h
    cases h₀ : r₀[i]? <;> cases h₁ : r₁[i]? <;>
      simp [word?, Planes.word?, Planes.byte?, hrows, h₀, h₁]
  · obtain ⟨r₀, r₁, r₂, hrows⟩ := List.length_eq_three.1 h
    cases h₀ : r₀[i]? <;> cases h₁ : r₁[i]? <;> cases h₂ : r₂[i]? <;>
      simp [word?, Planes.word?, Planes.byte?, hrows, h₀, h₁, h₂, UInt64.shiftLeft_or,
        ← UInt64.shiftLeft_add_of_toNat_lt]
  · obtain ⟨r₀, r₁, r₂, r₃, hrows⟩ := List.length_eq_four.1 h
    cases h₀ : r₀[i]? <;> cases h₁ : r₁[i]? <;> cases h₂ : r₂[i]? <;> cases h₃ : r₃[i]? <;>
      simp [word?, Planes.word?, Planes.byte?, hrows, h₀, h₁, h₂, h₃, UInt64.shiftLeft_or,
        ← UInt64.shiftLeft_add_of_toNat_lt]

/-- A packed table of some variant and length reads its words in some way. -/
structure Reads (t : Packed) (variant : Variant) (length : ℕ) (read : ℕ → Option UInt64) :
    Prop where
  variant_eq : t.variant = variant
  length_eq : t.length = length
  word?_eq : ∀ i, t.word? i = read i

/-- A variant in byte planes reads as all planes are read. -/
lemma ofBuffers_of_planes {variant : Variant} {buffers : List (List UInt8)} {p : Planes}
    (hvariant : variant.stride? = none)
    (hcount : ∀ count ∈ variant.planeCount?, buffers.length = count)
    (hp : Planes.ofBuffers buffers = .ok p) :
    ∃ t, ofBuffers variant buffers = .ok t ∧ t.Reads variant p.length p.word? := by
  have hrows : p.rows.length = buffers.length := by simp [(Planes.ofBuffers_eq_ok hp).1]
  have hfixed : ∀ {v : Variant} {count : ℕ}, buffers.length = count →
      fixedPlanes v count buffers = .ok p := fun hlen => by rw [fixedPlanes, if_pos hlen, hp]
  have hword := word?_planes p
  cases variant with
  | array8 =>
    have hlen := hcount 1 rfl
    exact ⟨array8 p, congrArg (Except.map array8) (hfixed hlen), rfl, rfl,
      fun i => (hword i).1 (hrows.trans hlen)⟩
  | array16 =>
    have hlen := hcount 2 rfl
    exact ⟨array16 p, congrArg (Except.map array16) (hfixed hlen), rfl, rfl,
      fun i => (hword i).2.1 (hrows.trans hlen)⟩
  | array24 =>
    have hlen := hcount 3 rfl
    exact ⟨array24 p, congrArg (Except.map array24) (hfixed hlen), rfl, rfl,
      fun i => (hword i).2.2.1 (hrows.trans hlen)⟩
  | array32 =>
    have hlen := hcount 4 rfl
    exact ⟨array32 p, congrArg (Except.map array32) (hfixed hlen), rfl, rfl,
      fun i => (hword i).2.2.2 (hrows.trans hlen)⟩
  | arrayGeneric =>
    exact ⟨arrayGeneric p, congrArg (Except.map arrayGeneric) hp, rfl, rfl, fun _ => rfl⟩
  | array32Offset => cases hvariant
  | array64Offset => cases hvariant

/-- A flat variant reads as its buffer is read. -/
lemma ofBuffers_of_flat {variant : Variant} {stride : ℕ} {buffer : List UInt8} {f : Flat stride}
    (hvariant : variant.stride? = some stride) (hf : Flat.ofBuffer stride buffer = .ok f) :
    ∃ t, ofBuffers variant [buffer] = .ok t ∧ t.Reads variant f.length f.word? := by
  cases variant with
  | array32Offset =>
    cases hvariant
    exact ⟨array32Offset f, congrArg (Except.map array32Offset) hf, rfl, rfl, fun _ => rfl⟩
  | array64Offset =>
    cases hvariant
    exact ⟨array64Offset f, congrArg (Except.map array64Offset) hf, rfl, rfl, fun _ => rfl⟩
  | _ => cases hvariant

/-- Buffers of the width that a variant asks for make a packed table of that variant. -/
lemma exists_ofBuffers {variant : Variant} {width : ℕ} {numbers : List ℕ} (hpos : 1 ≤ width)
    (hle : width ≤ 8) (hlt : ∀ n ∈ numbers, n < 256 ^ width)
    (hcount : ∀ count ∈ variant.planeCount?, count = width)
    (hstride : ∀ stride ∈ variant.stride?, stride = width) :
    ∃ t, ofBuffers variant (Encoding.buffersFor variant width numbers) = .ok t ∧
      t.variant = variant ∧ t.Holds numbers := by
  cases hvariant : variant.stride? with
  | none =>
    obtain ⟨p, hp, hlength, hget⟩ := Planes.exists_ofBuffers_planes hpos hle hlt
    obtain ⟨t, ht, hreads⟩ := ofBuffers_of_planes hvariant
      (fun count hmem => by simp [Encoding.planes, hcount count hmem]) hp
    refine ⟨t, by rw [Encoding.buffersFor, hvariant, ← ht], hreads.variant_eq,
      hreads.length_eq.trans hlength, fun i => ?_⟩
    rw [get?, hreads.word?_eq]
    exact hget i
  | some stride =>
    obtain rfl := hstride stride hvariant
    obtain ⟨f, hf, hlength, hget⟩ := Flat.exists_ofBuffer_flat hpos hle hlt
    obtain ⟨t, ht, hreads⟩ := ofBuffers_of_flat hvariant hf
    refine ⟨t, by rw [Encoding.buffersFor, hvariant, ← ht], hreads.variant_eq,
      hreads.length_eq.trans hlength, fun i => ?_⟩
    rw [get?, hreads.word?_eq]
    exact hget i

end Packed

namespace Encoding

/-- The variant for a width takes that number of planes, or words of that size. -/
lemma ofWidth_fits (flat : Bool) (width : ℕ) :
    (∀ count ∈ (Variant.ofWidth flat width).planeCount?, count = width) ∧
      ∀ stride ∈ (Variant.ofWidth flat width).stride?, stride = width := by
  unfold Variant.ofWidth
  split <;> cases flat <;> simp [Variant.planeCount?, Variant.stride?]

/-- What a packed list of numbers looks like. -/
lemma ofNumbers_eq_ok {flatOffsets : Bool} {numbers : List ℕ} {e : Encoding}
    (h : ofNumbers flatOffsets numbers = .ok e) :
    1 ≤ e.width ∧ e.width ≤ 8 ∧ (∀ n ∈ numbers, n < 256 ^ e.width) ∧
      e.variant = Variant.ofWidth flatOffsets e.width ∧
      e.buffers = buffersFor e.variant e.width numbers := by
  unfold ofNumbers at h
  split at h
  · cases h
  · rename_i max hmax
    dsimp only at h
    split_ifs at h with hwide
    cases h
    refine ⟨one_le_byteWidth max, by simpa using hwide, fun n hn => ?_, rfl, rfl⟩
    have hle : n ≤ max := (List.max?_eq_some_iff.1 hmax).2 n hn
    exact hle.trans_lt (lt_pow_byteWidth max)

lemma buffers_ne_nil {flatOffsets : Bool} {numbers : List ℕ} {e : Encoding}
    (h : ofNumbers flatOffsets numbers = .ok e) : e.buffers ≠ [] := by
  obtain ⟨hpos, -, -, -, hbuffers⟩ := ofNumbers_eq_ok h
  rw [hbuffers, buffersFor]
  split
  · simp
  · exact List.ne_nil_of_length_pos (by simpa [planes] using Nat.lt_of_succ_le hpos)

/-- A packed list of numbers is unpacked to the same list. -/
lemma exists_unpack {flatOffsets : Bool} {numbers : List ℕ} {e : Encoding}
    (h : ofNumbers flatOffsets numbers = .ok e) :
    ∃ t, e.unpack = .ok t ∧ t.variant = e.variant ∧ t.Holds numbers := by
  obtain ⟨hpos, hle, hlt, hvariant, hbuffers⟩ := ofNumbers_eq_ok h
  obtain ⟨hcount, hstride⟩ := ofWidth_fits flatOffsets e.width
  rw [← hvariant] at hcount hstride
  rw [unpack, hbuffers]
  exact Packed.exists_ofBuffers hpos hle hlt hcount hstride

/-- Numbers of at most eight bytes can be packed. -/
lemma exists_ofNumbers (flatOffsets : Bool) {numbers : List ℕ} (hne : numbers ≠ [])
    (hlt : ∀ n ∈ numbers, n < 2 ^ 64) : ∃ e, ofNumbers flatOffsets numbers = .ok e := by
  obtain ⟨max, hmax⟩ := Option.ne_none_iff_exists'.1 (mt List.max?_eq_none_iff.1 hne)
  have hmem : max ∈ numbers := (List.max?_eq_some_iff.1 hmax).1
  have hwidth : byteWidth max ≤ 8 :=
    byteWidth_le_iff.2 ⟨by norm_num, (hlt max hmem).trans_eq (by norm_num)⟩
  simp only [ofNumbers, hmax]
  rw [if_neg (by omega)]
  exact ⟨_, rfl⟩

/-- Packing and unpacking give back every list of numbers of at most eight bytes. The packed table
has the variant that was chosen and the length of the list, and holds each number at its index; so
the table reads the same whether or not flat buffers were wanted. -/
theorem unpack_ofNumbers {numbers : List ℕ} (hne : numbers ≠ []) (hlt : ∀ n ∈ numbers, n < 2 ^ 64) :
    (∀ flatOffsets, ∃ e packed, ofNumbers flatOffsets numbers = .ok e ∧ e.unpack = .ok packed ∧
      packed.variant = e.variant ∧ packed.length = numbers.length ∧
      ∀ i (hi : i < numbers.length), packed.get? i = some numbers[i]) ∧
    ∀ {e e' : Encoding} {flat planes : Packed}, ofNumbers true numbers = .ok e →
      ofNumbers false numbers = .ok e' → e.unpack = .ok flat → e'.unpack = .ok planes →
      flat.toList = planes.toList ∧ ∀ i, flat.get? i = planes.get? i := by
  refine ⟨fun flatOffsets => ?_, fun he he' hflat hplanes => ?_⟩
  · obtain ⟨e, he⟩ := exists_ofNumbers flatOffsets hne hlt
    obtain ⟨packed, hunpack, hvariant, hholds⟩ := exists_unpack he
    refine ⟨e, packed, he, hunpack, hvariant, hholds.length_eq, fun i hi => ?_⟩
    rw [hholds.get?_eq, List.getElem?_eq_getElem hi]
  · obtain ⟨packed, hunpack, -, hholds⟩ := exists_unpack he
    obtain ⟨packed', hunpack', -, hholds'⟩ := exists_unpack he'
    obtain rfl := Except.ok.inj (hflat.symm.trans hunpack)
    obtain rfl := Except.ok.inj (hplanes.symm.trans hunpack')
    exact ⟨hholds.toList_eq.trans hholds'.toList_eq.symm,
      fun i => (hholds.get?_eq i).trans (hholds'.get?_eq i).symm⟩

/-- The greatest number of eight bytes, after the least number. -/
theorem unpack_ofNumbers_edge :
    (∀ n ∈ [0, 2 ^ 64 - 1], n < 2 ^ 64) ∧
      ∃ e packed, ofNumbers true [0, 2 ^ 64 - 1] = .ok e ∧ e.unpack = .ok packed ∧
        packed.variant = .array64Offset ∧ packed.get? 1 = some (2 ^ 64 - 1) := by
  have hlt : ∀ n ∈ [0, 2 ^ 64 - 1], n < 2 ^ 64 := by decide
  obtain ⟨e, packed, he, hunpack, hvariant, -, hget⟩ := (unpack_ofNumbers (by simp) hlt).1 true
  refine ⟨hlt, e, packed, he, hunpack, ?_, hget 1 (by simp)⟩
  have hchosen : (ofNumbers true [0, 2 ^ 64 - 1]).map Encoding.variant = .ok .array64Offset := by
    decide +kernel
  rw [he] at hchosen
  exact hvariant.trans (Except.ok.inj hchosen)

end Encoding

end TablePack
