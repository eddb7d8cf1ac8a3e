import Mathlib.Order.Bounds.Basic
import Mathlib.Tactic
import TablePack.Proofs.Codec

/-!
# The least width

How a list of numbers is packed is a matter of its greatest number, which decides the number of
bytes per element. That number is the least one that holds every element, and packing fails where
eight bytes are not enough.

* `isLeast_byteWidth`: the width of a number;
* `Encoding.laid_of_ofNumbers`, `Encoding.size_of_ofNumbers`: the buffers of a packed table and how
  many bytes they have, in either layout;
* `Encoding.ofNumbers_outcome`: what becomes of every list of numbers.
-/

namespace TablePack

lemma isLeast_byteWidth (n : ℕ) : IsLeast {width | 1 ≤ width ∧ n < 256 ^ width} (byteWidth n) :=
  ⟨byteWidth_le_iff.1 le_rfl, fun _ h => byteWidth_le_iff.2 h⟩

lemma byteWidth_le_eight_iff {n : ℕ} : byteWidth n ≤ 8 ↔ n < 2 ^ 64 := by
  have hpow : (256 : ℕ) ^ 8 = 2 ^ 64 := by norm_num
  rw [byteWidth_le_iff, hpow, and_iff_right (by norm_num)]

namespace Encoding

/-! ## The greatest number -/

/-- The greatest of some numbers. -/
def greatest (numbers : List ℕ) : ℕ := numbers.max?.getD 0

lemma isGreatest_greatest {numbers : List ℕ} (hne : numbers ≠ []) :
    IsGreatest {n | n ∈ numbers} (greatest numbers) := by
  obtain ⟨max, hmax⟩ := Option.ne_none_iff_exists'.1 (mt List.max?_eq_none_iff.1 hne)
  rw [greatest, hmax]
  exact ⟨(List.max?_eq_some_iff.1 hmax).1, (List.max?_eq_some_iff.1 hmax).2⟩

lemma width_of_ofNumbers {flatOffsets : Bool} {numbers : List ℕ} {e : Encoding}
    (h : ofNumbers flatOffsets numbers = .ok e) : e.width = byteWidth (greatest numbers) := by
  unfold ofNumbers at h
  split at h
  · cases h
  · rename_i max hmax
    dsimp only at h
    split_ifs at h
    cases h
    rw [greatest, hmax]
    rfl

/-! ## Buffers -/

/-- The buffers of an encoding hold some number of elements: in as many planes as an element has
bytes, or in one flat buffer of words. -/
def Laid (e : Encoding) (count : ℕ) : Prop :=
  (e.variant.stride? = none ∧ e.buffers.length = e.width ∧
    ∀ buffer ∈ e.buffers, buffer.length = count) ∨
  (e.variant.stride? = some e.width ∧
    ∃ buffer, e.buffers = [buffer] ∧ buffer.length = count * e.width)

lemma laid_of_ofNumbers {flatOffsets : Bool} {numbers : List ℕ} {e : Encoding}
    (h : ofNumbers flatOffsets numbers = .ok e) : e.Laid numbers.length := by
  obtain ⟨-, -, -, hvariant, hbuffers⟩ := ofNumbers_eq_ok h
  have hstride := (ofWidth_fits flatOffsets e.width).2
  rw [← hvariant] at hstride
  cases hkind : e.variant.stride? with
  | none =>
    rw [buffersFor, hkind] at hbuffers
    exact .inl ⟨hkind, by simp [hbuffers, planes], by simp [hbuffers, planes]⟩
  | some stride =>
    rw [buffersFor, hkind] at hbuffers
    obtain rfl := hstride stride hkind
    exact .inr ⟨hkind, _, hbuffers, length_flat _ _⟩

lemma size_eq_of_length {e : Encoding} {n : ℕ} (h : ∀ buffer ∈ e.buffers, buffer.length = n) :
    e.size = e.buffers.length * n := by
  have hfold : ∀ buffers : List (List UInt8), (∀ buffer ∈ buffers, buffer.length = n) →
      buffers.foldr (fun buffer m => buffer.length + m) 0 = buffers.length * n := by
    intro buffers hbuffers
    induction buffers with
    | nil => simp
    | cons buffer buffers ih =>
      obtain ⟨hbuffer, hrest⟩ := List.forall_mem_cons.1 hbuffers
      rw [List.foldr_cons, ih hrest, hbuffer, List.length_cons, Nat.succ_mul, Nat.add_comm]
  exact hfold e.buffers h

/-- Both layouts take as many bytes as the width and the number of elements say. -/
lemma size_of_ofNumbers {flatOffsets : Bool} {numbers : List ℕ} {e : Encoding}
    (h : ofNumbers flatOffsets numbers = .ok e) : e.size = e.width * numbers.length := by
  rcases laid_of_ofNumbers h with ⟨-, hcount, hlength⟩ | ⟨-, buffer, hbuffers, hlength⟩
  · rw [size_eq_of_length hlength, hcount]
  · rw [size_eq_of_length (n := numbers.length * e.width) (by simp [hbuffers, hlength]), hbuffers,
      List.length_singleton, Nat.one_mul, Nat.mul_comm]

/-! ## Success and failure -/

lemma ofNumbers_eq_empty_iff {flatOffsets : Bool} {numbers : List ℕ} :
    ofNumbers flatOffsets numbers = .error .empty ↔ numbers = [] := by
  unfold ofNumbers
  cases hmax : numbers.max? with
  | none => simpa using List.max?_eq_none_iff.1 hmax
  | some max =>
    have hne : numbers ≠ [] := fun hnil => by simp [hnil] at hmax
    dsimp only
    split_ifs <;> simp [hne]

/-- Numbers of which one is too large are refused, whatever the layout. -/
lemma ofNumbers_of_oversize (flatOffsets : Bool) {numbers : List ℕ}
    (h : ∃ n ∈ numbers, 2 ^ 64 ≤ n) :
    ofNumbers flatOffsets numbers
      = .error (.oversize (greatest numbers) (byteWidth (greatest numbers))) := by
  obtain ⟨n, hn, hlarge⟩ := h
  obtain ⟨max, hmax⟩ := Option.ne_none_iff_exists'.1
    (mt List.max?_eq_none_iff.1 (List.ne_nil_of_mem hn))
  have hwide : 8 < byteWidth max := by
    have hle : n ≤ max := (List.max?_eq_some_iff.1 hmax).2 n hn
    rw [← not_le, byteWidth_le_eight_iff]
    omega
  rw [greatest, hmax, ofNumbers, hmax]
  exact if_pos hwide

/-- A list of numbers is packed if it is not empty and no number of it needs more than eight
bytes. -/
lemma exists_ofNumbers_iff {flatOffsets : Bool} {numbers : List ℕ} :
    (∃ e, ofNumbers flatOffsets numbers = .ok e) ↔ numbers ≠ [] ∧ ∀ n ∈ numbers, n < 2 ^ 64 := by
  refine ⟨?_, fun h => exists_ofNumbers flatOffsets h.1 h.2⟩
  rintro ⟨e, he⟩
  refine ⟨fun hnil => ?_, ?_⟩
  · rw [ofNumbers_eq_empty_iff.2 hnil] at he
    cases he
  · by_contra! hlarge
    rw [ofNumbers_of_oversize flatOffsets hlarge] at he
    cases he

lemma ofNumbers_eq_oversize_iff {flatOffsets : Bool} {numbers : List ℕ} {max width : ℕ} :
    ofNumbers flatOffsets numbers = .error (.oversize max width) ↔
      (∃ n ∈ numbers, 2 ^ 64 ≤ n) ∧ IsGreatest {n | n ∈ numbers} max ∧
        IsLeast {width | 1 ≤ width ∧ max < 256 ^ width} width := by
  constructor
  · intro h
    have hne : numbers ≠ [] := fun hnil => by
      rw [ofNumbers_eq_empty_iff.2 hnil] at h
      cases h
    have hlarge : ∃ n ∈ numbers, 2 ^ 64 ≤ n := by
      by_contra! hsmall
      obtain ⟨e, he⟩ := exists_ofNumbers flatOffsets hne hsmall
      rw [he] at h
      cases h
    rw [ofNumbers_of_oversize flatOffsets hlarge] at h
    cases h
    exact ⟨hlarge, isGreatest_greatest hne, isLeast_byteWidth _⟩
  · rintro ⟨hlarge, hmax, hwidth⟩
    have hne : numbers ≠ [] := List.ne_nil_of_mem hmax.1
    obtain rfl := hmax.unique (isGreatest_greatest hne)
    obtain rfl := hwidth.unique (isLeast_byteWidth _)
    exact ofNumbers_of_oversize flatOffsets hlarge

/-- The width of a packed list of numbers is bounded by every width that holds all of them. -/
lemma width_le_iff {flatOffsets : Bool} {numbers : List ℕ} {e : Encoding}
    (h : ofNumbers flatOffsets numbers = .ok e) {width : ℕ} :
    e.width ≤ width ↔ 1 ≤ width ∧ ∀ n ∈ numbers, n < 256 ^ width := by
  have hmax := isGreatest_greatest (exists_ofNumbers_iff.1 ⟨e, h⟩).1
  rw [width_of_ofNumbers h, byteWidth_le_iff]
  exact and_congr_right fun _ =>
    ⟨fun hlt n hn => (hmax.2 hn).trans_lt hlt, fun hlt => hlt _ hmax.1⟩

lemma isLeast_width {flatOffsets : Bool} {numbers : List ℕ} {e : Encoding}
    (h : ofNumbers flatOffsets numbers = .ok e) :
    IsLeast {width | 1 ≤ width ∧ width ≤ 8 ∧ ∀ n ∈ numbers, n < 256 ^ width} e.width := by
  obtain ⟨hpos, hle, hlt, -, -⟩ := ofNumbers_eq_ok h
  exact ⟨⟨hpos, hle, hlt⟩, fun width hwidth => (width_le_iff h).2 ⟨hwidth.1, hwidth.2.2⟩⟩

/-- What becomes of a list of numbers, whichever layout is wanted. An empty list cannot be packed. A
list with a number of more than eight bytes cannot either, and the error gives its greatest number
and the number of bytes that this number needs. All other lists are packed in the least number of
bytes that holds every element, as planes or as a flat buffer of the size that this takes. -/
theorem ofNumbers_outcome (flatOffsets : Bool) (numbers : List ℕ) :
    (ofNumbers flatOffsets numbers = .error .empty ↔ numbers = []) ∧
    (∀ max width, ofNumbers flatOffsets numbers = .error (.oversize max width) ↔
      (∃ n ∈ numbers, 2 ^ 64 ≤ n) ∧ IsGreatest {n | n ∈ numbers} max ∧
        IsLeast {width | 1 ≤ width ∧ max < 256 ^ width} width) ∧
    ((numbers ≠ [] ∧ ∀ n ∈ numbers, n < 2 ^ 64) ↔
      ∃ e, ofNumbers flatOffsets numbers = .ok e ∧
        IsLeast {width | 1 ≤ width ∧ width ≤ 8 ∧ ∀ n ∈ numbers, n < 256 ^ width} e.width ∧
        e.Laid numbers.length ∧ e.size = e.width * numbers.length) := by
  refine ⟨ofNumbers_eq_empty_iff, fun max width => ofNumbers_eq_oversize_iff, fun h => ?_, ?_⟩
  · obtain ⟨e, he⟩ := exists_ofNumbers flatOffsets h.1 h.2
    exact ⟨e, he, isLeast_width he, laid_of_ofNumbers he, size_of_ofNumbers he⟩
  · rintro ⟨e, he, -⟩
    exact exists_ofNumbers_iff.1 ⟨e, he⟩

end Encoding

end TablePack
