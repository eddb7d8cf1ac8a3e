import Mathlib.Tactic
import TablePack.Proofs.LineIndex
import TablePack.Proofs.Offset
import TablePack.Token.Quoting

/-!
# Characters and their bytes

The first byte of a character tells it apart from the bytes after it (`isContinuation_lead`,
`isContinuation_of_mem_trail`). In ASCII a character is its first byte (`lead_of_narrow`), and the
first bytes of all other characters lie outside of ASCII. So a class of characters that holds all
characters outside ASCII or none of them is seen on the bytes alone (`Sees`).
-/

namespace TablePack

namespace Text

/-! ## First bytes and other bytes -/

/-- The first byte of a character. -/
def lead (c : Char) : UInt8 := (String.utf8EncodeChar c).headD 0

/-- The bytes of a character after the first one. -/
def trail (c : Char) : List UInt8 := (String.utf8EncodeChar c).tail

lemma utf8EncodeChar_eq (c : Char) : String.utf8EncodeChar c = lead c :: trail c := by
  have hpos : 0 < (String.utf8EncodeChar c).length := by
    rw [String.length_utf8EncodeChar]
    exact c.utf8Size_pos
  rw [lead, trail]
  cases h : String.utf8EncodeChar c with
  | nil => simp [h] at hpos
  | cons b bs => rfl

lemma length_trail (c : Char) : (trail c).length = c.utf8Size - 1 := by
  rw [trail, List.length_tail, String.length_utf8EncodeChar]

lemma bytes_cons_eq (c : Char) (t : Text) : bytes (c :: t) = lead c :: (trail c ++ bytes t) := by
  rw [bytes_cons, utf8EncodeChar_eq, List.cons_append]

lemma isContinuation_iff (b : UInt8) :
    Byte.isContinuation b ↔ 0x80 ≤ b.toNat ∧ b.toNat < 0xc0 := by
  have hall : ∀ n : Fin 256, Byte.isContinuation (UInt8.ofNat n)
      ↔ 0x80 ≤ (n : ℕ) ∧ (n : ℕ) < 0xc0 := by
    decide +kernel
  have h := hall ⟨b.toNat, b.toNat_lt⟩
  rwa [UInt8.ofNat_toNat] at h

lemma toNat_lt (c : Char) : c.toNat < 0x110000 := by
  have hvalid : c.val.toNat < 0xd800 ∨ 0xdfff < c.val.toNat ∧ c.val.toNat < 0x110000 := c.valid
  change c.val.toNat < 0x110000
  omega

lemma toNat_lead (c : Char) : (lead c).toNat = leadByte c := by
  have hlt := toNat_lt c
  have hval : c.val.toNat = c.toNat := rfl
  simp only [lead, leadByte, String.utf8EncodeChar, hval]
  split_ifs <;> simp only [List.headD_cons, UInt8.toNat_ofNat'] <;> omega

lemma isContinuation_of_mem_trail {c : Char} {b : UInt8} (h : b ∈ trail c) :
    Byte.isContinuation b := by
  rw [isContinuation_iff]
  simp only [trail, String.utf8EncodeChar] at h
  split_ifs at h
  · cases h
  · obtain rfl := List.mem_singleton.1 h
    simp only [UInt8.toNat_ofNat']
    omega
  · rcases List.mem_pair.1 h with rfl | rfl <;> simp only [UInt8.toNat_ofNat'] <;> omega
  · simp only [List.tail_cons, List.mem_cons, List.not_mem_nil, or_false] at h
    rcases h with rfl | rfl | rfl <;> simp only [UInt8.toNat_ofNat'] <;> omega

lemma isWide_iff (c : Char) : isWide c ↔ 0x80 ≤ c.toNat := by
  simp [isWide]

lemma utf8Size_of_narrow {c : Char} (h : ¬ isWide c) : c.utf8Size = 1 := by
  rw [isWide_iff, not_le] at h
  rw [Char.utf8Size_eq_one_iff, UInt32.le_iff_toNat_le]
  exact Nat.le_of_lt_succ h

lemma lead_of_narrow {c : Char} (h : ¬ isWide c) : lead c = ascii c := by
  rw [isWide_iff, not_le] at h
  rw [← UInt8.toNat_inj, toNat_lead, ascii, UInt8.toNat_ofNat']
  simp only [leadByte, if_pos h]
  omega

lemma le_toNat_lead_of_wide {c : Char} (h : isWide c) : 0xc0 ≤ (lead c).toNat := by
  rw [isWide_iff] at h
  have hlt := toNat_lt c
  rw [toNat_lead]
  simp only [leadByte]
  split_ifs <;> omega

lemma not_isContinuation_lead (c : Char) : Byte.isContinuation (lead c) = false := by
  rw [Bool.eq_false_iff, Ne, isContinuation_iff]
  by_cases h : isWide c
  · have hle := le_toNat_lead_of_wide h
    omega
  · rw [lead_of_narrow h, ascii, UInt8.toNat_ofNat']
    rw [isWide_iff, not_le] at h
    omega

lemma trail_of_narrow {c : Char} (h : ¬ isWide c) : trail c = [] := by
  rw [← List.length_eq_zero_iff, length_trail, utf8Size_of_narrow h]

lemma trail_ne_nil_of_wide {c : Char} (h : isWide c) : trail c ≠ [] := by
  rw [isWide_iff] at h
  have hsize : c.utf8Size ≠ 1 := by
    rw [Ne, Char.utf8Size_eq_one_iff, UInt32.le_iff_toNat_le]
    exact fun hle => absurd (Nat.lt_succ_of_le hle) (not_lt.2 h)
  have hpos := c.utf8Size_pos
  rw [Ne, ← List.length_eq_zero_iff, length_trail]
  omega

/-- A byte of ASCII is the first byte of one character alone. -/
lemma lead_eq_ascii_iff {c d : Char} (hd : d.toNat < 0x80) : lead c = ascii d ↔ c = d := by
  constructor
  · intro h
    have hval := congrArg UInt8.toNat h
    rw [ascii, UInt8.toNat_ofNat'] at hval
    by_cases hc : isWide c
    · have hle := le_toNat_lead_of_wide hc
      omega
    · rw [lead_of_narrow hc, ascii, UInt8.toNat_ofNat'] at hval
      rw [isWide_iff, not_le] at hc
      exact Char.toNat_inj.1 (by omega)
  · rintro rfl
    exact lead_of_narrow (by rw [isWide_iff]; omega)

lemma lead_beq_ascii {c d : Char} (hd : d.toNat < 0x80) : (lead c == ascii d) = (c == d) := by
  rw [Bool.eq_iff_iff, beq_iff_eq, beq_iff_eq]
  exact lead_eq_ascii_iff hd

lemma map_lead_beq {x : Option Char} {d : Char} (hd : d.toNat < 0x80) :
    (x.map lead == some (ascii d)) = (x == some d) := by
  cases x with
  | none => rfl
  | some c => exact lead_beq_ascii hd

/-- A byte of ASCII is the last byte of one character alone. -/
lemma getLast_beq_ascii {d : Char} (hd : d.toNat < 0x80) (c : Char) :
    ((lead c :: trail c).getLast (List.cons_ne_nil _ _) == ascii d) = (c == d) := by
  rw [← lead_beq_ascii hd]
  by_cases hc : isWide c
  · have hne := trail_ne_nil_of_wide hc
    have hmem := isContinuation_of_mem_trail (List.getLast_mem hne)
    have hle := le_toNat_lead_of_wide hc
    rw [isContinuation_iff] at hmem
    rw [List.getLast_cons hne, Bool.eq_iff_iff, beq_iff_eq, beq_iff_eq, ← UInt8.toNat_inj,
      ← UInt8.toNat_inj, ascii, UInt8.toNat_ofNat']
    omega
  · simp [trail_of_narrow hc]

/-- Delimiters are told apart by their first bytes. -/
lemma lead_beq_lead (c d : Char) : (lead c == lead d) = Quoting.delimits d c := by
  rw [Quoting.delimits]
  by_cases hd : isWide d
  · rw [hd, Bool.true_and, Bool.eq_iff_iff, beq_iff_eq, ← UInt8.toNat_inj, toNat_lead, toNat_lead,
      Bool.or_eq_true, beq_iff_eq, beq_iff_eq]
    exact ⟨.inr, fun h => h.elim (fun hcd => hcd ▸ rfl) id⟩
  · rw [lead_of_narrow hd, lead_beq_ascii (not_le.1 (mt (isWide_iff d).2 hd))]
    simp [hd]

/-! ## Classes -/

/-- A class of bytes that holds just the bytes of the characters in a class. -/
structure Sees (p : UInt8 → Bool) (P : Char → Bool) : Prop where
  lead_eq (c : Char) : p (lead c) = P c
  trail_eq (c : Char) (b : UInt8) : b ∈ trail c → p b = P c

lemma Sees.any_map_lead {p : UInt8 → Bool} {P : Char → Bool} (h : Sees p P) (x : Option Char) :
    (x.map lead).any p = x.any P := by
  cases x with
  | none => rfl
  | some c => exact h.lead_eq c

lemma Sees.all_map_lead {p : UInt8 → Bool} {P : Char → Bool} (h : Sees p P) (x : Option Char) :
    (x.map lead).all p = x.all P := by
  cases x with
  | none => rfl
  | some c => exact h.lead_eq c

lemma Sees.not {p : UInt8 → Bool} {P : Char → Bool} (h : Sees p P) :
    Sees (fun b => !p b) fun c => !P c :=
  ⟨fun c => congrArg (!·) (h.lead_eq c), fun c b hb => congrArg (!·) (h.trail_eq c b hb)⟩

lemma Sees.and {p q : UInt8 → Bool} {P Q : Char → Bool} (hp : Sees p P) (hq : Sees q Q) :
    Sees (fun b => p b && q b) (fun c => P c && Q c) where
  lead_eq c := by rw [hp.lead_eq, hq.lead_eq]
  trail_eq c b hb := by rw [hp.trail_eq c b hb, hq.trail_eq c b hb]

lemma Sees.or {p q : UInt8 → Bool} {P Q : Char → Bool} (hp : Sees p P) (hq : Sees q Q) :
    Sees (fun b => p b || q b) (fun c => P c || Q c) where
  lead_eq c := by rw [hp.lead_eq, hq.lead_eq]
  trail_eq c b hb := by rw [hp.trail_eq c b hb, hq.trail_eq c b hb]

/-! The classes are made of single characters, ranges of characters, and all that is not ASCII. -/

lemma isWide_of_mem_trail {c : Char} {b : UInt8} (h : b ∈ trail c) : isWide c := by
  by_contra hc
  rw [trail_of_narrow hc] at h
  cases h

lemma le_toNat_of_mem_trail {c : Char} {b : UInt8} (h : b ∈ trail c) : 0x80 ≤ b.toNat :=
  ((isContinuation_iff b).1 (isContinuation_of_mem_trail h)).1

lemma ne_of_isWide {c d : Char} (h : isWide c) (hd : d.toNat < 0x80) : (c == d) = false := by
  rw [isWide_iff] at h
  rw [beq_eq_false_iff_ne]
  rintro rfl
  omega

lemma toNat_ascii {d : Char} (hd : d.toNat < 0x80) : (ascii d).toNat = d.toNat := by
  rw [ascii, UInt8.toNat_ofNat']
  omega

lemma sees_eq {d : Char} (hd : d.toNat < 0x80) : Sees (· == ascii d) (· == d) where
  lead_eq c := lead_beq_ascii hd
  trail_eq c b hb := by
    have hle := le_toNat_of_mem_trail hb
    rw [ne_of_isWide (isWide_of_mem_trail hb) hd, beq_eq_false_iff_ne]
    rintro rfl
    rw [toNat_ascii hd] at hle
    omega

lemma sees_ne {d : Char} (hd : d.toNat < 0x80) : Sees (· != ascii d) (· != d) := (sees_eq hd).not

/-- A range ends in ASCII, so no other character is in it. -/
lemma between_of_isWide {lo hi c : Char} (hhi : hi.toNat < 0x80) (hc : isWide c) :
    (decide (lo.val ≤ c.val) && decide (c.val ≤ hi.val)) = false := by
  rw [isWide_iff] at hc
  have hlt : ¬ c.val ≤ hi.val := by
    rw [UInt32.le_iff_toNat_le]
    exact not_le.2 (Nat.lt_of_lt_of_le hhi hc)
  rw [decide_eq_false hlt, Bool.and_false]

lemma sees_between {lo hi : Char} (hlo : lo.toNat < 0x80) (hhi : hi.toNat < 0x80) :
    Sees (fun b => ascii lo ≤ b && b ≤ ascii hi) (fun c => lo.val ≤ c.val && c.val ≤ hi.val) := by
  have hwide {c : Char} {b : UInt8} (hc : isWide c) (hb : 0x80 ≤ b.toNat) :
      (decide (ascii lo ≤ b) && decide (b ≤ ascii hi))
        = (decide (lo.val ≤ c.val) && decide (c.val ≤ hi.val)) := by
    have hlt : ¬ b ≤ ascii hi := by
      rw [UInt8.le_iff_toNat_le, toNat_ascii hhi]
      exact not_le.2 (Nat.lt_of_lt_of_le hhi hb)
    rw [between_of_isWide hhi hc, decide_eq_false hlt, Bool.and_false]
  refine ⟨fun c => ?_, fun c b hb => hwide (isWide_of_mem_trail hb) (le_toNat_of_mem_trail hb)⟩
  by_cases hc : isWide c
  · exact hwide hc (Nat.le_trans (by decide) (le_toNat_lead_of_wide hc))
  · have hlt := hc
    rw [isWide_iff, not_le] at hlt
    simp only [lead_of_narrow hc, UInt8.le_iff_toNat_le, toNat_ascii hlo, toNat_ascii hhi,
      toNat_ascii hlt, UInt32.le_iff_toNat_le, Char.toNat]

lemma sees_isWide : Sees (fun b => 0x80 ≤ b) isWide where
  lead_eq c := by
    by_cases hc : isWide c
    · rw [hc, decide_eq_true_eq, UInt8.le_iff_toNat_le]
      exact Nat.le_trans (by decide) (le_toNat_lead_of_wide hc)
    · have hlt := hc
      rw [isWide_iff, not_le] at hlt
      rw [Bool.not_eq_true] at hc
      rw [hc, decide_eq_false_iff_not, UInt8.le_iff_toNat_le,
        lead_of_narrow (by simp [hc]), toNat_ascii hlt]
      exact not_le.2 hlt
  trail_eq c b hb := by
    rw [isWide_of_mem_trail hb, decide_eq_true_eq, UInt8.le_iff_toNat_le]
    exact le_toNat_of_mem_trail hb

lemma sees_isIndent : Sees Byte.isIndent isIndent := (sees_eq (by decide)).or (sees_eq (by decide))

lemma sees_isBlank : Sees Byte.isBlank isBlank :=
  ((sees_isIndent.or (sees_eq (by decide))).or (sees_eq (d := '\x0b') (by decide))).or
    (sees_eq (d := '\x0c') (by decide))

lemma sees_isSpace : Sees Byte.isSpace isSpace :=
  ((sees_isIndent.or (sees_eq (by decide))).or (sees_eq (d := '\x0c') (by decide))).or
    (sees_eq (by decide))

lemma sees_isDigit : Sees Byte.isDigit Char.isDigit := sees_between (by decide) (by decide)

lemma isUpper_eq : Char.isUpper = fun c : Char => 'A'.val ≤ c.val && c.val ≤ 'Z'.val :=
  funext fun _ => Bool.decide_and ..

lemma sees_isUpper : Sees Byte.isUpper Char.isUpper := by
  rw [isUpper_eq]
  exact sees_between (by decide) (by decide)

lemma sees_isLower : Sees Byte.isLower Char.isLower := sees_between (by decide) (by decide)

lemma sees_isAlphanum : Sees Byte.isAlphanum Char.isAlphanum :=
  (sees_isUpper.or sees_isLower).or sees_isDigit

lemma sees_isAlphanumOrScore : Sees (fun b => Byte.isAlphanum b || b == ascii '_')
    fun c => c.isAlphanum || c == '_' :=
  sees_isAlphanum.or (sees_eq (by decide))

lemma isLower_of_isWide {c : Char} (hc : isWide c) : c.isLower = false :=
  between_of_isWide (by decide) hc

lemma isAlphanum_of_isWide {c : Char} (hc : isWide c) : c.isAlphanum = false := by
  have hupper : c.isUpper = false := by
    rw [isUpper_eq]
    exact between_of_isWide (by decide) hc
  have hdigit : c.isDigit = false := between_of_isWide (by decide) hc
  change (c.isUpper || c.isLower || c.isDigit) = false
  rw [hupper, isLower_of_isWide hc, hdigit]
  rfl

lemma sees_isNameStart : Sees Byte.isNameStart isNameStart :=
  ((sees_isUpper.or sees_isLower).or (sees_eq (by decide))).or sees_isWide

lemma sees_isNameChar : Sees Byte.isNameChar isNameChar := sees_isNameStart.or sees_isDigit

lemma sees_isDigitOrScore : Sees Byte.isDigitOrScore isDigitOrScore :=
  sees_isDigit.or (sees_eq (by decide))

lemma sees_isGraphic : Sees Byte.isGraphic isGraphic :=
  @sees_between '!' '~' (by decide) (by decide)

lemma takeWhile_bytes {p : UInt8 → Bool} {P : Char → Bool} (h : Sees p P) (t : Text) :
    (bytes t).takeWhile p = bytes (t.takeWhile P) := by
  induction t with
  | nil => rfl
  | cons c t ih =>
    rw [bytes_cons_eq, List.takeWhile_cons, List.takeWhile_cons, h.lead_eq]
    by_cases hc : P c
    · have htrail : ∀ b ∈ trail c, p b := fun b hb => (h.trail_eq c b hb).trans hc
      rw [if_pos hc, if_pos hc, bytes_cons_eq, List.takeWhile_append_of_pos htrail, ih]
    · rw [if_neg hc, if_neg hc]
      rfl

lemma any_bytes {p : UInt8 → Bool} {P : Char → Bool} (h : Sees p P) (t : Text) :
    (bytes t).any p = t.any P := by
  induction t with
  | nil => rfl
  | cons c t ih =>
    have htrail : ((trail c).any p) = (P c && (trail c).any p) := by
      rw [Bool.eq_iff_iff, Bool.and_eq_true, iff_and_self, List.any_eq_true]
      rintro ⟨b, hb, hp⟩
      rw [← h.trail_eq c b hb, hp]
    rw [bytes_cons_eq, List.any_cons, List.any_append, List.any_cons, ih, h.lead_eq, htrail,
      ← Bool.or_assoc]
    cases P c <;> rfl

end Text

end TablePack
