import Mathlib.Tactic
import TablePack.Proofs.Stream

/-!
# Integer literals

The grammar of integer literals, by the characters that may stand in them, and the numbers that they
spell. A literal is read twice, by the scanner, which finds its end and checks its digits, and by
`Numeral.value`, which looks for a radix mark of its own and counts every character that it does not
know as zero. The two agree on the grammar, so there is no such character, and what is read is the
number, up to the limit of 128 bits.

* `Numeral.digit?_eq`: the characters that are known as digits;
* `Numeral.grammar_of_literal`: what the scanner checks is the grammar;
* `Numeral.exact_of_grammar`: how a literal of the grammar is evaluated;
* `Token.scan_integers`: the integers of a text.
-/

namespace TablePack

namespace Numeral

/-! ## The grammar -/

/-- The value of a digit, in either case: its place among the digits. -/
def digitValue (c : Char) : ℕ := "0123456789abcdef".toList.idxOf c.toLower

/-- The number that digits spell in a radix, the most significant one first. Underscores are
dropped. -/
def number (radix : ℕ) (digits : Text) : ℕ :=
  Nat.ofDigits radix ((digits.filter (· != '_')).map digitValue).reverse

/-- The digits of a radix, with the letters that mark it after a zero. -/
structure Base where
  radix : ℕ
  marks : Text
  digits : Text
deriving DecidableEq

def hexadecimal : Base := ⟨16, "xX".toList, "0123456789abcdefABCDEF".toList⟩

def binary : Base := ⟨2, "bB".toList, "01".toList⟩

def octal : Base := ⟨8, "oO".toList, "01234567".toList⟩

def decimal : Base := ⟨10, "dD".toList, "0123456789".toList⟩

def bases : List Base := [hexadecimal, binary, octal, decimal]

lemma octal_mem : octal ∈ bases := by decide

lemma decimal_mem : decimal ∈ bases := by decide

/-- A text of digits of a base, and of underscores. -/
def Base.Spells (base : Base) (digits : Text) : Prop := ∀ c ∈ digits, c = '_' ∨ c ∈ base.digits

instance (base : Base) (digits : Text) : Decidable (base.Spells digits) :=
  decidable_of_iff (digits.all fun c => c == '_' || base.digits.contains c) (by simp [Base.Spells])

/-- The grammar of integer literals, with the radix and the digits of each. -/
inductive Grammar : Text → ℕ → Text → Prop where
  /-- A zero, the mark of a base, and at least one digit or underscore. -/
  | marked {base : Base} {mark : Char} {digits : Text} (hbase : base ∈ bases)
      (hmark : mark ∈ base.marks) (hne : digits ≠ []) (hdigits : base.Spells digits) :
      Grammar ('0' :: mark :: digits) base.radix digits
  /-- A zero, and perhaps octal digits after it. -/
  | zero {digits : Text} (hdigits : octal.Spells digits) : Grammar ('0' :: digits) 8 ('0' :: digits)
  /-- Decimal digits, the first one not zero. -/
  | plain {first : Char} {digits : Text} (hfirst : first ∈ "123456789".toList)
      (hdigits : decimal.Spells digits) : Grammar (first :: digits) 10 (first :: digits)

/-! ## Digits -/

lemma toNat_lt_of_digit? {radix v : ℕ} {c : Char} (h : digit? radix c = some v) :
    c.toNat < 128 := by
  by_contra hge
  have hdigit : c.isDigit = false := by
    rw [Bool.eq_false_iff, Ne, Text.isDigit_iff]
    omega
  have hlower : c.toLower = c := by
    refine dif_neg fun hupper => ?_
    have hle : c.toNat ≤ 90 := UInt32.le_iff_toNat_le.1 hupper.2
    omega
  have hletter : c.isLower = false := by
    rw [Bool.eq_false_iff, Ne, Text.isLower_iff]
    omega
  simp [digit?, hdigit, hlower, hletter] at h

/-- The characters that are known as digits of a base, with their values. -/
lemma digit?_eq {base : Base} (hbase : base ∈ bases) (c : Char) :
    digit? base.radix c = if c ∈ base.digits then some (digitValue c) else none := by
  have hascii : ∀ n < 128, bases.all (fun base => digit? base.radix (Char.ofNat n)
      == if Char.ofNat n ∈ base.digits then some (digitValue (Char.ofNat n)) else none) = true := by
    decide +kernel
  by_cases hlt : c.toNat < 128
  · have hc := List.all_eq_true.1 (hascii c.toNat hlt) base hbase
    rwa [Char.ofNat_toNat, beq_iff_eq] at hc
  · have hsmall : ∀ base ∈ bases, base.digits.all (fun c => c.toNat < 128) = true := by decide
    have hnot : c ∉ base.digits := by
      intro hc
      have := List.all_eq_true.1 (hsmall base hbase) c hc
      exact hlt (of_decide_eq_true this)
    rw [if_neg hnot, Option.eq_none_iff_forall_ne_some]
    intro v hv
    exact hlt (toNat_lt_of_digit? hv)

lemma not_mem_digits_score {base : Base} (hbase : base ∈ bases) : '_' ∉ base.digits := by
  have hall : ∀ base ∈ bases, '_' ∉ base.digits := by decide
  exact hall base hbase

lemma isDigitOf_iff {base : Base} (hbase : base ∈ bases) (c : Char) :
    IsDigitOf base.radix c ↔ c = '_' ∨ c ∈ base.digits := by
  rw [IsDigitOf, digit?_eq hbase]
  split_ifs with hc <;> simp [hc]

lemma spells_iff {base : Base} (hbase : base ∈ bases) (digits : Text) :
    base.Spells digits ↔ ∀ c ∈ digits, IsDigitOf base.radix c :=
  forall₂_congr fun c _ => (isDigitOf_iff hbase c).symm

/-- The digits that the reader knows are all that are written. -/
lemma positional_eq_number {base : Base} (hbase : base ∈ bases) {digits : Text}
    (h : base.Spells digits) : positional base.radix digits = number base.radix digits := by
  have hdigits : digits.filterMap (digit? base.radix)
      = (digits.filter (· != '_')).map digitValue := by
    induction digits with
    | nil => rfl
    | cons c digits ih =>
      have ih := ih fun d hd => h d (List.mem_cons_of_mem _ hd)
      rcases h c List.mem_cons_self with rfl | hc
      · have hnone : digit? base.radix '_' = none := by
          rw [digit?_eq hbase, if_neg (not_mem_digits_score hbase)]
        rw [List.filterMap_cons_none hnone, List.filter_cons_of_neg (by simp), ih]
      · have hscore : c ≠ '_' := by
          rintro rfl
          exact not_mem_digits_score hbase hc
        rw [List.filterMap_cons_some ((digit?_eq hbase c).trans (if_pos hc)),
          List.filter_cons_of_pos (by simpa using hscore), List.map_cons, ih]
  rw [positional, number, hdigits]

/-- A leading zero does not count. -/
lemma number_zero_cons (radix : ℕ) (digits : Text) :
    number radix ('0' :: digits) = number radix digits := by
  have hzero : digitValue '0' = 0 := by decide
  rw [number, number, List.filter_cons_of_pos (by decide), List.map_cons, hzero, List.reverse_cons,
    Nat.ofDigits_append, Nat.ofDigits_singleton, Nat.mul_zero, Nat.add_zero]

/-! ## The grammar and the scanner -/

lemma radixMark?_eq_some_iff {mark : Char} {radix : ℕ} :
    radixMark? mark = some radix ↔ ∃ base ∈ bases, mark ∈ base.marks ∧ base.radix = radix := by
  constructor
  · intro h
    unfold radixMark? at h
    split at h <;> cases h
    · exact ⟨hexadecimal, by decide, by decide, rfl⟩
    · exact ⟨hexadecimal, by decide, by decide, rfl⟩
    · exact ⟨binary, by decide, by decide, rfl⟩
    · exact ⟨binary, by decide, by decide, rfl⟩
    · exact ⟨octal, octal_mem, by decide, rfl⟩
    · exact ⟨octal, octal_mem, by decide, rfl⟩
    · exact ⟨decimal, decimal_mem, by decide, rfl⟩
    · exact ⟨decimal, decimal_mem, by decide, rfl⟩
  · rintro ⟨base, hbase, hmark, rfl⟩
    have hall : bases.all (fun base =>
        base.marks.all fun mark => radixMark? mark == some base.radix) = true := by decide
    exact eq_of_beq (List.all_eq_true.1 (List.all_eq_true.1 hall base hbase) mark hmark)

lemma mem_nonzero_iff (c : Char) : c ∈ "123456789".toList ↔ c.isDigit ∧ c ≠ '0' := by
  constructor
  · have hall : ("123456789".toList.all fun c => c.isDigit && c != '0') = true := by decide
    intro hc
    simpa using List.all_eq_true.1 hall c hc
  · rintro ⟨hdigit, hzero⟩
    have hten := (isDigitOf_iff decimal_mem c).1 (isDigitOf_ten_of_isDigit hdigit)
    rcases hten with rfl | hc
    · cases hdigit
    · rw [show decimal.digits = '0' :: "123456789".toList from rfl] at hc
      exact (List.mem_cons.1 hc).resolve_left hzero

/-- What the scanner takes for an integer literal is in the grammar. -/
lemma grammar_of_literal {literal digits : Text} {radix : ℕ} (h : Literal literal radix digits) :
    ∃ digits', Grammar literal radix digits' := by
  cases h with
  | marked hmark hne hdigits =>
    obtain ⟨base, hbase, hmem, rfl⟩ := radixMark?_eq_some_iff.1 hmark
    exact ⟨_, .marked hbase hmem hne ((spells_iff hbase _).2 hdigits)⟩
  | octal hdigits => exact ⟨_, .zero ((spells_iff octal_mem _).2 hdigits)⟩
  | decimal hfirst hzero hdigits =>
    exact ⟨_, .plain ((mem_nonzero_iff _).2 ⟨hfirst, hzero⟩)
      ((spells_iff decimal_mem _).2 hdigits)⟩

/-! ## The grammar and the reader -/

/-- The number that the reader has come to after some digits. -/
def running (radix : ℕ) (digits : Text) : ℕ :=
  (digits.filter (· != '_')).foldl (shiftIn radix) 0

/-- A literal that is read exactly, with its radix and its digits. The reader divides the literal
into `parts` of its own. -/
structure Exact (literal : Text) (radix : ℕ) (digits : Text) : Prop where
  value_eq : value literal = min (2 ^ 128 - 1) (number radix digits)
  /-- No character counts as zero for not being a digit. -/
  known : ∀ c ∈ (parts literal).2, c ≠ '_' → digit? (parts literal).1 c = some (digitValue c)
  /-- The number so far is the one that is written so far. -/
  running_eq : ∀ read, read <+: (parts literal).2 →
    running (parts literal).1 read = min (2 ^ 128 - 1) (number (parts literal).1 read)
  /-- Once the limit is reached, it stays. -/
  saturated : ∀ read more, read <+: more → more <+: (parts literal).2 →
    running (parts literal).1 read = 2 ^ 128 - 1 → running (parts literal).1 more = 2 ^ 128 - 1

lemma limit_eq : limit = 2 ^ 128 - 1 := by decide

lemma value_eq_running (literal : Text) :
    value literal = running (parts literal).1 (parts literal).2 := rfl

lemma one_le_radix {base : Base} (hbase : base ∈ bases) : 1 ≤ base.radix := by
  have hall : ∀ base ∈ bases, 1 ≤ base.radix := by decide
  exact hall base hbase

lemma running_eq_min {base : Base} (hbase : base ∈ bases) {digits : Text}
    (h : base.Spells digits) :
    running base.radix digits = min (2 ^ 128 - 1) (number base.radix digits) := by
  rw [running, foldl_shiftIn_zero (one_le_radix hbase) ((spells_iff hbase digits).1 h),
    positional_eq_number hbase h, limit_eq, min_comm]

lemma foldl_shiftIn_limit {radix : ℕ} (hr : 1 ≤ radix) (cs : Text) :
    cs.foldl (shiftIn radix) limit = limit := by
  induction cs with
  | nil => rfl
  | cons c cs ih =>
    have hle : limit * 1 ≤ limit * radix := Nat.mul_le_mul_left limit hr
    rw [List.foldl_cons, shiftIn, min_eq_right (by omega), ih]

lemma running_append_of_limit {radix : ℕ} (hr : 1 ≤ radix) {read : Text}
    (h : running radix read = limit) (more : Text) : running radix (read ++ more) = limit := by
  rw [running] at h
  rw [running, List.filter_append, List.foldl_append, h, foldl_shiftIn_limit hr]

/-- The reader finds the digits that are written, and perhaps leaves out a leading zero. -/
lemma parts_of_grammar {literal digits : Text} {radix : ℕ} (h : Grammar literal radix digits) :
    ∃ base ∈ bases, (parts literal).1 = base.radix ∧ base.Spells (parts literal).2 ∧
      number base.radix (parts literal).2 = number radix digits := by
  cases h with
  | @marked base mark digits hbase hmark hne hdigits =>
    have hradix := radixMark?_eq_some_iff.2 ⟨base, hbase, hmark, rfl⟩
    have hparts : parts ('0' :: mark :: digits) = (base.radix, digits) := by
      rw [parts, hradix]
    rw [hparts]
    exact ⟨base, hbase, rfl, hdigits, rfl⟩
  | @zero digits hdigits =>
    cases digits with
    | nil => exact ⟨decimal, decimal_mem, rfl, by decide, by decide⟩
    | cons c digits =>
      -- an octal digit is no radix mark
      have hmark : radixMark? c = none :=
        radixMark?_of_isDigitOf ((spells_iff octal_mem _).1 hdigits c (by simp))
      have hparts : parts ('0' :: c :: digits) = (8, c :: digits) := by
        rw [parts, hmark]
      rw [hparts]
      exact ⟨octal, octal_mem, rfl, hdigits, (number_zero_cons 8 _).symm⟩
  | @plain first digits hfirst hdigits =>
    obtain ⟨hdigit, hzero⟩ := (mem_nonzero_iff first).1 hfirst
    rw [parts_of_ne_zero hzero]
    refine ⟨decimal, decimal_mem, rfl, fun c hc => ?_, rfl⟩
    rcases List.mem_cons.1 hc with rfl | hc
    · exact (isDigitOf_iff decimal_mem _).1 (isDigitOf_ten_of_isDigit hdigit)
    · exact hdigits c hc

/-- What is in the grammar is read exactly. -/
lemma exact_of_grammar {literal digits : Text} {radix : ℕ} (h : Grammar literal radix digits) :
    Exact literal radix digits := by
  obtain ⟨base, hbase, hradix, hspells, hnumber⟩ := parts_of_grammar h
  have hread : ∀ read, read <+: (parts literal).2 → base.Spells read :=
    fun read hread c hc => hspells c (hread.subset hc)
  constructor
  · rw [value_eq_running, hradix, running_eq_min hbase hspells, hnumber]
  · intro c hc hscore
    rw [hradix, digit?_eq hbase, if_pos ((hspells c hc).resolve_left hscore)]
  · intro read hprefix
    rw [hradix, running_eq_min hbase (hread read hprefix)]
  · rintro read more ⟨rest, rfl⟩ - hlimit
    rw [← limit_eq] at hlimit ⊢
    exact running_append_of_limit (hradix ▸ one_le_radix hbase) hlimit rest

end Numeral

namespace Token

open Numeral (Grammar Exact)

/-- Every integer token of a text is in the grammar of integer literals, and it is read exactly. -/
theorem scan_integers {source : Text} {tokens : List Token} (h : scan source = .ok tokens)
    {t : Token} (ht : t ∈ tokens) (hkind : t.kind = .int) :
    (∃ radix digits, Grammar t.text radix digits) ∧
      ∀ radix digits, Grammar t.text radix digits → Exact t.text radix digits := by
  obtain ⟨radix, digits, hliteral⟩ := ((stream_of_scan h).2 t ht).integer hkind
  exact ⟨⟨radix, Numeral.grammar_of_literal hliteral⟩, fun _ _ => Numeral.exact_of_grammar⟩

/-- A literal of 130 bits with underscores, in a text with a numeral of another kind. -/
theorem scan_integers_saturated :
    (∃ radix digits, Grammar "0X2_00000000_00000000_00000000_0000000f".toList radix digits) ∧
      Exact "0X2_00000000_00000000_00000000_0000000f".toList 16
        "2_00000000_00000000_00000000_0000000f".toList := by
  have h : scan "0.7+0X2_00000000_00000000_00000000_0000000f".toList
      = .ok [⟨.float, 0, "0.7".toList⟩, ⟨.op, 3, "+".toList⟩,
        ⟨.int, 4, "0X2_00000000_00000000_00000000_0000000f".toList⟩] := by
    decide +kernel
  obtain ⟨hgrammar, hexact⟩ := scan_integers h (List.mem_of_getLast? rfl) rfl
  exact ⟨hgrammar, hexact 16 _ (@Grammar.marked Numeral.hexadecimal 'X' _ (by decide) (by decide)
    (by decide) (by decide))⟩

end Token

end TablePack
