import Mathlib.Tactic
import TablePack.Proofs.Moves

/-!
# The spelling of tokens

What the text of a token looks like, as far as its kind tells. Punctuation has a fixed spelling
(`spellings?`). An integer literal is a radix mark and digits (`Numeral.Literal`), and its value is
the number that the digits spell in the radix, up to the limit of 128 bits (`value_eq_min`).

The main statement is `fits_of_choose`: every token that the scanner reads is spelled as its kind
says.
-/

namespace TablePack

open Token (Kind Lexeme)
open Text (span isDigitOrScore)

lemma Text.take_span (p : Char → Bool) (t : Text) : t.take (span p t) = t.takeWhile p :=
  (List.prefix_iff_eq_take.1 (List.takeWhile_prefix p)).symm

/-! ## Letters and digits -/

lemma Text.isUpper_iff {c : Char} : c.isUpper ↔ 65 ≤ c.toNat ∧ c.toNat ≤ 90 :=
  decide_eq_true_iff.trans (and_congr UInt32.le_iff_toNat_le UInt32.le_iff_toNat_le)

lemma Text.isLower_iff {c : Char} : c.isLower ↔ 97 ≤ c.toNat ∧ c.toNat ≤ 122 := by
  change (decide ('a'.val ≤ c.val) && decide (c.val ≤ 'z'.val)) = true ↔ _
  rw [Bool.and_eq_true, decide_eq_true_eq, decide_eq_true_eq]
  exact and_congr UInt32.le_iff_toNat_le UInt32.le_iff_toNat_le

lemma Text.isDigit_iff {c : Char} : c.isDigit ↔ 48 ≤ c.toNat ∧ c.toNat ≤ 57 := by
  change (decide ('0'.val ≤ c.val) && decide (c.val ≤ '9'.val)) = true ↔ _
  rw [Bool.and_eq_true, decide_eq_true_eq, decide_eq_true_eq]
  exact and_congr UInt32.le_iff_toNat_le UInt32.le_iff_toNat_le

lemma Text.isAlpha_iff {c : Char} : c.isAlpha ↔ c.isUpper ∨ c.isLower := Bool.or_eq_true_iff

lemma Text.isAlphanum_iff {c : Char} : c.isAlphanum ↔ c.isAlpha ∨ c.isDigit := Bool.or_eq_true_iff

/-- Letters and digits take one byte. -/
lemma Text.utf8Size_of_isAlphanum {c : Char} (h : c.isAlphanum) : c.utf8Size = 1 := by
  rw [isAlphanum_iff, isAlpha_iff, isUpper_iff, isLower_iff, isDigit_iff] at h
  rw [Char.utf8Size_eq_one_iff, UInt32.le_iff_toNat_le]
  change c.toNat ≤ 127
  omega

/-! ## Integer literals -/

namespace Numeral

/-- A digit of the given radix, or an underscore. -/
def IsDigitOf (radix : ℕ) (c : Char) : Prop := c = '_' ∨ (digit? radix c).isSome

instance (radix : ℕ) (c : Char) : Decidable (IsDigitOf radix c) :=
  inferInstanceAs (Decidable (_ ∨ _))

/-- The number that digits spell in a radix, the most significant one first. Underscores do not
count. -/
def positional (radix : ℕ) (digits : Text) : ℕ :=
  Nat.ofDigits radix (digits.filterMap (digit? radix)).reverse

/-- An integer literal, with its radix and its digits. -/
inductive Literal : Text → ℕ → Text → Prop where
  /-- A zero, a radix mark, and digits of that radix. -/
  | marked {mark : Char} {radix : ℕ} {digits : Text} (hmark : radixMark? mark = some radix)
      (hne : digits ≠ []) (hdigits : ∀ c ∈ digits, IsDigitOf radix c) :
      Literal ('0' :: mark :: digits) radix digits
  /-- A zero, and perhaps octal digits after it. -/
  | octal {digits : Text} (hdigits : ∀ c ∈ digits, IsDigitOf 8 c) :
      Literal ('0' :: digits) 8 digits
  /-- Decimal digits, the first one not zero. -/
  | decimal {first : Char} {digits : Text} (hfirst : first.isDigit) (hzero : first ≠ '0')
      (hdigits : ∀ c ∈ digits, IsDigitOf 10 c) :
      Literal (first :: digits) 10 (first :: digits)

lemma horner_eq_ofDigits (radix : ℕ) (ds : List ℕ) (n : ℕ) :
    ds.foldl (fun n d => n * radix + d) n = Nat.ofDigits radix (ds.reverse ++ [n]) := by
  induction ds generalizing n with
  | nil => simp
  | cons d ds ih =>
    rw [List.foldl_cons, ih, List.reverse_cons]
    simp only [Nat.ofDigits_append, Nat.ofDigits_singleton, List.length_append, List.length_reverse,
      List.length_singleton, pow_succ]
    ring

/-- Saturating once it is reached does not change what is reached. -/
lemma shiftIn_min {radix : ℕ} (hr : 1 ≤ radix) (n : ℕ) (c : Char) :
    shiftIn radix (min n limit) c = min (n * radix + (digit? radix c).getD 0) limit := by
  rw [shiftIn]
  rcases le_total n limit with h | h
  · rw [min_eq_left h]
  · have hle : limit * 1 ≤ limit * radix := Nat.mul_le_mul_left limit hr
    have hle' : limit * radix ≤ n * radix := Nat.mul_le_mul_right radix h
    rw [min_eq_right h, min_eq_right (by omega), min_eq_right (by omega)]

lemma digit?_underscore (radix : ℕ) : digit? radix '_' = none := if_neg (lt_irrefl radix)

lemma foldl_shiftIn {radix : ℕ} (hr : 1 ≤ radix) {cs : Text}
    (hcs : ∀ c ∈ cs, IsDigitOf radix c) (n : ℕ) :
    (cs.filter (· != '_')).foldl (shiftIn radix) (min n limit)
      = min ((cs.filterMap (digit? radix)).foldl (fun n d => n * radix + d) n) limit := by
  induction cs generalizing n with
  | nil => rfl
  | cons c cs ih =>
    have ih := ih fun d hd => hcs d (by simp [hd])
    rcases hcs c (by simp) with rfl | hc
    · rw [List.filter_cons_of_neg (by simp), List.filterMap_cons_none (digit?_underscore radix)]
      exact ih n
    · obtain ⟨d, hd⟩ := Option.isSome_iff_exists.1 hc
      have hscore : c ≠ '_' := by
        rintro rfl
        rw [digit?_underscore] at hd
        cases hd
      rw [List.filter_cons_of_pos (by simpa using hscore), List.filterMap_cons_some hd,
        List.foldl_cons, List.foldl_cons, shiftIn_min hr, hd]
      exact ih _

lemma foldl_shiftIn_zero {radix : ℕ} (hr : 1 ≤ radix) {cs : Text}
    (hcs : ∀ c ∈ cs, IsDigitOf radix c) :
    (cs.filter (· != '_')).foldl (shiftIn radix) 0 = min (positional radix cs) limit := by
  have h := foldl_shiftIn hr hcs 0
  rw [Nat.zero_min, horner_eq_ofDigits, Nat.ofDigits_append, Nat.ofDigits_singleton, Nat.mul_zero,
    Nat.add_zero] at h
  exact h

lemma one_le_of_radixMark? {mark : Char} {radix : ℕ} (h : radixMark? mark = some radix) :
    1 ≤ radix := by
  unfold radixMark? at h
  split at h <;> simp at h <;> omega

lemma radixMark?_of_isDigitOf {c : Char} (h : IsDigitOf 8 c) : radixMark? c = none := by
  unfold radixMark?
  split
  all_goals first
    | rfl
    | exact absurd h (by decide)

/-- A literal has one radix, and one list of digits. -/
lemma Literal.unique {literal digits digits' : Text} {radix radix' : ℕ}
    (h : Literal literal radix digits) (h' : Literal literal radix' digits') :
    radix = radix' ∧ digits = digits' := by
  cases h with
  | marked hmark _ _ =>
    cases h' with
    | marked hmark' _ _ => exact ⟨Option.some.inj (hmark.symm.trans hmark'), rfl⟩
    | octal hdigits =>
      rw [radixMark?_of_isDigitOf (hdigits _ (by simp))] at hmark
      cases hmark
    | decimal _ hzero _ => exact absurd rfl hzero
  | octal hdigits =>
    cases h' with
    | marked hmark _ _ =>
      rw [radixMark?_of_isDigitOf (hdigits _ (by simp))] at hmark
      cases hmark
    | octal _ => exact ⟨rfl, rfl⟩
    | decimal _ hzero _ => exact absurd rfl hzero
  | decimal _ hzero _ =>
    cases h' with
    | marked _ _ _ => exact absurd rfl hzero
    | octal _ => exact absurd rfl hzero
    | decimal _ _ _ => exact ⟨rfl, rfl⟩

lemma digit?_of_isDigit {c : Char} (h : c.isDigit) (radix : ℕ) :
    digit? radix c = if c.toNat - '0'.toNat < radix then some (c.toNat - '0'.toNat) else none := by
  simp only [digit?, h, if_true]

lemma isDigitOf_ten_of_isDigit {c : Char} (h : c.isDigit) : IsDigitOf 10 c := by
  have hbounds := Text.isDigit_iff.1 h
  refine Or.inr ?_
  rw [digit?_of_isDigit h, if_pos (by rw [show '0'.toNat = 48 from rfl]; omega)]
  rfl

lemma isDigitOf_eight_of_isDigit {c : Char} (h : c.isDigit) (h8 : c ≠ '8') (h9 : c ≠ '9') :
    IsDigitOf 8 c := by
  have hbounds := Text.isDigit_iff.1 h
  have hne8 : c.toNat ≠ 56 := fun hc => h8 (Char.toNat_inj.1 hc)
  have hne9 : c.toNat ≠ 57 := fun hc => h9 (Char.toNat_inj.1 hc)
  refine Or.inr ?_
  rw [digit?_of_isDigit h, if_pos (by rw [show '0'.toNat = 48 from rfl]; omega)]
  rfl

lemma parts_of_ne_zero {first : Char} (hzero : first ≠ '0') (digits : Text) :
    parts (first :: digits) = (10, first :: digits) := by
  unfold parts
  split
  · rename_i heq
    exact absurd (List.cons.inj heq).1 hzero
  · rfl

/-- The value of an integer literal is the number that its digits spell, up to the limit. -/
lemma value_eq_min {literal digits : Text} {radix : ℕ} (h : Literal literal radix digits) :
    value literal = min (positional radix digits) limit := by
  cases h with
  | marked hmark hne hdigits =>
    rw [value, parts, hmark]
    exact foldl_shiftIn_zero (one_le_of_radixMark? hmark) hdigits
  | octal hdigits =>
    cases digits with
    | nil => rfl
    | cons c digits =>
      rw [value, parts, radixMark?_of_isDigitOf (hdigits c (by simp))]
      exact foldl_shiftIn_zero (by norm_num) hdigits
  | @decimal first digits hfirst hzero hdigits =>
    rw [value, parts_of_ne_zero hzero]
    refine foldl_shiftIn_zero (by norm_num) fun c hc => ?_
    rcases List.mem_cons.1 hc with rfl | hc
    · exact isDigitOf_ten_of_isDigit hfirst
    · exact hdigits c hc

/-! ## Reading an integer literal -/

lemma literal_of_marked {radix n : ℕ} {mark : Char} {t : Text} {kind : Kind}
    (hmark : radixMark? mark = some radix) (h : marked radix t = .ok (kind, n)) :
    0 < n ∧ ∃ digits, Literal (('0' :: mark :: t).take n) radix digits := by
  rw [marked] at h
  split at h
  · cases h
  · rename_i hgood
    obtain ⟨-, rfl⟩ := Prod.mk.inj (Except.ok.inj h)
    have htake := Text.take_span (fun c : Char => c.isAlphanum || c == '_') t
    rw [span] at htake
    rw [Nat.add_comm 2, List.take_succ_cons, List.take_succ_cons, htake]
    simp only [Bool.or_eq_true, List.isEmpty_iff, Bool.not_eq_true', not_or,
      Bool.not_eq_false, List.all_eq_true, beq_iff_eq] at hgood
    exact ⟨by omega, _, .marked hmark hgood.1 hgood.2⟩

lemma isDigitOf_ten_of_score {c : Char} (h : isDigitOrScore c) : IsDigitOf 10 c := by
  simp only [isDigitOrScore, Bool.or_eq_true, beq_iff_eq] at h
  rcases h with h | rfl
  · exact isDigitOf_ten_of_isDigit h
  · exact Or.inl rfl

lemma isDigitOf_eight_of_score {c : Char} (h : isDigitOrScore c) (h8 : c ≠ '8') (h9 : c ≠ '9') :
    IsDigitOf 8 c := by
  simp only [isDigitOrScore, Bool.or_eq_true, beq_iff_eq] at h
  rcases h with h | rfl
  · exact isDigitOf_eight_of_isDigit h h8 h9
  · exact Or.inl rfl

lemma literal_of_unmarked {n : ℕ} {c : Char} {t : Text} (hc : c.isDigit)
    (h : unmarked (c :: t) = .ok (.int, n)) :
    0 < n ∧ ∃ radix digits, Literal ((c :: t).take n) radix digits := by
  have hscore : isDigitOrScore c = true := by simp [isDigitOrScore, hc]
  have hall : ∀ d ∈ t.takeWhile isDigitOrScore, isDigitOrScore d = true :=
    List.all_eq_true.1 List.all_takeWhile
  rw [unmarked] at h
  split at h
  · cases h
  split at h
  · cases h
  rename_i hoct
  obtain ⟨-, rfl⟩ := Prod.mk.inj (Except.ok.inj h)
  rw [Text.take_span, span, List.takeWhile_cons_of_pos hscore] at hoct
  rw [Text.take_span, span, List.takeWhile_cons_of_pos hscore]
  refine ⟨by simp, ?_⟩
  by_cases hzero : c = '0'
  · subst hzero
    refine ⟨8, _, .octal fun d hd => ?_⟩
    have hne : t.takeWhile isDigitOrScore ≠ [] := List.ne_nil_of_mem hd
    have hlen := List.length_pos_of_ne_nil hne
    simp only [List.length_cons, List.head?_cons, List.any_cons, Bool.and_eq_true,
      decide_eq_true_eq, beq_self_eq_true, and_true, Bool.or_eq_true, List.any_eq_true, beq_iff_eq,
      not_and, not_or, not_exists] at hoct
    have hbad := (hoct (by omega)).2 d hd
    exact isDigitOf_eight_of_score (hall d hd) hbad.1 hbad.2
  · exact ⟨10, _, .decimal hc hzero fun d hd => isDigitOf_ten_of_score (hall d hd)⟩

/-- A numeral that is read as an integer is an integer literal. -/
lemma literal_of_read {start : ℕ} {c : Char} {t : Text} {l : Lexeme} (hc : c.isDigit)
    (h : read start (c :: t) = .ok l) (hkind : l.kind = .int) :
    ∃ radix digits, Literal ((c :: t).take (l.more + 1)) radix digits := by
  rw [read] at h
  split at h
  · cases h
  rename_i kind n hbody
  simp only at h
  split at h
  · cases h
  have hl := Except.ok.inj h
  subst hl
  -- a suffix makes a numeral a float, so there is none
  have htail : suffix ((c :: t).drop n) = 0 := by
    by_contra hne
    rw [if_neg hne] at hkind
    cases hkind
  rw [if_pos htail] at hkind
  subst hkind
  rw [htail]
  obtain ⟨hpos, hlit⟩ : 0 < n ∧ ∃ radix digits, Literal ((c :: t).take n) radix digits := by
    rw [body] at hbody
    split at hbody
    · rename_i radix hradix
      unfold radix? at hradix
      split at hradix
      · rename_i mark u heq
        rw [heq] at hbody ⊢
        exact (literal_of_marked hradix hbody).imp_right fun h => ⟨radix, h⟩
      · cases hradix
    · exact literal_of_unmarked hc hbody
  have hmore : n + 0 - 1 + 1 = n := by omega
  simpa only [hmore] using hlit

end Numeral

/-! ## The spelling of a kind -/

namespace Token

/-- The spellings of a kind of punctuation. -/
def spellings? : Kind → Option (List Text)
  | .newline => some [['\n']]
  | .semi => some [[';']]
  | .comma => some [[',']]
  | .dot => some [['.'], ['&', '.']]
  | .colons => some [[':', ':']]
  | .assign => some [['=']]
  | .pipe => some [['|']]
  | .lparen => some [['(']]
  | .rparen => some [[')']]
  | .lbracket => some [['[']]
  | .rbracket => some [[']']]
  | .lbrace => some [['\x7b']]
  | .rbrace => some [['\x7d']]
  | .indexBracket | .arrayBracket => some []
  | _ => none

/-- The kinds of words and variables, which lie within a line. -/
def isName : Kind → Bool
  | .ident | .const | .var | .keyword _ => true
  | _ => false

/-- Whether a text is a spelling of a kind. -/
structure Spelled (kind : Kind) (text : Text) : Prop where
  ne_nil : text ≠ []
  punctuation : ∀ spellings, spellings? kind = some spellings → text ∈ spellings
  integer : kind = .int → ∃ radix digits, Numeral.Literal text radix digits
  comment : kind = .comment → text.head? = some '#' ∨ text.head? = some '='
  name : isName kind → '\n' ∉ text

/-- The kinds whose spelling is free. -/
def isFree (kind : Kind) : Bool :=
  (spellings? kind).isNone && kind != .int && kind != .comment && !isName kind

lemma spelled_of_isFree {kind : Kind} {text : Text} (h : isFree kind) (hne : text ≠ []) :
    Spelled kind text := by
  simp only [isFree, Bool.and_eq_true, Option.isNone_iff_eq_none, bne_iff_ne,
    Bool.not_eq_true'] at h
  obtain ⟨⟨⟨hnone, hint⟩, hcomment⟩, hname⟩ := h
  refine ⟨hne, fun spellings hs => ?_, fun h => absurd h hint, fun h => absurd h hcomment,
    fun h => absurd h (by simp [hname])⟩
  rw [hnone] at hs
  cases hs

lemma ne_ident_of_isFree {kind : Kind} (h : isFree kind) : kind ≠ .ident := by
  rintro rfl
  cases h

end Token

open Token (Spelled isFree spelled_of_isFree ne_ident_of_isFree)

lemma Sign.spelled_of_mem {sign : Sign} (h : sign ∈ Sign.table) : Spelled sign.kind sign.text := by
  have hall : ∀ sign ∈ Sign.table, sign.text ≠ [] ∧ sign.kind ≠ .int ∧ sign.kind ≠ .comment
      ∧ ¬ Token.isName sign.kind
      ∧ (Token.spellings? sign.kind).all (fun spellings => sign.text ∈ spellings) = true := by
    decide
  obtain ⟨hne, hint, hcomment, hname, hspell⟩ := hall sign h
  refine ⟨hne, fun spellings hs => ?_, fun h => absurd h hint, fun h => absurd h hcomment,
    fun h => absurd h hname⟩
  rw [hs] at hspell
  simpa using hspell

/-! ## The lexemes that are read -/

lemma Token.spelled_of_isName {kind : Kind} {text : Text} (h : Token.isName kind) (hne : text ≠ [])
    (hnot : '\n' ∉ text) : Spelled kind text := by
  cases kind with
  | ident => exact ⟨hne, by simp [Token.spellings?], by simp, by simp, fun _ => hnot⟩
  | const => exact ⟨hne, by simp [Token.spellings?], by simp, by simp, fun _ => hnot⟩
  | var => exact ⟨hne, by simp [Token.spellings?], by simp, by simp, fun _ => hnot⟩
  | keyword k => exact ⟨hne, by simp [Token.spellings?], by simp, by simp, fun _ => hnot⟩
  | _ => cases h

lemma Text.not_mem_take_span {p : Char → Bool} {c : Char} (hc : p c = false) (t : Text) :
    c ∉ t.take (Text.span p t) := by
  rw [Text.span, ← List.prefix_iff_eq_take.1 (List.takeWhile_prefix p)]
  intro hmem
  rw [List.all_eq_true.1 List.all_takeWhile c hmem] at hc
  cases hc

lemma Token.Lexeme.not_mem_take_variableLength? {sigil : Char} {t : Text} {n : ℕ}
    (h : Lexeme.variableLength? sigil t = some n) : '\n' ∉ t.take n := by
  cases t with
  | nil => cases h
  | cons c u =>
    rw [variableLength?] at h
    split at h
    · rename_i hc
      rw [nameAfter?] at h
      split at h
      · cases h
        rw [Nat.add_comm, List.take_succ_cons, List.mem_cons, not_or]
        refine ⟨?_, Text.not_mem_take_span (by decide) u⟩
        rintro rfl
        simp at hc
      · cases h
    split at h
    · rename_i hc
      cases h
      rw [List.take_succ_cons, List.take_zero, List.mem_singleton]
      rintro rfl
      exact absurd (Bool.and_eq_true_iff.1 hc).2 (by decide)
    · rw [nameAfter?] at h
      split at h
      · cases h
        rw [Nat.zero_add]
        exact Text.not_mem_take_span (by decide) _
      · cases h

lemma take_succ_cons_ne_nil (c : Char) (t : Text) (n : ℕ) : (c :: t).take (n + 1) ≠ [] := by
  simp

lemma eq_ok_of_map_eq_ok {ε α β : Type} {r : Except ε α} {f : α → β} {b : β}
    (h : r.map f = .ok b) : ∃ a, r = .ok a ∧ f a = b := by
  cases r with
  | error fault => cases h
  | ok a => exact ⟨a, rfl, Except.ok.inj h⟩

lemma Numeral.spelled_of_read {start : ℕ} {c : Char} {t : Text} {l : Lexeme} (hc : c.isDigit)
    (h : Numeral.read start (c :: t) = .ok l) :
    Spelled l.kind ((c :: t).take (l.more + 1)) ∧ l.kind ≠ .ident := by
  by_cases hint : l.kind = .int
  · refine ⟨⟨take_succ_cons_ne_nil c t _, ?_, fun _ => literal_of_read hc h hint, ?_, ?_⟩, ?_⟩
    · rw [hint]
      simp [Token.spellings?]
    · rw [hint]
      rintro ⟨⟩
    · rw [hint]
      rintro ⟨⟩
    · rw [hint]
      rintro ⟨⟩
  · -- a numeral is an integer or a float
    have hfloat : l.kind = .float := by
      rw [read] at h
      split at h
      · cases h
      rename_i kind n hbody
      have hkind : kind = .int ∨ kind = .float := by
        rw [body] at hbody
        split at hbody
        · rw [marked] at hbody
          split at hbody <;> cases hbody
          exact .inl rfl
        · rw [unmarked] at hbody
          split_ifs at hbody <;> cases hbody
          · exact .inr rfl
          · exact .inl rfl
      simp only at h
      split at h
      · cases h
      · have hl := Except.ok.inj h
        subst hl
        simp only at hint ⊢
        split_ifs at hint ⊢ with htail
        · exact hkind.resolve_left hint
        · rfl
    rw [hfloat]
    exact ⟨spelled_of_isFree rfl (take_succ_cons_ne_nil c t _), Kind.noConfusion⟩

lemma Token.Lexeme.spelled_of_colon {start : ℕ} {t : Text} {l : Lexeme}
    (h : Lexeme.colon start t = .ok l) :
    Spelled l.kind ((':' :: t).take (l.more + 1)) ∧ l.kind ≠ .ident := by
  have hfree : ∀ {kind : Kind} (n : ℕ), isFree kind →
      Spelled kind ((':' :: t).take (n + 1)) ∧ kind ≠ .ident :=
    fun n hk => ⟨spelled_of_isFree hk (take_succ_cons_ne_nil ':' t n), ne_ident_of_isFree hk⟩
  unfold colon at h
  split at h
  · rename_i u
    cases h
    exact ⟨⟨by simp, by simp [Token.spellings?], by simp, by simp, by simp [Token.isName]⟩,
      Kind.noConfusion⟩
  · rename_i c u _
    split at h
    · obtain ⟨n, -, rfl⟩ := eq_ok_of_map_eq_ok h
      exact hfree _ rfl
    split at h
    · split at h <;> cases h
      exact hfree _ rfl
    split at h
    · cases h
      exact hfree _ rfl
    · split at h
      · split at h <;> cases h
        · exact hfree _ rfl
        · exact hfree _ rfl
      · cases h
        exact hfree _ rfl
  · cases h
    exact hfree _ rfl

namespace Token.Lexeme

/-- The letters that may stand before the delimiter of a percent literal. -/
def percentLetters : Text := "qwisQWIxr".toList

lemma isAlphanum_of_mem_percentLetters {d : Char} (h : d ∈ percentLetters) : d.isAlphanum := by
  have hall : percentLetters.all Char.isAlphanum := by decide
  exact List.all_eq_true.1 hall d h

/-- The letters are told apart by the kind of literal that they make. -/
lemma mem_percentLetters {w : Text} (hw : w ∈ ["qwi".toList, "QWIx".toList, ['s'], ['r']])
    {d : Char} (hd : d ∈ w) : d ∈ percentLetters := by
  have hall : (["qwi".toList, "QWIx".toList, ['s'], ['r']].all fun w =>
      w.all percentLetters.contains) = true := by decide
  exact List.contains_iff_mem.1 (List.all_eq_true.1 (List.all_eq_true.1 hall w hw) d hd)

lemma percentForm?_cons {d : Char} {u : Text} {kind : Kind} {interpolates : Bool} {letters : ℕ}
    (h : percentForm? (d :: u) = some (kind, interpolates, letters)) :
    letters = 1 ∧ d ∈ percentLetters ∨ letters = 0 ∧ ¬ d.isAlphanum ∧ d ≠ '=' := by
  rw [percentForm?] at h
  split_ifs at h with h₁ h₂ h₃ h₄ h₅ <;> cases h
  · exact .inl ⟨rfl, mem_percentLetters (by simp)
      (List.contains_iff_mem.1 (Bool.and_eq_true_iff.1 h₁).2)⟩
  · exact .inl ⟨rfl, mem_percentLetters (w := ['s']) (by simp)
      (by simpa using (Bool.and_eq_true_iff.1 h₂).2)⟩
  · exact .inl ⟨rfl, mem_percentLetters (by simp)
      (List.contains_iff_mem.1 (Bool.and_eq_true_iff.1 h₃).2)⟩
  · exact .inl ⟨rfl, mem_percentLetters (w := ['r']) (by simp)
      (by simpa using (Bool.and_eq_true_iff.1 h₄).2)⟩
  · exact .inr ⟨rfl, by simpa using h₅⟩

lemma percentForm?_of_delimiter {d : Char} (u : Text) (halnum : ¬ d.isAlphanum) (hne : d ≠ '=') :
    percentForm? (d :: u) = some (.string, true, 0) := by
  have hmem : ∀ w ∈ ["qwi".toList, "QWIx".toList, ['s'], ['r']], d ∉ w :=
    fun w hw hd => halnum (isAlphanum_of_mem_percentLetters (mem_percentLetters hw hd))
  have h₁ := hmem "qwi".toList (by simp)
  have h₂ := hmem "QWIx".toList (by simp)
  have h₃ := hmem ['s'] (by simp)
  have h₄ := hmem ['r'] (by simp)
  simp only [String.reduceToList, List.mem_cons, List.not_mem_nil, or_false] at h₁ h₂ h₃ h₄
  simp [percentForm?, h₁, h₂, h₃, h₄, halnum, hne]

/-- The letters before a delimiter are of ASCII, and no line ends. -/
lemma size_take_letters {t : Text} {kind : Kind} {interpolates : Bool} {letters : ℕ}
    (h : percentForm? t = some (kind, interpolates, letters)) :
    Text.size (t.take letters) = letters ∧ '\n' ∉ t.take letters := by
  cases t with
  | nil => cases h
  | cons c u =>
    rcases percentForm?_cons h with ⟨rfl, hc⟩ | ⟨rfl, -, -⟩
    · have halnum := isAlphanum_of_mem_percentLetters hc
      refine ⟨by simp [Text.utf8Size_of_isAlphanum halnum], ?_⟩
      rw [List.take_succ_cons, List.take_zero, List.mem_singleton]
      rintro rfl
      exact absurd halnum (by decide)
    · simp

end Token.Lexeme

lemma Token.Lexeme.isFree_of_percentForm? {t : Text} {kind : Kind} {interpolates : Bool} {n : ℕ}
    (h : Lexeme.percentForm? t = some (kind, interpolates, n)) : isFree kind := by
  unfold percentForm? at h
  split at h
  · split_ifs at h <;> cases h <;> rfl
  · cases h

lemma Token.Lexeme.isFree_of_percent? {start : ℕ} {t : Text} {l : Lexeme}
    (h : Lexeme.percent? start t = .ok (some l)) : isFree l.kind := by
  unfold percent? at h
  split at h
  · cases h
  · rename_i kind interpolates n hform
    split at h
    · cases h
    split at h
    · cases h
    split at h
    · cases h
    split at h
    · cases h
    · cases h
      exact isFree_of_percentForm? hform

lemma Sign.mem_and_prefix_of_find? {t : Text} {sign : Sign} (h : Sign.find? t = some sign) :
    sign ∈ Sign.table ∧ sign.text <+: t := by
  refine ⟨List.mem_of_find?_eq_some h, ?_⟩
  have := List.find?_some h
  simpa using this

/-- The token of a sign is spelled like the sign. -/
lemma Sign.take_eq_text {t : Text} {sign : Sign} (h : Sign.find? t = some sign) :
    t.take (sign.text.length - 1 + 1) = sign.text := by
  obtain ⟨hmem, hprefix⟩ := mem_and_prefix_of_find? h
  have hpos := List.length_pos_of_ne_nil (spelled_of_mem hmem).ne_nil
  rw [Nat.sub_add_cancel hpos]
  exact (List.prefix_iff_eq_take.1 hprefix).symm

namespace Scanner

/-- What the scanner can pass over without reading a token: a blank, a line break that a backslash
joins, or a line that is the marker for the end of a program, with all that follows it. -/
inductive Passage (lineStart : Bool) : Text → ℕ → Prop
  | blank {c : Char} {t : Text} : Text.isBlank c → Passage lineStart (c :: t) 1
  | join {ending t : Text} : ending = ['\n'] ∨ ending = ['\r', '\n'] →
      Passage lineStart ('\\' :: ending ++ t) (ending.length + 1)
  | endMarker {t : Text} : lineStart → Text.withoutReturn (Text.line t) = "__END__".toList →
      Passage lineStart t t.length

/-- What a lexeme says about the text `c :: t` at which it is read. A newline is no lexeme, a string
that starts with an angle is an announcement, and a name that is no word is the operator that a
method is defined as. -/
structure LexemeFits (v : View) (c : Char) (t : Text) (l : Lexeme) : Prop where
  spelled : Spelled l.kind ((c :: t).take (l.more + 1))
  no_newline : c ≠ '\n'
  no_angle : l.kind = .string → c ≠ '<'
  method : l.kind = .ident → v.defining ∧
    ∃ name, Sign.findMethod? (c :: t) = some name ∧ l.more = name.length - 1

/-- What a move says about the text `c :: t` at which it is chosen. -/
def Move.Fits (v : View) (pos : ℕ) (c : Char) (t : Text) : Move → Prop
  | .skip n => Passage v.lineStart (c :: t) n
  | .lineBreak => c = '\n'
  | .lexeme l => LexemeFits v c t l
  | .word => Text.isNameStart c
  | .announce doc n => c = '<' ∧ Heredoc.announced? pos t = some (doc, n)
  | .sign sg => Sign.find? (c :: t) = some sg

section Fits

variable {v : View} {pos : ℕ} {c : Char} {t : Text} {m : Move}

lemma Passage.length_pos {lineStart : Bool} {n : ℕ} (h : Passage lineStart t n) : 0 < n := by
  cases h with
  | blank => exact Nat.one_pos
  | join => exact Nat.succ_pos _
  | endMarker _ hline =>
    rw [List.length_pos_iff]
    rintro rfl
    cases hline

lemma LexemeFits.kind_ne {l : Lexeme} (h : LexemeFits v c t l) : l.kind ≠ .newline := by
  intro hkind
  have hmem := h.spelled.punctuation [['\n']] (by rw [hkind]; rfl)
  rw [List.take_succ_cons, List.mem_singleton] at hmem
  exact h.no_newline (List.cons.inj hmem).1

lemma lexemeFits_of_isFree {l : Lexeme} (hkind : isFree l.kind) (hnl : c ≠ '\n') (hc : c ≠ '<') :
    LexemeFits v c t l :=
  ⟨spelled_of_isFree hkind (take_succ_cons_ne_nil c t _), hnl, fun _ => hc,
    fun h => absurd h (ne_ident_of_isFree hkind)⟩

lemma fits_of_map {r : Except Fault Lexeme} (hr : ∀ l, r = .ok l → LexemeFits v c t l)
    (h : r.map Move.lexeme = .ok m) : m.Fits v pos c t := by
  obtain ⟨l, hl, rfl⟩ := eq_ok_of_map_eq_ok h
  exact hr l hl

lemma fits_of_chooseSign (h : chooseSign pos c t = .ok m) : m.Fits v pos c t := by
  unfold chooseSign at h
  split at h
  · cases h
  · rename_i sign hfind
    cases h
    exact hfind

lemma fits_of_chooseLiteral (h : chooseLiteral v pos c t = .ok m) : m.Fits v pos c t := by
  have hquoted : c ≠ '\n' ∧ c ≠ '<' → ∀ (b : Bool) (l : Lexeme), Lexeme.quoted pos c b t = .ok l →
      LexemeFits v c t l := by
    intro hc b l hl
    obtain ⟨n, -, rfl⟩ := eq_ok_of_map_eq_ok hl
    exact lexemeFits_of_isFree rfl hc.1 hc.2
  unfold chooseLiteral at h
  split at h
  · rename_i hc
    exact fits_of_map (hquoted (by constructor <;> rintro rfl <;> simp at hc) true) h
  split at h
  · rename_i hc
    exact fits_of_map (hquoted (by constructor <;> rintro rfl <;> simp at hc) false) h
  split at h
  · rename_i hc
    subst hc
    exact fits_of_map (fun l hl => ⟨(Lexeme.spelled_of_colon hl).1, by decide, fun _ => by decide,
      fun hident => absurd hident (Lexeme.spelled_of_colon hl).2⟩) h
  split at h
  · exact fits_of_chooseSign h
  split at h
  · rename_i hc
    subst hc
    split at h
    · rename_i l hl
      cases h
      have hkind : l.kind = .string := by
        unfold Lexeme.character? at hl
        split at hl
        · cases hl
          rfl
        · split at hl <;> cases hl
          rfl
        · cases hl
      exact lexemeFits_of_isFree (by rw [hkind]; rfl) (by decide) (by decide)
    · exact fits_of_chooseSign h
  split at h
  · rename_i hc
    subst hc
    unfold choosePercent at h
    split at h
    · cases h
    · rename_i l hl
      cases h
      exact lexemeFits_of_isFree (Lexeme.isFree_of_percent? hl) (by decide) (by decide)
    · exact fits_of_chooseSign h
  split at h
  · rename_i hc
    subst hc
    refine fits_of_map (fun l hl => ?_) h
    obtain ⟨n, -, rfl⟩ := eq_ok_of_map_eq_ok hl
    exact lexemeFits_of_isFree rfl (by decide) (by decide)
  split at h
  · rename_i hc
    split at h
    · rename_i doc n hdoc
      cases h
      exact ⟨hc, hdoc⟩
    · exact fits_of_chooseSign h
  · exact fits_of_chooseSign h

lemma fits_of_chooseJoin (h : chooseJoin pos t = .ok m) : m.Fits v pos '\\' t := by
  unfold chooseJoin at h
  split at h <;> cases h
  · exact @Passage.join _ ['\n'] _ (.inl rfl)
  · exact @Passage.join _ ['\r', '\n'] _ (.inr rfl)

/-- A move that is chosen fits the text: what it passes over is no part of a token, and the token
that it reads is spelled as its kind says. -/
lemma fits_of_choose (h : choose v pos c t = .ok m) : m.Fits v pos c t := by
  by_cases hblank : Text.isBlank c
  · rw [choose, if_pos hblank] at h
    cases h
    exact .blank hblank
  by_cases hslash : c = '\\'
  · rw [choose, if_neg hblank, if_pos hslash] at h
    subst hslash
    exact fits_of_chooseJoin h
  by_cases hnl : c = '\n'
  · rw [choose, if_neg hblank, if_neg hslash, if_pos hnl] at h
    cases h
    exact hnl
  rw [choose, if_neg hblank, if_neg hslash, if_neg hnl] at h
  split at h
  · rename_i hc
    cases h
    exact ⟨⟨take_succ_cons_ne_nil c t _, by simp [Lexeme.comment, Token.spellings?],
      by simp [Lexeme.comment], fun _ => .inl (congrArg some hc),
      by simp [Lexeme.comment, Token.isName]⟩, hnl, by simp [Lexeme.comment],
      by simp [Lexeme.comment]⟩
  split at h
  · rename_i hc
    refine fits_of_map (fun l hl => ?_) h
    unfold Lexeme.document at hl
    split at hl <;> cases hl
    simp only [Bool.and_eq_true, decide_eq_true_eq] at hc
    exact ⟨⟨take_succ_cons_ne_nil c t _, by simp [Token.spellings?], by simp,
      fun _ => .inr (congrArg some hc.1.1), by simp [Token.isName]⟩, hnl, by simp, by simp⟩
  split at h
  · rename_i hc
    cases h
    simp only [Bool.and_eq_true, beq_iff_eq] at hc
    exact .endMarker hc.1.2 hc.2
  split at h
  · rename_i hdigit
    exact fits_of_map (fun l hl => ⟨(Numeral.spelled_of_read hdigit hl).1, hnl,
      fun _ => by rintro rfl; exact absurd hdigit (by decide),
      fun hident => absurd hident (Numeral.spelled_of_read hdigit hl).2⟩) h
  split at h
  · rename_i hc
    cases h
    exact hc
  split at h
  · rename_i hc
    refine fits_of_map (fun l hl => ?_) h
    unfold Lexeme.var at hl
    split at hl <;> cases hl
    rename_i n hn
    refine ⟨Token.spelled_of_isName rfl (take_succ_cons_ne_nil c t _) ?_, hnl, by simp, by simp⟩
    rw [List.take_succ_cons, List.mem_cons, not_or]
    refine ⟨?_, Lexeme.not_mem_take_variableLength? hn⟩
    rintro rfl
    simp at hc
  · split at h
    · rename_i name hname
      cases h
      split at hname
      · rename_i hdefining
        refine ⟨Token.spelled_of_isName rfl (take_succ_cons_ne_nil c t _) ?_, hnl, by simp,
          fun _ => ⟨hdefining, name, hname, rfl⟩⟩
        have hmem := List.mem_of_find?_eq_some hname
        have hpre : name <+: c :: t := by simpa using List.find?_some hname
        have hall := (by decide : ∀ name ∈ Sign.methods, name ≠ [] ∧ '\n' ∉ name) name hmem
        have hlen := List.length_pos_iff.2 hall.1
        rw [Nat.sub_add_cancel hlen, ← List.prefix_iff_eq_take.1 hpre]
        exact hall.2
      · cases hname
    · exact fits_of_chooseLiteral h

end Fits

end Scanner

end TablePack
