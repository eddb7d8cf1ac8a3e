import Mathlib.Tactic
import TablePack.Proofs.Quoted
import TablePack.Proofs.Spelling

/-!
# Where words, numbers and signs end

The characters in `Text.dullChars` continue no word and no number, and hardly any sign. What is read
at the start of `t ++ v`, where `v` starts with such a character, is therefore told from `t` alone.
Two shapes of statement occur: `f (t ++ v) = f t`, for functions that never look past the first
character of `v`; and `f (t ++ v) = r → f (t ++ v') = r`, for those that may run on through `v`,
under the condition that `r` ends inside `t`.
-/

namespace TablePack

open Token (Kind Lexeme)
open Text (span)

/-! ## Words and numbers -/

namespace Text

/-- The characters that may follow a part of the text that is read by itself. -/
def dullChars : List Char := ['.', ' ', '\t', '\r', '\x0b', '\x0c', '\n', '\\', '#', ';']

/-- A text that starts with no character of a word or of a number. -/
def Dull (v : Text) : Prop := ∀ c ∈ v.head?, c ∈ dullChars

/-- What holds of each of a few characters. -/
lemma forall_mem_of_all {p : Char → Prop} [DecidablePred p] {l : Text}
    (h : l.all fun c => decide (p c)) : ∀ c ∈ l, p c := by
  simpa using h

lemma dull_cons {c : Char} {v : Text} : Dull (c :: v) ↔ c ∈ dullChars := by simp [Dull]

/-- A character at which two texts may part, where `w` follows it: it starts a comment, ends the
line, or is a dot with no other dot and no digit after it. -/
def Border (b : Char) (w : Text) : Prop :=
  b = '#' ∨ b = '\n' ∨ b = '.' ∧ ∀ c ∈ w.head?, c ≠ '.' ∧ c.isDigit = false

lemma Border.dull {b : Char} {w : Text} (hb : Border b w) (v : Text) : Dull (b :: v) := by
  rcases hb with rfl | rfl | ⟨rfl, -⟩ <;> exact dull_cons.2 (by decide)

lemma not_of_dull {p : Char → Bool} (hp : dullChars.all fun c => !p c) {c : Char} {v : Text}
    (hv : Dull (c :: v)) : p c = false := by
  simpa using List.all_eq_true.1 hp c (dull_cons.1 hv)

/-- A class of characters that has no dull one is left where a dull text starts. -/
lemma takeWhile_append_dull {p : Char → Bool} (hp : dullChars.all fun c => !p c) (t : Text)
    {v : Text} (hv : Dull v) : (t ++ v).takeWhile p = t.takeWhile p := by
  induction t with
  | nil =>
    cases v with
    | nil => rfl
    | cons c v => simp [not_of_dull hp hv]
  | cons c t ih =>
    rw [List.cons_append, List.takeWhile_cons, List.takeWhile_cons, ih]

lemma span_append_dull {p : Char → Bool} (hp : dullChars.all fun c => !p c) (t : Text)
    {v : Text} (hv : Dull v) : span p (t ++ v) = span p t := by
  rw [span, span, takeWhile_append_dull hp t hv]

lemma span_le (p : Char → Bool) (t : Text) : span p t ≤ t.length :=
  (List.takeWhile_prefix p).length_le

lemma head?_any_append_dull {p : Char → Bool} (hp : dullChars.all fun c => !p c) (t : Text)
    {v : Text} (hv : Dull v) : (t ++ v).head?.any p = t.head?.any p := by
  cases t with
  | nil =>
    cases v with
    | nil => rfl
    | cons c v => simp [not_of_dull hp hv]
  | cons c t => rfl

lemma head?_append_dull (t : Text) {v : Text} (hv : Dull v) {c : Char} (hc : c ∉ dullChars) :
    (t ++ v).head? = some c ↔ t.head? = some c := by
  cases t with
  | nil =>
    cases v with
    | nil => simp
    | cons d v =>
      have hd := dull_cons.1 hv
      simp only [List.nil_append, List.head?_cons, Option.some.injEq, List.head?_nil, reduceCtorEq,
        iff_false]
      rintro rfl
      exact hc hd
  | cons d t => rfl

lemma continuesName_append_dull (t : Text) {v : Text} (hv : Dull v) :
    continuesName (t ++ v) = continuesName t :=
  head?_any_append_dull (by decide) t hv

end Text

open Text (Dull isDigitOrScore)

namespace Numeral

lemma fraction_append_dull {t v : Text} (ht : t ≠ []) (hv : Dull v) :
    fraction (t ++ v) = fraction t := by
  match t, ht with
  | [c], _ =>
    cases v with
    | nil => rfl
    | cons d v =>
      have hd : ∀ d ∈ Text.dullChars, d.isDigit = false := Text.forall_mem_of_all (by decide)
      by_cases hc : c = '.'
      · subst hc
        simp [fraction, hd d (Text.dull_cons.1 hv)]
      · rw [fraction, fraction]
        · simp
        · simp [hc]
  | c :: d :: t, _ =>
    by_cases hc : c = '.'
    · subst hc
      simp only [List.cons_append, fraction]
      rw [← List.cons_append, Text.span_append_dull (by decide) _ hv]
    · rw [fraction, fraction]
      · simp [hc]
      · simp [hc]

lemma fraction_of_head?_ne {t : Text} (h : t.head? ≠ some '.') : fraction t = 0 := by
  rw [fraction]
  rintro d u rfl
  exact h rfl

lemma fraction_of_border {b : Char} {w : Text} (hb : Text.Border b w) : fraction (b :: w) = 0 := by
  rcases hb with rfl | rfl | ⟨rfl, hw⟩
  · rfl
  · rfl
  · cases w with
    | nil => rfl
    | cons c w => simp [fraction, (hw c rfl).2]

lemma fraction_le (t : Text) : fraction t ≤ t.length := by
  unfold fraction
  split
  · rename_i d t
    have := Text.span_le isDigitOrScore (d :: t)
    split
    · rw [List.length_cons]
      omega
    · exact Nat.zero_le _
  · exact Nat.zero_le _

lemma exponent_append_dull (t : Text) {v : Text} (hv : Dull v) :
    exponent (t ++ v) = exponent t := by
  cases t with
  | nil =>
    cases v with
    | nil => rfl
    | cons c v =>
      have hc : ∀ c ∈ Text.dullChars, (c == 'e' || c == 'E') = false :=
        Text.forall_mem_of_all (by decide)
      simp only [List.nil_append, exponent, hc c (Text.dull_cons.1 hv)]
      rfl
  | cons e t =>
    have hsign : (t ++ v).head?.any (fun c => c == '+' || c == '-')
        = t.head?.any fun c => c == '+' || c == '-' :=
      Text.head?_any_append_dull (by decide) t hv
    simp only [List.cons_append, exponent, hsign]
    generalize hs : (if t.head?.any (fun c => c == '+' || c == '-') then 1 else 0) = sign
    have hle : sign ≤ t.length := by
      cases t with
      | nil => simp_all
      | cons d t => rw [← hs]; split <;> simp
    rw [List.drop_append_of_le_length hle, Text.head?_any_append_dull (by decide) _ hv,
      Text.span_append_dull (by decide) _ hv]

lemma suffix_eq (t : Text) :
    suffix t =
      if t.head? = some 'r' ∧ t.tail.head? = some 'i' then
        if Text.continuesName (t.drop 2) then 0 else 2
      else if t.head? = some 'r' ∨ t.head? = some 'i' then
        if Text.continuesName (t.drop 1) then 0 else 1
      else 0 := by
  unfold suffix
  split
  · simp
  · rename_i u hne
    cases u with
    | nil => simp
    | cons d u =>
      have hd : d ≠ 'i' := fun h => hne u (by rw [h])
      simp [hd]
  · simp
  · rename_i h₁ h₂ h₃
    cases t with
    | nil => simp
    | cons c t =>
      have hr : c ≠ 'r' := fun h => h₂ t (by rw [h])
      have hi : c ≠ 'i' := fun h => h₃ t (by rw [h])
      simp [hr, hi]

lemma suffix_append_dull (t : Text) {v : Text} (hv : Dull v) : suffix (t ++ v) = suffix t := by
  have hr := Text.head?_append_dull t hv (c := 'r') (by decide)
  have hi := Text.head?_append_dull t hv (c := 'i') (by decide)
  rw [suffix_eq, suffix_eq]
  simp only [hr, hi]
  cases t with
  | nil => simp
  | cons c t =>
    cases t with
    | nil =>
      have hnone := Text.head?_append_dull [] hv (c := 'i') (by decide)
      have hname := Text.continuesName_append_dull [] hv
      simp_all
    | cons d t =>
      have hone := Text.continuesName_append_dull (d :: t) hv
      have htwo := Text.continuesName_append_dull t hv
      simp_all

lemma radix?_cons_cons (c d : Char) (t : Text) :
    radix? (c :: d :: t) = if c = '0' then radixMark? d else none := by
  by_cases hc : c = '0'
  · subst hc
    rfl
  · rw [radix?, if_neg hc]
    intro mark digits h
    exact hc (List.cons.inj h).1

lemma radix?_append_dull {t v : Text} (ht : t ≠ []) (hv : Dull v) : radix? (t ++ v) = radix? t := by
  match t, ht with
  | [c], _ =>
    cases v with
    | nil => rfl
    | cons d v =>
      have hd : ∀ d ∈ Text.dullChars, radixMark? d = none := Text.forall_mem_of_all (by decide)
      rw [List.singleton_append, radix?_cons_cons, hd d (Text.dull_cons.1 hv), ite_self, radix?]
      simp
  | c :: d :: t, _ => rw [List.cons_append, List.cons_append, radix?_cons_cons, radix?_cons_cons]

/-- A literal with a radix mark has a zero and the mark. -/
lemma two_le_of_radix? {t : Text} {radix : ℕ} (h : radix? t = some radix) : 2 ≤ t.length := by
  rcases t with _ | ⟨c, _ | ⟨d, t⟩⟩
  · cases h
  · rw [radix?] at h
    · cases h
    · simp
  · simp

/-- The digits of a numeral are read alike, unless a fraction follows them. -/
lemma body_append_dull {t v : Text} (ht : t ≠ []) (hv : Dull v) (hnone : fraction v = 0) :
    body (t ++ v) = body t := by
  have hwhole := Text.span_append_dull (p := isDigitOrScore) (by decide) t hv
  have hfraction : fraction ((t ++ v).drop (span isDigitOrScore t))
      = fraction (t.drop (span isDigitOrScore t)) := by
    rw [List.drop_append_of_le_length (Text.span_le _ t)]
    by_cases hnil : t.drop (span isDigitOrScore t) = []
    · rw [hnil, List.nil_append, hnone]
      rfl
    · exact fraction_append_dull hnil hv
  have hextent : span isDigitOrScore t + fraction (t.drop (span isDigitOrScore t)) ≤ t.length := by
    have hle := Text.span_le isDigitOrScore t
    have hfrac := fraction_le (t.drop (span isDigitOrScore t))
    rw [List.length_drop] at hfrac
    omega
  have hhead : (t ++ v).head? = t.head? := List.head?_append_of_ne_nil _ ht
  rw [body, body, radix?_append_dull ht hv]
  cases hradix : radix? t with
  | none =>
    simp only [unmarked, hwhole, hfraction, hhead,
      List.drop_append_of_le_length hextent, exponent_append_dull _ hv,
      List.take_append_of_le_length (Text.span_le isDigitOrScore t)]
  | some radix =>
    simp only [marked, List.drop_append_of_le_length (two_le_of_radix? hradix),
      Text.takeWhile_append_dull (p := fun c => c.isAlphanum || c == '_') (by decide) _ hv]

lemma exponent_le (t : Text) : exponent t ≤ t.length := by
  cases t with
  | nil => exact le_rfl
  | cons e t =>
    simp only [exponent]
    generalize hs : (if t.head?.any (fun c => c == '+' || c == '-') then 1 else 0) = sign
    have hle : sign ≤ t.length := by
      cases t with
      | nil => simp_all
      | cons d t => rw [← hs]; split <;> simp
    have hspan := Text.span_le isDigitOrScore (t.drop sign)
    rw [List.length_drop] at hspan
    rw [List.length_cons]
    split_ifs <;> omega

lemma suffix_le (t : Text) : suffix t ≤ t.length := by
  rw [suffix_eq]
  match t with
  | [] => simp
  | [c] => simp; split_ifs <;> simp
  | c :: d :: t => split_ifs <;> simp

lemma body_le {t : Text} {kind : Kind} {n : ℕ} (h : body t = .ok (kind, n)) : n ≤ t.length := by
  rw [body] at h
  split at h
  · rename_i radix hradix
    simp only [marked] at h
    split_ifs at h
    cases h
    have htwo := two_le_of_radix? hradix
    have hdigits := (List.takeWhile_prefix (l := t.drop 2)
      fun c => c.isAlphanum || c == '_').length_le
    rw [List.length_drop] at hdigits
    omega
  · simp only [unmarked] at h
    have hwhole := Text.span_le isDigitOrScore t
    have hfrac := fraction_le (t.drop (span isDigitOrScore t))
    have hexp := exponent_le
      (t.drop (span isDigitOrScore t + fraction (t.drop (span isDigitOrScore t))))
    rw [List.length_drop] at hfrac hexp
    split_ifs at h <;> cases h <;> omega

lemma read_append_dull (start : ℕ) {t v : Text} (ht : t ≠ []) (hv : Dull v)
    (hnone : fraction v = 0) : read start (t ++ v) = read start t := by
  rw [read, read, body_append_dull ht hv hnone]
  cases hbody : body t with
  | error problem => rfl
  | ok extent =>
    obtain ⟨kind, n⟩ := extent
    have hn := body_le hbody
    have htail := suffix_le (t.drop n)
    rw [List.length_drop] at htail
    simp only [List.drop_append_of_le_length hn, suffix_append_dull _ hv]
    rw [List.drop_append_of_le_length (by omega), Text.continuesName_append_dull _ hv]

end Numeral

/-! ## Variables, symbols and literals -/

namespace Text

/-- A class of characters that is left inside `t` is left at the same place whatever follows. -/
lemma takeWhile_append_of_lt {p : Char → Bool} {t v : Text} (v' : Text)
    (h : ((t ++ v).takeWhile p).length < t.length) :
    (t ++ v').takeWhile p = (t ++ v).takeWhile p := by
  rw [List.takeWhile_append] at h ⊢
  rw [List.takeWhile_append]
  split_ifs at h ⊢ with hfull
  · rw [List.length_append] at h
    omega
  · rfl

lemma length_takeWhile_append_lt {p : Char → Bool} {t : Text} {c : Char} (hc : c ∈ t)
    (hp : p c = false) (v : Text) : ((t ++ v).takeWhile p).length < t.length := by
  have hle := (List.takeWhile_prefix (l := t) p).length_le
  rw [List.takeWhile_append]
  split_ifs with hfull
  · rw [← (List.takeWhile_prefix p).eq_of_length hfull] at hc
    have hall := List.all_eq_true.1 List.all_takeWhile c hc
    rw [hp] at hall
    cases hall
  · omega

/-- A word that starts `t ++ v` and is longer than `t` goes on with the first character of `v`. -/
lemma exists_head_of_prefix {w t v : Text} (h : w <+: t ++ v) (hlt : t.length < w.length) :
    ∃ c, v.head? = some c ∧ t ++ [c] <+: w := by
  obtain ⟨y, rfl⟩ := List.prefix_of_prefix_length_le (List.prefix_append t v) h hlt.le
  cases y with
  | nil => simp at hlt
  | cons c y =>
    obtain ⟨z, rfl⟩ := (List.prefix_append_right_inj t).1 h
    exact ⟨c, rfl, y, by simp⟩

/-- Words that no dull character continues are told from `t` alone. -/
lemma isPrefixOf_append_dull {w t v : Text} (hv : Dull v)
    (hw : ∀ c ∈ dullChars, v.head? = some c → ¬ t ++ [c] <+: w) :
    w.isPrefixOf (t ++ v) = w.isPrefixOf t := by
  rw [Bool.eq_iff_iff, List.isPrefixOf_iff_prefix, List.isPrefixOf_iff_prefix]
  refine ⟨fun h => ?_, fun h => h.trans (List.prefix_append t v)⟩
  rcases le_or_gt w.length t.length with hle | hlt
  · exact List.prefix_of_prefix_length_le h (List.prefix_append t v) hle
  · obtain ⟨c, hc, hpre⟩ := exists_head_of_prefix h hlt
    exact absurd hpre (hw c (hv c hc) hc)

end Text

namespace Sign

lemma findMethod?_append_dull (t : Text) {v : Text} (hv : Dull v) :
    findMethod? (t ++ v) = findMethod? t := by
  have hdull : ∀ name ∈ methods, name.all fun c => !Text.dullChars.contains c := by decide
  refine List.find?_congr fun name hname => Text.isPrefixOf_append_dull hv fun c hc _ hpre => ?_
  have hc' := List.all_eq_true.1 (hdull name hname) c (hpre.subset (by simp))
  rw [List.contains_iff_mem.2 hc] at hc'
  cases hc'

/-- No dull character but a dot continues a sign. -/
lemma find?_append_dull {t v : Text} (ht : t ≠ []) (hv : Dull v) (hdot : v.head? ≠ some '.') :
    find? (t ++ v) = find? t := by
  have hdull : ∀ sign ∈ table, sign.text.tail.all fun c =>
      !Text.dullChars.contains c || c == '.' := by decide
  refine List.find?_congr fun sign hsign => Text.isPrefixOf_append_dull hv fun c hc hhead hpre => ?_
  obtain ⟨first, t, rfl⟩ := List.exists_cons_of_ne_nil ht
  obtain ⟨y, hy⟩ := hpre
  have hmem : c ∈ sign.text.tail := by
    rw [← hy]
    simp
  have hc' := List.all_eq_true.1 (hdull sign hsign) c hmem
  rw [List.contains_iff_mem.2 hc, Bool.not_true, Bool.false_or, beq_iff_eq] at hc'
  exact hdot (hc' ▸ hhead)

/-- After a dot, a sign goes on with another dot or not at all. -/
lemma find?_append_dot {t w : Text} (hw : w.head? ≠ some '.') :
    find? (t ++ '.' :: w) = find? (t ++ ['.']) := by
  have hdots : ∀ sign ∈ table, ∀ n < sign.text.length, sign.text[n]? = some '.' →
      sign.text[n + 1]?.all (· == '.') := by decide
  refine List.find?_congr fun sign hsign => ?_
  rw [← List.singleton_append, ← List.append_assoc, Bool.eq_iff_iff, List.isPrefixOf_iff_prefix,
    List.isPrefixOf_iff_prefix]
  refine ⟨fun h => ?_, fun h => h.trans (List.prefix_append _ w)⟩
  rcases le_or_gt sign.text.length (t ++ ['.']).length with hle | hlt
  · exact List.prefix_of_prefix_length_le h (List.prefix_append _ w) hle
  · obtain ⟨c, hc, y, hy⟩ := Text.exists_head_of_prefix h hlt
    have hnext := hdots sign hsign t.length (by rw [← hy]; simp) (by rw [← hy]; simp)
    have hget : sign.text[t.length + 1]? = some c := by
      rw [← hy]
      simp
    rw [hget, Option.all_some, beq_iff_eq] at hnext
    exact absurd (hnext ▸ hc) hw

lemma find?_border {b : Char} {t w w' : Text} (ht : t ≠ []) (hb : Text.Border b w)
    (hb' : Text.Border b w') : find? (t ++ b :: w') = find? (t ++ b :: w) := by
  have hdull := hb.dull
  by_cases hdot : b = '.'
  · subst hdot
    have hhead : ∀ {w : Text}, Text.Border '.' w → w.head? ≠ some '.' := by
      rintro w (hb | hb | ⟨-, hw⟩) hhead
      · cases hb
      · cases hb
      · exact (hw _ hhead).1 rfl
    rw [find?_append_dot (hhead hb), find?_append_dot (hhead hb')]
  · have hne : ∀ w : Text, (b :: w).head? ≠ some '.' := by simpa using hdot
    rw [find?_append_dull ht (hdull w) (hne w), find?_append_dull ht (hdull w') (hne w')]

end Sign

namespace Token.Lexeme

lemma variableLength?_append_dull {t v : Text} (sigil : Char) (ht : t ≠ []) (hv : Dull v) :
    variableLength? sigil (t ++ v) = variableLength? sigil t := by
  have hname : ∀ (n : ℕ) (u : Text), nameAfter? n (u ++ v) = nameAfter? n u := by
    intro n u
    rw [nameAfter?, nameAfter?, Text.continuesName_append_dull u hv,
      Text.span_append_dull (by decide) u hv]
  cases t with
  | nil => exact absurd rfl ht
  | cons c u =>
    rw [List.cons_append, variableLength?, variableLength?, hname, ← List.cons_append, hname]

lemma pos_of_variableLength? {sigil : Char} {t : Text} {n : ℕ}
    (h : variableLength? sigil t = some n) : 0 < n := by
  have hname : ∀ {m : ℕ} {u : Text}, nameAfter? m u = some n → 0 < n := by
    intro m u hu
    rw [nameAfter?] at hu
    split at hu
    · rename_i hc
      cases hu
      cases u with
      | nil => cases hc
      | cons c u =>
        have : Text.isNameChar c = true := hc
        simp [span, this]
    · cases hu
  cases t with
  | nil => cases h
  | cons c u =>
    rw [variableLength?] at h
    split_ifs at h
    · exact hname h
    · cases h
      exact Nat.one_pos
    · exact hname h

lemma variableLength?_local {sigil : Char} {t v v' : Text} {n : ℕ} (hv : Dull v) (hv' : Dull v')
    (h : variableLength? sigil (t ++ v) = some n) (hn : n ≤ t.length) :
    variableLength? sigil (t ++ v') = some n := by
  have ht : t ≠ [] := by
    rintro rfl
    have := pos_of_variableLength? h
    simp at hn
    omega
  rw [variableLength?_append_dull sigil ht hv']
  rwa [variableLength?_append_dull sigil ht hv] at h

lemma startsSetter_append_dull (t : Text) {v : Text} (hv : Dull v) :
    startsSetter (t ++ v) = startsSetter t := by
  cases t with
  | nil =>
    cases v with
    | nil => rfl
    | cons c v =>
      have hc : c ≠ '=' := by
        rintro rfl
        exact absurd (Text.dull_cons.1 hv) (by decide)
      rw [List.nil_append, startsSetter, startsSetter]
      · simp
      · intro u h
        exact hc (List.cons.inj h).1
  | cons c t =>
    by_cases hc : c = '='
    · subst hc
      rw [List.cons_append, startsSetter, startsSetter, Text.head?_any_append_dull (by decide) t hv]
    · rw [startsSetter, startsSetter]
      · exact fun u h => hc (List.cons.inj h).1
      · exact fun u h => hc (List.cons.inj h).1

lemma symbolMark_append_dull (t : Text) {v : Text} (hv : Dull v) :
    symbolMark (t ++ v) = symbolMark t := by
  rw [symbolMark, symbolMark, startsSetter_append_dull t hv,
    Text.head?_any_append_dull (by decide) t hv]

/-- What stands after a colon, when it is no scope operator. -/
lemma colon_cons {start : ℕ} {c : Char} (hc : c ≠ ':') (u : Text) :
    colon start (c :: u) =
      if c = '"' || c = '\'' then
        (Quoting.literal (start + 1) c (c = '"') u).map fun n => ⟨.symbol, 1 + n⟩
      else if c = '@' || c = '$' then
        match variableLength? c u with
        | some n => .ok ⟨.symbol, 1 + n⟩
        | none => .error ⟨start + 1, .invalidVariable⟩
      else if Text.isNameStart c then
        .ok ⟨.symbol,
          1 + span Text.isNameChar u + symbolMark (u.drop (span Text.isNameChar u))⟩
      else
        match Sign.findMethod? (c :: u) with
        | some name => .ok (if name = ['`'] then ⟨.op, 0⟩ else ⟨.symbol, name.length⟩)
        | none => .ok ⟨.op, 0⟩ := by
  rw [colon.eq_def]
  split
  · rename_i heq
    exact absurd (List.cons.inj heq).1 hc
  · rename_i heq
    cases heq
    rfl
  · rename_i heq
    cases heq

lemma colon_dull {v : Text} (start : ℕ) (hv : Dull v) : colon start v = .ok ⟨.op, 0⟩ := by
  cases v with
  | nil => rfl
  | cons c u =>
    have hmethod : Sign.findMethod? (c :: u) = none := by
      have := Sign.findMethod?_append_dull [] hv
      exact this.trans (by decide)
    have hc := Text.dull_cons.1 hv
    have hclass : ∀ c ∈ Text.dullChars, (c = '"' || c = '\'') = false ∧
        (c = '@' || c = '$') = false ∧ Text.isNameStart c = false ∧ c ≠ ':' :=
        Text.forall_mem_of_all (by decide)
    obtain ⟨hquote, hsigil, hname, hcolon⟩ := hclass c hc
    rw [colon_cons hcolon, hquote, hsigil, hname, hmethod]
    rfl

/-- What a colon starts is read alike as long as it ends inside `t`. -/
lemma colon_local {start : ℕ} {t v v' : Text} {l : Lexeme} (hv : Dull v) (hv' : Dull v')
    (h : colon start (t ++ v) = .ok l) (hl : l.more ≤ t.length) :
    colon start (t ++ v') = .ok l := by
  cases t with
  | nil =>
    rw [List.nil_append, colon_dull _ hv] at h
    rw [List.nil_append, colon_dull _ hv']
    exact h
  | cons c u =>
    by_cases hc : c = ':'
    · subst hc
      exact h
    · rw [List.length_cons] at hl
      rw [List.cons_append, colon_cons hc] at h ⊢
      rw [← List.cons_append, Sign.findMethod?_append_dull _ hv,
        Text.span_append_dull (by decide) u hv,
        List.drop_append_of_le_length (Text.span_le _ u), symbolMark_append_dull _ hv] at h
      rw [← List.cons_append, Sign.findMethod?_append_dull _ hv',
        Text.span_append_dull (by decide) u hv',
        List.drop_append_of_le_length (Text.span_le _ u), symbolMark_append_dull _ hv']
      split_ifs at h ⊢ with hquote hsigil hname
      · obtain ⟨n, hn, rfl⟩ := eq_ok_of_map_eq_ok h
        rw [Quoting.literal_local v' hn (by dsimp only at hl; omega)]
        rfl
      · split at h
        · rename_i n hn
          cases h
          rw [variableLength?_local hv hv' hn (by dsimp only at hl; omega)]
        · cases h
      · exact h
      · exact h

lemma var_local {start : ℕ} {sigil : Char} {t v v' : Text} {l : Lexeme} (hv : Dull v)
    (hv' : Dull v') (h : var start sigil (t ++ v) = .ok l) (hl : l.more ≤ t.length) :
    var start sigil (t ++ v') = .ok l := by
  rw [var] at h ⊢
  split at h
  · rename_i n hn
    cases h
    rw [variableLength?_local hv hv' hn hl]
  · cases h

lemma quoted_local {start : ℕ} {q : Char} {interpolates : Bool} {t v : Text} {l : Lexeme}
    (v' : Text) (h : quoted start q interpolates (t ++ v) = .ok l) (hl : l.more ≤ t.length) :
    quoted start q interpolates (t ++ v') = .ok l := by
  obtain ⟨n, hn, rfl⟩ := eq_ok_of_map_eq_ok h
  rw [quoted, Quoting.literal_local v' hn hl]
  rfl

lemma flags_append_dull (kind : Kind) (t : Text) {v : Text} (hv : Dull v) :
    flags kind (t ++ v) = flags kind t := by
  rw [flags, flags, Text.span_append_dull (by decide) t hv]

lemma regexp_local {start : ℕ} {t v v' : Text} {l : Lexeme} (hv : Dull v) (hv' : Dull v')
    (h : regexp start (t ++ v) = .ok l) (hl : l.more ≤ t.length) :
    regexp start (t ++ v') = .ok l := by
  obtain ⟨n, hn, rfl⟩ := eq_ok_of_map_eq_ok h
  have hle : n ≤ t.length := (Nat.le_add_right _ _).trans hl
  rw [regexp, Quoting.regexp_local v' hn hle]
  simp only [Except.map, List.drop_append_of_le_length hle, flags_append_dull _ _ hv,
    flags_append_dull _ _ hv']

lemma character?_cons {c : Char} (hc : c ≠ '\\') (t : Text) :
    character? (c :: t) =
      if Text.isSpace c || Text.isNameChar c && (Text.isWide c || Text.continuesName t) then none
      else some ⟨.string, 1⟩ := by
  rw [character?]
  exact fun _ _ h _ => hc h

end Token.Lexeme

end TablePack
