import Mathlib.Tactic
import TablePack.Proofs.Buffer.Blank
import TablePack.Proofs.Faults

/-!
# Numerals, words and variables in a buffer

All characters of a numeral are in ASCII, so the lexer finds the end of a numeral after as many
bytes as the scanner after characters. Names hold all characters outside ASCII with all their bytes.
-/

namespace TablePack

open Token (Kind)
open Text (Stands lead span Narrow)

namespace Lexer

section

variable {source t u : Text} {s : Scanner} {c : Char} {pos : ℕ}

/-! ## Numerals -/

/-- Digits are passed over one by one. -/
lemma eatWhile_digits (h : Stands source pos t) :
    (Buffer.ofText source).eatWhile Byte.isDigitOrScore pos
      = .ok (pos + span Text.isDigitOrScore t) := by
  rw [Buffer.eatWhile_ofText Text.sees_isDigitOrScore h, ← Text.take_span]
  exact congrArg (fun n => Except.ok (pos + n))
    (Text.narrow_span (fun c => Numeral.utf8Size_of_isDigitOrScore) t)

lemma radixMark?_eq (mark : Char) :
    Numeral.radixMark? mark
      = if mark == 'x' || mark == 'X' then some 16
        else if mark == 'b' || mark == 'B' then some 2
        else if mark == 'o' || mark == 'O' then some 8
        else if mark == 'd' || mark == 'D' then some 10
        else none := by
  unfold Numeral.radixMark?
  split <;> simp_all

lemma radix?_ofText (h : Stands source pos (c :: t)) :
    radix? (.ofText source) pos = Numeral.radix? (c :: t) := by
  rw [radix?, Buffer.get?_ofText h, Text.map_lead_beq (by decide)]
  by_cases hc : c = '0'
  · subst hc
    have hnext : Stands source (pos + 1) t := h.cons
    rw [if_pos (by simp), Buffer.get?_ofText hnext]
    cases t with
    | nil => rfl
    | cons mark u =>
      simp only [List.head?_cons, Option.map_some]
      simp (disch := decide) only [Text.lead_beq_ascii]
      exact (radixMark?_eq mark).symm
  · rw [if_neg (by simp [hc]), Numeral.radix?]
    simp [hc]

lemma fraction_ofText (h : Stands source pos u) :
    fraction (.ofText source) pos
      = .ok (if Numeral.fraction u = 0 then .int else .float, pos + Numeral.fraction u) := by
  rw [fraction, Buffer.get?_ofText h, Text.map_lead_beq (by decide)]
  rcases u with _ | ⟨c, v⟩
  · rfl
  by_cases hc : c = '.'
  · subst hc
    have hnext : Stands source (pos + 1) v := h.cons
    rw [Buffer.get?_ofText hnext, Text.sees_isDigit.any_map_lead]
    rcases v with _ | ⟨d, w⟩
    · rfl
    by_cases hd : d.isDigit
    · rw [if_pos (by simp [hd]), eatWhile_digits hnext, Numeral.fraction, if_pos hd,
        if_neg (by omega), ← Nat.add_assoc]
      rfl
    · rw [if_neg (by simp [hd]), Numeral.fraction, if_neg hd]
      rfl
  · have hnone : Numeral.fraction (c :: v) = 0 := by
      unfold Numeral.fraction
      split <;> simp_all
    rw [if_neg (by simp [hc]), hnone]
    rfl

lemma signLength_ofText (h : Stands source pos u) :
    signLength (.ofText source) pos
      = if u.head?.any (fun c => c == '+' || c == '-') then 1 else 0 := by
  rw [signLength, Buffer.get?_ofText h]
  cases u with
  | nil => rfl
  | cons c v =>
    simp only [List.head?_cons, Option.map_some, Option.any_some]
    simp (disch := decide) only [Text.lead_beq_ascii]
    rfl

/-- The sign of an exponent, if there is one. -/
lemma narrow_sign (v : Text) :
    Narrow v (if v.head?.any (fun c => c == '+' || c == '-') then 1 else 0) := by
  split
  · rename_i h
    cases v with
    | nil => simp at h
    | cons d w =>
      refine (Text.narrow_zero w).cons ?_
      rcases Bool.or_eq_true _ _ ▸ h with hd | hd <;> (rw [beq_iff_eq] at hd; subst hd; rfl)
  · exact Text.narrow_zero v

lemma exponent_ofText (h : Stands source pos u) (kind : Kind) :
    exponent (.ofText source) kind pos
      = .ok (if Numeral.exponent u = 0 then kind else .float, pos + Numeral.exponent u) := by
  rw [exponent, Buffer.get?_ofText h]
  rcases u with _ | ⟨e, v⟩
  · rfl
  simp only [List.head?_cons, Option.map_some, Option.any_some]
  simp (disch := decide) only [Text.lead_beq_ascii]
  by_cases he : e == 'e' || e == 'E'
  · have hsize : e.utf8Size = 1 := by
      rcases Bool.or_eq_true _ _ ▸ he with he | he <;> (rw [beq_iff_eq] at he; subst he; rfl)
    have hnext : Stands source (pos + 1) v := by
      rw [← hsize]
      exact h.cons
    have hsign := hnext.drop (narrow_sign v)
    rw [signLength_ofText hnext, Buffer.get?_ofText hsign, Text.sees_isDigit.any_map_lead,
      Numeral.exponent, if_pos he, he, Bool.true_and]
    generalize (if v.head?.any (fun c => c == '+' || c == '-') then 1 else 0) = sign at hsign ⊢
    dsimp only
    by_cases hdigit : (v.drop sign).head?.any Char.isDigit
    · rw [if_pos hdigit, if_pos hdigit, if_neg (by omega), ← Nat.add_assoc pos 1 sign,
        eatWhile_digits hsign, Nat.add_assoc 1, Nat.add_assoc pos, Nat.add_assoc, Nat.add_assoc]
      rfl
    · rw [if_neg hdigit, if_neg hdigit]
      rfl
  · rw [if_neg (by simp [he]), Numeral.exponent, if_neg he]
    rfl

/-- A result of reading a numeral, placed in the text. -/
def numeralAt (source : Text) (start : ℕ) :
    Except Problem (Kind × ℕ) → Checked (Kind × ℕ)
  | .ok (kind, n) => .ok (kind, start + n)
  | .error problem => (Buffer.ofText source).fail start problem

lemma marked_ofText {mark : Char} {radix : ℕ} (h : Stands source pos ('0' :: mark :: u))
    (hmark : Numeral.radixMark? mark = some radix) :
    marked (.ofText source) pos radix = numeralAt source pos (Numeral.marked radix u) := by
  have hnext : Stands source (pos + 2) u := by
    have hcons := h.cons.cons
    rwa [Numeral.utf8Size_of_radixMark? hmark] at hcons
  have hdigits : Text.size (u.takeWhile fun c => c.isAlphanum || c == '_')
      = (u.takeWhile fun c => c.isAlphanum || c == '_').length := by
    rw [← Text.take_span]
    exact (Numeral.narrow_alphanum u).trans (by rw [Text.take_span]; rfl)
  have htext : (Buffer.ofText source).text (pos + 2)
      (pos + 2 + Text.size (u.takeWhile fun c => c.isAlphanum || c == '_'))
        = .ok (u.takeWhile fun c => c.isAlphanum || c == '_') :=
    Buffer.text_ofText (t := u.dropWhile _) (by rwa [List.takeWhile_append_dropWhile])
  rw [marked, Buffer.eatWhile_ofText Text.sees_isAlphanumOrScore hnext]
  change ((Buffer.ofText source).text _ _ >>= _) = _
  rw [htext, hdigits, Numeral.marked]
  change (if _ then _ else _) = _
  split
  · rfl
  · rw [numeralAt, Nat.add_assoc]
    rfl

/-- The first characters of a text, in ASCII, as a part of the buffer. -/
lemma part_narrow {n : ℕ} (h : Stands source pos t) (hn : Narrow t n) :
    (Buffer.ofText source).part pos (pos + n) = .ok (.ofText (t.take n)) := by
  rw [← List.take_append_drop n t] at h
  rw [← Buffer.part_ofText h, hn]

lemma sees_eightOrNine : Text.Sees (fun b => b == ascii '8' || b == ascii '9')
    fun c => c == '8' || c == '9' :=
  (Text.sees_eq (by decide)).or (Text.sees_eq (by decide))

/-- The check of an integer that starts with a zero. -/
lemma octal_ofText {whole : ℕ} (hwhole : Narrow t whole) :
    (if Kind.int = .int ∧ 1 < (Buffer.ofText (t.take whole)).size then do
      let first ← (Buffer.ofText (t.take whole)).byte 0
      if first == ascii '0'
          && (Buffer.ofText (t.take whole)).bytes.any fun b => b == ascii '8' || b == ascii '9' then
        (Buffer.ofText source).fail pos .invalidOctalDigit
      else return (.int, pos + whole)
    else return (.int, pos + whole))
      = numeralAt source pos
        (if 1 < whole && t.head? == some '0'
          && (t.take whole).any fun c => c == '8' || c == '9' then .error .invalidOctalDigit
        else .ok (.int, whole)) := by
  rw [Buffer.size_ofText, show Text.size (t.take whole) = whole from hwhole]
  by_cases hlong : 1 < whole
  · rw [if_pos ⟨rfl, hlong⟩]
    cases t with
    | nil => simp [Narrow] at hwhole; omega
    | cons c t =>
      have hstands := Buffer.stands_zero ((c :: t).take whole)
      obtain ⟨n, rfl⟩ := Nat.exists_eq_add_of_le' (Nat.le_of_lt hlong)
      rw [List.take_succ_cons] at hstands ⊢
      rw [Buffer.byte_ofText hstands]
      change (if lead c == ascii '0' && (Text.bytes (c :: t.take n)).toArray.any _ then _ else _)
        = _
      rw [List.any_toArray, Text.any_bytes sees_eightOrNine, Text.lead_beq_ascii (by decide)]
      simp only [hlong, decide_true, Bool.true_and, List.head?_cons, Option.some_beq_some]
      cases c == '0' && (c :: t.take n).any fun c => c == '8' || c == '9' <;> rfl
  · rw [if_neg (fun h => hlong h.2), if_neg (by simp [hlong])]
    rfl

lemma unmarked_ofText (h : Stands source pos t) :
    unmarked (.ofText source) pos = numeralAt source pos (Numeral.unmarked t) := by
  have hwhole : Narrow t (span Text.isDigitOrScore t) :=
    Text.narrow_span (fun c => Numeral.utf8Size_of_isDigitOrScore) t
  rw [unmarked, eatWhile_digits h, Numeral.unmarked]
  generalize span Text.isDigitOrScore t = whole at hwhole
  have hfractional := hwhole.add (Numeral.narrow_fraction (t.drop whole))
  have hfraction := fraction_ofText (h.drop hwhole)
  change (fraction _ (pos + whole) >>= _) = _
  rw [hfraction]
  dsimp only
  generalize Numeral.fraction (t.drop whole) = fractional at hfractional
  have hscaled := hfractional.add (Numeral.narrow_exponent (t.drop (whole + fractional)))
  have hexponent := exponent_ofText (h.drop hfractional)
  rw [← Nat.add_assoc] at hexponent
  change (exponent _ (if fractional = 0 then _ else _) (pos + whole + fractional) >>= _) = _
  rw [hexponent]
  generalize Numeral.exponent (t.drop (whole + fractional)) = scaled at hscaled
  change (Buffer.part _ _ (pos + whole + fractional + scaled) >>= _) = _
  rw [Nat.add_assoc pos whole, Nat.add_assoc pos, part_narrow h hscaled]
  by_cases hfloat : fractional + scaled = 0
  · obtain ⟨rfl, rfl⟩ : fractional = 0 ∧ scaled = 0 := by omega
    exact octal_ofText hwhole
  · rw [if_pos hfloat]
    have hkind : (if scaled = 0 then if fractional = 0 then Kind.int else .float else .float)
        = Kind.float := by
      by_cases hscale : scaled = 0
      · rw [if_pos hscale, if_neg (by omega)]
      · rw [if_neg hscale]
    rw [hkind]
    rfl

lemma numeral_ofText (h : Stands source pos (c :: t)) :
    numeral (.ofText source) pos = numeralAt source pos (Numeral.body (c :: t)) := by
  rw [numeral, radix?_ofText h, Numeral.body]
  cases hradix : Numeral.radix? (c :: t) with
  | none =>
    exact unmarked_ofText h
  | some radix =>
    unfold Numeral.radix? at hradix
    split at hradix
    · rename_i mark u heq
      obtain ⟨rfl, rfl⟩ := List.cons.inj heq
      exact marked_ofText h hradix
    · cases hradix

/-- Whether a name goes on at a position. -/
lemma any_isNameChar_ofText (h : Stands source pos t) :
    ((Buffer.ofText source).get? pos).any Byte.isNameChar = Text.continuesName t := by
  rw [Buffer.get?_ofText h, Text.sees_isNameChar.any_map_lead, Text.continuesName]

lemma suffix_r {v : Text} (hi : v.head? ≠ some 'i') :
    Numeral.suffix ('r' :: v) = if Text.continuesName v then 0 else 1 := by
  unfold Numeral.suffix
  split <;> simp_all

lemma suffixed_ofText (h : Stands source pos u) (kind : Kind) :
    suffixed (.ofText source) kind pos [ascii 'r', ascii 'i']
      = (if Numeral.suffix u = 0 then kind else .float, pos + Numeral.suffix u) := by
  have hr := Buffer.get?_beq_ofText (d := 'r') h (by decide)
  have hi := Buffer.get?_beq_ofText (d := 'i') h (by decide)
  by_cases hu : ∃ v, u = 'r' :: v
  · obtain ⟨v, rfl⟩ := hu
    have hnext : Stands source (pos + 1) v := h.cons
    have hr' := Buffer.get?_beq_ofText (d := 'r') hnext (by decide)
    have hi' := Buffer.get?_beq_ofText (d := 'i') hnext (by decide)
    have hname := any_isNameChar_ofText hnext
    by_cases hv : v.head? = some 'i'
    · obtain ⟨w, rfl⟩ := List.head?_eq_some_iff.mp hv
      have hname' : ((Buffer.ofText source).get? (pos + 2)).any Byte.isNameChar
          = Text.continuesName w := any_isNameChar_ofText hnext.cons
      rw [show Text.continuesName ('i' :: w) = true from rfl] at hname
      simp only [suffixed, hr, hi, hi', hname, hname', Numeral.suffix]
      cases Text.continuesName w <;> simp
    · rw [suffix_r hv]
      cases hcontinues : Text.continuesName v with
      | true =>
        rw [hcontinues] at hname
        simp [suffixed, hr, hi, hi', hname, hv]
      | false =>
        rw [hcontinues] at hname
        have hv' : v.head? ≠ some 'r' := by
          intro hv'
          obtain ⟨w, rfl⟩ := List.head?_eq_some_iff.mp hv'
          exact Bool.noConfusion hcontinues
        simp [suffixed, hr, hr', hi', hname, hv, hv']
  · by_cases hu' : ∃ v, u = 'i' :: v
    · obtain ⟨v, rfl⟩ := hu'
      have hnext : Stands source (pos + 1) v := h.cons
      have hname := any_isNameChar_ofText hnext
      simp only [suffixed, hr, hi, hname, Numeral.suffix]
      cases Text.continuesName v <;> simp
    · have hnone : Numeral.suffix u = 0 := by
        unfold Numeral.suffix
        split <;> simp_all
      rw [hnone]
      simp only [suffixed, hr, hi]
      cases u <;> simp_all

/-- A numeral has at least one digit. -/
lemma body_pos {kind : Kind} {n : ℕ} (hc : c.isDigit)
    (h : Numeral.body (c :: t) = .ok (kind, n)) : 0 < n := by
  have hwhole : 0 < span Text.isDigitOrScore (c :: t) := by
    rw [span, List.takeWhile_cons_of_pos (by simp [Text.isDigitOrScore, hc])]
    exact Nat.succ_pos _
  rw [Numeral.body] at h
  split at h
  · rw [Numeral.marked] at h
    split at h <;> cases h
    omega
  · rw [Numeral.unmarked] at h
    split at h
    · cases h
      omega
    · split at h <;> cases h
      exact hwhole

/-- A numeral. -/
lemma number_ofScanner (hs : s.Sound source) (hrest : s.rest = c :: t) (hc : c.isDigit) :
    (ofScanner s).number (.ofText source)
      = .ofResult source ofScanner ((Numeral.read s.pos (c :: t)).map s.emit) := by
  have hstands : Stands source s.pos (c :: t) := hrest ▸ stands_of_sound hs
  rw [number, show (ofScanner s).pos = s.pos from rfl, numeral_ofText hstands, Numeral.read]
  cases hbody : Numeral.body (c :: t) with
  | error problem =>
    have hproblem : problem ≠ .splitCharacter := by
      rintro rfl
      exact Numeral.body_ne_splitCharacter _ hbody
    rw [numeralAt, Buffer.fail_ofText, Except.map, Checked.ofResult, Stop.ofFault, if_neg hproblem]
    rfl
  | ok result =>
    obtain ⟨kind, n⟩ := result
    have hn := Numeral.narrow_body hbody
    have htail := hn.add (Numeral.narrow_suffix _)
    have hstop := any_isNameChar_ofText (hstands.drop htail)
    rw [numeralAt, Checked.ok_bind]
    dsimp only
    rw [suffixed_ofText (hstands.drop hn)]
    dsimp only
    generalize Numeral.suffix ((c :: t).drop n) = tail at htail hstop
    rw [Nat.add_assoc, hstop]
    by_cases hcontinues : Text.continuesName ((c :: t).drop (n + tail))
    · rw [if_pos hcontinues, if_pos hcontinues, ← Nat.add_assoc]
      exact Buffer.fail_eq_ofResult .afterNumeral (by simp) ofScanner
    · have hemit := emit_ofScanner hs (if tail = 0 then kind else .float) (n + tail - 1)
      rw [Nat.sub_add_cancel (by have := body_pos hc hbody; omega), hrest, htail] at hemit
      rw [if_neg hcontinues, if_neg hcontinues, hemit]
      rfl

/-! ## Words -/

lemma stands_take (h : Stands source pos t) (n : ℕ) :
    Stands source (pos + Text.size (t.take n)) (t.drop n) := by
  rw [← List.take_append_drop n t] at h
  exact h.append

/-- One more character in ASCII. -/
lemma size_take_succ {n : ℕ} {d : Char} (h : (t.drop n).head? = some d) (hd : d.utf8Size = 1) :
    Text.size (t.take (n + 1)) = Text.size (t.take n) + 1 := by
  obtain ⟨u, hu⟩ := List.head?_eq_some_iff.mp h
  rw [List.take_add, hu, Text.size_append, List.take_succ_cons, List.take_zero, Text.size_cons, hd]
  rfl

lemma setterAt_ofText (h : Stands source pos t) :
    setterAt (.ofText source) pos = Token.Lexeme.startsSetter t := by
  rw [setterAt, Buffer.get?_beq_ofText h (by decide)]
  by_cases ht : t.head? = some '='
  · obtain ⟨u, rfl⟩ := List.head?_eq_some_iff.mp ht
    have hnext : Stands source (pos + 1) u := h.cons
    rw [Buffer.get?_ofText hnext, Token.Lexeme.startsSetter]
    cases u with
    | nil => rfl
    | cons d v =>
      simp only [List.head?_cons, Option.map_some, Option.any_some]
      simp (disch := decide) only [Text.lead_beq_ascii]
      rfl
  · have hnone : Token.Lexeme.startsSetter t = false := by
      unfold Token.Lexeme.startsSetter
      split <;> simp_all
    rw [hnone]
    simp [ht]

/-- The next character is one of two. -/
lemma any_beq_ofText {d e : Char} (h : Stands source pos t) (hd : d.toNat < 0x80)
    (he : e.toNat < 0x80) :
    ((Buffer.ofText source).get? pos).any (fun b => b == ascii d || b == ascii e)
      = t.head?.any fun c => c == d || c == e := by
  rw [Buffer.get?_ofText h]
  cases t with
  | nil => rfl
  | cons c t => simp [Text.lead_beq_ascii hd, Text.lead_beq_ascii he]

lemma exists_mark {d e : Char} (hd : d.utf8Size = 1) (he : e.utf8Size = 1)
    (h : t.head?.any fun c => c == d || c == e) : ∃ c, t.head? = some c ∧ c.utf8Size = 1 := by
  obtain ⟨c, hc, hmark⟩ := (Option.any_eq_true ..).mp h
  refine ⟨c, hc, ?_⟩
  rcases Bool.or_eq_true _ _ ▸ hmark with h | h <;> (rw [beq_iff_eq] at h; subst h; assumption)

lemma head?_of_startsSetter (h : Token.Lexeme.startsSetter t) : t.head? = some '=' := by
  unfold Token.Lexeme.startsSetter at h
  split at h
  · rfl
  · cases h

lemma wordLength_eq (t : Text) :
    Scanner.wordLength t
      = if (t.drop (span Text.isNameChar t)).head?.any (fun c => c == '?' || c == '!')
          && (t.drop (span Text.isNameChar t + 1)).head? != some '=' then
        span Text.isNameChar t + 1
      else span Text.isNameChar t := by
  rw [Scanner.wordLength]
  cases h : t.drop (span Text.isNameChar t) with
  | nil => rfl
  | cons d u =>
    rw [List.drop_add_one_eq_tail_drop, h]
    rfl

lemma eatWhile_name (h : Stands source pos (c :: t)) (hc : Text.isNameChar c) :
    (Buffer.ofText source).eatWhile Byte.isNameChar pos
      = .ok (pos + Text.size ((c :: t).take (span Text.isNameChar t + 1))) := by
  rw [Buffer.eatWhile_ofText Text.sees_isNameChar h, List.takeWhile_cons_of_pos hc,
    List.take_succ_cons, Text.take_span]

lemma wordEnd_ofText (h : Stands source pos (c :: t)) (hc : Text.isNameChar c) :
    wordEnd (.ofText source) pos
      = .ok (pos + Text.size ((c :: t).take (Scanner.wordLength t + 1))) := by
  have hstop := stands_take h (span Text.isNameChar t + 1)
  rw [List.drop_succ_cons] at hstop
  rw [wordEnd, eatWhile_name h hc, Checked.ok_bind, any_beq_ofText hstop (by decide) (by decide),
    wordLength_eq]
  cases hmark : (t.drop (span Text.isNameChar t)).head?.any (fun c => c == '?' || c == '!') with
  | false => rfl
  | true =>
    obtain ⟨d, hd, hsize⟩ := exists_mark rfl rfl hmark
    have hone := size_take_succ (t := c :: t) (n := span Text.isNameChar t + 1) hd hsize
    have hnext := stands_take h (span Text.isNameChar t + 1 + 1)
    rw [hone, ← Nat.add_assoc, List.drop_succ_cons] at hnext
    rw [Bool.true_and, Bool.true_and, bne, Buffer.get?_beq_ofText hnext (by decide), ← bne]
    cases (t.drop (span Text.isNameChar t + 1)).head? != some '=' with
    | false => rfl
    | true =>
      rw [if_pos rfl, if_pos rfl, hone]
      rfl

lemma namesMethod_ofScanner (hs : s.Sound source)
    (h : Stands source pos (t.drop (Scanner.wordLength t))) :
    (ofScanner s).namesMethod (.ofText source) pos = s.namesMethod t := by
  rw [namesMethod, inDefName_ofScanner hs.recalls, bne, Buffer.get?_beq_ofText h (by decide),
    Scanner.namesMethod, Scanner.namesReceiver]
  cases Token.inDefName s.recent <;> rfl

lemma identEnd_ofScanner (hs : s.Sound source) (h : Stands source pos (c :: t)) :
    (ofScanner s).identEnd (.ofText source)
        (pos + Text.size ((c :: t).take (Scanner.wordLength t + 1)))
      = pos + Text.size ((c :: t).take (s.wordExtent t + 1)) := by
  have hword := stands_take h (Scanner.wordLength t + 1)
  rw [List.drop_succ_cons] at hword
  rw [identEnd, namesMethod_ofScanner hs hword, setterAt_ofText hword, Scanner.wordExtent]
  cases hsetter : s.namesMethod t && Token.Lexeme.startsSetter (t.drop (Scanner.wordLength t)) with
  | false => rfl
  | true =>
    have hhead : ((c :: t).drop (Scanner.wordLength t + 1)).head? = some '=' :=
      head?_of_startsSetter (Bool.and_eq_true _ _ ▸ hsetter).2
    rw [if_pos rfl, if_pos rfl, size_take_succ hhead rfl, Nat.add_assoc]

lemma labelAt_ofText (h : Stands source pos t) :
    labelAt (.ofText source) pos = Scanner.startsLabel t := by
  rw [labelAt, Buffer.get?_beq_ofText h (by decide)]
  by_cases ht : t.head? = some ':'
  · obtain ⟨u, rfl⟩ := List.head?_eq_some_iff.mp ht
    have hnext : Stands source (pos + 1) u := h.cons
    rw [bne, Buffer.get?_beq_ofText hnext (by decide)]
    rfl
  · have hnone : Scanner.startsLabel t = false := by
      unfold Scanner.startsLabel
      split <;> simp_all
    rw [hnone]
    simp [ht]

lemma wordKind_ofScanner (hs : s.Sound source) (c : Char) (word : Text) {after : Text}
    (h : Stands source pos after) :
    (ofScanner s).wordKind (.ofText source) (c :: word) pos
      = .ok (s.wordKind (c :: word) after) := by
  have hfirst : Checked.item (Text.bytes (c :: word)).toArray 0 = .ok (lead c) := by
    rw [Text.bytes_cons_eq]
    rfl
  rw [wordKind, hfirst, Checked.ok_bind, labelAt_ofText h, inDefName_ofScanner hs.recalls,
    kindAt?_ofScanner hs.recalls, Text.sees_isUpper.lead_eq, Scanner.wordKind,
    show (c :: word).head?.any Char.isUpper = c.isUpper from rfl]
  cases c.isUpper with
  | true => rfl
  | false =>
    cases Token.inDefName s.recent || Token.kindAt? s.recent 0 == some .dot
      || Scanner.startsLabel after with
    | true => rfl
    | false => cases Keyword.ofText? (c :: word) <;> rfl

lemma bindsWord_ofScanner (hs : s.Sound source) (kind : Kind) :
    (ofScanner s).bindsWord (.ofText source) kind = .ok (s.bindsWord kind) := by
  rw [bindsWord, inDefName_ofScanner hs.recalls, kindAt?_ofScanner hs.recalls,
    inRescue_ofScanner hs.recalls, Scanner.bindsWord, show (ofScanner s).params = s.params from rfl]
  cases kind == .ident && !Token.inDefName s.recent && Token.kindAt? s.recent 0 != some .dot with
  | false => rfl
  | true =>
    cases s.params.any (·.expecting) || Token.kindAt? s.recent 0 == some (.keyword .for_) <;> rfl

lemma startsLineParams_ofText (h : Stands source pos t) :
    startsLineParams (.ofText source) pos = .ok (Scanner.startsLineParams t) := by
  have hnarrow : Narrow t (span Text.isIndent t) := Text.narrow_span (fun c hc => by
    rcases Bool.or_eq_true _ _ ▸ hc with h | h <;> (rw [beq_iff_eq] at h; subst h; rfl)) t
  have hcount : (Buffer.ofText t).count Byte.isIndent = span Text.isIndent t := by
    rw [Buffer.count_ofText Text.sees_isIndent, ← Text.take_span, hnarrow]
  have hafter := (Buffer.stands_zero t).drop hnarrow
  rw [Nat.zero_add] at hafter
  rw [startsLineParams, Buffer.tail_ofText h, Checked.ok_bind, hcount, Scanner.startsLineParams]
  rw [Buffer.get?_ofText hafter]
  cases (t.drop (span Text.isIndent t)).head? with
  | none => simp; rfl
  | some c =>
    simp only [Option.map_some, Option.any_some]
    simp (disch := decide) only [Text.lead_beq_ascii, Text.sees_isNameStart.lead_eq]
    cases span Text.isIndent t <;> rfl

lemma openLine_ofScanner (h : Stands source s.pos s.rest) (method : Bool) :
    openLine (.ofText source) (ofScanner s) method
      = .ok (ofScanner { s with
        params :=
          if method && Scanner.startsLineParams s.rest then some (.start .line)
          else s.params }) := by
  cases method with
  | false => rfl
  | true =>
    rw [openLine, if_pos rfl, show (ofScanner s).pos = s.pos from rfl, startsLineParams_ofText h]
    cases Scanner.startsLineParams s.rest <;> rfl

lemma ofScanner_bindWord (s : Scanner) (binds : Bool) (word : Text) :
    { ofScanner s with
      locals := if binds then (ofScanner s).locals.insert word else (ofScanner s).locals }
      = ofScanner (s.bindNames (if binds then [word] else [])) := by
  cases binds <;> rfl

/-- A word. -/
lemma ident_ofScanner (hs : s.Sound source) (hrest : s.rest = c :: t) (hc : Text.isNameChar c) :
    (ofScanner s).ident (.ofText source) = .ok (ofScanner (s.word c t)) := by
  have hstands : Stands source s.pos (c :: t) := hrest ▸ stands_of_sound hs
  have hword := stands_take hstands (Scanner.wordLength t + 1)
  have hend := stands_take hstands (s.wordExtent t + 1)
  have htext := Buffer.text_ofText
    ((List.take_append_drop (s.wordExtent t + 1) (c :: t)).symm ▸ hstands)
  have hemit := fun kind => emit_ofScanner hs kind (s.wordExtent t)
  have hkind := wordKind_ofScanner hs c (t.take (s.wordExtent t)) hend
  rw [hrest] at hemit
  have hopen (kind : Kind) (names : List Text) :=
    openLine_ofScanner (s := (s.emit ⟨kind, s.wordExtent t⟩).bindNames names)
      (stands_take (stands_of_sound hs) _)
  rw [ident, show (ofScanner s).pos = s.pos from rfl, wordEnd_ofText hstands hc, Checked.ok_bind,
    identEnd_ofScanner hs hstands, htext, Checked.ok_bind, namesMethod_ofScanner hs hword]
  generalize s.pos + Text.size ((c :: t).take (s.wordExtent t + 1)) = stop at hend hemit hkind ⊢
  rw [List.take_succ_cons, hkind, Checked.ok_bind, bindsWord_ofScanner hs, Checked.ok_bind,
    hemit, Checked.ok_bind, ofScanner_bindWord, hopen, Scanner.rest_bindNames, Scanner.rest_emit,
    hrest]
  rfl

/-! ## Variables -/

/-- The position after a number of characters, or the fault at the start. -/
def variableAt (source : Text) (start : ℕ) (t : Text) : Option ℕ → Checked ℕ
  | some n => .ok (start + 1 + Text.size (t.take n))
  | none => (Buffer.ofText source).fail start .invalidVariable

lemma nameAfter_ofText {n : ℕ} (h : Stands source (pos + 1) t) (hn : Narrow t n) :
    nameAfter (.ofText source) pos (pos + 1 + n)
      = variableAt source pos t (Token.Lexeme.nameAfter? n (t.drop n)) := by
  have hnext := h.drop hn
  rw [nameAfter, any_isNameChar_ofText hnext, Token.Lexeme.nameAfter?]
  cases Text.continuesName (t.drop n) with
  | false => rfl
  | true =>
    rw [if_pos rfl, if_pos rfl, Buffer.eatWhile_ofText Text.sees_isNameChar hnext, variableAt,
      List.take_add, Text.size_append, Text.take_span, hn, Nat.add_assoc]

lemma varEnd_ofText (h : Stands source pos (c :: t)) (hc : c = '@' ∨ c = '$') :
    varEnd (.ofText source) pos
      = variableAt source pos t (Token.Lexeme.variableLength? c t) := by
  have hnext : Stands source (pos + 1) t := by
    rcases hc with rfl | rfl <;> exact h.cons
  have hbeq {d : Char} (hd : d.toNat < 0x80) := Buffer.get?_beq_ofText (d := d) h hd
  have hbeq' {d : Char} (hd : d.toNat < 0x80) := Buffer.get?_beq_ofText (d := d) hnext hd
  rw [varEnd, hbeq (by decide), hbeq (by decide), hbeq' (by decide), hbeq' (by decide),
    Buffer.get?_ofText hnext]
  have hzero := nameAfter_ofText hnext (Text.narrow_zero _)
  cases t with
  | nil => rcases hc with rfl | rfl <;> exact hzero
  | cons d u =>
    have hone (hd : d.utf8Size = 1) : nameAfter (.ofText source) pos (pos + 2) = _ :=
      nameAfter_ofText hnext ((Text.narrow_zero u).cons hd)
    simp only [List.head?_cons, Option.map_some, Option.any_some, Text.sees_isNameChar.lead_eq,
      Text.sees_isGraphic.lead_eq, Option.some_beq_some, Token.Lexeme.variableLength?]
    rcases hc with rfl | rfl
    · by_cases hd : d = '@'
      · subst hd
        exact hone rfl
      · simpa [hd] using hzero
    · by_cases hd : d = '-'
      · subst hd
        exact hone rfl
      · by_cases hgraphic : !Text.isNameChar d && Text.isGraphic d
        · have hsize : d.utf8Size = 1 := Text.utf8Size_of_narrow fun hwide => by
            simp [Text.isNameChar, Text.isNameStart, hwide] at hgraphic
          rw [if_neg (by simp [hd]), if_pos (by simp_all), if_neg (by simp [hd]),
            if_pos (by simp_all), variableAt, List.take_succ_cons, List.take_zero, Text.size_cons,
            hsize]
          rfl
        · rw [if_neg (by simp [hd]), if_neg (by simp_all), if_neg (by simp [hd]),
            if_neg (by simp_all)]
          exact hzero

/-- A variable. -/
lemma var_ofScanner (hs : s.Sound source) (hrest : s.rest = c :: t) (hc : c = '@' ∨ c = '$') :
    (ofScanner s).var (.ofText source) .var
      = .ofResult source ofScanner ((Token.Lexeme.var s.pos c t).map s.emit) := by
  have hstands : Stands source s.pos (c :: t) := hrest ▸ stands_of_sound hs
  have hsize : c.utf8Size = 1 := by rcases hc with rfl | rfl <;> rfl
  rw [var, show (ofScanner s).pos = s.pos from rfl, varEnd_ofText hstands hc, Token.Lexeme.var]
  cases Token.Lexeme.variableLength? c t with
  | none =>
    rw [variableAt, Buffer.fail_eq_ofResult _ (by simp) id]
    rfl
  | some n =>
    rw [variableAt, Checked.ok_bind, emit_cons hs hrest hsize]
    rfl

end

end Lexer

end TablePack
