import Mathlib.Tactic
import TablePack.Proofs.CommonStart
import TablePack.Proofs.Crlf.Quoted

/-!
# Lexemes with carriage returns

Most lexemes lie within a line, and the end of the line is not part of any class of characters they
are made of; such a lexeme is the same one before a carriage return and before a newline. What may
hold newlines is treated on its own: quoted literals, comments, embedded documents and the bodies of
heredocs. A comment takes the carriage return at its end with it, so that what is left of the text
starts with the bare newline (`Text.Sheds`).

* `Text.congr_crlf`: functions that do not look beyond a line;
* `Lexeme.colon_crlf`, `Lexeme.percent?_crlf` and others: the lexemes;
* `Heredoc.bodiesLength_crlf`: the bodies of heredocs.
-/

namespace TablePack

open Token (Kind Lexeme)
open Text (crlf crlfOffset Reads Stands span Dull startsWord)

/-! ## Classes of characters -/

namespace Text

/-- What does not look beyond a line is the same with carriage returns. -/
lemma congr_crlf {α : Type} {f : Text → α}
    (hf : ∀ l v, Dull v → v.head? ≠ some '.' → f (l ++ v) = f l) (t : Text) :
    f (crlf t) = f t := by
  obtain ⟨l, -, ⟨ht, hcrlf⟩ | ⟨u, ht, hcrlf⟩⟩ := exists_line t
  · rw [hcrlf]
    exact congrArg f ht.symm
  · rw [hcrlf, hf l _ (dull_cons.2 (by decide)) (by simp), ht,
      hf l _ (dull_cons.2 (by decide)) (by simp)]

lemma head?_any_crlf {p : Char → Bool} (hp : p '\r' = p '\n') (t : Text) :
    (crlf t).head?.any p = t.head?.any p := by
  cases t with
  | nil => rfl
  | cons c t =>
    by_cases hc : c = '\n'
    · subst hc
      exact hp
    · rw [crlf_cons hc]
      rfl

lemma head?_all_crlf {p : Char → Bool} (hp : p '\r' = p '\n') (t : Text) :
    (crlf t).head?.all p = t.head?.all p := by
  cases t with
  | nil => rfl
  | cons c t =>
    by_cases hc : c = '\n'
    · subst hc
      exact hp
    · rw [crlf_cons hc]
      rfl

lemma continuesName_crlf (t : Text) : continuesName (crlf t) = continuesName t :=
  head?_any_crlf rfl t

lemma span_crlf {p : Char → Bool} (hp : dullChars.all fun c => !p c) (t : Text) :
    span p (crlf t) = span p t :=
  congr_crlf (fun l _ hv _ => span_append_dull hp l hv) t

lemma reads_span {p : Char → Bool} (hp : p '\n' = false) (t : Text) :
    Reads t (span p t) (span p t) :=
  .of_not_mem (not_mem_take_span hp t)

lemma prefix_crlf {w : Text} (hn : '\n' ∉ w) (hr : '\r' ∉ w) (t : Text) :
    w <+: crlf t ↔ w <+: t := by
  induction w generalizing t with
  | nil => simp
  | cons d w ih =>
    rw [List.mem_cons, not_or] at hn hr
    cases t with
    | nil => simp
    | cons c t =>
      by_cases hc : c = '\n'
      · subst hc
        rw [crlf_newline, List.cons_prefix_cons, List.cons_prefix_cons]
        exact ⟨fun h => absurd h.1.symm hr.1, fun h => absurd h.1.symm hn.1⟩
      · rw [crlf_cons hc, List.cons_prefix_cons, List.cons_prefix_cons, ih hn.2 hr.2]

lemma isPrefixOf_crlf {w : Text} (hn : '\n' ∉ w) (hr : '\r' ∉ w) (t : Text) :
    w.isPrefixOf (crlf t) = w.isPrefixOf t := by
  rw [Bool.eq_iff_iff, List.isPrefixOf_iff_prefix, List.isPrefixOf_iff_prefix, prefix_crlf hn hr]

/-- Both a carriage return and a newline may follow a word. -/
lemma startsWord_crlf {w : Text} (hn : '\n' ∉ w) (hr : '\r' ∉ w) (t : Text) :
    startsWord w (crlf t) = startsWord w t := by
  rw [startsWord, startsWord, isPrefixOf_crlf hn hr]
  cases hw : w.isPrefixOf t with
  | false => rfl
  | true =>
    obtain ⟨v, rfl⟩ := List.isPrefixOf_iff_prefix.1 hw
    rw [crlf_append, crlf_of_not_mem hn, List.drop_left, List.drop_left, head?_all_crlf rfl]

lemma withoutReturn_of_not_mem {l : Text} (h : '\r' ∉ l) : withoutReturn l = l := by
  rw [withoutReturn, if_neg]
  intro hlast
  exact h (List.mem_of_getLast? hlast)

lemma withoutReturn_concat (l : Text) : withoutReturn (l ++ ['\r']) = l := by
  rw [withoutReturn, if_pos (by simp), List.dropLast_concat]

/-- The first line of both texts, and what follows it. -/
lemma lines_crlf {l : Text} (hl : '\n' ∉ l) (u : Text) :
    line (l ++ '\r' :: '\n' :: u) = l ++ ['\r'] ∧ afterLine (l ++ '\r' :: '\n' :: u) = u := by
  have hl' : '\n' ∉ l ++ ['\r'] := by simpa using hl
  rw [List.append_cons]
  exact ⟨line_append_newline hl' u, afterLine_append_newline hl' u⟩

lemma withoutReturn_line_crlf {t : Text} (hr : '\r' ∉ t) :
    withoutReturn (line (crlf t)) = withoutReturn (line t) := by
  obtain ⟨l, hl, ⟨ht, hcrlf⟩ | ⟨u, rfl, hcrlf⟩⟩ := exists_line t
  · rw [hcrlf, ht]
  · have hrl : '\r' ∉ l := fun h => hr (List.mem_append_left _ h)
    rw [hcrlf, (lines_crlf hl (crlf u)).1, withoutReturn_concat, line_append_newline hl,
      withoutReturn_of_not_mem hrl]

/-! ## Comments -/

/-- Characters that are read up to the end of a line, with the carriage return that follows them, or
up to the end of the text. -/
inductive Sheds : Text → ℕ → ℕ → Prop
  | whole {t : Text} {n n' : ℕ} : Reads t n n' → Sheds t n n'
  | line (u v : Text) : Sheds (u ++ '\n' :: v) u.length ((crlf u).length + 1)

section Sheds

variable {t : Text} {n n' : ℕ}

lemma Sheds.cons {c : Char} (hc : c ≠ '\n') (h : Sheds t n n') :
    Sheds (c :: t) (n + 1) (n' + 1) := by
  cases h with
  | whole h => exact .whole (h.cons hc)
  | line u v =>
    have := Sheds.line (c :: u) v
    rwa [crlf_cons hc] at this

lemma Sheds.newline (h : Sheds t n n') : Sheds ('\n' :: t) (n + 1) (n' + 2) := by
  cases h with
  | whole h => exact .whole h.newline
  | line u v => exact Sheds.line ('\n' :: u) v

lemma sheds_span (t : Text) : Sheds t (span (· != '\n') t) (span (· != '\n') (crlf t)) := by
  obtain ⟨l, hl, ⟨ht, hcrlf⟩ | ⟨u, ht, hcrlf⟩⟩ := exists_line t
  · have hspan := span_line hl (v := []) rfl
    rw [List.append_nil] at hspan
    rw [hcrlf, ht, hspan]
    exact .whole (.of_not_mem (by simpa using hl))
  · have hreturn := span_line (l := l ++ ['\r']) (v := '\n' :: crlf u) (by simpa using hl) rfl
    rw [hcrlf, ht, span_line hl rfl, List.append_cons l '\r', hreturn, List.length_append]
    have := Sheds.line l u
    rwa [crlf_of_not_mem hl] at this

end Sheds

end Text

namespace Token.Lexeme

open Text (Sheds)

variable {source t : Text} {pos : ℕ}

/-- Lexemes of one kind that read the same text. -/
def Twin (x : Text) (l l' : Lexeme) : Prop := l'.kind = l.kind ∧ Reads x (l.more + 1) (l'.more + 1)

lemma twin_self {x : Text} {l : Lexeme} (h : '\n' ∉ x.take (l.more + 1)) : Twin x l l :=
  ⟨rfl, .of_not_mem h⟩

/-- An embedded document ends at corresponding places, or in neither text. -/
lemma documentLength?_crlf (t : Text) (n n' : ℕ) :
    (documentLength? n t = none ∧ documentLength? n' (crlf t) = none) ∨
      ∃ m m', documentLength? n t = some (n + m) ∧ documentLength? n' (crlf t) = some (n' + m') ∧
        Sheds t m m' := by
  induction t generalizing n n' with
  | nil => exact .inl ⟨rfl, rfl⟩
  | cons c t ih =>
    by_cases hc : c = '\n'
    · subst hc
      have hend : startsWord "=end".toList (crlf t) = startsWord "=end".toList t :=
        Text.startsWord_crlf (by decide) (by decide) t
      have hreturn : documentLength? n' ('\r' :: '\n' :: crlf t)
          = documentLength? (n' + 1) ('\n' :: crlf t) := rfl
      rw [Text.crlf_newline, hreturn, documentLength?, documentLength?, hend]
      by_cases hstarts : startsWord "=end".toList t
      · simp only [hstarts, decide_true, Bool.and_self, if_true]
        refine .inr ⟨span (· != '\n') t + 1, span (· != '\n') (crlf t) + 2, ?_, ?_,
          (Text.sheds_span t).newline⟩
        · congr 1
          omega
        · congr 1
          omega
      · simp only [hstarts, Bool.and_false, Bool.false_eq_true, if_false]
        rcases ih (n + 1) (n' + 1 + 1) with hnone | ⟨m, m', hm, hm', hsheds⟩
        · exact .inl hnone
        · rw [hm, hm']
          refine .inr ⟨m + 1, m' + 2, ?_, ?_, hsheds.newline⟩
          · congr 1
            omega
          · congr 1
            omega
    · rw [Text.crlf_cons hc, documentLength?, documentLength?]
      simp only [hc, decide_false, Bool.false_and, Bool.false_eq_true, if_false]
      rcases ih (n + 1) (n' + 1) with hnone | ⟨m, m', hm, hm', hsheds⟩
      · exact .inl hnone
      · rw [hm, hm']
        refine .inr ⟨m + 1, m' + 1, ?_, ?_, hsheds.cons hc⟩
        · congr 1
          omega
        · congr 1
          omega

lemma document_crlf {c : Char} (hc : c ≠ '\n') (t : Text) :
    Agree source (fun l l' => l.kind = .comment ∧ l'.kind = .comment ∧
      Sheds (c :: t) (l.more + 1) (l'.more + 1)) (document pos t)
      (document (crlfOffset source pos) (crlf t)) := by
  rw [document, document]
  rcases documentLength?_crlf t 0 0 with ⟨hnone, hnone'⟩ | ⟨m, m', hm, hm', hsheds⟩
  · rw [hnone, hnone']
    exact .error ⟨pos, _⟩
  · rw [hm, hm', Nat.zero_add, Nat.zero_add]
    exact .ok ⟨rfl, rfl, hsheds.cons hc⟩

/-! ## Variables and symbols -/

lemma nameAfter?_crlf (n : ℕ) (t : Text) : nameAfter? n (crlf t) = nameAfter? n t := by
  rw [nameAfter?, nameAfter?, Text.continuesName_crlf, Text.span_crlf (by decide)]

lemma variableLength?_crlf {sigil : Char} (hsigil : sigil = '@' ∨ sigil = '$') (t : Text) :
    variableLength? sigil (crlf t) = variableLength? sigil t := by
  cases t with
  | nil => rfl
  | cons c u =>
    by_cases hc : c = '\n'
    · subst hc
      have hnone : ∀ d ∈ ['\r', '\n'], ∀ v, variableLength? sigil (d :: v) = none := by
        simp only [List.mem_cons, List.not_mem_nil, or_false, forall_eq_or_imp, forall_eq]
        rcases hsigil with rfl | rfl <;> exact ⟨fun _ => rfl, fun _ => rfl⟩
      rw [Text.crlf_newline, hnone '\r' (by simp), hnone '\n' (by simp)]
    · have hname := nameAfter?_crlf 0 (c :: u)
      rw [Text.crlf_cons hc] at hname ⊢
      rw [variableLength?, variableLength?, nameAfter?_crlf, hname]

lemma var_crlf {sigil : Char} (hsigil : sigil = '@' ∨ sigil = '$') (t : Text) :
    Agree source (Twin (sigil :: t)) (var pos sigil t)
      (var (crlfOffset source pos) sigil (crlf t)) := by
  rw [var, var, variableLength?_crlf hsigil]
  cases hn : variableLength? sigil t with
  | none => exact .error ⟨pos, _⟩
  | some n =>
    refine .ok (twin_self ?_)
    rw [List.take_succ_cons, List.mem_cons, not_or]
    refine ⟨?_, not_mem_take_variableLength? hn⟩
    rcases hsigil with rfl | rfl <;> decide

lemma startsSetter_crlf (t : Text) : startsSetter (crlf t) = startsSetter t :=
  Text.congr_crlf (fun l _ hv _ => startsSetter_append_dull l hv) t

lemma symbolMark_crlf (t : Text) : symbolMark (crlf t) = symbolMark t :=
  Text.congr_crlf (fun l _ hv _ => symbolMark_append_dull l hv) t

lemma reads_symbolMark (t : Text) : Reads t (symbolMark t) (symbolMark t) := by
  rw [symbolMark]
  split
  · rename_i hmark
    cases t with
    | nil => exact .all (by simp) (by simp)
    | cons c t =>
      refine (Reads.zero t).cons ?_
      rintro rfl
      simp [startsSetter] at hmark
  · exact .zero t

end Token.Lexeme

namespace Sign

lemma findMethod?_crlf (t : Text) : findMethod? (crlf t) = findMethod? t :=
  Text.congr_crlf (fun l _ hv _ => findMethod?_append_dull l hv) t

lemma find?_crlf (c : Char) (t : Text) : find? (c :: crlf t) = find? (c :: t) := by
  have := Text.congr_crlf (f := fun t => find? (c :: t)) (fun l v hv hdot =>
    find?_append_dull (t := c :: l) (by simp) hv hdot) t
  exact this

lemma not_mem_of_findMethod? {t name : Text} (h : findMethod? t = some name) :
    name ≠ [] ∧ '\n' ∉ t.take name.length := by
  have hmem := List.mem_of_find?_eq_some h
  have hpre : name <+: t := by simpa using List.find?_some h
  have hall := (by decide : ∀ name ∈ methods, name ≠ [] ∧ '\n' ∉ name) name hmem
  rw [← List.prefix_iff_eq_take.1 hpre]
  exact hall

end Sign

namespace Token.Lexeme

variable {source t : Text} {pos : ℕ}

lemma colon_crlf (hs : Stands source pos (':' :: t)) :
    Agree source (Twin (':' :: t)) (colon pos t) (colon (crlfOffset source pos) (crlf t)) := by
  have hcolon : ':' ≠ '\n' := by decide
  have hoffset : crlfOffset source (pos + 1) = crlfOffset source pos + 1 :=
    hs.crlfOffset_cons hcolon
  have hplain : Twin (':' :: t) ⟨.op, 0⟩ ⟨.op, 0⟩ := twin_self (by simp)
  cases t with
  | nil => exact .ok hplain
  | cons c u =>
    by_cases hnl : c = '\n'
    · subst hnl
      rw [Text.crlf_newline, colon_dull _ (Text.dull_cons.2 (by decide)),
        colon_dull _ (Text.dull_cons.2 (by decide))]
      exact .ok hplain
    by_cases hc : c = ':'
    · subst hc
      rw [Text.crlf_cons (by decide)]
      exact .ok (twin_self (by simp))
    have hmethod := Sign.findMethod?_crlf (c :: u)
    rw [Text.crlf_cons hnl] at hmethod ⊢
    rw [colon_cons hc, colon_cons hc, hmethod]
    refine .ite (fun hquote => ?_) fun _ => .ite (fun hsigil => ?_) fun _ => .ite (fun hname => ?_)
      fun _ => ?_
    · have hspace : Text.isSpace c = false := by
        rw [Bool.or_eq_true, decide_eq_true_eq, decide_eq_true_eq] at hquote
        rcases hquote with rfl | rfl <;> rfl
      rw [← hoffset]
      refine (Quoting.literal_crlf _ hspace hs.cons).map fun n n' hn => ⟨rfl, ?_⟩
      have := (hn.cons hnl).cons hcolon
      rwa [Nat.add_comm n, Nat.add_comm n'] at this
    · rw [Bool.or_eq_true, decide_eq_true_eq, decide_eq_true_eq] at hsigil
      rw [variableLength?_crlf hsigil]
      cases hn : variableLength? c u with
      | none =>
        rw [← hoffset]
        exact .error ⟨pos + 1, _⟩
      | some n =>
        refine .ok (twin_self ?_)
        have hnot := not_mem_take_variableLength? hn
        rw [List.take_succ_cons, Nat.add_comm, List.take_succ_cons]
        simpa [Ne.symm hnl] using hnot
    · have hspan := Text.reads_span (p := Text.isNameChar) rfl u
      rw [Text.span_crlf (by decide), hspan.drop_eq, symbolMark_crlf]
      have hread := ((hspan.add (reads_symbolMark _)).cons hnl).cons hcolon
      refine .ok ⟨rfl, ?_⟩
      dsimp only
      rwa [Nat.add_assoc 1, Nat.add_comm 1]
    · cases hname : Sign.findMethod? (c :: u) with
      | none => exact .ok hplain
      | some name =>
        dsimp only
        split_ifs
        · exact .ok hplain
        · refine .ok (twin_self ?_)
          rw [List.take_succ_cons, List.mem_cons, not_or]
          exact ⟨hcolon.symm, (Sign.not_mem_of_findMethod? hname).2⟩

/-! ## Quoted literals -/

lemma quoted_crlf {q : Char} (hq : Text.isSpace q = false) (interpolates : Bool)
    (hs : Stands source pos (q :: t)) :
    Agree source (Twin (q :: t)) (quoted pos q interpolates t)
      (quoted (crlfOffset source pos) q interpolates (crlf t)) := by
  refine (Quoting.literal_crlf interpolates hq hs).map fun n n' hn => ⟨rfl, hn.cons ?_⟩
  rintro rfl
  exact absurd hq (by decide)

lemma reads_flags (kind : Kind) (t : Text) :
    Reads t (flags kind t) (flags kind (crlf t)) := by
  rw [flags, flags]
  split
  · rw [Text.span_crlf (by decide)]
    exact Text.reads_span rfl t
  · exact .zero t

lemma regexp_crlf (hs : Stands source pos ('/' :: t)) :
    Agree source (Twin ('/' :: t)) (regexp pos t) (regexp (crlfOffset source pos) (crlf t)) := by
  refine (Quoting.regexp_crlf hs).map fun n n' hn => ⟨rfl, ?_⟩
  rw [hn.drop_eq]
  exact (hn.add (reads_flags _ _)).cons (by decide)

/-- A character literal is the same one, unless it escapes a newline. -/
lemma character?_crlf (h : ¬ ['\\', '\n'] <+: t) : character? (crlf t) = character? t := by
  cases t with
  | nil => rfl
  | cons c u =>
    by_cases hc : c = '\n'
    · subst hc
      rw [Text.crlf_newline, character?_cons (by decide), character?_cons (by decide)]
      rfl
    rw [Text.crlf_cons hc]
    by_cases hslash : c = '\\'
    · subst hslash
      cases u with
      | nil => rfl
      | cons d w =>
        have hd : d ≠ '\n' := by
          rintro rfl
          exact h (by simp)
        rw [Text.crlf_cons hd]
        rfl
    · rw [character?_cons hslash, character?_cons hslash, Text.continuesName_crlf]

lemma not_mem_take_character? (h : ¬ ['\\', '\n'] <+: t) {l : Lexeme}
    (hl : character? t = some l) : '\n' ∉ ('?' :: t).take (l.more + 1) := by
  rw [List.take_succ_cons, List.mem_cons, not_or]
  refine ⟨by decide, ?_⟩
  cases t with
  | nil => cases hl
  | cons c u =>
    by_cases hslash : c = '\\'
    · subst hslash
      cases u with
      | nil =>
        cases hl
        decide
      | cons d w =>
        cases hl
        have hd : '\n' ≠ d := by
          rintro rfl
          exact h (by simp)
        simp [hd]
    · rw [character?_cons hslash] at hl
      split at hl
      · cases hl
      · rename_i hspace
        cases hl
        rw [List.take_succ_cons, List.take_zero, List.mem_singleton]
        rintro rfl
        exact hspace rfl

/-! ## Percent literals -/

lemma percentForm?_crlf (t : Text) : percentForm? (crlf t) = percentForm? t := by
  cases t with
  | nil => rfl
  | cons c u =>
    by_cases hc : c = '\n'
    · subst hc
      have hline : ∀ d ∈ ['\r', '\n'], ∀ v, percentForm? (d :: v) = some (.string, true, 0) := by
        intro d hd v
        apply percentForm?_of_delimiter
        · rcases List.mem_pair.1 hd with rfl | rfl <;> decide
        · rcases List.mem_pair.1 hd with rfl | rfl <;> decide
      rw [Text.crlf_newline, hline '\r' (by simp), hline '\n' (by simp)]
    · rw [Text.crlf_cons hc, percentForm?, percentForm?, Text.head?_any_crlf rfl]

lemma percent?_crlf (hs : Stands source pos ('%' :: t)) :
    Agree source (Option.Rel (Twin ('%' :: t))) (percent? pos t)
      (percent? (crlfOffset source pos) (crlf t)) := by
  have hpercent : '%' ≠ '\n' := by decide
  rw [percent?, percent?, percentForm?_crlf]
  cases hform : percentForm? t with
  | none => exact .ok .none
  | some form =>
    obtain ⟨kind, interpolates, letters⟩ := form
    obtain ⟨hsize, hletters⟩ := size_take_letters hform
    have hread := Reads.of_not_mem hletters
    have hstands : Stands source (pos + 1) (t.take letters ++ t.drop letters) := by
      rw [List.take_append_drop]
      exact hs.cons
    have hoffset : crlfOffset source (pos + 1 + letters) = crlfOffset source pos + 1 + letters := by
      have hadd := hstands.crlfOffset_add
      have hfirst : crlfOffset source (pos + 1) = crlfOffset source pos + 1 :=
        hs.crlfOffset_cons hpercent
      rw [hsize, Text.crlf_of_not_mem hletters, hsize, hfirst] at hadd
      exact hadd
    have hrest := hstands.append
    rw [hsize] at hrest
    dsimp only
    rw [hread.drop_eq]
    cases hd : t.drop letters with
    | nil => exact .ok .none
    | cons delimiter u =>
      rw [hd] at hrest
      by_cases hnl : delimiter = '\n'
      · subst hnl
        exact .ok .none
      rw [Text.crlf_cons hnl]
      dsimp only
      refine .ite (fun _ => .ok .none) fun hspace => ?_
      rw [Bool.not_eq_true] at hspace
      have hliteral := Quoting.literal_crlf interpolates hspace hrest
      rw [hoffset] at hliteral
      generalize Quoting.literal _ delimiter interpolates u = r at hliteral
      generalize Quoting.literal _ delimiter interpolates (crlf u) = r' at hliteral
      cases hliteral with
      | error fault => exact .error fault
      | @ok n n' hn =>
        refine .ite (fun _ => .error ⟨pos, _⟩) fun _ => .ok (.some ⟨rfl, ?_⟩)
        dsimp only
        have hu := (hn.add (reads_flags kind _)).cons hnl
        rw [← hd] at hu
        rw [hn.drop_eq]
        have hall := (hread.add hu).cons hpercent
        rwa [show letters + (n + flags kind (u.drop n) + 1)
            = letters + 1 + n + flags kind (u.drop n) by omega,
          show letters + (n' + flags kind (crlf (u.drop n)) + 1)
            = letters + 1 + n' + flags kind (crlf (u.drop n)) by omega] at hall

end Token.Lexeme

/-! ## Numerals -/

/-- A numeral lies within a line, and so does what is wrong after it. -/
lemma Numeral.read_crlf {source t : Text} {c : Char} {pos : ℕ} (hc : c ≠ '\n')
    (hs : Stands source pos (c :: t)) :
    Agree source (Lexeme.Twin (c :: t)) (read pos (c :: t))
      (read (crlfOffset source pos) (c :: crlf t)) := by
  have hcongr : ∀ start l v, Dull v → v.head? ≠ some '.' →
      read start (c :: (l ++ v)) = read start (c :: l) := fun start l v hv hdot =>
    read_append_dull start (t := c :: l) (by simp) hv (fraction_of_head?_ne hdot)
  rw [Text.congr_crlf (f := fun t => read (crlfOffset source pos) (c :: t)) (hcongr _) t]
  obtain ⟨l, hl, hline⟩ := Text.exists_line t
  obtain ⟨v, rfl, hv⟩ : ∃ v, t = l ++ v ∧
      ∀ start, read start (c :: (l ++ v)) = read start (c :: l) := by
    rcases hline with ⟨ht, -⟩ | ⟨u, ht, -⟩
    · exact ⟨[], by simpa using ht, fun start => by rw [List.append_nil]⟩
    · exact ⟨_, ht, fun start => hcongr start l _ (Text.dull_cons.2 (by decide)) (by simp)⟩
  have hcl : '\n' ∉ c :: l := by
    rw [List.mem_cons, not_or]
    exact ⟨hc.symm, hl⟩
  rw [hv, hv, read, read]
  cases hbody : body (c :: l) with
  | error problem => exact .error ⟨pos, problem⟩
  | ok extent =>
    obtain ⟨kind, n⟩ := extent
    have hn := body_le hbody
    have htail := suffix_le ((c :: l).drop n)
    rw [List.length_drop] at htail
    have hle : n + suffix ((c :: l).drop n) ≤ (c :: l).length := by omega
    dsimp only
    refine .ite (fun _ => ?_) fun _ => .ok ⟨rfl, .of_not_mem fun hmem => hcl ?_⟩
    · have hoffset := Stands.crlfOffset_of_le (u := c :: l) (t := v) hs hcl
        (hle.trans (Text.length_le_size _))
      rw [Nat.add_assoc, Nat.add_assoc, ← hoffset]
      exact .error ⟨_, _⟩
    · have hlen : n + suffix ((c :: l).drop n) - 1 + 1 ≤ (c :: l).length := by
        rw [List.length_cons] at hle ⊢
        omega
      rw [← List.cons_append, List.take_append_of_le_length hlen] at hmem
      exact List.mem_of_mem_take hmem

/-! ## Heredocs -/

namespace Heredoc

variable {source : Text}

/-- A heredoc, with its offset where it is in the text with carriage returns. -/
def crlf (source : Text) (doc : Heredoc) : Heredoc :=
  { doc with start := crlfOffset source doc.start }

lemma name?_crlf (t : Text) : name? (Text.crlf t) = name? t := by
  cases t with
  | nil => rfl
  | cons q u =>
    by_cases hnl : q = '\n'
    · subst hnl
      rw [Text.crlf_newline, name?_dull (Text.dull_cons.2 (by decide)),
        name?_dull (Text.dull_cons.2 (by decide))]
    have htake := Text.congr_crlf (f := fun u => (q :: u).takeWhile Text.isNameChar)
      (fun l v hv _ => Text.takeWhile_append_dull (by decide) (q :: l) hv) u
    rw [Text.crlf_cons hnl, name?, name?, htake]
    obtain ⟨l, hl, ⟨hu, hcrlf⟩ | ⟨w, hu, hcrlf⟩⟩ := Text.exists_line u
    · rw [hcrlf, hu]
    split_ifs with hquote
    · rw [hcrlf, hu]
      by_cases hq : q ∈ l
      · -- the closing quote stands on the line
        obtain ⟨a, b, rfl, ha⟩ := List.eq_append_cons_of_mem hq
        have hrun : ∀ v : Text, (a ++ q :: v).takeWhile (fun c => c != q && c != '\n') = a := by
          intro v
          refine Text.takeWhile_exact (fun c hc => ?_) (by simp)
          rw [Bool.and_eq_true, bne_iff_ne, bne_iff_ne]
          exact ⟨fun h => ha (h ▸ hc), fun h => hl (List.mem_append_left _ (h ▸ hc))⟩
        simp only [List.append_assoc, List.cons_append, hrun, List.drop_left, List.head?_cons]
      · -- neither text has a closing quote before the newline
        have hrun : ∀ l' : Text, '\n' ∉ l' → q ∉ l' → ∀ v : Text,
            (l' ++ '\n' :: v).takeWhile (fun c => c != q && c != '\n') = l' := by
          intro l' hl' hq' v
          refine Text.takeWhile_exact (fun c hc => ?_) (by simp)
          rw [Bool.and_eq_true, bne_iff_ne, bne_iff_ne]
          exact ⟨fun h => hq' (h ▸ hc), fun h => hl' (h ▸ hc)⟩
        have hreturn : q ≠ '\r' := by
          rintro rfl
          exact absurd hquote (by decide)
        have hne : ('\n' == q) = false := by simpa using Ne.symm hnl
        rw [List.append_cons, hrun _ (by simpa using hl) (by simpa [hreturn] using hq),
          hrun l hl hq]
        simp [hne]
    · rfl
    · rfl

lemma unmarked_crlf (t : Text) : unmarked (Text.crlf t) = Text.crlf (unmarked t) := by
  rw [unmarked, unmarked, Text.head?_any_crlf rfl]
  split
  · rename_i hmark
    cases t with
    | nil => rfl
    | cons c t =>
      have hc : c ≠ '\n' := by
        rintro rfl
        simp at hmark
      rw [Text.crlf_cons hc]
      rfl
  · rfl

/-- A heredoc is announced alike. -/
lemma announced?_crlf (pos : ℕ) (t : Text) :
    announced? (crlfOffset source pos) (Text.crlf t)
      = (announced? pos t).map fun found => (found.1.crlf source, found.2) := by
  by_cases hhead : t.head? = some '<'
  · obtain ⟨u, rfl⟩ := List.head?_eq_some_iff.1 hhead
    rw [Text.crlf_cons (by decide), announced?_cons, announced?_cons, unmarked_crlf, name?_crlf,
      Text.head?_any_crlf rfl, Option.map_map]
    rfl
  · rw [announced?_of_head?_ne hhead, announced?_of_head?_ne]
    · rfl
    · rwa [Ne, Text.head?_crlf_eq_some (by decide) (by decide)]

lemma not_mem_take_name? {t name : Text} {n : ℕ} (h : name? t = some (name, n)) :
    '\n' ∉ t.take n := by
  cases t with
  | nil => cases h
  | cons q t =>
    rw [name?] at h
    split_ifs at h with hq hstart
    · dsimp only at h
      split_ifs at h with hclosed
      cases h
      simp only [Bool.and_eq_true, beq_iff_eq] at hclosed
      have hquote : '\n' ≠ q := by
        rintro rfl
        exact absurd hq (by decide)
      have hlast := hclosed.2
      rw [List.head?_drop] at hlast
      rw [List.take_succ_cons, List.take_add_one, hlast, List.mem_cons, not_or, List.mem_append,
        not_or]
      refine ⟨hquote, ?_, by simpa using hquote⟩
      exact Text.not_mem_take_span (by simp) t
    · cases h
      exact Text.not_mem_take_span (by decide) _

lemma not_mem_take_announced? {pos n : ℕ} {t : Text} {doc : Heredoc}
    (h : announced? pos t = some (doc, n)) : '\n' ∉ t.take n := by
  by_cases hhead : t.head? = some '<'
  · obtain ⟨u, rfl⟩ := List.head?_eq_some_iff.1 hhead
    rw [announced?_cons] at h
    obtain ⟨⟨name, k⟩, hname, heq⟩ := Option.map_eq_some_iff.1 h
    cases heq
    have hnot := not_mem_take_name? hname
    rw [Nat.add_assoc, Nat.add_comm 1, List.take_succ_cons, List.mem_cons, not_or]
    refine ⟨by decide, ?_⟩
    rw [unmarked] at hnot
    split at hnot
    · rename_i hmark
      rw [if_pos hmark, Nat.add_comm]
      cases u with
      | nil => simp
      | cons c u =>
        rw [List.take_succ_cons, List.mem_cons, not_or]
        refine ⟨?_, hnot⟩
        rintro rfl
        simp at hmark
    · rename_i hmark
      rwa [if_neg hmark, Nat.zero_add]
  · rw [announced?_of_head?_ne hhead] at h
    cases h

/-- The body of a heredoc has the same lines, and ends with the same one. -/
lemma bodyLength?_crlf (source : Text) (doc : Heredoc) {t : Text} (hr : '\r' ∉ t) :
    (doc.bodyLength? t = none ∧ (doc.crlf source).bodyLength? (Text.crlf t) = none) ∨
      ∃ n n', doc.bodyLength? t = some n ∧ (doc.crlf source).bodyLength? (Text.crlf t) = some n' ∧
        Reads t n n' := by
  have hends : ∀ l, (doc.crlf source).endsAt l = doc.endsAt l := fun l => rfl
  induction hlen : t.length using Nat.strong_induction_on generalizing t with
  | _ len ih =>
    subst hlen
    by_cases hnil : t = []
    · subst hnil
      rw [Text.crlf_nil, bodyLength?, bodyLength?]
      exact .inl ⟨rfl, rfl⟩
    obtain ⟨l, hl, ⟨rfl, hcrlf⟩ | ⟨u, rfl, hcrlf⟩⟩ := Text.exists_line t
    · have hline : Text.line t = t := by
        have := Text.line_append_of_not_mem hl []
        simpa [Text.line] using this
      have hafter : Text.afterLine t = [] := by
        rcases (Text.line_cases t).2 with ⟨-, hafter⟩ | ht
        · exact hafter
        · exact absurd (by rw [ht]; simp) hl
      rw [hcrlf, bodyLength?_of_ne_nil doc hnil, bodyLength?_of_ne_nil _ hnil, hline, hafter, hends,
        bodyLength?, bodyLength?]
      split
      · exact .inr ⟨_, _, rfl, rfl, .of_not_mem fun h => hl (List.mem_of_mem_take h)⟩
      · exact .inl ⟨rfl, rfl⟩
    · have hrl : '\r' ∉ l := fun h => hr (List.mem_append_left _ h)
      have hru : '\r' ∉ u := fun h => hr (by simp [h])
      have hend : doc.endsAt (l ++ ['\r']) = doc.endsAt l := by
        rw [endsAt, endsAt, Text.withoutReturn_concat, Text.withoutReturn_of_not_mem hrl]
      have hread : Reads (l ++ '\n' :: u) (l.length + 1) ((l ++ ['\r']).length + 1) := by
        have h₁ : Reads (l ++ '\n' :: u) l.length l.length := .of_not_mem (by simpa using hl)
        have h₂ : Reads ((l ++ '\n' :: u).drop l.length) 1 2 := by
          rw [List.drop_left]
          exact (Reads.zero u).newline
        have := h₁.add h₂
        rwa [List.length_append]
      have hnil' : l ++ '\r' :: '\n' :: Text.crlf u ≠ [] := by simp
      rw [hcrlf, bodyLength?_of_ne_nil doc hnil, bodyLength?_of_ne_nil _ hnil',
        Text.line_append_newline hl, Text.afterLine_append_newline hl,
        (Text.lines_crlf hl _).1, (Text.lines_crlf hl _).2, hends, hend]
      split
      · exact .inr ⟨_, _, rfl, rfl, hread⟩
      · rcases ih u.length (by simp; omega) hru rfl with ⟨hnone, hnone'⟩ | ⟨n, n', hn, hn', hreads⟩
        · rw [hnone, hnone']
          exact .inl ⟨rfl, rfl⟩
        · rw [hn, hn']
          refine .inr ⟨_, _, rfl, rfl, hread.add ?_⟩
          rwa [List.drop_append, List.drop_of_length_le (by omega), Nat.add_sub_cancel_left,
            List.nil_append, List.drop_succ_cons, List.drop_zero]

lemma bodiesLength_crlf (source : Text) (docs : List Heredoc) {t : Text} (hr : '\r' ∉ t) :
    (∃ doc, bodiesLength docs t = .error doc ∧
        bodiesLength (docs.map (crlf source)) (Text.crlf t) = .error (doc.crlf source)) ∨
      ∃ n n', bodiesLength docs t = .ok n ∧
        bodiesLength (docs.map (crlf source)) (Text.crlf t) = .ok n' ∧ Reads t n n' := by
  induction docs generalizing t with
  | nil => exact .inr ⟨0, 0, rfl, rfl, .zero t⟩
  | cons doc docs ih =>
    rw [List.map_cons, bodiesLength, bodiesLength]
    rcases bodyLength?_crlf source doc hr with ⟨hnone, hnone'⟩ |
      ⟨n, n', hn, hn', hread⟩
    · rw [hnone, hnone']
      exact .inl ⟨doc, rfl, rfl⟩
    · rw [hn, hn']
      dsimp only
      rw [hread.drop_eq]
      have hrest : '\r' ∉ t.drop n := fun h => hr (List.mem_of_mem_drop h)
      rcases ih hrest with ⟨doc', h, h'⟩ | ⟨m, m', hm, hm', hreads⟩
      · rw [h, h']
        exact .inl ⟨doc', rfl, rfl⟩
      · rw [hm, hm']
        exact .inr ⟨_, _, rfl, rfl, hread.add hreads⟩

end Heredoc

end TablePack
