import Mathlib.Tactic
import TablePack.Proofs.Lookahead

/-!
# Runs over texts with a common beginning

Two texts begin with the same `x`, and part after a border that starts a comment, ends a line or is
the dot before a name. A run over the first one that comes to the border is also a run over the
second one, with the same states but for the text that is left. The exception that a single move may
have, an announcement whose quote is open at the border, does not arise: where it is none, its quote
opens a string, which takes the border along.

* `Scanner.Next.border`: a step that does not pass the border;
* `Scanner.not_reaches_of_unclosed`: the exception;
* `Scanner.reaches_border`: the run.
-/

namespace TablePack

open Token (Kind Lexeme)
open Text (span Dull Border)

namespace Scanner

variable {b c : Char} {t w w' : Text} {m : Move} {s s' : Scanner}

/-! ## Words -/

lemma wordLength_append_dull (t : Text) {v : Text} (hv : Dull v) :
    wordLength (t ++ v) = wordLength t := by
  rw [wordLength, wordLength, Text.span_append_dull (by decide) t hv,
    List.drop_append_of_le_length (Text.span_le _ t)]
  cases t.drop (span Text.isNameChar t) with
  | nil =>
    cases v with
    | nil => rfl
    | cons d v =>
      have hd : ∀ d ∈ Text.dullChars, (d == '?' || d == '!') = false :=
        Text.forall_mem_of_all (by decide)
      rw [List.nil_append]
      dsimp only
      rw [hd d (Text.dull_cons.1 hv)]
      rfl
  | cons d u =>
    have hset := Text.head?_append_dull u hv (c := '=') (by decide)
    simp only [List.cons_append, bne, Bool.and_eq_true, Bool.not_eq_true', beq_eq_false_iff_ne,
      ne_eq, hset]

lemma wordLength_le (t : Text) : wordLength t ≤ t.length := by
  have hspan := Text.span_le Text.isNameChar t
  rw [wordLength]
  split
  · rename_i d u hd
    have := congrArg List.length hd
    rw [List.length_drop, List.length_cons] at this
    split <;> omega
  · exact hspan

lemma startsLabel_append_dull (t : Text) {v : Text} (hv : Dull v) :
    startsLabel (t ++ v) = startsLabel t := by
  have hcolon := Text.head?_append_dull t hv (c := ':') (by decide)
  have heq : ∀ w : Text, startsLabel w = (w.head? == some ':' && w.tail.head? != some ':') := by
    intro w
    rw [startsLabel.eq_def]
    split
    · rfl
    · rename_i hne
      cases w with
      | nil => rfl
      | cons d w =>
        have hd : d ≠ ':' := fun h => hne w (by rw [h])
        simp [hd]
  rw [heq, heq]
  cases t with
  | nil =>
    have hfalse : ((([] : Text) ++ v).head? == some ':') = false := by simpa using hcolon
    rw [hfalse]
    rfl
  | cons d u =>
    have hnext := Text.head?_append_dull u hv (c := ':') (by decide)
    rw [Bool.eq_iff_iff]
    simp only [List.cons_append, List.head?_cons, List.tail_cons, Bool.and_eq_true, beq_iff_eq,
      bne_iff_ne, ne_eq, hnext]

/-- Whether parameters follow the name of a method is told from `t`. -/
lemma startsLineParams_border (t w' : Text) (hb : Border b w) :
    startsLineParams (t ++ b :: w') = startsLineParams (t ++ b :: w) := by
  have hindent : Text.isIndent b = false := by
    rcases hb with rfl | rfl | ⟨rfl, -⟩ <;> rfl
  have hspan : ∀ w : Text, span Text.isIndent (t ++ b :: w) = span Text.isIndent t := by
    intro w
    rw [span, span, List.takeWhile_append]
    split
    · rename_i hfull
      simp [hindent, hfull]
    · rfl
  simp only [startsLineParams, hspan, List.drop_append_of_le_length (Text.span_le _ t),
    Text.head?_append_cons _ b w w']

lemma namesMethod_border (s : Scanner) (t w' : Text) (hb : Border b w) :
    s.namesMethod (t ++ b :: w') = s.namesMethod (t ++ b :: w) := by
  simp only [namesMethod, namesReceiver, wordLength_append_dull t (hb.dull _),
    List.drop_append_of_le_length (wordLength_le t), Text.head?_append_cons _ b w w']

/-- The extent of a word is told from `t`, and lies in `t`. -/
lemma wordExtent_border (s : Scanner) (t w' : Text) (hb : Border b w) :
    s.wordExtent (t ++ b :: w') = s.wordExtent (t ++ b :: w) ∧
      s.wordExtent (t ++ b :: w) ≤ t.length := by
  have hle := wordLength_le t
  simp only [wordExtent, namesMethod_border s t w' hb, wordLength_append_dull t (hb.dull _),
    List.drop_append_of_le_length hle, Lexeme.startsSetter_append_dull _ (hb.dull _), true_and]
  split
  · rename_i hsetter
    have hne : t.drop (wordLength t) ≠ [] := by
      intro hnil
      rw [hnil, Lexeme.startsSetter, Bool.and_false] at hsetter
      · cases hsetter
      · simp
    rw [ne_eq, List.drop_eq_nil_iff, not_le] at hne
    omega
  · exact hle

/-! ## States that differ in their rest -/

/-- A state with another rest. -/
def onto (s : Scanner) (rest : Text) : Scanner := { s with rest := rest }

@[simp] lemma rest_onto (s : Scanner) (r : Text) : (s.onto r).rest = r := rfl

@[simp] lemma view_onto (s : Scanner) (r : Text) : (s.onto r).view = s.view := rfl

@[simp] lemma pos_onto (s : Scanner) (r : Text) : (s.onto r).pos = s.pos := rfl

lemma advance_onto {x v : Text} (v' : Text) (hrest : s.rest = x ++ v) {n : ℕ} (hn : n ≤ x.length) :
    (s.onto (x ++ v')).advance n = (s.advance n).onto (x.drop n ++ v') := by
  simp only [advance, onto, hrest, List.drop_append_of_le_length hn,
    List.take_append_of_le_length hn]

lemma emit_onto {x v : Text} (v' : Text) (hrest : s.rest = x ++ v) {l : Lexeme}
    (hl : l.more < x.length) :
    (s.onto (x ++ v')).emit l = (s.emit l).onto (x.drop (l.more + 1) ++ v') := by
  rw [emit, emit, advance_onto v' hrest hl]
  simp only [onto, hrest, List.take_append_of_le_length hl]

/-- A word is read alike. -/
lemma word_onto (w' : Text) (hb : Border b w) (hrest : s.rest = c :: (t ++ b :: w)) :
    (s.onto (c :: (t ++ b :: w'))).word c (t ++ b :: w')
      = (s.word c (t ++ b :: w)).onto (t.drop (s.wordExtent (t ++ b :: w)) ++ b :: w') := by
  obtain ⟨hextent, hle⟩ := wordExtent_border s t w' hb
  have hextent' : (s.onto (c :: (t ++ b :: w'))).wordExtent (t ++ b :: w')
      = s.wordExtent (t ++ b :: w) := hextent
  have hmethod : (s.onto (c :: (t ++ b :: w'))).namesMethod (t ++ b :: w')
      = s.namesMethod (t ++ b :: w) := namesMethod_border s t w' hb
  generalize hn : s.wordExtent (t ++ b :: w) = n at *
  have hkind : (s.onto (c :: (t ++ b :: w'))).wordKind (c :: t.take n) (t.drop n ++ b :: w')
      = s.wordKind (c :: t.take n) (t.drop n ++ b :: w) := by
    simp only [wordKind, startsLabel_append_dull _ (hb.dull _)]
    rfl
  have hemit : (s.onto (c :: (t ++ b :: w'))).emit
        ⟨s.wordKind (c :: t.take n) (t.drop n ++ b :: w), n⟩
      = (s.emit ⟨s.wordKind (c :: t.take n) (t.drop n ++ b :: w), n⟩).onto
          (t.drop n ++ b :: w') :=
    emit_onto (x := c :: t) (b :: w') hrest (Nat.lt_succ_of_le hle)
  have hbinds : ∀ kind, (s.onto (c :: (t ++ b :: w'))).bindsWord kind = s.bindsWord kind :=
    fun _ => rfl
  simp only [word, hextent', hn, List.take_append_of_le_length hle,
    List.drop_append_of_le_length hle, hkind, hmethod, startsLineParams_border _ w' hb, hbinds,
    hemit]
  rfl

/-! ## Making the same move -/

/-- What is left after a move that does not pass the border. -/
lemma le_of_length_drop (hrest : s.rest = c :: (t ++ b :: w)) {k : ℕ}
    (h : (b :: w).length ≤ (s.rest.drop k).length) : k ≤ (c :: t).length := by
  rw [hrest] at h
  simp only [List.length_drop, List.length_cons, List.length_append] at h ⊢
  omega

/-- A move that does not pass the border has the same effect whatever follows. -/
lemma perform_border (w' : Text) (hb : Border b w) (hrest : s.rest = c :: (t ++ b :: w))
    (h : s.perform c (t ++ b :: w) m = .ok s')
    (hlen : (b :: w).length ≤ s'.rest.length) :
    m.Within t ∧ ∃ x, s'.rest = x ++ b :: w ∧
      (s.onto (c :: (t ++ b :: w'))).perform c (t ++ b :: w') m = .ok (s'.onto (x ++ b :: w')) := by
  have hrest' : s.rest = (c :: t) ++ b :: w := hrest
  have hdrop : ∀ {k}, k ≤ (c :: t).length → s.rest.drop k = (c :: t).drop k ++ b :: w := by
    intro k hk
    rw [hrest', List.drop_append_of_le_length hk]
  cases m with
  | skip n =>
    cases h
    have hn := le_of_length_drop hrest hlen
    refine ⟨hn, (c :: t).drop n, hdrop hn, ?_⟩
    rw [perform, ← List.cons_append, advance_onto _ hrest' hn]
  | lineBreak =>
    have hemit : (s.onto ((c :: t) ++ b :: w')).emit ⟨.newline, 0⟩
        = (s.emit ⟨.newline, 0⟩).onto (t ++ b :: w') := emit_onto _ hrest' (by simp)
    have hread : (s.emit ⟨.newline, 0⟩).rest = t ++ b :: w := by rw [rest_emit, hrest]; rfl
    obtain ⟨n, hn, rfl⟩ := exists_bodies_of_newline h
    rw [hrest, List.drop_succ_cons, List.drop_zero] at hn
    have hle : n ≤ t.length := by
      change _ ≤ ((s.emit ⟨.newline, 0⟩).rest.drop n).length at hlen
      rw [hread] at hlen
      simp only [List.length_drop, List.length_cons, List.length_append] at hlen
      omega
    refine ⟨trivial, t.drop n, ?_, ?_⟩
    · change (s.emit ⟨.newline, 0⟩).rest.drop n = _
      rw [hread, List.drop_append_of_le_length hle]
    · rw [perform, newline_of_bodies (Heredoc.bodiesLength_local (b :: w') hn hle),
        ← List.cons_append, hemit, advance_onto (b :: w') hread hle]
      rfl
  | lexeme l =>
    cases h
    have hl := le_of_length_drop hrest hlen
    refine ⟨Nat.le_of_succ_le_succ hl, (c :: t).drop (l.more + 1), hdrop hl, ?_⟩
    rw [perform, ← List.cons_append, emit_onto _ hrest' hl]
  | word =>
    cases h
    have hle := (wordExtent_border s t w' hb).2
    refine ⟨trivial, t.drop (s.wordExtent (t ++ b :: w)), hdrop (Nat.succ_le_succ hle), ?_⟩
    rw [perform, word_onto w' hb hrest]
  | announce doc n =>
    cases h
    have hn : n + 1 ≤ (c :: t).length := le_of_length_drop hrest hlen
    refine ⟨Nat.le_of_succ_le_succ hn, (c :: t).drop (n + 1), hdrop hn, ?_⟩
    rw [perform, ← List.cons_append, emit_onto (l := ⟨.string, n⟩) _ hrest' hn]
    rfl
  | sign sign =>
    cases h
    have hle : sign.text.length - 1 + 1 ≤ (c :: t).length := le_of_length_drop hrest hlen
    have hbound : (s.bindNames (if sign.assigns then Token.targets s.recent else [])).rest
        = (c :: t) ++ b :: w := hrest'
    refine ⟨trivial, (c :: t).drop (sign.text.length - 1 + 1), hdrop hle, ?_⟩
    exact congrArg (fun r : Scanner => Except.ok r.openParams)
      (emit_onto (l := ⟨sign.kind, sign.text.length - 1⟩) (b :: w') hbound hle)

/-- A step that does not pass the border is made alike whatever follows. -/
lemma Next.border {x : Text} (h : Next s s') (hb : Border b w) (hb' : Border b w')
    (hrest : s.rest = x ++ b :: w) (hlen : (b :: w).length ≤ s'.rest.length)
    (hclosed : ∀ u, x = '<' :: '<' :: u → ¬ Heredoc.Unclosed u) :
    ∃ y, s'.rest = y ++ b :: w ∧ Next (s.onto (x ++ b :: w')) (s'.onto (y ++ b :: w')) := by
  obtain ⟨c, t, m, hcons, hm, hperform⟩ := h.exists_move
  cases x with
  | nil =>
    have := h.length_lt
    rw [hrest, List.nil_append] at this
    omega
  | cons d x =>
    rw [List.cons_append] at hrest
    rw [hrest] at hcons
    obtain ⟨rfl, rfl⟩ := List.cons.inj hcons
    obtain ⟨hwithin, y, hy, hperform'⟩ := perform_border w' hb hrest hperform hlen
    exact ⟨y, hy, next_of_move rfl (choose_border hb hb' hclosed hm hwithin) hperform'⟩

/-! ## Announcements that are open at the border -/

/-- A mark, an angle or a quote is read as a literal or a sign, except in the name of a method. -/
lemma choose_eq_chooseLiteral {v : View} {pos : ℕ} {q : Char} (t : Text)
    (hq : q ∈ '<' :: '~' :: '-' :: Heredoc.quotes) (hdef : v.defining = false) :
    choose v pos q t = chooseLiteral v pos q t := by
  obtain ⟨lineStart, defining, value, argument⟩ := v
  dsimp only at hdef
  subst hdef
  simp only [Heredoc.quotes, List.mem_cons, List.not_mem_nil, or_false] at hq
  rcases hq with rfl | rfl | rfl | rfl | rfl | rfl <;> rfl

lemma choose_angles {v : View} {pos : ℕ} {d : Char} {y : Text} (hd : d ≠ '=')
    (h : choose v pos '<' ('<' :: d :: y) = .ok m) :
    m = .lexeme ⟨.ident, 1⟩ ∨ m = .sign ⟨"<<".toList, .op, false⟩ ∨
      ∃ doc n, m = .announce doc n ∧ Heredoc.announced? pos ('<' :: d :: y) = some (doc, n) := by
  have hsign : chooseSign pos '<' ('<' :: d :: y) = .ok (.sign ⟨"<<".toList, .op, false⟩) := by
    have hfind : Sign.find? ('<' :: '<' :: d :: y) = some ⟨"<<".toList, .op, false⟩ := by
      simp [Sign.find?, Sign.table, List.isPrefixOf, hd.symm]
    rw [chooseSign, hfind]
  cases hdef : v.defining with
  | true =>
    have hmethod : choose v pos '<' ('<' :: d :: y) = .ok (.lexeme ⟨.ident, 1⟩) := by
      obtain ⟨lineStart, defining, value, argument⟩ := v
      dsimp only at hdef
      subst hdef
      rfl
    rw [hmethod] at h
    cases h
    exact .inl rfl
  | false =>
    rw [choose_eq_chooseLiteral _ List.mem_cons_self hdef, chooseLiteral, if_neg (by decide),
      if_neg (by decide), if_neg (by decide), hsign] at h
    split at h
    · cases h
      exact .inr (.inl rfl)
    · rw [if_neg (by decide), if_neg (by decide), if_neg (by decide), if_pos rfl] at h
      split at h
      · rename_i doc n hdoc
        cases h
        exact .inr (.inr ⟨doc, n, rfl, hdoc⟩)
      · cases h
        exact .inr (.inl rfl)

lemma choose_mark {v : View} {pos : ℕ} {mark q : Char} (y : Text) (hmark : mark ∈ ['~', '-'])
    (hq : q ∈ Heredoc.quotes) (hdef : v.defining = false) :
    choose v pos mark (q :: y) = .ok (.sign ⟨[mark], .op, false⟩) := by
  simp only [List.mem_cons, List.not_mem_nil, or_false] at hmark
  have hfind : Sign.find? (mark :: q :: y) = some ⟨[mark], .op, false⟩ := by
    simp only [Heredoc.quotes, List.mem_cons, List.not_mem_nil, or_false] at hq
    rcases hmark with rfl | rfl <;> rcases hq with rfl | rfl | rfl <;> rfl
  have hopener : mark ∉ openers := by
    rcases hmark with rfl | rfl <;> decide
  have hmem : mark ∈ '<' :: '~' :: '-' :: Heredoc.quotes := by
    rcases hmark with rfl | rfl <;> decide
  rw [choose_eq_chooseLiteral _ hmem hdef, chooseLiteral_eq_chooseSign v pos hopener, chooseSign,
    hfind]

lemma choose_quote {v : View} {pos : ℕ} {q : Char} (t : Text) (hq : q ∈ Heredoc.quotes)
    (hdef : v.defining = false) (h : choose v pos q t = .ok m) :
    ∃ interpolates n, Quoting.literal pos q interpolates t = .ok n ∧ m = .lexeme ⟨.string, n⟩ := by
  have hquoted : chooseLiteral v pos q t = (Lexeme.quoted pos q (q != '\'') t).map .lexeme := by
    simp only [Heredoc.quotes, List.mem_cons, List.not_mem_nil, or_false] at hq
    rcases hq with rfl | rfl | rfl <;> rfl
  rw [choose_eq_chooseLiteral t (by simp [hq]) hdef, hquoted] at h
  obtain ⟨l, hl, rfl⟩ := eq_ok_of_map_eq_ok h
  obtain ⟨n, hn, rfl⟩ := eq_ok_of_map_eq_ok hl
  exact ⟨_, n, hn, rfl⟩

lemma defining_emit (s : Scanner) {l : Lexeme} (hkind : l.kind = .op ∨ l.kind = .ident) :
    (s.emit l).view.defining = false := by
  obtain ⟨kind, more⟩ := l
  dsimp only at hkind
  rcases hkind with rfl | rfl <;> rfl

/-- After the angles comes what follows them, unless a heredoc is announced and its name goes on
past the border. -/
lemma Next.angles {u : Text} (h : Next s s') (hb : Border b w)
    (hrest : s.rest = '<' :: '<' :: (u ++ b :: w)) (hu : Heredoc.Unclosed u) :
    s'.rest.length < (b :: w).length ∨ s'.rest = u ++ b :: w ∧ s'.view.defining = false := by
  obtain ⟨c, t, m, hcons, hm, hperform⟩ := h.exists_move
  rw [hrest] at hcons
  obtain ⟨rfl, rfl⟩ := List.cons.inj hcons
  have hdrop : s.rest.drop 2 = u ++ b :: w := by rw [hrest]; rfl
  obtain ⟨d, y, rfl⟩ : ∃ d y, u = d :: y := by
    cases u with
    | nil =>
      obtain ⟨q, r, heq, -⟩ := hu
      cases heq
    | cons d y => exact ⟨d, y, rfl⟩
  have hd : d ≠ '=' := by
    rintro rfl
    obtain ⟨q, r, heq, hq, -⟩ := hu
    cases heq
    exact absurd hq (by decide)
  rcases choose_angles hd hm with rfl | rfl | ⟨doc, n, rfl, hdoc⟩
  · cases hperform
    exact .inr ⟨hdrop, defining_emit s (.inr rfl)⟩
  · cases hperform
    exact .inr ⟨hdrop, defining_emit _ (.inl rfl)⟩
  · cases hperform
    have hlt := hu.length_lt (hb.dull w) hdoc
    left
    change (s.rest.drop (n + 1)).length < _
    rw [hrest]
    simp only [List.length_drop, List.length_cons, List.length_append] at hlt ⊢
    omega

/-- A quote that is open at the border opens a string that goes on past the border. -/
lemma Next.quote {q : Char} {r : Text} (h : Next s s') (hrest : s.rest = q :: (r ++ b :: w))
    (hq : q ∈ Heredoc.quotes) (hmem : q ∉ r) (hdef : s.view.defining = false) :
    s'.rest.length < (b :: w).length := by
  obtain ⟨c, t, m, hcons, hm, hperform⟩ := h.exists_move
  rw [hrest] at hcons
  obtain ⟨rfl, rfl⟩ := List.cons.inj hcons
  obtain ⟨interpolates, n, hn, rfl⟩ := choose_quote _ hq hdef hm
  cases hperform
  have hquote : Quoting.closing q = q ∧ Text.isWide q = false := by
    simp only [Heredoc.quotes, List.mem_cons, List.not_mem_nil, or_false] at hq
    rcases hq with rfl | rfl | rfl <;> exact ⟨rfl, rfl⟩
  have htake := Quoting.mem_of_literal hquote.1 hquote.2 hn
  have hlt : r.length < n := by
    by_contra hle
    rw [List.take_append_of_le_length (not_lt.1 hle)] at htake
    exact hmem (List.mem_of_mem_take htake)
  rw [rest_emit, hrest]
  simp only [List.length_drop, List.length_cons, List.length_append]
  omega

lemma Reaches.length_le (h : Reaches s s') : s'.rest.length ≤ s.rest.length := by
  induction h with
  | refl => exact le_rfl
  | tail _ hnext ih => exact hnext.length_lt.le.trans ih

lemma Reaches.exists_next (h : Reaches s s') (hlt : s'.rest.length < s.rest.length) :
    ∃ s₁, Next s s₁ ∧ Reaches s₁ s' := by
  rcases Relation.ReflTransGen.cases_head h with rfl | hnext
  · exact absurd hlt (lt_irrefl _)
  · exact hnext

/-- A string that is open at the border is not read up to it. -/
lemma not_reaches_of_quote {q : Char} {r : Text} (hq : q ∈ Heredoc.quotes) (hmem : q ∉ r)
    (hrest : s.rest = q :: (r ++ b :: w)) (hdef : s.view.defining = false)
    (hend : s'.rest = b :: w) : ¬ Reaches s s' := by
  intro hreach
  obtain ⟨s₁, hnext, hreach⟩ := hreach.exists_next (by
    rw [hend, hrest]
    simp only [List.length_cons, List.length_append]
    omega)
  have hlt := hnext.quote hrest hq hmem hdef
  have hle := hreach.length_le
  rw [hend] at hle
  omega

/-- Where the name of a heredoc has a quote that is open at the border, the border is not come
to. -/
lemma not_reaches_of_unclosed {s₁ : Scanner} {u : Text} (hb : Border b w) (hnext : Next s s₁)
    (hrest : s.rest = '<' :: '<' :: (u ++ b :: w)) (hu : Heredoc.Unclosed u)
    (hend : s'.rest = b :: w) : ¬ Reaches s₁ s' := by
  intro hreach
  rcases hnext.angles hb hrest hu with hlt | ⟨hrest₁, hdef⟩
  · have hle := hreach.length_le
    rw [hend] at hle
    omega
  obtain ⟨q, r, heq, hq, hmem⟩ := hu
  rw [Heredoc.unmarked] at heq
  split at heq
  · -- The mark is read as a sign, and the quote after it.
    rename_i hmark
    cases u with
    | nil => cases hmark
    | cons mark y =>
      rw [List.drop_succ_cons, List.drop_zero] at heq
      subst heq
      obtain ⟨s₂, hnext₂, hreach₂⟩ := hreach.exists_next (by
        rw [hend, hrest₁]
        simp only [List.length_cons, List.length_append]
        omega)
      obtain ⟨c, t, m, hcons, hm, hperform⟩ := hnext₂.exists_move
      rw [hrest₁] at hcons
      obtain ⟨rfl, rfl⟩ := List.cons.inj hcons
      rw [List.append_eq, List.cons_append, choose_mark _ (by simpa using hmark) hq hdef] at hm
      cases hm
      cases hperform
      have hrest₂ : (s₁.readSign ⟨[mark], .op, false⟩).rest = q :: (r ++ b :: w) := by
        change s₁.rest.drop 1 = _
        rw [hrest₁]
        rfl
      exact not_reaches_of_quote hq hmem hrest₂ (defining_emit _ (.inl rfl)) hend hreach₂
  · subst heq
    exact not_reaches_of_quote hq hmem hrest₁ hdef hend hreach

/-! ## The run -/

/-- A run to the border over one text is a run to the border over the other. -/
lemma reaches_border {x : Text} (hb : Border b w) (hb' : Border b w') (hreach : Reaches s s')
    (hrest : s.rest = x ++ b :: w) (hend : s'.rest = b :: w) :
    Reaches (s.onto (x ++ b :: w')) (s'.onto (b :: w')) := by
  induction hreach using Relation.ReflTransGen.head_induction_on generalizing x with
  | refl =>
    have hx : x = [] := by simpa [hend] using hrest
    subst hx
    exact .refl
  | @head s s₁ hnext hreach ih =>
    -- The rest only gets shorter, so a step on the way to the border does not pass it.
    have hlen := Reaches.length_le hreach
    rw [hend] at hlen
    obtain ⟨y, hy, hnext'⟩ := hnext.border hb hb' hrest hlen fun u hu hun =>
      not_reaches_of_unclosed hb hnext (by rw [hrest, hu]; rfl) hun hend hreach
    exact .head hnext' (ih hy)

end Scanner

end TablePack
