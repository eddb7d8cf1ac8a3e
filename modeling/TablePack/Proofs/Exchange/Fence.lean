import Mathlib.Tactic
import TablePack.Proofs.Relabel.Tokens

/-!
# What is remembered of a closed bracket

The scanner looks back at the newest tokens to read the next one. When a bracket has just been
closed, it sees of what was read before only where the bracket stops, and whether an error is being
rescued on the line. A `Fence` is a list of tokens that ends so. What is read after one fence is
read in the same way after another one that has the same stop.

* `Token.Fence.inDefName_eq`, `Token.Fence.targets_eq`, `Token.Fence.opened?_eq` and others: the
  look back over a fence;
* `Scanner.atop_run`: the run from there on.
-/

namespace TablePack

open Token (Kind Lexeme kindAt? keepTargets collectTargets)

namespace Token

/-- Whether an error is being rescued on the line that these tokens end. -/
def rescuesLine (recent : List Token) : Bool :=
  (recent.takeWhile fun u => u.kind != .newline && u.kind != .semi).any
    fun u => u.kind == .keyword .rescue_

/-- Tokens, newest first, that end with a closing bracket, behind which nothing is seen but whether
a line rescues an error. -/
structure Fence (recent : List Token) (stop : ℕ) (rescues : Bool) : Prop where
  closer : ∃ t older, recent = t :: older ∧ (t.kind = .rbracket ∨ t.kind = .rparen) ∧
    t.text ≠ "=>".toList ∧ t.stop = stop
  not_def : ∀ n ≤ 3, kindAt? recent n ≠ some (.keyword .def_)
  not_dot : kindAt? recent 1 ≠ some .dot
  targets : ∀ wanted names, collectTargets wanted names recent = keepTargets false names
  rescues_eq : rescuesLine recent = rescues

namespace Fence

variable {W W' : List Token} {stop : ℕ} {rescues : Bool}

lemma kindAt?_zero (h : Fence W stop rescues) :
    kindAt? W 0 = some .rbracket ∨ kindAt? W 0 = some .rparen := by
  obtain ⟨t, older, rfl, hkind, -⟩ := h.closer
  exact hkind.imp (congrArg some) (congrArg some)

lemma kindAt?_append (newer W : List Token) (n : ℕ) :
    kindAt? (newer ++ W) n
      = if n < newer.length then kindAt? newer n else kindAt? W (n - newer.length) := by
  simp only [kindAt?, List.getElem?_append]
  split <;> rfl

lemma kindAt?_of_length_le {newer : List Token} {n : ℕ} (h : newer.length ≤ n) :
    kindAt? newer n = none := by
  rw [kindAt?, List.getElem?_eq_none h, Option.map_none]

/-- A kind that no token of the fence has is looked for among the newer tokens only. -/
lemma beq_kindAt? {k : Kind} {n : ℕ} (h : ∀ m ≤ n, kindAt? W m ≠ some k) (newer : List Token) :
    (kindAt? (newer ++ W) n == some k) = (kindAt? newer n == some k) := by
  rw [kindAt?_append]
  split
  · rfl
  · rename_i hlen
    rw [kindAt?_of_length_le (not_lt.1 hlen), beq_eq_false_iff_ne.2 (h _ (Nat.sub_le _ _))]
    rfl

lemma beq_def (h : Fence W stop rescues) (newer : List Token) {n : ℕ} (hn : n ≤ 3) :
    (kindAt? (newer ++ W) n == some (.keyword .def_))
      = (kindAt? newer n == some (.keyword .def_)) :=
  beq_kindAt? (fun m hm => h.not_def m (hm.trans hn)) newer

lemma kindAt?_zero_ne (h : Fence W stop rescues) {k : Kind} (hbracket : k ≠ .rbracket)
    (hparen : k ≠ .rparen) : kindAt? W 0 ≠ some k := by
  intro hk
  rcases h.kindAt?_zero with h0 | h0
  · exact hbracket (Option.some.inj (hk.symm.trans h0))
  · exact hparen (Option.some.inj (hk.symm.trans h0))

lemma beq_zero (h : Fence W stop rescues) {k : Kind} (hbracket : k ≠ .rbracket)
    (hparen : k ≠ .rparen) (newer : List Token) :
    (kindAt? (newer ++ W) 0 == some k) = (kindAt? newer 0 == some k) := by
  refine beq_kindAt? (fun m hm => ?_) newer
  rw [Nat.le_zero.1 hm]
  exact h.kindAt?_zero_ne hbracket hparen

lemma beq_dot (h : Fence W stop rescues) (newer : List Token) :
    (kindAt? (newer ++ W) 1 == some .dot) = (kindAt? newer 1 == some .dot) := by
  refine beq_kindAt? (fun m hm => ?_) newer
  rcases Nat.le_one_iff_eq_zero_or_eq_one.1 hm with rfl | rfl
  · exact h.kindAt?_zero_ne (by simp) (by simp)
  · exact h.not_dot

lemma inDefName_eq (h : Fence W stop rescues) (newer : List Token) :
    inDefName (newer ++ W) = inDefName newer := by
  simp only [inDefName, h.beq_def newer (Nat.zero_le 3), h.beq_def newer (by omega : 2 ≤ 3),
    h.beq_zero (k := .dot) (by simp) (by simp) newer]

lemma namesDef_eq (h : Fence W stop rescues) (newer : List Token) :
    namesDef (newer ++ W) = namesDef newer := by
  simp only [namesDef, h.beq_def newer (by omega : 1 ≤ 3), h.beq_def newer le_rfl, h.beq_dot newer]

lemma head?_append (h : Fence W stop rescues) (newer : List Token) (p : Token → Bool)
    (hp : ∀ t, t.kind = .rbracket ∨ t.kind = .rparen → p t = false) :
    (newer ++ W).head?.any p = newer.head?.any p := by
  obtain ⟨t, older, rfl, hkind, -⟩ := h.closer
  cases newer with
  | nil => exact hp t hkind
  | cons u newer => rfl

lemma followsAccess_eq (h : Fence W stop rescues) (newer : List Token) :
    followsAccess (newer ++ W) = followsAccess newer := by
  refine h.head?_append newer _ fun t ht => ?_
  rcases ht with ht | ht <;> rw [ht] <;> rfl

lemma opensCall_eq (h : Fence W stop rescues) (t : Token) (newer : List Token) :
    opensCall t (newer ++ W) = opensCall t newer := by
  refine h.head?_append newer _ fun u hu => ?_
  rcases hu with hu | hu <;> rw [hu] <;> rfl

lemma opened?_eq (h : Fence W stop rescues) (newer : List Token) :
    Parameters.opened? (newer ++ W) = Parameters.opened? newer := by
  obtain ⟨t, older, rfl, hkind, -⟩ := h.closer
  match newer with
  | [] =>
    cases older with
    | nil => rfl
    | cons u older => rcases hkind with hkind | hkind <;> simp [Parameters.opened?, hkind]
  | [u] =>
    rcases hkind with hkind | hkind <;> cases hu : u.kind <;> simp [Parameters.opened?, hkind, hu]
  | u :: v :: newer =>
    have hnames := h.namesDef_eq (v :: newer)
    simp only [List.cons_append] at hnames
    simp only [List.cons_append, Parameters.opened?, hnames]

/-- What an assignment after the newer tokens binds, if its targets stretch to the fence. -/
lemma collectTargets_eq (h : Fence W stop rescues) (h' : Fence W' stop rescues) (wanted : Bool)
    (names : List Text) (newer : List Token) :
    collectTargets wanted names (newer ++ W) = collectTargets wanted names (newer ++ W') := by
  induction newer generalizing wanted names with
  | nil => exact (h.targets wanted names).trans (h'.targets wanted names).symm
  | cons t newer ih =>
    simp only [List.cons_append, collectTargets, h.followsAccess_eq, h'.followsAccess_eq,
      h.opensCall_eq, h'.opensCall_eq, ih]

lemma targets_eq (h : Fence W stop rescues) (h' : Fence W' stop rescues) (newer : List Token) :
    Token.targets (newer ++ W) = Token.targets (newer ++ W') :=
  h.collectTargets_eq h' true [] newer

lemma rescuesLine_eq (h : Fence W stop rescues) (h' : Fence W' stop rescues) (newer : List Token) :
    rescuesLine (newer ++ W) = rescuesLine (newer ++ W') := by
  induction newer with
  | nil => exact h.rescues_eq.trans h'.rescues_eq.symm
  | cons t newer ih =>
    simp only [rescuesLine, List.cons_append, List.takeWhile_cons] at ih ⊢
    split
    · rw [List.any_cons, List.any_cons, ih]
    · rfl

lemma inRescue_eq (h : Fence W stop rescues) (h' : Fence W' stop rescues) (newer : List Token) :
    inRescue (newer ++ W) = inRescue (newer ++ W') := by
  cases newer with
  | nil =>
    obtain ⟨t, older, rfl, -, htext, -⟩ := h.closer
    obtain ⟨t', older', rfl, -, htext', -⟩ := h'.closer
    simp only [List.nil_append, inRescue, beq_eq_false_iff_ne.2 htext,
      beq_eq_false_iff_ne.2 htext', Bool.false_and]
  | cons t newer => exact congrArg (t.text == "=>".toList && ·) (h.rescuesLine_eq h' newer)

lemma valueExpected_eq (h : Fence W stop rescues) (h' : Fence W' stop rescues)
    (newer : List Token) : valueExpected (newer ++ W) = valueExpected (newer ++ W') := by
  cases newer with
  | nil =>
    obtain ⟨t, older, rfl, hkind, -⟩ := h.closer
    obtain ⟨t', older', rfl, hkind', -⟩ := h'.closer
    rcases hkind with hkind | hkind <;> rcases hkind' with hkind' | hkind' <;>
      simp [valueExpected, hkind, hkind', Kind.endsPrimary]
  | cons t newer => rfl

end Fence

end Token

/-! ## Reading on -/

namespace Scanner

open Token (Fence)

/-- The state that remembers further tokens behind its own. -/
def atop (s : Scanner) (W : List Token) : Scanner := { s with recent := s.recent ++ W }

lemma pending_atop (s : Scanner) (W : List Token) : (s.atop W).pending = s.pending := rfl

/-- The same state, but for what it remembers behind its own tokens. -/
def SameAtop (W W' : List Token) (a a' : Scanner) : Prop :=
  ∃ s : Scanner, a = s.atop W ∧ a' = s.atop W'

variable {W W' : List Token} {stop : ℕ} {rescues : Bool}

lemma atop_emit (s : Scanner) (W : List Token) (l : Lexeme) :
    (s.atop W).emit l = (s.emit l).atop W := by
  simp only [emit, atop]
  split <;> rfl

lemma atop_openParams (h : Fence W stop rescues) (s : Scanner) :
    (s.atop W).openParams = s.openParams.atop W := by
  simp only [openParams, atop, h.opened?_eq]

lemma atop_view (h : Fence W stop rescues) (h' : Fence W' stop rescues) (s : Scanner) :
    (s.atop W).view = (s.atop W').view := by
  have hdef : (s.atop W).view.defining = (s.atop W').view.defining :=
    (h.inDefName_eq s.recent).trans (h'.inDefName_eq s.recent).symm
  have hvalue : (s.atop W).view.value = (s.atop W').view.value :=
    h.valueExpected_eq h' s.recent
  have hargument : (s.atop W).view.argument = (s.atop W').view.argument := by
    simp only [view, atop, afterLocal]
    cases s.recent with
    | nil =>
      obtain ⟨t, older, rfl, hkind, -⟩ := h.closer
      obtain ⟨t', older', rfl, hkind', -⟩ := h'.closer
      have hident : ∀ t : Token, t.kind = .rbracket ∨ t.kind = .rparen →
          (t.kind == .ident) = false := by
        rintro t (ht | ht) <;> rw [ht] <;> rfl
      simp only [List.nil_append, hident t hkind, hident t' hkind', Bool.false_and]
    | cons t newer =>
      simp only [List.cons_append, h.followsAccess_eq, h'.followsAccess_eq]
      rfl
  calc (s.atop W).view
      = ⟨s.atLineStart, (s.atop W).view.defining, (s.atop W).view.value,
          (s.atop W).view.argument⟩ := rfl
    _ = (s.atop W').view := by
      rw [hdef, hvalue, hargument]
      rfl

lemma atop_readSign (h : Fence W stop rescues) (h' : Fence W' stop rescues) (s : Scanner)
    (sign : Sign) : SameAtop W W' ((s.atop W).readSign sign) ((s.atop W').readSign sign) := by
  refine ⟨((s.bindNames (if sign.assigns then Token.targets (s.recent ++ W) else [])).emit
    ⟨sign.kind, sign.text.length - 1⟩).openParams, ?_, ?_⟩
  · rw [← atop_openParams h, ← atop_emit]
    rfl
  · rw [← atop_openParams h', ← atop_emit, h.targets_eq h']
    rfl

lemma atop_word (h : Fence W stop rescues) (h' : Fence W' stop rescues) (s : Scanner) (c : Char)
    (t : Text) : SameAtop W W' ((s.atop W).word c t) ((s.atop W').word c t) := by
  have hmethod : ∀ {V : List Token}, Fence V stop rescues →
      (s.atop V).namesMethod t = s.namesMethod t := by
    intro V hV
    simp only [namesMethod, namesReceiver, atop, hV.inDefName_eq]
  have hextent : ∀ {V : List Token}, Fence V stop rescues →
      (s.atop V).wordExtent t = s.wordExtent t := by
    intro V hV
    simp only [wordExtent, hmethod hV]
  have hkind : ∀ {V : List Token}, Fence V stop rescues → ∀ word after,
      (s.atop V).wordKind word after = s.wordKind word after := by
    intro V hV word after
    simp only [wordKind, atop, hV.inDefName_eq,
      hV.beq_zero (k := .dot) (by simp) (by simp) s.recent]
  have hbinds : ∀ kind, (s.atop W').bindsWord kind = (s.atop W).bindsWord kind := by
    intro kind
    simp only [bindsWord, atop, bne, h.inDefName_eq, h'.inDefName_eq, h.inRescue_eq h',
      h.beq_zero (k := .dot) (by simp) (by simp) s.recent,
      h'.beq_zero (k := .dot) (by simp) (by simp) s.recent,
      h.beq_zero (k := .keyword .for_) (by simp) (by simp) s.recent,
      h'.beq_zero (k := .keyword .for_) (by simp) (by simp) s.recent]
  refine ⟨{ ((s.emit ⟨s.wordKind (c :: t.take (s.wordExtent t)) (t.drop (s.wordExtent t)),
      s.wordExtent t⟩).bindNames
        (if (s.atop W).bindsWord (s.wordKind (c :: t.take (s.wordExtent t))
          (t.drop (s.wordExtent t))) then [c :: t.take (s.wordExtent t)] else [])) with
      params :=
        if s.namesMethod t && startsLineParams (t.drop (s.wordExtent t)) then some (.start .line)
        else (s.emit ⟨s.wordKind (c :: t.take (s.wordExtent t)) (t.drop (s.wordExtent t)),
          s.wordExtent t⟩).params }, ?_, ?_⟩
  · simp only [word, hextent h, hkind h, hmethod h, atop_emit]
    rfl
  · simp only [word, hextent h', hkind h', hmethod h', hbinds, atop_emit]
    rfl

lemma atop_newline (s : Scanner) (W W' : List Token) :
    Corresponds Eq (SameAtop W W') (s.atop W).newline (s.atop W').newline := by
  have hrest : ∀ V, ((s.atop V).emit ⟨.newline, 0⟩).rest = (s.emit ⟨.newline, 0⟩).rest :=
    fun V => rfl
  have hpending : ∀ V, (s.atop V).pending = s.pending := fun V => rfl
  simp only [newline, hrest, hpending]
  cases Heredoc.bodiesLength s.pending (s.emit ⟨.newline, 0⟩).rest with
  | error doc => exact .error rfl
  | ok n => exact .ok ⟨{ (s.emit ⟨.newline, 0⟩).advance n with pending := [] }, rfl, rfl⟩

/-- A move does the same, whatever fence is remembered. -/
lemma atop_perform (h : Fence W stop rescues) (h' : Fence W' stop rescues) (s : Scanner)
    (c : Char) (t : Text) (m : Move) :
    Corresponds Eq (SameAtop W W') ((s.atop W).perform c t m) ((s.atop W').perform c t m) := by
  cases m with
  | skip n => exact .ok ⟨s.advance n, rfl, rfl⟩
  | lineBreak => exact atop_newline s W W'
  | lexeme l => exact .ok ⟨s.emit l, atop_emit s W l, atop_emit s W' l⟩
  | word => exact .ok (atop_word h h' s c t)
  | announce doc n =>
    exact .ok ⟨{ s.emit ⟨.string, n⟩ with pending := s.pending ++ [doc] }, rfl, rfl⟩
  | sign sign => exact .ok (atop_readSign h h' s sign)

/-- What is read after one fence is read after the other. -/
lemma atop_run (h : Fence W stop rescues) (h' : Fence W' stop rescues) (s : Scanner) :
    Corresponds Eq (SameAtop W W') (s.atop W).run (s.atop W').run := by
  induction hlen : s.rest.length using Nat.strong_induction_on generalizing s with
  | _ len ih =>
    subst hlen
    cases hrest : s.rest with
    | nil =>
      rw [run_nil (s := s.atop W) hrest, run_nil (s := s.atop W') hrest, pending_atop, pending_atop]
      cases s.pending with
      | nil => exact .ok ⟨s, rfl, rfl⟩
      | cons doc docs => exact .error rfl
    | cons c t =>
      rw [run_cons (s := s.atop W) hrest, run_cons (s := s.atop W') hrest, step_eq, step_eq,
        atop_view h h']
      change Corresponds Eq (SameAtop W W')
        (((choose (s.atop W').view s.pos c t).bind ((s.atop W).perform c t)).bind run)
        (((choose (s.atop W').view s.pos c t).bind ((s.atop W').perform c t)).bind run)
      cases hm : choose (s.atop W').view s.pos c t with
      | error fault => exact .error rfl
      | ok m =>
        refine (atop_perform h h' s c t m).bind fun a b ha hab => ?_
        obtain ⟨u, rfl, rfl⟩ := hab
        refine ih _ ?_ u rfl
        have hnext : Next (s.atop W) (u.atop W) :=
          next_of_move (s := s.atop W) hrest (by rw [atop_view h h']; exact hm) ha
        exact hrest ▸ hnext.length_lt

end Scanner

end TablePack
