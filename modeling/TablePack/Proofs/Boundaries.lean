import Mathlib.Data.List.Chain
import Mathlib.Tactic
import TablePack.Proofs.Nesting

/-!
# Where statements end

Whether two neighbouring nodes lie in one statement is a matter of the separators between them
(`Ends`): a semicolon ends a statement, and so does a newline, unless it stands between square
brackets, after a token that asks for more, or before a dot.

Statements are divided while the tree is built, when the second node is not yet known. What has to
be followed are the separators that were read since the last node of a block: the current statement
is empty exactly if they end the statement of that node (`Frame.Aligned`). This holds of all blocks
that are open, of the outer ones up to the token that opens the next one.

* `Tree.Aligned.step`, `Tree.divided_of_build`: one token, and all of them;
* `Tree.Divided.apart_iff`: neighbours in a divided list of statements;
* `Tree.ofText_boundaries`: neighbours at every depth of a tree.
-/

namespace TablePack

open Token (Kind)
open Node (Sequenced)

namespace Tree

/-! ## Separators after a node -/

/-- The kinds of tokens after which a statement goes on in the next line. -/
def carryingKinds : List Kind :=
  [.op, .assign, .comma, .dot, .colons, .keyword .and_, .keyword .or_, .keyword .not_]

/-- Newlines may end statements in a body, the whole of a tree or after an opener: all but those
between square brackets. -/
def SplitsLines (opener : Option Token) : Prop :=
  ∀ t ∈ opener, t.kind ≠ .indexBracket ∧ t.kind ≠ .arrayBracket

/-- A newline after a node counts: nothing carries the statement on. -/
def NewlineCounts (opener : Option Token) (a : Node) (dotNext : Prop) : Prop :=
  SplitsLines opener ∧ (∀ k ∈ a.kind?, k ∉ carryingKinds) ∧ ¬ dotNext

/-- The separators `gap` after a node end its statement: there is a semicolon, or there is a newline
that counts. -/
def Ends (opener : Option Token) (gap : List Token) (a : Node) (dotNext : Prop) : Prop :=
  (∃ t ∈ gap, t.kind = .semi) ∨ (∃ t ∈ gap, t.kind = .newline) ∧ NewlineCounts opener a dotNext

instance (opener : Option Token) : Decidable (SplitsLines opener) :=
  inferInstanceAs (Decidable (∀ t ∈ opener, t.kind ≠ .indexBracket ∧ t.kind ≠ .arrayBracket))

instance (opener : Option Token) (a : Node) (dotNext : Prop) [Decidable dotNext] :
    Decidable (NewlineCounts opener a dotNext) :=
  inferInstanceAs (Decidable (_ ∧ (∀ k ∈ a.kind?, k ∉ carryingKinds) ∧ ¬ dotNext))

instance (opener : Option Token) (gap : List Token) (a : Node) (dotNext : Prop)
    [Decidable dotNext] : Decidable (Ends opener gap a dotNext) :=
  inferInstanceAs (Decidable (_ ∨ _ ∧ NewlineCounts opener a dotNext))

/-- The tokens that lie between two offsets. -/
def between (tokens : List Token) (low high : ℕ) : List Token :=
  tokens.filter fun t => low ≤ t.start ∧ t.stop ≤ high

/-- Two neighbours in a body are parted by the tokens between them. -/
def Parted (tokens : List Token) (opener : Option Token) (a b : Node) : Prop :=
  Ends opener (between tokens a.stop b.start) a (b.kind? = some .dot)

lemma continuesLine_iff (k : Kind) : continuesLine k ↔ k ∈ carryingKinds := by
  unfold continuesLine
  split <;> simp_all [carryingKinds]

lemma not_ends_nil (opener : Option Token) (a : Node) (dotNext : Prop) :
    ¬ Ends opener [] a dotNext := by
  simp [Ends]

lemma Ends.append {opener : Option Token} {gap : List Token} {a : Node} {dotNext : Prop}
    (h : Ends opener gap a dotNext) (more : List Token) : Ends opener (gap ++ more) a dotNext := by
  rcases h with ⟨t, ht, hkind⟩ | ⟨⟨t, ht, hkind⟩, hcounts⟩
  · exact .inl ⟨t, List.mem_append_left more ht, hkind⟩
  · exact .inr ⟨⟨t, List.mem_append_left more ht, hkind⟩, hcounts⟩

/-- What one more newline makes of it. -/
lemma ends_append_newline {opener : Option Token} {gap : List Token} {a : Node} {dotNext : Prop}
    {t : Token} (ht : t.kind = .newline) :
    Ends opener (gap ++ [t]) a dotNext ↔
      Ends opener gap a dotNext ∨ NewlineCounts opener a dotNext := by
  constructor
  · rintro (⟨u, hu, hkind⟩ | ⟨-, hcounts⟩)
    · rcases List.mem_append.1 hu with hu | hu
      · exact .inl (.inl ⟨u, hu, hkind⟩)
      · rw [List.mem_singleton.1 hu, ht] at hkind
        cases hkind
    · exact .inr hcounts
  · rintro (h | hcounts)
    · exact h.append [t]
    · exact .inr ⟨⟨t, by simp, ht⟩, hcounts⟩

/-! ## Tokens read since an offset -/

/-- The tokens from an offset on. -/
def since (seen : List Token) (low : ℕ) : List Token := seen.filter fun t => low ≤ t.start

lemma since_append {seen : List Token} {t : Token} {low : ℕ} (h : low ≤ t.start) :
    since (seen ++ [t]) low = since seen low ++ [t] := by
  simp [since, h]

section Sequenced

variable {tokens seen after : List Token} {t : Token}

lemma stop_le_of_mem (h : Sequenced (seen ++ t :: after)) {u : Token} (hu : u ∈ seen) :
    u.stop ≤ t.start :=
  (List.pairwise_append.1 h.ordered).2.2 u hu t List.mem_cons_self

lemma le_start_of_mem (h : Sequenced (seen ++ t :: after)) {u : Token} (hu : u ∈ after) :
    t.stop ≤ u.start :=
  (List.pairwise_cons.1 (List.pairwise_append.1 h.ordered).2.1).1 u hu

lemma start_lt_stop_of_mem (h : Sequenced tokens) {u : Token} (hu : u ∈ tokens) :
    u.start < u.stop := Token.start_lt_stop (h.ne_nil u hu)

/-- What lies before a token is what was read before it. -/
lemma between_eq_since (h : Sequenced (seen ++ t :: after)) (low : ℕ) :
    between (seen ++ t :: after) low t.start = since seen low := by
  have hseen : seen.filter (fun u => low ≤ u.start ∧ u.stop ≤ t.start) = since seen low :=
    List.filter_congr fun u hu => by simp [stop_le_of_mem h hu]
  have hrest : (t :: after).filter (fun u => low ≤ u.start ∧ u.stop ≤ t.start) = [] := by
    rw [List.filter_eq_nil_iff]
    intro u hu
    have hspan : u.start < u.stop := start_lt_stop_of_mem h (List.mem_append_right seen hu)
    have hle : t.start ≤ u.start := by
      rcases List.mem_cons.1 hu with rfl | hu
      · exact le_rfl
      · exact (start_lt_stop_of_mem h (by simp)).le.trans (le_start_of_mem h hu)
    simp only [decide_eq_true_eq]
    omega
  rw [between, List.filter_append, hseen, hrest, List.append_nil]

/-- No token was read since the end of the last one. -/
lemma since_stop_eq_nil (h : Sequenced (seen ++ t :: after)) : since (seen ++ [t]) t.stop = [] := by
  rw [since, List.filter_eq_nil_iff]
  intro u hu
  have hspan : u.start < u.stop := start_lt_stop_of_mem h (by
    rcases List.mem_append.1 hu with hu | hu
    · exact List.mem_append_left _ hu
    · exact List.mem_append_right _ (by simp_all))
  have hle : u.stop ≤ t.stop := by
    rcases List.mem_append.1 hu with hu | hu
    · exact (stop_le_of_mem h hu).trans (start_lt_stop_of_mem h (by simp)).le
    · rw [List.mem_singleton.1 hu]
  simp only [decide_eq_true_eq]
  omega

end Sequenced

/-! ## Divided lists of statements -/

/-- Neighbours in a statement are not parted, but the last node of a statement and the first one of
the next are. -/
structure Divided (parts : Node → Node → Prop) (body : List Statement) : Prop where
  within : ∀ statement ∈ body, statement.IsChain fun a b => ¬ parts a b
  across : body.IsChain fun s s' => ∀ a ∈ s.getLast?, ∀ b ∈ s'.head?, parts a b

section Divided

variable {parts : Node → Node → Prop} {body : List Statement} {node : Node}

lemma Divided.nil : Divided parts [] := ⟨by simp, .nil⟩

lemma getLast?_flatten_append (body : List Statement) {statement : Statement}
    (hne : statement ≠ []) : (body ++ [statement]).flatten.getLast? = statement.getLast? := by
  rw [List.flatten_append, List.flatten_singleton, List.getLast?_append_of_ne_nil _ hne]

/-- A node that is parted from the last one starts a statement. -/
lemma Divided.start (h : Divided parts body)
    (hnode : ∀ a ∈ body.flatten.getLast?, parts a node) : Divided parts (body ++ [[node]]) := by
  refine ⟨?_, List.isChain_append.2 ⟨h.across, .singleton _, fun s hs s' hs' a ha b hb => ?_⟩⟩
  · rw [List.forall_mem_append]
    exact ⟨h.within, by simp⟩
  · obtain ⟨earlier, rfl⟩ := List.getLast?_eq_some_iff.1 hs
    cases hs'
    cases hb
    refine hnode a ?_
    rwa [getLast?_flatten_append earlier (List.ne_nil_of_mem (List.mem_of_mem_getLast? ha))]

/-- A node that is not parted from the last one goes on with the statement. -/
lemma Divided.extend {statement : Statement} (h : Divided parts (body ++ [statement]))
    (hne : statement ≠ []) (hnode : ∀ a ∈ statement.getLast?, ¬ parts a node) :
    Divided parts (body ++ [statement ++ [node]]) := by
  obtain ⟨hwithin, hlast⟩ := List.forall_mem_append.1 h.within
  obtain ⟨hacross, -, hborder⟩ := List.isChain_append.1 h.across
  refine ⟨List.forall_mem_append.2 ⟨hwithin, ?_⟩,
    List.isChain_append.2 ⟨hacross, .singleton _, fun s hs s' hs' a ha b hb => ?_⟩⟩
  · simp only [List.mem_singleton, forall_eq] at hlast ⊢
    refine List.isChain_append.2 ⟨hlast, .singleton _, fun a ha b hb => ?_⟩
    cases hb
    exact hnode a ha
  · cases hs'
    rw [List.head?_append_of_ne_nil _ hne] at hb
    exact hborder s hs statement rfl a ha b hb

/-- Neighbours in a list that is put together from two. -/
lemma neighbours_append {α : Type} {a b : α} {l m : List α} (h : [a, b] <:+: l ++ m) :
    [a, b] <:+: l ∨ [a, b] <:+: m ∨ a ∈ l.getLast? ∧ b ∈ m.head? := by
  rcases List.infix_append_iff.1 h with hl | hm | ⟨l₁, l₂, heq, hl, hm⟩
  · exact .inl hl
  · exact .inr (.inl hm)
  · rcases l₁ with _ | ⟨x, _ | ⟨y, rest⟩⟩
    · rw [List.nil_append] at heq
      exact .inr (.inl (heq ▸ hm.isInfix))
    · cases heq
      obtain ⟨before, rfl⟩ := hl
      obtain ⟨later, rfl⟩ := hm
      exact .inr (.inr ⟨by simp, by simp⟩)
    · simp only [List.cons_append, List.cons.injEq] at heq
      obtain ⟨rfl, rfl, hnil⟩ := heq
      obtain ⟨rfl, -⟩ := List.append_eq_nil_iff.1 hnil.symm
      exact .inl hl.isInfix

lemma Divided.apart_iff (h : Divided parts body) (hne : ∀ statement ∈ body, statement ≠ [])
    (hordered : body.flatten.Pairwise fun a b => a.start < b.start) {a b : Node}
    (hab : [a, b] <:+: body.flatten) :
    (¬ ∃ statement ∈ body, a ∈ statement ∧ b ∈ statement) ↔ parts a b := by
  induction body with
  | nil => simp at hab
  | cons s body ih =>
    obtain ⟨hs, hbody⟩ := List.forall_mem_cons.1 hne
    obtain ⟨-, hrest, hbefore⟩ := List.pairwise_append.1 hordered
    obtain ⟨hborder, hacross⟩ := List.isChain_cons.1 h.across
    -- no node stands both in this statement and in a later one
    have hdisjoint : ∀ node ∈ s, node ∉ body.flatten := fun node hnode hlater =>
      lt_irrefl _ (hbefore node hnode node hlater)
    rw [List.flatten_cons] at hab
    rcases neighbours_append hab with hin | hin | ⟨ha, hb⟩
    · have hchain := h.within s List.mem_cons_self
      refine iff_of_false
        (fun hno => hno ⟨s, by simp, hin.subset (by simp), hin.subset (by simp)⟩) ?_
      obtain ⟨before, later, rfl⟩ := hin
      simpa using hchain.left_of_append.right_of_append
    · have ha : a ∈ body.flatten := hin.subset (by simp)
      rw [← ih ⟨fun s' hs' => h.within s' (by simp [hs']), hacross⟩ hbody hrest hin]
      simp only [List.mem_cons, exists_eq_or_imp, not_or]
      exact and_iff_right fun hboth => hdisjoint a hboth.1 ha
    · have ha' : a ∈ s := List.mem_of_mem_getLast? ha
      have hb' : b ∈ body.flatten := List.mem_of_mem_head? hb
      refine iff_of_true ?_ ?_
      · rintro ⟨s', hs', has, hbs⟩
        rcases List.mem_cons.1 hs' with rfl | hs'
        · exact hdisjoint b hbs hb'
        · exact hdisjoint a ha' (List.mem_flatten_of_mem hs' has)
      · cases body with
        | nil => simp at hb
        | cons s' body =>
          rw [List.flatten_cons, List.head?_append_of_ne_nil _ (hbody s' (by simp))] at hb
          exact hborder s' rfl a ha b hb

end Divided

/-! ## Building -/

/-- A node whose blocks are all divided by the tokens of the text. -/
inductive Apportioned (tokens : List Token) : Node → Prop
  | leaf (t : Token) : Apportioned tokens (.leaf t)
  | block {opener closer : Token} {body : List Statement} :
      Divided (Parted tokens (some opener)) body →
      (∀ node ∈ body.flatten, Apportioned tokens node) →
      Apportioned tokens (.block opener closer body)

/-- The last node that is collected in a frame. -/
def Frame.last? (f : Frame) : Option Node := f.statements.flatten.getLast?

/-- What is collected of a body is divided, and the current statement is empty exactly if the
separators after the last node end its statement. -/
structure Frame.Aligned (tokens : List Token) (opener : Option Token) (gap : ℕ → List Token)
    (dotNext : Prop) (f : Frame) : Prop where
  divided : Divided (Parted tokens opener) f.statements
  nodes : ∀ node ∈ f.statements.flatten, Apportioned tokens node
  pending : ∀ a ∈ f.last?, f.current = [] ↔ Ends opener (gap a.stop) a dotNext

lemma Frame.statements_of_current {f : Frame} (h : f.current ≠ []) :
    f.statements = f.done.reverse ++ [f.current.reverse] := by
  simp [statements, flushed, h]

lemma Frame.last?_of_current {f : Frame} (h : f.current ≠ []) : f.last? = f.current.head? := by
  rw [last?, statements_of_current h, getLast?_flatten_append _ (by simpa using h),
    List.getLast?_reverse]

lemma Frame.statements_push (f : Frame) (node : Node) (header : Bool) :
    { f.push node with header := header }.statements
      = f.done.reverse ++ [f.current.reverse ++ [node]] := by
  simp [statements, flushed, push]

lemma Frame.statements_push_of_nil {f : Frame} (h : f.current = []) (node : Node) (header : Bool) :
    { f.push node with header := header }.statements = f.statements ++ [[node]] := by
  rw [statements_push]
  simp [statements, flushed, h]

lemma Frame.flatten_push (f : Frame) (node : Node) (header : Bool) :
    { f.push node with header := header }.statements.flatten = f.statements.flatten ++ [node] := by
  by_cases h : f.current = []
  · rw [statements_push_of_nil h, List.flatten_append, List.flatten_singleton]
  · rw [statements_push, statements_of_current h]
    simp

lemma Frame.last?_push (f : Frame) (node : Node) (header : Bool) :
    { f.push node with header := header }.last? = some node := by
  rw [last?, flatten_push, List.getLast?_concat]

lemma Frame.last?_empty (header : Bool) : ({ header := header } : Frame).last? = none := rfl

section Building

variable {tokens : List Token} {opener : Option Token} {gap : ℕ → List Token} {dotNext : Prop}
  {f : Frame}

lemma Frame.Aligned.empty (header : Bool) :
    ({ header := header } : Frame).Aligned tokens opener gap dotNext := by
  have hnil : ({ header := header } : Frame).statements = [] := rfl
  exact ⟨by rw [hnil]; exact .nil, by simp [hnil], by simp [last?_empty]⟩

/-- A node is placed where the separators before it say. -/
lemma Frame.Aligned.push (h : f.Aligned tokens opener gap dotNext) {node : Node} (header : Bool)
    (hnode : Apportioned tokens node)
    (hgap : ∀ a, Parted tokens opener a node ↔ Ends opener (gap a.stop) a dotNext)
    {gap' : ℕ → List Token} {dotNext' : Prop} (hgap' : gap' node.stop = []) :
    ({ f.push node with header := header } : Frame).Aligned tokens opener gap' dotNext' := by
  refine ⟨?_, ?_, fun a ha => ?_⟩
  · by_cases hc : f.current = []
    · rw [statements_push_of_nil hc]
      exact h.divided.start fun a ha => (hgap a).2 ((h.pending a ha).1 hc)
    · have hdivided := h.divided
      rw [statements_of_current hc] at hdivided
      rw [statements_push]
      refine hdivided.extend (by simpa using hc) fun a ha hparted => hc ?_
      rw [List.getLast?_reverse, ← last?_of_current hc] at ha
      exact (h.pending a ha).2 ((hgap a).1 hparted)
  · rw [flatten_push, List.forall_mem_append]
    exact ⟨h.nodes, by simpa using hnode⟩
  · rw [last?_push, Option.mem_some_iff] at ha
    subst ha
    rw [hgap']
    exact iff_of_false (by simp [Frame.push]) (not_ends_nil _ _ _)

/-- A separator changes at most the current statement. -/
lemma Frame.Aligned.separate (h : f.Aligned tokens opener gap dotNext) {f' : Frame}
    (hsame : f'.statements = f.statements) {gap' : ℕ → List Token} {dotNext' : Prop}
    (hpending : ∀ a ∈ f.last?, f'.current = [] ↔ Ends opener (gap' a.stop) a dotNext') :
    f'.Aligned tokens opener gap' dotNext' := by
  refine ⟨hsame ▸ h.divided, hsame ▸ h.nodes, fun a ha => ?_⟩
  rw [last?, hsame] at ha
  exact hpending a ha

end Building

/-- The token that opens the innermost block. -/
def innermost (stack : Stack) : Option Token := stack.head?.map Prod.fst

/-- The frames around the open blocks, each with the separators up to the opener of the next
block. -/
def AlignedStack (tokens : List Token) : Stack → Prop
  | [] => True
  | (opener, outer) :: levels =>
    outer.Aligned tokens (innermost levels) (fun low => between tokens low opener.start) False ∧
      AlignedStack tokens levels

/-- What holds after some tokens of a text were placed, with others to come. -/
structure Aligned (tokens seen after : List Token) (f : Frame) (stack : Stack) : Prop where
  tokens_eq : tokens = seen ++ after
  frame : f.Aligned tokens (innermost stack) (since seen) (dotFollows after)
  stop_le : ∀ a ∈ f.last?, ∀ t ∈ after, a.stop ≤ t.start
  outer : AlignedStack tokens stack

lemma newlineEnds_iff (stack : Stack) : newlineEnds stack ↔ SplitsLines (innermost stack) := by
  cases stack with
  | nil => simp [newlineEnds, SplitsLines, innermost]
  | cons level levels =>
    cases hkind : level.1.kind <;> simp [newlineEnds, SplitsLines, innermost, hkind, closerOf]

lemma dotFollows_newline {t : Token} (ht : t.kind = .newline) (after : List Token) :
    dotFollows (t :: after) = dotFollows after := by
  simp [dotFollows, ht]

lemma dotFollows_of_not_newline {t : Token} (ht : t.kind ≠ .newline) (after : List Token) :
    dotFollows (t :: after) ↔ t.kind = .dot := by
  simp [dotFollows, ht]

lemma ne_dot_of_canOpen {k : Kind} (h : CanOpen k) : k ≠ .dot := by
  rintro rfl
  rcases h with h | ⟨word, before, after, h, -⟩
  · cases h
  · cases h

section Step

variable {tokens seen after : List Token} {t : Token} {f f' : Frame} {stack stack' : Stack}

lemma Aligned.separate (h : Aligned tokens seen (t :: after) f stack)
    (hsame : f'.statements = f.statements)
    (hpending : ∀ a ∈ f.last?, f'.current = [] ↔
      Ends (innermost stack) (since seen a.stop ++ [t]) a (dotFollows after)) :
    Aligned tokens (seen ++ [t]) after f' stack := by
  have hstop : ∀ a ∈ f.last?, a.stop ≤ t.start := fun a ha => h.stop_le a ha t List.mem_cons_self
  refine ⟨by simp [h.tokens_eq], h.frame.separate hsame fun a ha => ?_, fun a ha u hu => ?_,
    h.outer⟩
  · rw [since_append (hstop a ha)]
    exact hpending a ha
  · rw [Frame.last?, hsame] at ha
    exact h.stop_le a ha u (List.mem_cons_of_mem t hu)

/-- What the test for a newline means for a statement that has nodes. -/
lemma newline_test_iff {a : Node} (ha : a ∈ f.current.head?) :
    newlineEnds stack && !f.continues && !dotFollows after ↔
      NewlineCounts (innermost stack) a (dotFollows after) := by
  have hcarries : f.continues = false ↔ ∀ k ∈ a.kind?, k ∉ carryingKinds := by
    rw [Frame.continues, show f.current.head? = some a from ha]
    cases hkind : a.kind? <;> simp [hkind, ← continuesLine_iff]
  simp only [NewlineCounts, Bool.and_eq_true, Bool.not_eq_true', newlineEnds_iff, hcarries,
    Bool.not_eq_true, and_assoc]

/-- A newline ends the current statement unless something carries it on. -/
lemma Aligned.newline (h : Aligned tokens seen (t :: after) f stack) (ht : t.kind = .newline)
    (hstep : step f stack t after = .ok (f', stack')) :
    Aligned tokens (seen ++ [t]) after f' stack' := by
  have hpending := h.frame.pending
  rw [dotFollows_newline ht] at hpending
  unfold step at hstep
  rw [if_pos ht] at hstep
  -- a statement that is empty has ended before
  have hempty : ∀ a ∈ f.last?, f.current = [] →
      Ends (innermost stack) (since seen a.stop ++ [t]) a (dotFollows after) :=
    fun a ha hc => ((hpending a ha).1 hc).append [t]
  have htest : ∀ a ∈ f.last?, f.current ≠ [] →
      (newlineEnds stack && !f.continues && !dotFollows after ↔
        Ends (innermost stack) (since seen a.stop ++ [t]) a (dotFollows after)) := by
    intro a ha hc
    rw [ends_append_newline ht, or_iff_right (mt (hpending a ha).2 hc)]
    rw [Frame.last?_of_current hc] at ha
    exact newline_test_iff ha
  split_ifs at hstep with htrue
  · cases hstep
    refine h.separate (statements_endStatement f) fun a ha => iff_of_true rfl ?_
    by_cases hc : f.current = []
    · exact hempty a ha hc
    · exact (htest a ha hc).1 htrue
  · cases hstep
    refine h.separate rfl fun a ha => ?_
    by_cases hc : f.current = []
    · exact iff_of_true hc (hempty a ha hc)
    · exact iff_of_false hc (mt (htest a ha hc).2 htrue)

/-- A semicolon ends the current statement. -/
lemma Aligned.semi (h : Aligned tokens seen (t :: after) f stack) (ht : t.kind = .semi)
    (hstep : step f stack t after = .ok (f', stack')) :
    Aligned tokens (seen ++ [t]) after f' stack' := by
  unfold step at hstep
  rw [if_neg (by simp [ht]), if_pos ht] at hstep
  cases hstep
  exact h.separate (statements_endStatement f) fun a _ =>
    iff_of_true rfl (.inl ⟨t, by simp, ht⟩)

/-- A node that ends with the token that was read last. -/
lemma Aligned.place (hseq : Sequenced tokens) (htokens : tokens = seen ++ t :: after)
    (houter : AlignedStack tokens stack) (node : Node) (hstop : node.stop = t.stop)
    (hframe : f.Aligned tokens (innermost stack) (since (seen ++ [t])) (dotFollows after))
    (hlast : f.last? = some node) : Aligned tokens (seen ++ [t]) after f stack := by
  refine ⟨by simp [htokens], hframe, fun a ha u hu => ?_, houter⟩
  rw [hlast, Option.mem_some_iff] at ha
  rw [← ha, hstop]
  exact le_start_of_mem (htokens ▸ hseq) hu

/-- Placing a token keeps what is collected divided. -/
lemma Aligned.step (hseq : Sequenced tokens) (h : Aligned tokens seen (t :: after) f stack)
    (hstep : Tree.step f stack t after = .ok (f', stack')) :
    Aligned tokens (seen ++ [t]) after f' stack' := by
  have hseq' : Sequenced (seen ++ t :: after) := h.tokens_eq ▸ hseq
  by_cases hnewline : t.kind = .newline
  · exact h.newline hnewline hstep
  by_cases hsemi : t.kind = .semi
  · exact h.semi hsemi hstep
  have hseparator : ¬ isSeparator t.kind := by simp [isSeparator, hnewline, hsemi]
  have hgap : ∀ low, between tokens low t.start = since seen low := by
    rw [h.tokens_eq]
    exact between_eq_since hseq'
  have hdot := dotFollows_of_not_newline hnewline after
  have hnil := since_stop_eq_nil hseq'
  cases grows_of_step hstep with
  | pass hs => exact absurd hs hseparator
  | finish hs => exact absurd hs hseparator
  | close opener outer levels _ hstack hkind =>
    subst hstack
    -- the block takes its place in the frame around it by the separators before its opener
    obtain ⟨hframe, houter⟩ := h.outer
    have hnode : Apportioned tokens (.block opener t f.statements) :=
      .block h.frame.divided h.frame.nodes
    refine .place hseq h.tokens_eq houter (.block opener t f.statements) rfl
      (hframe.push outer.header hnode (fun a => ?_) hnil) (outer.last?_push _ outer.header)
    simp [Parted, Node.start, Node.kind?]
  | opens header _ hopens =>
    refine ⟨by simp [h.tokens_eq], .empty header, by simp [Frame.last?_empty], ?_, h.outer⟩
    -- the frame is put aside as it is: what was read since its last node stands before the opener
    have hframe := h.frame
    rw [hdot] at hframe
    simp only [ne_dot_of_canOpen hopens] at hframe
    simpa only [hgap] using hframe
  | single header _ _ _ =>
    refine .place hseq h.tokens_eq h.outer (.leaf t) rfl
      (h.frame.push header (.leaf t) (fun a => ?_) hnil) (f.last?_push _ header)
    simp [Parted, Node.start, Node.kind?, hgap, hdot]

/-- Placing all tokens leaves a tree whose bodies are divided. -/
lemma divided_of_build (hseq : Sequenced tokens) {tree : List Statement}
    (h : Aligned tokens seen after f stack) (hbuild : build f stack after = .ok tree) :
    Divided (Parted tokens none) tree ∧ ∀ node ∈ tree.flatten, Apportioned tokens node := by
  induction after generalizing seen f stack with
  | nil =>
    cases stack with
    | nil =>
      cases hbuild
      exact ⟨h.frame.divided, h.frame.nodes⟩
    | cons level levels => cases hbuild
  | cons t after ih =>
    rw [build] at hbuild
    cases hstep : Tree.step f stack t after with
    | error fault => simp [hstep] at hbuild
    | ok next =>
      rw [hstep] at hbuild
      exact ih (h.step hseq hstep) hbuild

end Step

/-! ## All depths -/

/-- The bodies in a tree, each with the token that opens it: the whole of the tree, which nothing
opens, and those of all blocks in one of them. -/
inductive Opened (tree : List Statement) : Option Token → List Statement → Prop
  | whole : Opened tree none tree
  | body {around : Option Token} {outer inner : List Statement} {opener closer : Token} :
      Opened tree around outer → .block opener closer inner ∈ outer.flatten →
      Opened tree (some opener) inner

section Opened

variable {tree body : List Statement} {opener : Option Token} {tokens : List Token}

lemma Opened.part (h : Opened tree opener body) : Part tree body := by
  induction h with
  | whole => exact .whole
  | body _ hmem ih => exact .body ih hmem

lemma Opened.divided (h : Opened tree opener body) (htree : Divided (Parted tokens none) tree)
    (hnodes : ∀ node ∈ tree.flatten, Apportioned tokens node) :
    Divided (Parted tokens opener) body ∧ ∀ node ∈ body.flatten, Apportioned tokens node := by
  induction h with
  | whole => exact ⟨htree, hnodes⟩
  | body _ hmem ih =>
    cases ih.2 _ hmem with
    | block hdivided hinner => exact ⟨hdivided, hinner⟩

/-- The tokens of a body stand together in the tree. -/
lemma Part.isInfix_bodyTokens (h : Part tree body) :
    Node.bodyTokens body <:+: Node.bodyTokens tree := by
  induction h with
  | whole => exact List.infix_refl _
  | @body outer inner opener closer _ hmem ih =>
    obtain ⟨before, after, hsplit⟩ := List.append_of_mem hmem
    refine List.IsInfix.trans ⟨before.flatMap Node.tokens ++ [opener],
      closer :: after.flatMap Node.tokens, ?_⟩ ih
    rw [Node.bodyTokens_eq_flatMap outer, hsplit]
    simp [Node.tokens]

/-- Nothing but separators stands between neighbours. -/
lemma isSeparator_of_mem_between (hseq : Sequenced tokens)
    (hflat : Node.bodyTokens tree = tokens.filter fun t => !isSeparator t.kind)
    (hpart : Part tree body) {a b : Node} (hab : [a, b] <:+: body.flatten) {t : Token}
    (ht : t ∈ between tokens a.stop b.start) : isSeparator t.kind := by
  by_contra hs
  obtain ⟨htokens, hrange⟩ := List.mem_filter.1 ht
  obtain ⟨hlow, hhigh⟩ : a.stop ≤ t.start ∧ t.stop ≤ b.start := by simpa using hrange
  have hspan := start_lt_stop_of_mem hseq htokens
  have htree : t ∈ Node.bodyTokens tree := by
    rw [hflat]
    exact List.mem_filter.2 ⟨htokens, by simpa using hs⟩
  obtain ⟨as, x, hx, hxstop⟩ := a.exists_tokens_eq_concat
  obtain ⟨y, bs, hy, hystart⟩ := b.exists_tokens_eq_cons
  -- in the tree, the first token of `b` follows the last one of `a`
  obtain ⟨before, after, hsplit⟩ : [x, y] <:+: Node.bodyTokens tree := by
    obtain ⟨before, after, hsplit⟩ := hab
    refine List.IsInfix.trans ⟨before.flatMap Node.tokens ++ as,
      bs ++ after.flatMap Node.tokens, ?_⟩ hpart.isInfix_bodyTokens
    rw [Node.bodyTokens_eq_flatMap, ← hsplit]
    simp [hx, hy]
  rw [List.append_assoc] at hsplit
  have hsub : Sequenced (before ++ x :: y :: after) := by
    rw [show before ++ x :: y :: after = Node.bodyTokens tree from hsplit, hflat]
    exact hseq.sublist List.filter_sublist
  have hsub' : Sequenced ((before ++ [x]) ++ y :: after) := by simpa using hsub
  have hxspan := start_lt_stop_of_mem hsub (u := x) (by simp)
  have hyspan := start_lt_stop_of_mem hsub (u := y) (by simp)
  rw [← hsplit, List.mem_append] at htree
  rcases htree with htree | htree
  · have := stop_le_of_mem hsub htree
    omega
  · rcases List.mem_cons.1 htree with rfl | htree
    · omega
    · rcases List.mem_cons.1 htree with rfl | htree
      · omega
      · have := le_start_of_mem hsub' htree
        omega

end Opened

/-- Statements end where the separators say. At every depth of the tree of a text, nothing but
separators stands between two neighbouring nodes of a body, and the two lie in different statements
exactly if there is a semicolon among these, or if there is a newline and the body is not between
square brackets, the first node is no token that asks for more, and the second one is no dot. -/
theorem ofText_boundaries {source : Text} {tree : List Statement} (h : ofText source = .ok tree) :
    ∃ tokens, Token.lex source = .ok tokens ∧
      ∀ opener body, Opened tree opener body → ∀ a b, [a, b] <:+: body.flatten →
        (∀ t ∈ between tokens a.stop b.start, isSeparator t.kind) ∧
        ((¬ ∃ statement ∈ body, a ∈ statement ∧ b ∈ statement) ↔
          Ends opener (between tokens a.stop b.start) a (b.kind? = some .dot)) := by
  obtain ⟨tokens, hlex, hbuild⟩ := exists_tokens_of_ofText h
  have hflat := bodyTokens_of_ofTokens hbuild
  obtain ⟨hne, hnodes⟩ := sturdy_of_build hbuild (.empty false) (by simp [SturdyStack])
  obtain ⟨hstream, -⟩ := Token.stream_of_lex hlex
  have hseq : Sequenced tokens := ⟨hstream.ne_nil, hstream.ordered⟩
  have hstart : Aligned tokens [] tokens {} [] :=
    ⟨rfl, .empty false, by simp [Frame.last?_empty], trivial⟩
  obtain ⟨hdivided, happortioned⟩ := divided_of_build hseq hstart hbuild
  refine ⟨tokens, hlex, fun opener body hopened a b hab => ⟨fun t ht => ?_, ?_⟩⟩
  · exact isSeparator_of_mem_between hseq hflat hopened.part hab ht
  · have hbody : Sequenced (Node.bodyTokens body) := by
      refine Sequenced.sublist ?_ hopened.part.isInfix_bodyTokens.sublist
      rw [hflat]
      exact hseq.sublist List.filter_sublist
    exact (hopened.divided hdivided happortioned).1.apart_iff (hopened.part.sturdy hne hnodes).1
      ((ordered_of_sequenced hbody).imp And.left) hab

/-- A chain of calls over two lines, which the next line ends, and an array over two lines. -/
theorem ofText_boundaries_chain :
    ∃ tree array, ofText "a\n.b\n[1\n2]".toList = .ok tree ∧
      Opened tree (some ⟨.arrayBracket, 5, ['[']⟩) array ∧
      (∃ s ∈ tree, .leaf ⟨.ident, 0, ['a']⟩ ∈ s ∧ .leaf ⟨.dot, 2, ['.']⟩ ∈ s) ∧
      (¬ ∃ s ∈ tree, .leaf ⟨.ident, 3, ['b']⟩ ∈ s ∧
        .block ⟨.arrayBracket, 5, ['[']⟩ ⟨.rbracket, 9, [']']⟩ array ∈ s) ∧
      ∃ s ∈ array, .leaf ⟨.int, 6, ['1']⟩ ∈ s ∧ .leaf ⟨.int, 8, ['2']⟩ ∈ s := by
  have hlex : Token.lex "a\n.b\n[1\n2]".toList
      = .ok [⟨.ident, 0, ['a']⟩, ⟨.newline, 1, ['\n']⟩, ⟨.dot, 2, ['.']⟩, ⟨.ident, 3, ['b']⟩,
        ⟨.newline, 4, ['\n']⟩, ⟨.arrayBracket, 5, ['[']⟩, ⟨.int, 6, ['1']⟩, ⟨.newline, 7, ['\n']⟩,
        ⟨.int, 8, ['2']⟩, ⟨.rbracket, 9, [']']⟩] := by
    decide +kernel
  have htree : ofText "a\n.b\n[1\n2]".toList
      = .ok [[.leaf ⟨.ident, 0, ['a']⟩, .leaf ⟨.dot, 2, ['.']⟩, .leaf ⟨.ident, 3, ['b']⟩],
        [.block ⟨.arrayBracket, 5, ['[']⟩ ⟨.rbracket, 9, [']']⟩
          [[.leaf ⟨.int, 6, ['1']⟩, .leaf ⟨.int, 8, ['2']⟩]]]] := by
    rw [ofText, hlex]
    rfl
  obtain ⟨tokens, htokens, hparts⟩ := ofText_boundaries htree
  obtain rfl := Except.ok.inj (hlex.symm.trans htokens)
  have hwhole := hparts _ _ .whole
  have harray := hparts _ _ (.body .whole (.tail _ (.tail _ (.tail _ (.head _)))))
  refine ⟨_, _, htree, .body .whole (.tail _ (.tail _ (.tail _ (.head _)))), ?_, ?_, ?_⟩
  · have hdot := hwhole (.leaf ⟨.ident, 0, ['a']⟩) (.leaf ⟨.dot, 2, ['.']⟩) ⟨[], _, rfl⟩
    by_contra hapart
    exact absurd (hdot.2.1 hapart) (by decide)
  · have hline := hwhole (.leaf ⟨.ident, 3, ['b']⟩)
      (.block ⟨.arrayBracket, 5, ['[']⟩ ⟨.rbracket, 9, [']']⟩ _) ⟨[_, _], [], rfl⟩
    exact hline.2.2 (by decide)
  · have hbracket := harray (.leaf ⟨.int, 6, ['1']⟩) (.leaf ⟨.int, 8, ['2']⟩) ⟨[], [], rfl⟩
    by_contra hapart
    exact absurd (hbracket.2.1 hapart) (by decide)

end Tree

end TablePack
