import Mathlib.Tactic
import TablePack.Proofs.Exchange.Quiet
import TablePack.Proofs.Relabel.Tree

/-!
# Lists of parameters and open blocks

The scanner counts the brackets that are open in a list of parameters; the tree keeps a stack of the
blocks that are open. In a text that has a tree both agree: the parenthesis that opened the list is
on the stack, and the brackets above it are as many as were counted (`Encloses`). In particular the
count of such a list never comes down to zero.

* `Tree.readOn`: the stack after a first part of the tokens;
* `Scanner.depth_pos`: the count in a text that has a tree.
-/

namespace TablePack

open Token (Kind Told)

/-! ## Tokens in two parts -/

namespace Tree

/-- What is collected after some tokens, which the tokens `after` follow. -/
def readOn (f : Frame) (stack : Stack) (after : List Token) :
    List Token → Except Fault (Frame × Stack)
  | [] => .ok (f, stack)
  | t :: ts => (step f stack t (ts ++ after)).bind fun p => readOn p.1 p.2 after ts

lemma build_append (f : Frame) (stack : Stack) (ts after : List Token) :
    build f stack (ts ++ after)
      = (readOn f stack after ts).bind fun p => build p.1 p.2 after := by
  induction ts generalizing f stack with
  | nil => rfl
  | cons t ts ih =>
    rw [List.cons_append, build_cons, readOn]
    cases step f stack t (ts ++ after) with
    | error fault => rfl
    | ok p => exact ih p.1 p.2

lemma readOn_append (f : Frame) (stack : Stack) (ts us after : List Token) :
    readOn f stack after (ts ++ us)
      = (readOn f stack (us ++ after) ts).bind fun p => readOn p.1 p.2 after us := by
  induction ts generalizing f stack with
  | nil => rfl
  | cons t ts ih =>
    rw [List.cons_append, readOn, readOn, List.append_assoc]
    cases step f stack t (ts ++ (us ++ after)) with
    | error fault => rfl
    | ok p => exact ih p.1 p.2

/-- What is collected before the last of some tokens, and what that does. -/
lemma exists_step_of_readOn {f : Frame} {stack : Stack} {ts after : List Token} {t : Token}
    {p : Frame × Stack} (h : readOn f stack after (ts ++ [t]) = .ok p) :
    ∃ f' stack', readOn f stack (t :: after) ts = .ok (f', stack') ∧
      step f' stack' t after = .ok p := by
  rw [readOn_append, List.singleton_append] at h
  cases hread : readOn f stack (t :: after) ts with
  | error fault =>
    rw [hread] at h
    cases h
  | ok q =>
    rw [hread] at h
    refine ⟨q.1, q.2, rfl, ?_⟩
    cases hstep : step q.1 q.2 t after with
    | error fault => simp [Except.bind, readOn, hstep] at h
    | ok r => simpa [Except.bind, readOn, hstep] using h

/-- A parenthesis is put on the stack. -/
lemma Grows.stack_eq_of_lparen {f f' : Frame} {stack stack' : Stack} {t : Token}
    (h : Grows f stack t f' stack') (ht : t.kind = .lparen) : stack' = (t, f) :: stack := by
  cases h with
  | pass hs =>
    rw [ht] at hs
    cases hs
  | finish hs =>
    rw [ht] at hs
    cases hs
  | close opener outer levels _ _ hm =>
    have hcloser := isCloser_closerOf opener.kind
    rw [← hm, ht] at hcloser
    cases hcloser
  | opens header _ _ => rfl
  | single header _ hbracket _ =>
    rw [ht] at hbracket
    exact absurd rfl hbracket

/-- A tree that is built from two parts, at the end of the first one. -/
lemma exists_readOn {f : Frame} {stack : Stack} {ts after : List Token} {tree : List Statement}
    (h : build f stack (ts ++ after) = .ok tree) :
    ∃ f' stack', readOn f stack after ts = .ok (f', stack') ∧ build f' stack' after = .ok tree := by
  rw [build_append] at h
  cases hread : readOn f stack after ts with
  | error fault =>
    rw [hread] at h
    cases h
  | ok p =>
    rw [hread] at h
    exact ⟨p.1, p.2, rfl, h⟩

end Tree

/-! ## The list that is open -/

/-- The number of brackets that are open. -/
def Tree.brackets (stack : Tree.Stack) : ℕ :=
  stack.countP fun level => Tree.isBracket level.1.kind

namespace Parameters

/-- The count of brackets after another token. -/
def countAfter (k : Kind) (n : ℕ) : ℕ :=
  match k with
  | .lparen | .lbracket | .indexBracket | .arrayBracket | .lbrace => n + 1
  | .rparen | .rbracket | .rbrace => n - 1
  | _ => n

/-- A list in parentheses is open, and the stack holds its parenthesis below the brackets that are
counted. -/
def Encloses (p : Parameters) (stack : Tree.Stack) : Prop :=
  p.ending = .paren → ∃ upper level lower, stack = upper ++ level :: lower ∧
    level.1.kind = .lparen ∧ p.depth = Tree.brackets upper + 1

variable {p p' : Parameters} {f f' : Tree.Frame} {stack stack' : Tree.Stack} {t b : Token}

lemma track_eq_some (hbracket : t.kind ≠ .indexBracket ∧ t.kind ≠ .arrayBracket)
    (h : p.track t = some p') :
    p'.ending = p.ending ∧ p'.depth = countAfter t.kind p.depth ∧
      ¬ (t.kind = .rparen ∧ p.ending = .paren ∧ p.depth = 1) := by
  unfold track at h
  cases hkind : t.kind with
  | indexBracket => exact absurd hkind hbracket.1
  | arrayBracket => exact absurd hkind hbracket.2
  | rparen =>
    simp only [hkind] at h
    split at h
    · cases h
    · rename_i hclose
      cases h
      exact ⟨rfl, rfl, by simpa using hclose⟩
  | _ =>
    simp only [hkind] at h
    first
      | (cases h; exact ⟨rfl, rfl, by simp⟩)
      | (split at h <;> cases h <;> exact ⟨rfl, rfl, by simp⟩)

lemma countAfter_told (h : Told t b) (n : ℕ) : countAfter t.kind n = countAfter b.kind n := by
  rcases h.kind_eq with ⟨-, hkind⟩ | ⟨hlbracket, hkind | hkind⟩
  · rw [hkind]
  · rw [hlbracket, hkind]
    rfl
  · rw [hlbracket, hkind]
    rfl

lemma countAfter_closerOf (k : Kind) (n : ℕ) :
    countAfter (Tree.closerOf k) n = if Tree.isBracket k then n - 1 else n := by
  cases k <;> rfl

lemma countAfter_of_canOpen {k : Kind} (h : Tree.CanOpen k) (n : ℕ) :
    countAfter k n = n + if Tree.isBracket k then 1 else 0 := by
  rcases h with hbracket | ⟨word, before, after, rfl, -⟩
  · rw [if_pos hbracket]
    cases k <;> first | rfl | cases hbracket
  · rfl

lemma countAfter_of_single {k : Kind} (hlbracket : k ≠ .lbracket) (hbracket : ¬ Tree.isBracket k)
    (hcloser : ¬ Tree.isCloser k) (n : ℕ) : countAfter k n = n := by
  cases k <;> first | rfl | exact absurd rfl hlbracket | exact absurd rfl hbracket |
    exact absurd rfl hcloser

lemma Encloses.of_eq (h : p.Encloses stack) (hending : p'.ending = p.ending)
    (hdepth : p'.depth = p.depth) : p'.Encloses stack := by
  intro hparen
  obtain ⟨upper, level, lower, hstack, hlevel, heq⟩ := h (hending ▸ hparen)
  exact ⟨upper, level, lower, hstack, hlevel, hdepth.trans heq⟩

lemma Encloses.push (h : p.Encloses stack) (level : Token × Tree.Frame)
    (hending : p'.ending = p.ending)
    (hdepth : p'.depth = p.depth + if Tree.isBracket level.1.kind then 1 else 0) :
    p'.Encloses (level :: stack) := by
  intro hparen
  obtain ⟨upper, outer, lower, rfl, houter, heq⟩ := h (hending ▸ hparen)
  refine ⟨level :: upper, outer, lower, rfl, houter, ?_⟩
  rw [hdepth, heq, Tree.brackets, Tree.brackets, List.countP_cons]
  omega

/-- The parenthesis of the list itself is not closed as long as the list is open. -/
lemma Encloses.pop {opener : Token} {outer : Tree.Frame}
    (h : p.Encloses ((opener, outer) :: stack)) (hending : p'.ending = p.ending)
    (hdepth : p'.depth = if Tree.isBracket opener.kind then p.depth - 1 else p.depth)
    (hopen : ¬ (opener.kind = .lparen ∧ p.ending = .paren ∧ p.depth = 1)) : p'.Encloses stack := by
  intro hparen
  have hending' : p.ending = .paren := hending ▸ hparen
  obtain ⟨upper, level, lower, hstack, hlevel, heq⟩ := h hending'
  cases upper with
  | nil =>
    obtain ⟨rfl, -⟩ := List.cons.inj hstack
    exact absurd ⟨hlevel, hending', heq⟩ hopen
  | cons top upper =>
    obtain ⟨rfl, rfl⟩ := List.cons.inj hstack
    refine ⟨upper, level, lower, rfl, hlevel, ?_⟩
    rw [Tree.brackets, List.countP_cons] at heq
    rw [hdepth, heq, Tree.brackets]
    split_ifs <;> omega

/-- What the scanner counts and what the tree keeps go on together. -/
lemma Encloses.grows (h : p.Encloses stack) (hgrows : Tree.Grows f stack b f' stack')
    (htold : Told t b) (hbracket : t.kind ≠ .indexBracket ∧ t.kind ≠ .arrayBracket)
    (htrack : p.track t = some p') : p'.Encloses stack' := by
  obtain ⟨hending, hdepth, hopen⟩ := track_eq_some hbracket htrack
  rw [countAfter_told htold] at hdepth
  have hseparator : Tree.isSeparator b.kind → countAfter b.kind p.depth = p.depth := by
    intro hs
    rcases Bool.or_eq_true_iff.1 hs with hs | hs <;> rw [beq_iff_eq.1 hs] <;> rfl
  cases hgrows with
  | pass hs => exact h.of_eq hending (hdepth.trans (hseparator hs))
  | finish hs => exact h.of_eq hending (hdepth.trans (hseparator hs))
  | close opener outer levels hs hstack hm =>
    subst hstack
    rw [hm, countAfter_closerOf] at hdepth
    refine h.pop hending hdepth ?_
    rintro ⟨hlparen, hparen, hone⟩
    refine hopen ⟨?_, hparen, hone⟩
    rw [hlparen] at hm
    rcases htold.kind_eq with ⟨-, hkind⟩ | ⟨-, hkind | hkind⟩
    · exact hkind.symm.trans hm
    · rw [hm] at hkind
      cases hkind
    · rw [hm] at hkind
      cases hkind
  | opens header hs hcan =>
    exact h.push (b, f) hending (hdepth.trans (countAfter_of_canOpen hcan _))
  | single header hs hb hc =>
    refine h.of_eq hending (hdepth.trans (countAfter_of_single ?_ hb hc _))
    rcases htold.kind_eq with ⟨hne, hkind⟩ | ⟨-, hkind | hkind⟩
    · rwa [hkind]
    · rw [hkind]
      simp
    · rw [hkind]
      simp

end Parameters

namespace Scanner

variable {s s' : Scanner} {t : Token}

/-- The list of parameters after a step that reads a token. -/
lemma Next.params_cases (h : Next s s') (hrecent : s'.recent = t :: s.recent) :
    s'.params = s.params.bind (·.track t) ∨ s'.params = some (.start .line) ∨
      ∃ p, Parameters.opened? s'.recent = some p ∧ s'.params = some p := by
  obtain ⟨c, u, m, hrest, hm, hperform⟩ := h.exists_move
  have hfits := fits_of_choose hm
  cases m with
  | skip n =>
    cases hperform
    exact absurd hrecent.symm (cons_ne_recent t)
  | lineBreak =>
    obtain ⟨n, -, rfl⟩ := exists_bodies_of_newline hperform
    obtain ⟨rfl, -⟩ := List.cons.inj hrecent
    exact .inl rfl
  | lexeme l =>
    cases hperform
    simp only [emit] at hrecent
    split at hrecent
    · exact absurd hrecent.symm (cons_ne_recent t)
    · obtain ⟨rfl, -⟩ := List.cons.inj hrecent
      exact .inl rfl
  | word =>
    cases hperform
    have hkind :=
      wordKind_ne_comment s (c :: u.take (s.wordExtent u)) (u.drop (s.wordExtent u))
    simp only [Scanner.word, bindNames, emit, if_neg hkind.1] at hrecent
    obtain ⟨rfl, -⟩ := List.cons.inj hrecent
    simp only [Scanner.word]
    split
    · exact .inr (.inl rfl)
    · exact .inl rfl
  | announce doc n =>
    cases hperform
    obtain ⟨rfl, -⟩ := List.cons.inj hrecent
    exact .inl rfl
  | sign sign =>
    cases hperform
    simp only [readSign, openParams, emit, if_neg (kind_ne_comment hfits).1] at hrecent
    obtain ⟨rfl, -⟩ := List.cons.inj hrecent
    simp only [readSign, openParams]
    cases hopened : Parameters.opened? ((s.bindNames (if sign.assigns then Token.targets s.recent
        else [])).emit ⟨sign.kind, sign.text.length - 1⟩).recent with
    | none => exact .inl rfl
    | some p => exact .inr (.inr ⟨p, rfl, rfl⟩)

/-- A list in parentheses is opened by a parenthesis. -/
lemma opened?_paren {older : List Token} {p : Parameters}
    (h : Parameters.opened? (t :: older) = some p) (hparen : p.ending = .paren) :
    t.kind = .lparen ∧ p.depth = 1 := by
  cases older with
  | nil => cases h
  | cons u older =>
    simp only [Parameters.opened?] at h
    split at h
    · rename_i hkind _
      split at h
      · cases h
        exact ⟨hkind, rfl⟩
      · cases h
    · rename_i hkind _
      split at h
      · cases h
        exact ⟨hkind, rfl⟩
      · cases h
    · cases h
      cases hparen
    · cases h
      cases hparen
    · cases h

lemma ReadsToken.not_told (h : ReadsToken s s' t) :
    t.kind ≠ .indexBracket ∧ t.kind ≠ .arrayBracket := by
  have hspelled := h.spelled
  constructor <;> intro hkind <;> rw [hkind] at hspelled <;>
    exact absurd (hspelled.punctuation [] rfl) (by simp)

/-- In a text whose first tokens have a stack, the stack encloses the list that is open. -/
lemma encloses_of_reaches {source : Text} (h : Reaches { rest := source } s)
    {after : List Token} {f : Tree.Frame} {stack : Tree.Stack}
    (hread : Tree.readOn {} [] after (Token.tellBrackets s.recent.reverse) = .ok (f, stack)) :
    ∀ p ∈ s.params, p.Encloses stack := by
  induction h generalizing after f stack with
  | refl => exact fun p hp => by cases hp
  | @tail s s' _ hnext ih =>
    rcases hnext.recent_cases with hrecent | ⟨t, hreads⟩
    · rw [(hnext.still hrecent).2.1]
      exact ih (hrecent ▸ hread)
    · -- The newest token is one more step of the tree.
      rw [hreads.recent_eq, List.reverse_cons, Token.tellBrackets_append] at hread
      obtain ⟨f₀, stack₀, hbefore, hstep⟩ := Tree.exists_step_of_readOn hread
      have hgrows := Tree.grows_of_step hstep
      have htold := Token.told_tellBracket s.recent.reverse.getLast? t
      intro p hp
      rcases hnext.params_cases hreads.recent_eq with hparams | hparams | ⟨q, hopened, hparams⟩
      · obtain ⟨q, hq, htrack⟩ := Option.bind_eq_some_iff.1 (hparams.symm.trans hp)
        exact (ih hbefore q hq).grows hgrows htold hreads.not_told htrack
      · obtain rfl := Option.some.inj (hparams.symm.trans hp)
        exact fun hparen => by cases hparen
      · obtain rfl := Option.some.inj (hparams.symm.trans hp)
        intro hparen
        rw [hreads.recent_eq] at hopened
        obtain ⟨hlparen, hdepth⟩ := opened?_paren hopened hparen
        have hkind : (Token.tellBracket s.recent.reverse.getLast? t).kind = .lparen := by
          rcases htold.kind_eq with ⟨-, hkind⟩ | ⟨hk, -⟩
          · rw [hkind, hlparen]
          · rw [hlparen] at hk
            cases hk
        exact ⟨[], _, stack₀, hgrows.stack_eq_of_lparen hkind, hkind, hdepth⟩

/-- In a text that has a tree, a list in parentheses that is open has its parenthesis counted. -/
lemma depth_pos {source : Text} (h : Reaches { rest := source } s) {after : List Token}
    {tree : List Statement}
    (htree : Tree.ofTokens (Token.tellBrackets s.recent.reverse ++ after) = .ok tree)
    {p : Parameters} (hp : s.params = some p) (hparen : p.ending = .paren) : 0 < p.depth := by
  obtain ⟨f, stack, hread, -⟩ := Tree.exists_readOn htree
  obtain ⟨upper, level, lower, -, -, hdepth⟩ := encloses_of_reaches h hread p hp hparen
  omega

end Scanner

end TablePack
