import Mathlib.Tactic
import TablePack.Proofs.Exchange.Depth
import TablePack.Proofs.TreeBuilding

/-!
# Another value in a tree

The tokens of an array are taken out of a list of tokens, and others are put in their place. An
`Exchange` is such an array with what replaces it, and with the relabeling of all other tokens.
Where the array is the value of an assignment, the tree of the new tokens is the old one with the
nodes of the array exchanged (`Exchange.statement`): what is collected around the array looks at it
only as the end of a value, and no look ahead goes past the assignment and finds out what its value
is.

* `Exchange.step_eq`: one token around the array;
* `Exchange.isEndless_eq`, `Exchange.dotFollows_eq`: the look ahead;
* `Exchange.ofTokens_eq`: the tree.
-/

namespace TablePack

open Token (Kind)

/-- An array of integers in a list of tokens, what stands in its place, and the relabeling of the
other tokens. -/
structure Exchange where
  relabeling : Relabeling
  opener : Token
  inner : List Token
  closer : Token
  tokens : List Token
  nodes : List Node
  opener_kind : opener.kind = .arrayBracket
  inner_kind : ∀ t ∈ inner,
    t.kind = .int ∨ t.kind = .comma ∨ t.kind = .newline ∨ t.kind = .semi
  closer_kind : closer.kind = .rbracket
  text_token : ∀ t, (relabeling.token t).text = t.text
  collects : ∀ stack, Tree.Collects stack tokens nodes
  /-- What stands in the place of the array starts with no part of a list of integers. -/
  exists_first : ∃ t rest, nodes = .leaf t :: rest ∧ t.kind ≠ .int ∧ t.kind ≠ .comma
  /-- It ends a value as the array does. -/
  exists_last : ∃ init opener closer body,
    nodes = init ++ [.block opener closer body] ∧ opener.kind ≠ .arrayBracket
  afterParens_tokens : ∀ depth after, 0 < depth →
    Tree.afterParens depth (tokens ++ after) = Tree.afterParens depth after
  silent : ∀ source marker, Table.inNodes source marker nodes = []

namespace Exchange

variable (x : Exchange)

/-- The tokens that are taken out. -/
def old : List Token := x.opener :: (x.inner ++ [x.closer])

mutual

/-- What becomes of a node. -/
def node : Node → List Node
  | .leaf token => [.leaf (x.relabeling.token token)]
  | .block opener closer statements =>
    if opener = x.opener then x.nodes
    else [.block (x.relabeling.token opener) (x.relabeling.token closer) (body statements)]

/-- What becomes of the nodes of a statement. -/
def statement : List Node → List Node
  | [] => []
  | first :: nodes => node first ++ statement nodes

/-- What becomes of statements. -/
def body : List (List Node) → List (List Node)
  | [] => []
  | first :: statements => statement first :: body statements

end

/-! ## Frames -/

lemma statement_append (a b : List Node) :
    x.statement (a ++ b) = x.statement a ++ x.statement b := by
  induction a with
  | nil => rw [List.nil_append, statement, List.nil_append]
  | cons first nodes ih => rw [List.cons_append, statement, ih, statement, List.append_assoc]

lemma body_eq_map (statements : List Statement) :
    x.body statements = statements.map x.statement := by
  induction statements with
  | nil => rw [body, List.map_nil]
  | cons first statements ih => rw [body, ih, List.map_cons]

lemma nodes_ne_nil : x.nodes ≠ [] := by
  obtain ⟨init, opener, closer, body, hnodes, -⟩ := x.exists_last
  simp [hnodes]

lemma node_ne_nil (first : Node) : x.node first ≠ [] := by
  cases first with
  | leaf token => simp [node]
  | block opener closer body =>
    rw [node]
    split
    · exact x.nodes_ne_nil
    · exact List.cons_ne_nil _ _

/-- What a node ends with is of the kind that the node is of. -/
lemma getLast?_node (first : Node) : (x.node first).getLast?.map Node.kind? = some first.kind? := by
  cases first with
  | leaf token => simp [node, Node.kind?]
  | block opener closer body =>
    rw [node]
    split
    · obtain ⟨init, opener, closer, body, hnodes, -⟩ := x.exists_last
      simp [hnodes, Node.kind?]
    · simp [Node.kind?]

/-- What becomes of a frame. Its nodes and statements are listed newest first. -/
def frame (f : Tree.Frame) : Tree.Frame where
  header := f.header
  done := x.body f.done
  current := (x.statement f.current.reverse).reverse

/-- What becomes of the open blocks. -/
def stack (levels : Tree.Stack) : Tree.Stack :=
  levels.map fun level => (x.relabeling.token level.1, x.frame level.2)

lemma frame_empty (header : Bool) : x.frame { header := header } = { header := header } := by
  simp [frame, body, statement]

lemma current_push (f : Tree.Frame) (new : Node) :
    (x.frame (f.push new)).current = (x.node new).reverse ++ (x.frame f).current := by
  simp [frame, Tree.Frame.push, statement_append, statement]

lemma frame_push {f : Tree.Frame} {new new' : Node} (h : x.node new = [new']) :
    x.frame (f.push new) = (x.frame f).push new' := by
  have hcurrent := x.current_push f new
  rw [h] at hcurrent
  calc x.frame (f.push new)
      = { (x.frame f) with current := (x.frame (f.push new)).current } := rfl
    _ = (x.frame f).push new' := by rw [hcurrent]; rfl

lemma frame_leaf (f : Tree.Frame) (t : Token) :
    x.frame (f.push (.leaf t)) = (x.frame f).push (.leaf (x.relabeling.token t)) :=
  x.frame_push (by rw [node])

lemma isEmpty_current (f : Tree.Frame) : (x.frame f).current.isEmpty = f.current.isEmpty := by
  simp only [frame, List.isEmpty_reverse]
  cases h : f.current with
  | nil => rfl
  | cons first nodes =>
    rw [List.reverse_cons, statement_append, statement]
    simp [x.node_ne_nil first]

lemma head?_current (f : Tree.Frame) :
    (x.frame f).current.head?.map Node.kind? = f.current.head?.map Node.kind? := by
  simp only [frame, List.head?_reverse]
  cases f.current with
  | nil => rfl
  | cons first nodes =>
    have hlast := x.getLast?_node first
    rw [List.reverse_cons, statement_append, statement, statement, List.append_nil,
      List.getLast?_append_of_ne_nil _ (x.node_ne_nil first)]
    exact hlast

lemma flushed_frame (f : Tree.Frame) : (x.frame f).flushed = x.body f.flushed := by
  rw [Tree.Frame.flushed, Tree.Frame.flushed, isEmpty_current]
  split
  · rfl
  · rw [body]
    simp [frame]

lemma statements_frame (f : Tree.Frame) : (x.frame f).statements = x.body f.statements := by
  rw [Tree.Frame.statements, Tree.Frame.statements, flushed_frame, body_eq_map, body_eq_map,
    List.map_reverse]

lemma endStatement_frame (f : Tree.Frame) : (x.frame f).endStatement = x.frame f.endStatement := by
  rw [Tree.Frame.endStatement, flushed_frame, Tree.Frame.endStatement, frame]
  simp [statement]

lemma any_head?_of_map_kind? {a b : List Node}
    (h : a.head?.map Node.kind? = b.head?.map Node.kind?) (p : Option Kind → Bool) :
    a.head?.any (fun node => p node.kind?) = b.head?.any fun node => p node.kind? := by
  have hany := congrArg (Option.any p) h
  rwa [Option.any_map, Option.any_map] at hany

lemma continues_frame (f : Tree.Frame) : (x.frame f).continues = f.continues :=
  any_head?_of_map_kind? (x.head?_current f) (Option.any Tree.continuesLine)

lemma newlineEnds_stack (levels : Tree.Stack) :
    Tree.newlineEnds (x.stack levels) = Tree.newlineEnds levels := by
  cases levels <;> simp [Tree.newlineEnds, stack]

/-! ## One token -/

section Step

variable {f f' : Tree.Frame} {levels levels' : Tree.Stack} {t : Token} {after after' : List Token}

lemma opensBlock_eq (k : Keyword) (hendless : Tree.isEndless after' = Tree.isEndless after) :
    Tree.opensBlock k (x.frame f).current after' = Tree.opensBlock k f.current after := by
  have hbefore : (x.frame f).current.head?.all (fun node => node.kind?.any Tree.takesValue)
      = f.current.head?.all fun node => node.kind?.any Tree.takesValue := by
    have hall := congrArg (Option.all (Option.any Tree.takesValue)) (x.head?_current f)
    rwa [Option.all_map, Option.all_map] at hall
  cases k <;> simp only [Tree.opensBlock, hbefore, hendless]

lemma place_eq (hendless : Tree.isEndless after' = Tree.isEndless after) :
    Tree.place (x.frame f) (x.stack levels) (x.relabeling.token t) after'
      = (x.frame (Tree.place f levels t after).1, x.stack (Tree.place f levels t after).2) := by
  have hleaf := x.frame_leaf f t
  have hheader : (x.frame f).header = f.header := rfl
  unfold Tree.place
  rw [Relabeling.kind_token]
  by_cases hbracket : Tree.isBracket t.kind
  · rw [if_pos hbracket, if_pos hbracket]
    exact Prod.ext (x.frame_empty false).symm rfl
  rw [if_neg hbracket, if_neg hbracket]
  cases t.kind with
  | keyword k =>
    simp only [hheader, x.opensBlock_eq k hendless, ← hleaf]
    by_cases hdo : (k = .do_ && f.header) = true
    · rw [if_pos hdo, if_pos hdo]
      rfl
    rw [if_neg hdo, if_neg hdo]
    by_cases hblock : Tree.opensBlock k f.current after
    · rw [if_pos hblock, if_pos hblock]
      exact Prod.ext (x.frame_empty _).symm rfl
    · rw [if_neg hblock, if_neg hblock]
  | _ => simp only [← hleaf]

/-- A token does the same to both trees, where it looks ahead to the same. -/
lemma step_eq (hlevels : ∀ level ∈ levels, level.1 ≠ x.opener)
    (hdot : Tree.dotFollows after' = Tree.dotFollows after)
    (hendless : Tree.isEndless after' = Tree.isEndless after)
    (h : Tree.step f levels t after = .ok (f', levels')) :
    Tree.step (x.frame f) (x.stack levels) (x.relabeling.token t) after'
      = .ok (x.frame f', x.stack levels') := by
  unfold Tree.step at h ⊢
  rw [Relabeling.kind_token, newlineEnds_stack, continues_frame, hdot, endStatement_frame]
  by_cases hnewline : t.kind = .newline
  · rw [if_pos hnewline] at h ⊢
    split_ifs at h ⊢ with hends <;> cases h <;> rfl
  rw [if_neg hnewline] at h ⊢
  by_cases hsemi : t.kind = .semi
  · rw [if_pos hsemi] at h ⊢
    cases h
    rfl
  rw [if_neg hsemi] at h ⊢
  by_cases hcloser : Tree.isCloser t.kind
  · rw [if_pos hcloser] at h ⊢
    cases levels with
    | nil => cases h
    | cons level lower =>
      obtain ⟨opener, outer⟩ := level
      have hopener : opener ≠ x.opener := hlevels _ List.mem_cons_self
      simp only [stack, List.map_cons, Relabeling.kind_token] at h ⊢
      split_ifs at h ⊢
      cases h
      have hnode : x.node (.block opener t f.statements) = [.block (x.relabeling.token opener)
          (x.relabeling.token t) (x.frame f).statements] := by
        rw [node, if_neg hopener, statements_frame]
      rw [x.frame_push hnode]
  · rw [if_neg hcloser] at h ⊢
    rw [x.place_eq hendless, Except.ok.inj h]

end Step

/-! ## Looking ahead -/

lemma dotFollows_append {l : List Token} (h : ∃ t ∈ l, t.kind ≠ .newline) (after : List Token) :
    Tree.dotFollows (l ++ after) = Tree.dotFollows l := by
  have hsome : (l.find? fun t => t.kind != .newline).isSome := by
    rw [List.find?_isSome]
    obtain ⟨t, ht, hne⟩ := h
    exact ⟨t, ht, by simpa using hne⟩
  obtain ⟨t, ht⟩ := Option.isSome_iff_exists.1 hsome
  rw [Tree.dotFollows, Tree.dotFollows, List.find?_append, ht, Option.some_or]

lemma afterParens_lparen {t : Token} (h : t.kind = .lparen) (depth : ℕ) (ts : List Token) :
    Tree.afterParens depth (t :: ts) = Tree.afterParens (depth + 1) ts := by
  rw [Tree.afterParens, h]

lemma afterParens_rparen {t : Token} (h : t.kind = .rparen) (depth : ℕ) (ts : List Token) :
    Tree.afterParens depth (t :: ts)
      = if depth ≤ 1 then ts else Tree.afterParens (depth - 1) ts := by
  rw [Tree.afterParens, h]

lemma afterParens_of_ne {t : Token} (hl : t.kind ≠ .lparen) (hr : t.kind ≠ .rparen) (depth : ℕ)
    (ts : List Token) : Tree.afterParens depth (t :: ts) = Tree.afterParens depth ts := by
  rw [Tree.afterParens]
  split
  · exact absurd ‹_› hl
  · exact absurd ‹_› hr
  · rfl

lemma afterParens_skip {ts : List Token} (h : ∀ t ∈ ts, t.kind ≠ .lparen ∧ t.kind ≠ .rparen)
    (depth : ℕ) (after : List Token) :
    Tree.afterParens depth (ts ++ after) = Tree.afterParens depth after := by
  induction ts with
  | nil => rfl
  | cons t ts ih =>
    obtain ⟨⟨hl, hr⟩, hrest⟩ := List.forall_mem_cons.1 h
    rw [List.cons_append, afterParens_of_ne hl hr, ih hrest]

/-- The tokens of which the name of a method consists. -/
def isNamePart (t : Token) : Bool :=
  t.kind == .ident || t.kind == .const || t.kind == .var || t.kind == .dot

/-- Whether an equals sign comes next, after a list in parentheses if there is one. -/
def endsList (named : List Token) : Bool :=
  (if named.head?.any (fun t => t.kind == .lparen) then Tree.afterParens 0 named
    else named).head?.any fun t => t.kind == .assign

lemma isEndless_def (after : List Token) :
    Tree.isEndless after = endsList (after.dropWhile isNamePart) := rfl

/-- There is no parenthesis in the array. -/
lemma afterParens_old (depth : ℕ) (after : List Token) :
    Tree.afterParens depth (x.old ++ after) = Tree.afterParens depth after := by
  refine afterParens_skip (fun t ht => ?_) depth after
  rw [old, List.mem_cons, List.mem_append, List.mem_singleton] at ht
  rcases ht with rfl | ht | rfl
  · rw [x.opener_kind]
    exact ⟨by decide, by decide⟩
  · rcases x.inner_kind t ht with h | h | h | h <;> rw [h] <;> exact ⟨by decide, by decide⟩
  · rw [x.closer_kind]
    exact ⟨by decide, by decide⟩

section Ahead

variable {a : Token} (ha : a.kind = .assign) (before after : List Token)

include ha

lemma dotFollows_eq :
    Tree.dotFollows ((before ++ [a]).map x.relabeling.token
        ++ (x.tokens ++ after.map x.relabeling.token))
      = Tree.dotFollows (before ++ [a] ++ (x.old ++ after)) := by
  have hmem : ∃ t ∈ before ++ [a], t.kind ≠ .newline := ⟨a, by simp, by rw [ha]; decide⟩
  have hmem' : ∃ t ∈ (before ++ [a]).map x.relabeling.token, t.kind ≠ .newline :=
    ⟨x.relabeling.token a, by simp, by rw [Relabeling.kind_token, ha]; decide⟩
  rw [dotFollows_append hmem, dotFollows_append hmem', Relabeling.dotFollows_map]

/-- What follows a closing parenthesis starts with a token of the same kind. -/
lemma head?_afterParens {depth : ℕ} (hdepth : 0 < depth) :
    (Tree.afterParens depth ((before ++ [a]).map x.relabeling.token
        ++ (x.tokens ++ after.map x.relabeling.token))).head?.map Token.kind
      = (Tree.afterParens depth (before ++ [a] ++ (x.old ++ after))).head?.map Token.kind := by
  have hkinds : ∀ ts : List Token,
      (ts.map x.relabeling.token).head?.map Token.kind = ts.head?.map Token.kind := by
    intro ts
    cases ts <;> simp
  induction before generalizing depth with
  | nil =>
    have hl : a.kind ≠ .lparen := by rw [ha]; decide
    have hr : a.kind ≠ .rparen := by rw [ha]; decide
    rw [List.nil_append, List.map_singleton, List.singleton_append, List.singleton_append,
      afterParens_of_ne hl hr, afterParens_of_ne (by simpa using hl) (by simpa using hr),
      afterParens_old, x.afterParens_tokens _ _ hdepth, Relabeling.afterParens_map]
    exact hkinds _
  | cons t before ih =>
    simp only [List.cons_append, List.map_cons]
    by_cases hl : t.kind = .lparen
    · rw [afterParens_lparen hl, afterParens_lparen (by simpa using hl)]
      exact ih (Nat.succ_pos _)
    by_cases hr : t.kind = .rparen
    · rw [afterParens_rparen hr, afterParens_rparen (by simpa using hr)]
      split
      · cases before <;> simp
      · exact ih (by omega)
    · rw [afterParens_of_ne hl hr, afterParens_of_ne (by simpa using hl) (by simpa using hr)]
      exact ih hdepth

lemma dropWhile_isNamePart :
    (before ++ [a] ++ after).dropWhile isNamePart
      = before.dropWhile isNamePart ++ [a] ++ after := by
  have hlast : isNamePart a = false := by simp [isNamePart, ha]
  induction before with
  | nil => exact List.dropWhile_cons_of_neg (by simp [hlast])
  | cons t before ih =>
    rw [List.cons_append, List.cons_append, List.dropWhile_cons, List.dropWhile_cons]
    split
    · exact ih
    · rfl

lemma isEndless_eq :
    Tree.isEndless ((before ++ [a]).map x.relabeling.token
        ++ (x.tokens ++ after.map x.relabeling.token))
      = Tree.isEndless (before ++ [a] ++ (x.old ++ after)) := by
  have hcomp : isNamePart ∘ x.relabeling.token = isNamePart := by
    funext t
    simp [isNamePart]
  have ha' : (x.relabeling.token a).kind = .assign := by rw [Relabeling.kind_token, ha]
  have hany : ∀ {ts us : List Token}, ts.head?.map Token.kind = us.head?.map Token.kind →
      ts.head?.any (fun t => t.kind == .assign) = us.head?.any fun t => t.kind == .assign := by
    intro ts us h
    have hcongr := congrArg (Option.any (· == Kind.assign)) h
    rwa [Option.any_map, Option.any_map] at hcongr
  -- The name of the method ends before the assignment.
  rw [isEndless_def, isEndless_def, List.map_append, List.map_singleton,
    dropWhile_isNamePart ha', dropWhile_isNamePart ha, List.dropWhile_map, hcomp, endsList,
    endsList]
  cases before.dropWhile isNamePart with
  | nil => simp [ha]
  | cons n rest =>
    simp only [List.map_cons, List.cons_append, List.head?_cons, Option.any_some,
      Relabeling.kind_token, beq_iff_eq]
    by_cases hl : n.kind = .lparen
    · rw [if_pos hl, if_pos hl, afterParens_lparen hl, afterParens_lparen (by simpa using hl)]
      have hhead := x.head?_afterParens ha rest after (Nat.succ_pos 0)
      rw [List.map_append, List.map_singleton] at hhead
      exact hany hhead
    · rw [if_neg hl, if_neg hl]
      simp

end Ahead

/-! ## The tree -/

section Build

variable {f f' : Tree.Frame} {levels levels' : Tree.Stack} {a t : Token}
  {before after : List Token} {tree : List Statement}

/-- No block that is open is the array. -/
def Apart (x : Exchange) (levels : Tree.Stack) : Prop :=
  ∀ level ∈ levels, level.1 ≠ x.opener

lemma Apart.grows (h : x.Apart levels) (ht : t ≠ x.opener)
    (hgrows : Tree.Grows f levels t f' levels') : x.Apart levels' := by
  cases hgrows with
  | pass _ => exact h
  | finish _ => exact h
  | close opener outer lower _ hlevels _ =>
    subst hlevels
    exact (List.forall_mem_cons.1 h).2
  | opens header _ _ => exact List.forall_mem_cons.2 ⟨ht, h⟩
  | single header _ _ _ => exact h

/-- The tokens before the assignment. -/
lemma readOn_before (ha : a.kind = .assign) (hbefore : ∀ t ∈ before, t ≠ x.opener)
    (hlevels : x.Apart levels)
    (h : Tree.readOn f levels ([a] ++ (x.old ++ after)) before = .ok (f', levels')) :
    Tree.readOn (x.frame f) (x.stack levels)
        ([x.relabeling.token a] ++ (x.tokens ++ after.map x.relabeling.token))
        (before.map x.relabeling.token)
      = .ok (x.frame f', x.stack levels') ∧ x.Apart levels' := by
  induction before generalizing f levels with
  | nil =>
    cases h
    exact ⟨rfl, hlevels⟩
  | cons t before ih =>
    obtain ⟨ht, hrest⟩ := List.forall_mem_cons.1 hbefore
    rw [Tree.readOn] at h
    cases hstep : Tree.step f levels t (before ++ ([a] ++ (x.old ++ after))) with
    | error fault =>
      rw [hstep] at h
      cases h
    | ok p =>
      rw [hstep] at h
      have hdot := x.dotFollows_eq ha before after
      have hendless := x.isEndless_eq ha before after
      rw [List.map_append, List.map_singleton, List.append_assoc, List.append_assoc]
        at hdot hendless
      have hstep' := x.step_eq hlevels hdot hendless hstep
      rw [List.map_cons, Tree.readOn, hstep']
      exact ih hrest (hlevels.grows x ht (Tree.grows_of_step hstep)) h

/-- What stands in an array is collected in its frame. -/
lemma exists_build_inner {stack : Tree.Stack} (hstack : Tree.newlineEnds stack = false)
    {inner : List Token} (hinner : ∀ t ∈ inner, t ∈ x.inner) (rest : List Token)
    (g : Tree.Frame) : ∃ g', Tree.build g stack (inner ++ rest) = Tree.build g' stack rest := by
  induction inner generalizing g with
  | nil => exact ⟨g, rfl⟩
  | cons t inner ih =>
    obtain ⟨ht, hinner⟩ := List.forall_mem_cons.1 hinner
    have hfirst : ∃ g', Tree.build g stack ([t] ++ (inner ++ rest))
        = Tree.build g' stack (inner ++ rest) := by
      rcases x.inner_kind t ht with hkind | hkind | hkind | hkind
      · exact ⟨_, Tree.Collects.leaf (by rw [hkind]; rfl) g _⟩
      · exact ⟨_, Tree.Collects.leaf (by rw [hkind]; rfl) g _⟩
      · exact ⟨_, Tree.Collects.newline hkind hstack g _⟩
      · have hstep : Tree.step g stack t (inner ++ rest) = .ok (g.endStatement, stack) := by
          simp [Tree.step, hkind]
        refine ⟨g.endStatement, ?_⟩
        rw [List.singleton_append, Tree.build_cons, hstep]
        rfl
    obtain ⟨g', hg'⟩ := hfirst
    obtain ⟨g'', hg''⟩ := ih hinner g'
    exact ⟨g'', hg'.trans hg''⟩

/-- The array makes one block. -/
lemma exists_build_old (h : Tree.build f levels (x.old ++ after) = .ok tree) :
    ∃ statements, Tree.build (f.push (.block x.opener x.closer statements)) levels after
      = .ok tree := by
  have hopen : Tree.step f levels x.opener ((x.inner ++ [x.closer]) ++ after)
      = .ok ({}, (x.opener, f) :: levels) := by
    simp [Tree.step, Tree.place, x.opener_kind, Tree.isCloser, Tree.isBracket]
  have hstack : Tree.newlineEnds ((x.opener, f) :: levels) = false := by
    simp [Tree.newlineEnds, x.opener_kind, Tree.closerOf]
  obtain ⟨g, hg⟩ := x.exists_build_inner hstack (fun t ht => ht) ([x.closer] ++ after) {}
  rw [old, List.cons_append, Tree.build_cons, hopen, List.append_assoc] at h
  have hclose : x.closer.kind = Tree.closerOf x.opener.kind := by
    rw [x.closer_kind, x.opener_kind]
    rfl
  rw [List.singleton_append, Tree.build_cons, Tree.step_of_closer hclose] at hg
  exact ⟨g.statements, hg.symm.trans h⟩

/-- The tokens after the array. -/
lemma build_after (hafter : ∀ t ∈ after, t ≠ x.opener) (hlevels : x.Apart levels)
    (h : Tree.build f levels after = .ok tree) :
    Tree.build (x.frame f) (x.stack levels) (after.map x.relabeling.token)
      = .ok (x.body tree) := by
  induction after generalizing f levels with
  | nil =>
    cases levels with
    | nil =>
      cases h
      exact congrArg Except.ok (x.statements_frame f)
    | cons level lower => cases h
  | cons t after ih =>
    obtain ⟨ht, hrest⟩ := List.forall_mem_cons.1 hafter
    rw [Tree.build_cons] at h
    cases hstep : Tree.step f levels t after with
    | error fault =>
      rw [hstep] at h
      cases h
    | ok p =>
      rw [hstep] at h
      have hstep' := x.step_eq hlevels (x.relabeling.dotFollows_map after)
        (x.relabeling.isEndless_map after) hstep
      rw [List.map_cons, Tree.build_cons, hstep']
      exact ih hrest (hlevels.grows x ht (Tree.grows_of_step hstep)) h

/-- The tree of the new tokens is the old one with the value exchanged. -/
lemma ofTokens_eq (ha : a.kind = .assign) (hbefore : ∀ t ∈ before, t ≠ x.opener)
    (hafter : ∀ t ∈ after, t ≠ x.opener)
    (h : Tree.ofTokens (before ++ ([a] ++ (x.old ++ after))) = .ok tree) :
    Tree.ofTokens (before.map x.relabeling.token
        ++ ([x.relabeling.token a] ++ (x.tokens ++ after.map x.relabeling.token)))
      = .ok (x.body tree) := by
  obtain ⟨f, levels, hread, hrest⟩ := Tree.exists_readOn h
  obtain ⟨hread', hlevels⟩ := x.readOn_before ha hbefore (List.forall_mem_nil _) hread
  have hassign : ∀ (g : Tree.Frame) (stack : Tree.Stack) (b : Token) (rest : List Token),
      b.kind = .assign →
      Tree.build g stack ([b] ++ rest) = Tree.build (g.push (.leaf b)) stack rest := by
    intro g stack b rest hb
    exact Tree.Collects.leaf (by rw [hb]; rfl) g rest
  rw [hassign _ _ _ _ ha] at hrest
  obtain ⟨statements, hbuild⟩ := x.exists_build_old hrest
  have hblock : x.frame ((f.push (.leaf a)).push (.block x.opener x.closer statements))
      = { (x.frame f).push (.leaf (x.relabeling.token a)) with
          current := x.nodes.reverse
            ++ ((x.frame f).push (.leaf (x.relabeling.token a))).current } := by
    have hcurrent := x.current_push (f.push (.leaf a)) (.block x.opener x.closer statements)
    rw [node, if_pos rfl, frame_leaf] at hcurrent
    rw [← hcurrent]
    rfl
  rw [Tree.ofTokens, Tree.build_append, ← x.frame_empty false]
  change (Tree.readOn _ (x.stack []) _ _).bind _ = _
  rw [hread']
  change Tree.build (x.frame f) (x.stack levels) _ = _
  rw [hassign _ _ _ _ (by rw [Relabeling.kind_token, ha]), x.collects, ← hblock]
  exact x.build_after hafter hlevels hbuild

end Build

end Exchange

end TablePack
