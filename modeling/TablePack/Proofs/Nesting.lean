import Mathlib.Tactic
import TablePack.Proofs.Flatten
import TablePack.Proofs.Stream

/-!
# The nesting of trees

What a token may be in a tree is a matter of its kind: separators are not kept, brackets and closing
tokens bound blocks, and only the other kinds stand for themselves. `Node.Sturdy` says this of a
node and of all nodes below it, together with that no statement is empty. One token that is placed
keeps it (`Grows.sturdy`), hence so does building.

Where the nodes of a tree lie in the text follows from their tokens, which are those of the text in
order. `Tree.Part` are the lists of statements at all depths, and `Tree.ofText_nested` says of each
of them how its nodes follow one another and what their blocks hold.
-/

namespace TablePack

open Token (Kind)

/-! ## The shape of nodes -/

namespace Node

/-- A leaf is no separator, no bracket and no closing token. A block stands between two tokens that
belong together. -/
def Shaped : Node → Prop
  | leaf t => ¬ Tree.isSeparator t.kind ∧ ¬ Tree.isBracket t.kind ∧ ¬ Tree.isCloser t.kind
  | block opener closer _ => Tree.Bounds opener.kind closer.kind

/-- A node that is shaped as it should be, with all nodes below it, and without empty statements. -/
inductive Sturdy : Node → Prop
  | leaf {t : Token} : (leaf t).Shaped → Sturdy (leaf t)
  | block {opener closer : Token} {body : List Statement} : (block opener closer body).Shaped →
      (∀ statement ∈ body, statement ≠ []) →
      (∀ statement ∈ body, ∀ node ∈ statement, Sturdy node) → Sturdy (block opener closer body)

lemma Sturdy.shaped {node : Node} (h : node.Sturdy) : node.Shaped := by
  cases h with
  | leaf h => exact h
  | block h _ _ => exact h

/-! ## The tokens of nodes -/

lemma statementTokens_eq_flatMap (statement : Statement) :
    statementTokens statement = statement.flatMap tokens := by
  induction statement with
  | nil => rw [statementTokens, List.flatMap_nil]
  | cons node nodes ih => rw [statementTokens, ih, List.flatMap_cons]

lemma bodyTokens_eq_flatMap (body : List Statement) :
    bodyTokens body = body.flatten.flatMap tokens := by
  induction body with
  | nil => rw [bodyTokens, List.flatten_nil, List.flatMap_nil]
  | cons statement statements ih =>
    rw [bodyTokens, ih, statementTokens_eq_flatMap, List.flatten_cons, List.flatMap_append]

lemma tokens_sublist_bodyTokens {node : Node} {body : List Statement} (h : node ∈ body.flatten) :
    node.tokens.Sublist (bodyTokens body) := by
  rw [bodyTokens_eq_flatMap, List.flatMap]
  exact List.sublist_flatten_of_mem (List.mem_map_of_mem h)

/-- Tokens that stand one after another, none of them empty. -/
structure Sequenced (tokens : List Token) : Prop where
  ne_nil : ∀ t ∈ tokens, t.text ≠ []
  ordered : tokens.Pairwise fun a b => a.stop ≤ b.start

lemma Sequenced.sublist {some tokens : List Token} (h : Sequenced tokens)
    (hsub : some.Sublist tokens) : Sequenced some :=
  ⟨fun t ht => h.ne_nil t (hsub.subset ht), h.ordered.sublist hsub⟩

/-- A block takes its opener, its body and its closer from tokens in order. -/
lemma Sequenced.block {opener closer : Token} {body : List Statement}
    (h : Sequenced (block opener closer body).tokens) :
    opener.start < opener.stop ∧ closer.start < closer.stop ∧ opener.stop ≤ closer.start ∧
      ∀ t ∈ bodyTokens body, opener.stop ≤ t.start ∧ t.stop ≤ closer.start := by
  rw [tokens] at h
  obtain ⟨hopener, hrest⟩ := List.pairwise_cons.1 h.ordered
  obtain ⟨-, -, hcloser⟩ := List.pairwise_append.1 hrest
  refine ⟨Token.start_lt_stop (h.ne_nil opener (by simp)),
    Token.start_lt_stop (h.ne_nil closer (by simp)), hopener closer (by simp), fun t ht => ?_⟩
  exact ⟨hopener t (by simp [ht]), hcloser t ht closer (by simp)⟩

/-- A node spans some text where its tokens do. -/
lemma Sequenced.start_lt_stop {node : Node} (h : Sequenced node.tokens) :
    node.start < node.stop := by
  cases node with
  | leaf t => exact Token.start_lt_stop (h.ne_nil t (by simp [tokens]))
  | block opener closer body =>
    obtain ⟨hopener, hcloser, hle, -⟩ := h.block
    exact hopener.trans_le (hle.trans hcloser.le)

end Node

/-! ## Building -/

namespace Tree

/-- What is collected in a frame is sturdy, and no statement of it is empty. -/
structure Frame.Sturdy (f : Frame) : Prop where
  done_ne_nil : ∀ statement ∈ f.done, statement ≠ []
  done : ∀ statement ∈ f.done, ∀ node ∈ statement, node.Sturdy
  current : ∀ node ∈ f.current, node.Sturdy

lemma Frame.Sturdy.empty (header : Bool) : ({ header := header } : Frame).Sturdy :=
  ⟨by simp, by simp, by simp⟩

lemma Frame.Sturdy.push {f : Frame} (h : f.Sturdy) {node : Node} (hnode : node.Sturdy)
    (header : Bool) : ({ f.push node with header := header } : Frame).Sturdy :=
  ⟨h.done_ne_nil, h.done, List.forall_mem_cons.2 ⟨hnode, h.current⟩⟩

lemma Frame.Sturdy.flushed {f : Frame} (h : f.Sturdy) :
    (∀ statement ∈ f.flushed, statement ≠ []) ∧
      ∀ statement ∈ f.flushed, ∀ node ∈ statement, node.Sturdy := by
  unfold Frame.flushed
  split_ifs with hcurrent
  · exact ⟨h.done_ne_nil, h.done⟩
  · rw [List.isEmpty_iff] at hcurrent
    refine ⟨List.forall_mem_cons.2 ⟨by simpa using hcurrent, h.done_ne_nil⟩,
      List.forall_mem_cons.2 ⟨fun node hnode => ?_, h.done⟩⟩
    exact h.current node (List.mem_reverse.1 hnode)

lemma Frame.Sturdy.statements {f : Frame} (h : f.Sturdy) :
    (∀ statement ∈ f.statements, statement ≠ []) ∧
      ∀ statement ∈ f.statements, ∀ node ∈ statement, node.Sturdy := by
  simpa only [Frame.statements, List.mem_reverse] using h.flushed

lemma Frame.Sturdy.endStatement {f : Frame} (h : f.Sturdy) : f.endStatement.Sturdy :=
  ⟨h.flushed.1, h.flushed.2, by simp [Frame.endStatement]⟩

/-- The blocks that are open have openers that may open them, around sturdy frames. -/
def SturdyStack (stack : Stack) : Prop := ∀ level ∈ stack, CanOpen level.1.kind ∧ level.2.Sturdy

/-- Placing a token keeps the shape of what is collected. -/
lemma Grows.sturdy {f f' : Frame} {stack stack' : Stack} {t : Token} (h : Grows f stack t f' stack')
    (hf : f.Sturdy) (hstack : SturdyStack stack) : f'.Sturdy ∧ SturdyStack stack' := by
  cases h with
  | pass _ => exact ⟨hf, hstack⟩
  | finish _ => exact ⟨hf.endStatement, hstack⟩
  | close opener outer levels _ hs hkind =>
    subst hs
    obtain ⟨⟨hopener, houter⟩, hlevels⟩ := List.forall_mem_cons.1 hstack
    have hbounds : Bounds opener.kind t.kind := bounds_iff.2 ⟨hopener, hkind⟩
    exact ⟨houter.push (.block hbounds hf.statements.1 hf.statements.2) outer.header, hlevels⟩
  | opens header _ hopens =>
    exact ⟨.empty header, List.forall_mem_cons.2 ⟨⟨hopens, hf⟩, hstack⟩⟩
  | single header hs hb hc => exact ⟨hf.push (.leaf ⟨hs, hb, hc⟩) header, hstack⟩

lemma sturdy_of_build {f : Frame} {stack : Stack} {ts : List Token} {tree : List Statement}
    (h : build f stack ts = .ok tree) (hf : f.Sturdy) (hstack : SturdyStack stack) :
    (∀ statement ∈ tree, statement ≠ []) ∧
      ∀ statement ∈ tree, ∀ node ∈ statement, node.Sturdy := by
  induction ts generalizing f stack with
  | nil =>
    cases stack with
    | nil =>
      cases h
      exact hf.statements
    | cons level levels => cases h
  | cons t after ih =>
    rw [build] at h
    cases hstep : step f stack t after with
    | error fault => simp [hstep] at h
    | ok next =>
      rw [hstep] at h
      obtain ⟨hf', hstack'⟩ := (grows_of_step hstep).sturdy hf hstack
      exact ih h hf' hstack'

/-! ## All depths -/

/-- The lists of statements in a tree: the whole of it, and the body of every block in one of
them. -/
inductive Part (tree : List Statement) : List Statement → Prop
  | whole : Part tree tree
  | body {outer inner : List Statement} {opener closer : Token} : Part tree outer →
      .block opener closer inner ∈ outer.flatten → Part tree inner

lemma Part.sturdy {tree body : List Statement} (h : Part tree body)
    (hne : ∀ statement ∈ tree, statement ≠ [])
    (hnodes : ∀ statement ∈ tree, ∀ node ∈ statement, node.Sturdy) :
    (∀ statement ∈ body, statement ≠ []) ∧
      ∀ statement ∈ body, ∀ node ∈ statement, node.Sturdy := by
  induction h with
  | whole => exact ⟨hne, hnodes⟩
  | body _ hmem ih =>
    obtain ⟨statement, hs, hblock⟩ := List.mem_flatten.1 hmem
    cases ih.2 statement hs _ hblock with
    | block _ hinner hsturdy => exact ⟨hinner, hsturdy⟩

lemma Part.sublist {tree body : List Statement} (h : Part tree body) :
    (Node.bodyTokens body).Sublist (Node.bodyTokens tree) := by
  induction h with
  | whole => exact List.Sublist.refl _
  | @body outer inner opener closer _ hmem ih =>
    refine List.Sublist.trans ?_ ((Node.tokens_sublist_bodyTokens hmem).trans ih)
    rw [Node.tokens]
    exact (List.sublist_append_left _ _).cons _

/-- How a list of statements lies in the text. Its nodes are shaped as they should be, no statement
is empty, the nodes follow one another, and the nodes inside a block lie between its opener and its
closer. -/
structure Nested (body : List Statement) : Prop where
  ne_nil : ∀ statement ∈ body, statement ≠ []
  shaped : ∀ node ∈ body.flatten, node.Shaped
  spans : ∀ node ∈ body.flatten, node.start < node.stop
  ordered : body.flatten.Pairwise fun a b => a.start < b.start ∧ a.stop ≤ b.start
  inside : ∀ {opener closer : Token} {inner : List Statement},
    .block opener closer inner ∈ body.flatten →
      ∀ node ∈ inner.flatten, opener.start < node.start ∧ node.stop < closer.stop

/-- Nodes follow one another where their tokens do. -/
lemma ordered_of_sequenced {body : List Statement} (h : Node.Sequenced (Node.bodyTokens body)) :
    body.flatten.Pairwise fun a b => a.start < b.start ∧ a.stop ≤ b.start := by
  have hordered := h.ordered
  rw [Node.bodyTokens_eq_flatMap] at hordered
  refine (List.pairwise_flatMap.1 hordered).2.imp_of_mem fun {a b} ha hb hab => ?_
  obtain ⟨ts, last, hlast, hstop⟩ := a.exists_tokens_eq_concat
  obtain ⟨first, us, hfirst, hstart⟩ := b.exists_tokens_eq_cons
  have hle : a.stop ≤ b.start := by
    rw [← hstop, ← hstart]
    exact hab last (by simp [hlast]) first (by simp [hfirst])
  have hspan : a.start < a.stop := (h.sublist (Node.tokens_sublist_bodyTokens ha)).start_lt_stop
  exact ⟨hspan.trans_le hle, hle⟩

/-- The nodes inside a block lie between its opener and its closer. -/
lemma inside_of_sequenced {opener closer : Token} {inner : List Statement}
    (h : Node.Sequenced (Node.block opener closer inner).tokens) :
    ∀ node ∈ inner.flatten, opener.start < node.start ∧ node.stop < closer.stop := by
  intro node hnode
  obtain ⟨hopener, hcloser, -, hbetween⟩ := h.block
  obtain ⟨first, us, hfirst, hstart⟩ := node.exists_tokens_eq_cons
  obtain ⟨ts, last, hlast, hstop⟩ := node.exists_tokens_eq_concat
  have hsub := (Node.tokens_sublist_bodyTokens hnode).subset
  have hlow := (hbetween first (hsub (by simp [hfirst]))).1
  have hhigh := (hbetween last (hsub (by simp [hlast]))).2
  rw [← hstart, ← hstop]
  exact ⟨hopener.trans_le hlow, hhigh.trans_lt hcloser⟩

/-- A tree is its tokens. Read from left to right, its tokens are those of the text without the ones
that separate statements. At every depth no statement is empty, the nodes of all statements follow
one another in the text, leaves and blocks have the kinds of tokens that they should have, and the
nodes of a block lie inside it. -/
theorem ofText_nested {source : Text} {tree : List Statement} (h : ofText source = .ok tree) :
    ∃ tokens, Token.lex source = .ok tokens ∧
      Node.bodyTokens tree = tokens.filter (fun t => !isSeparator t.kind) ∧
      ∀ body, Part tree body → Nested body := by
  rw [ofText] at h
  cases hlex : Token.lex source with
  | error fault => simp [hlex] at h
  | ok tokens =>
    rw [hlex] at h
    have hflat := bodyTokens_of_ofTokens h
    obtain ⟨hne, hnodes⟩ := sturdy_of_build h (.empty false) (by simp [SturdyStack])
    obtain ⟨hstream, -⟩ := Token.stream_of_lex hlex
    have htree : Node.Sequenced (Node.bodyTokens tree) :=
      Node.Sequenced.sublist ⟨hstream.ne_nil, hstream.ordered⟩ (hflat ▸ List.filter_sublist)
    refine ⟨tokens, rfl, hflat, fun body hpart => ?_⟩
    obtain ⟨hbody, hsturdy⟩ := hpart.sturdy hne hnodes
    have hseq := htree.sublist hpart.sublist
    have hnode : ∀ node ∈ body.flatten, Node.Sequenced node.tokens := fun node hmem =>
      hseq.sublist (Node.tokens_sublist_bodyTokens hmem)
    refine ⟨hbody, fun node hmem => ?_, fun node hmem => (hnode node hmem).start_lt_stop,
      ordered_of_sequenced hseq, fun hmem => inside_of_sequenced (hnode _ hmem)⟩
    obtain ⟨statement, hs, hin⟩ := List.mem_flatten.1 hmem
    exact (hsturdy statement hs node hin).shaped

/-- A condition with an array in it, over two lines. -/
theorem ofText_nested_condition :
    ∃ tokens, Token.lex "if a then [(1,\n)] end\n".toList = .ok tokens ∧
      [⟨.keyword .if_, 0, "if".toList⟩, ⟨.ident, 3, ['a']⟩, ⟨.keyword .then_, 5, "then".toList⟩,
        ⟨.arrayBracket, 10, ['[']⟩, ⟨.lparen, 11, ['(']⟩, ⟨.int, 12, ['1']⟩, ⟨.comma, 13, [',']⟩,
        ⟨.rparen, 15, [')']⟩, ⟨.rbracket, 16, [']']⟩, ⟨.keyword .end_, 18, "end".toList⟩]
        = tokens.filter (fun t => !isSeparator t.kind) ∧
      Nested [[.block ⟨.lparen, 11, ['(']⟩ ⟨.rparen, 15, [')']⟩
        [[.leaf ⟨.int, 12, ['1']⟩, .leaf ⟨.comma, 13, [',']⟩]]]] := by
  have hlex : Token.lex "if a then [(1,\n)] end\n".toList
      = .ok [⟨.keyword .if_, 0, "if".toList⟩, ⟨.ident, 3, ['a']⟩,
        ⟨.keyword .then_, 5, "then".toList⟩,
        ⟨.arrayBracket, 10, ['[']⟩, ⟨.lparen, 11, ['(']⟩, ⟨.int, 12, ['1']⟩, ⟨.comma, 13, [',']⟩,
        ⟨.newline, 14, ['\n']⟩, ⟨.rparen, 15, [')']⟩, ⟨.rbracket, 16, [']']⟩,
        ⟨.keyword .end_, 18, "end".toList⟩, ⟨.newline, 21, ['\n']⟩] := by
    decide +kernel
  obtain ⟨tokens, htokens, hflat, hnested⟩ := @ofText_nested "if a then [(1,\n)] end\n".toList
    [[.block ⟨.keyword .if_, 0, "if".toList⟩ ⟨.keyword .end_, 18, "end".toList⟩
      [[.leaf ⟨.ident, 3, ['a']⟩, .leaf ⟨.keyword .then_, 5, "then".toList⟩,
        .block ⟨.arrayBracket, 10, ['[']⟩ ⟨.rbracket, 16, [']']⟩
          [[.block ⟨.lparen, 11, ['(']⟩ ⟨.rparen, 15, [')']⟩
            [[.leaf ⟨.int, 12, ['1']⟩, .leaf ⟨.comma, 13, [',']⟩]]]]]]]]
    (by rw [ofText, hlex]; rfl)
  exact ⟨tokens, htokens, hflat,
    hnested _ (.body (.body .whole (.head _)) (.tail _ (.tail _ (.head _))))⟩

end Tree

end TablePack
