import Mathlib.Tactic
import TablePack.Tree.Build

/-!
# Trees keep their tokens

Building a tree only groups tokens. The tokens of a tree, read from left to right, are the tokens it
was built from without the ones that separate statements, and every block ends with the token that
closes its opener. `Tree.Grows` says what one token can do to the frames that are open, with the
tokens collected so far as the quantity to follow; the theorems about whole trees are inductions on
it.

* `Tree.bodyTokens_of_ofTokens`: the tokens of a tree;
* `Tree.matched_of_ofTokens`: the blocks of a tree.
-/

namespace TablePack

open Token (Kind)

namespace Node

@[simp] lemma statementTokens_append (a b : List Node) :
    statementTokens (a ++ b) = statementTokens a ++ statementTokens b := by
  induction a with
  | nil => simp [statementTokens]
  | cons node nodes ih => simp [statementTokens, ih]

@[simp] lemma bodyTokens_append (a b : List Statement) :
    bodyTokens (a ++ b) = bodyTokens a ++ bodyTokens b := by
  induction a with
  | nil => simp [bodyTokens]
  | cons statement statements ih => simp [bodyTokens, ih]

/-- The first token of a node starts where the node starts. -/
lemma exists_tokens_eq_cons (node : Node) :
    ∃ t ts, node.tokens = t :: ts ∧ t.start = node.start := by
  cases node with
  | leaf token => exact ⟨token, [], by simp [tokens], rfl⟩
  | block opener closer body => exact ⟨opener, _, by simp only [tokens]; rfl, rfl⟩

/-- The last token of a node stops where the node stops. -/
lemma exists_tokens_eq_concat (node : Node) :
    ∃ ts t, node.tokens = ts ++ [t] ∧ t.stop = node.stop := by
  cases node with
  | leaf token => exact ⟨[], token, by simp [tokens], rfl⟩
  | block opener closer body =>
    exact ⟨opener :: bodyTokens body, closer, by simp [tokens], rfl⟩

mutual

/-- Every block of a node ends with the kind of token that closes its opener. -/
def Matched : Node → Prop
  | leaf _ => True
  | block opener closer body => closer.kind = Tree.closerOf opener.kind ∧ BodyMatched body

/-- Every block of a statement is matched. -/
def StatementMatched : List Node → Prop
  | [] => True
  | node :: nodes => Matched node ∧ StatementMatched nodes

/-- Every block of a list of statements is matched. -/
def BodyMatched : List (List Node) → Prop
  | [] => True
  | statement :: statements => StatementMatched statement ∧ BodyMatched statements

end

@[simp] lemma statementMatched_append (a b : List Node) :
    StatementMatched (a ++ b) ↔ StatementMatched a ∧ StatementMatched b := by
  induction a with
  | nil => simp [StatementMatched]
  | cons node nodes ih => simp [StatementMatched, ih, and_assoc]

@[simp] lemma bodyMatched_append (a b : List Statement) :
    BodyMatched (a ++ b) ↔ BodyMatched a ∧ BodyMatched b := by
  induction a with
  | nil => simp [BodyMatched]
  | cons statement statements ih => simp [BodyMatched, ih, and_assoc]

end Node

namespace Tree

/-- The kinds of tokens that separate statements. -/
def isSeparator (k : Kind) : Bool := k == .newline || k == .semi

/-- The kinds of tokens that open a block: the brackets, and the keywords that do so in some
place. -/
def CanOpen (k : Kind) : Prop :=
  isBracket k ∨ ∃ word before after, k = .keyword word ∧ opensBlock word before after

/-- The keywords that open a block in some place. -/
def blockWords : List Keyword :=
  [.module_, .class_, .def_, .begin_, .case_, .if_, .unless_, .while_, .until_, .for_, .do_]

/-- The kinds of the tokens between which a block stands. -/
inductive Bounds : Kind → Kind → Prop
  | parens : Bounds .lparen .rparen
  | index : Bounds .indexBracket .rbracket
  | array : Bounds .arrayBracket .rbracket
  | braces : Bounds .lbrace .rbrace
  | words {word : Keyword} : word ∈ blockWords → Bounds (.keyword word) (.keyword .end_)

lemma canOpen_of_mem_blockWords {word : Keyword} (h : word ∈ blockWords) :
    CanOpen (.keyword word) := by
  refine .inr ⟨word, [], [], rfl, ?_⟩
  have hall : ∀ word ∈ blockWords, opensBlock word [] [] := by decide
  exact hall word h

lemma mem_blockWords_of_opensBlock {word : Keyword} {before : List Node} {after : List Token}
    (h : opensBlock word before after) : word ∈ blockWords := by
  cases word <;> first | decide | cases h

/-- Blocks stand between an opener and the closer that it asks for. -/
lemma bounds_iff {k k' : Kind} : Bounds k k' ↔ CanOpen k ∧ k' = closerOf k := by
  constructor
  · rintro (_ | _ | _ | _ | hword)
    · exact ⟨.inl rfl, rfl⟩
    · exact ⟨.inl rfl, rfl⟩
    · exact ⟨.inl rfl, rfl⟩
    · exact ⟨.inl rfl, rfl⟩
    · exact ⟨canOpen_of_mem_blockWords hword, rfl⟩
  · rintro ⟨hbracket | ⟨word, before, after, rfl, hopens⟩, rfl⟩
    · cases k with
      | lparen => exact .parens
      | indexBracket => exact .index
      | arrayBracket => exact .array
      | lbrace => exact .braces
      | _ => cases hbracket
    · exact .words (mem_blockWords_of_opensBlock hopens)

lemma isCloser_closerOf (k : Kind) : isCloser (closerOf k) := by
  unfold closerOf
  split <;> rfl

lemma isSeparator_of_isCloser {k : Kind} (h : isCloser k) : isSeparator k = false := by
  unfold isCloser at h
  split at h <;> first | rfl | cases h

/-! ## What one token does -/

/-- What a token can do to the frame and the stack: separate statements, close the innermost block,
open another one, or stand for itself. -/
inductive Grows (f : Frame) (stack : Stack) (t : Token) : Frame → Stack → Prop
  | pass : isSeparator t.kind → Grows f stack t f stack
  | finish : isSeparator t.kind → Grows f stack t f.endStatement stack
  | close (opener : Token) (outer : Frame) (levels : Stack) : ¬ isSeparator t.kind →
      stack = (opener, outer) :: levels → t.kind = closerOf opener.kind →
      Grows f stack t (outer.push (.block opener t f.statements)) levels
  | opens (header : Bool) : ¬ isSeparator t.kind → CanOpen t.kind →
      Grows f stack t { header := header } ((t, f) :: stack)
  | single (header : Bool) : ¬ isSeparator t.kind → ¬ isBracket t.kind → ¬ isCloser t.kind →
      Grows f stack t { f.push (.leaf t) with header := header } stack

lemma grows_place {f : Frame} {stack : Stack} {t : Token} {after : List Token}
    (hs : ¬ isSeparator t.kind) (hc : ¬ isCloser t.kind) :
    Grows f stack t (place f stack t after).1 (place f stack t after).2 := by
  unfold place
  split_ifs with hb
  · exact .opens false hs (.inl hb)
  · split
    · rename_i k hk
      split_ifs with hdo hopens
      · exact .single false hs hb hc
      · exact .opens _ hs (.inr ⟨k, _, _, hk, hopens⟩)
      · exact .single f.header hs hb hc
    · exact .single f.header hs hb hc

lemma grows_of_step {f f' : Frame} {stack stack' : Stack} {t : Token} {after : List Token}
    (h : step f stack t after = .ok (f', stack')) : Grows f stack t f' stack' := by
  unfold step at h
  split_ifs at h with hn hc hsemi hcl
  · cases h
    exact .finish (by simp [isSeparator, hn])
  · cases h
    exact .pass (by simp [isSeparator, hn])
  · cases h
    exact .finish (by simp [isSeparator, hsemi])
  · have hs : ¬ isSeparator t.kind := by simp [isSeparator, hn, hsemi]
    cases stack with
    | nil => cases h
    | cons level levels =>
      obtain ⟨opener, outer⟩ := level
      dsimp only at h
      split_ifs at h with hm
      cases h
      exact .close opener outer _ hs rfl hm.symm
  · have hs : ¬ isSeparator t.kind := by simp [isSeparator, hn, hsemi]
    injection h with h
    rw [Prod.ext_iff] at h
    obtain ⟨rfl, rfl⟩ := h
    exact grows_place hs hcl

/-- The token that the innermost block asks for closes it. -/
lemma step_of_closer {opener t : Token} (ht : t.kind = closerOf opener.kind) (f outer : Frame)
    (stack : Stack) (after : List Token) :
    step f ((opener, outer) :: stack) t after
      = .ok (outer.push (.block opener t f.statements), stack) := by
  have hcloser : isCloser t.kind := ht ▸ isCloser_closerOf opener.kind
  have hseparator := isSeparator_of_isCloser hcloser
  simp only [isSeparator, Bool.or_eq_false_iff, beq_eq_false_iff_ne] at hseparator
  rw [step, if_neg hseparator.1, if_neg hseparator.2, if_pos hcloser]
  exact if_pos ht.symm

/-! ## The tokens collected -/

lemma bodyTokens_statements (f : Frame) :
    Node.bodyTokens f.statements
      = Node.bodyTokens f.done.reverse ++ Node.statementTokens f.current.reverse := by
  unfold Frame.statements Frame.flushed
  split_ifs with h
  · rw [List.isEmpty_iff] at h
    simp [h, Node.statementTokens]
  · simp [Node.bodyTokens]

lemma bodyTokens_statements_push (f : Frame) (node : Node) (header : Bool) :
    Node.bodyTokens { f.push node with header := header }.statements
      = Node.bodyTokens f.statements ++ node.tokens := by
  rw [bodyTokens_statements, bodyTokens_statements]
  simp [Frame.push, Node.statementTokens]

lemma statements_endStatement (f : Frame) : f.endStatement.statements = f.statements := by
  simp [Frame.statements, Frame.flushed, Frame.endStatement]

/-- The tokens of the blocks that are open, up to and including the innermost opener. -/
def openTokens : Stack → List Token
  | [] => []
  | (opener, outer) :: levels => openTokens levels ++ (Node.bodyTokens outer.statements ++ [opener])

/-- All tokens collected so far. -/
def collected (f : Frame) (stack : Stack) : List Token :=
  openTokens stack ++ Node.bodyTokens f.statements

lemma Grows.collected_eq {f f' : Frame} {stack stack' : Stack} {t : Token}
    (h : Grows f stack t f' stack') :
    collected f' stack' = collected f stack ++ [t].filter fun t => !isSeparator t.kind := by
  cases h with
  | pass hs => simp [hs]
  | finish hs => simp [hs, collected, statements_endStatement]
  | close opener outer levels hs hstack hm =>
    have hpush := bodyTokens_statements_push outer (.block opener t f.statements) outer.header
    simp only [collected, hstack, openTokens]
    rw [show outer.push (.block opener t f.statements)
      = { outer.push (.block opener t f.statements) with header := outer.header } from rfl, hpush]
    simp [Node.tokens, hs]
  | opens header hs _ =>
    simp [collected, openTokens, hs, Frame.statements, Frame.flushed, Node.bodyTokens]
  | single header hs _ _ =>
    simp [collected, bodyTokens_statements_push, hs, Node.tokens]

lemma bodyTokens_of_build {f : Frame} {stack : Stack} {ts : List Token} {body : List Statement}
    (h : build f stack ts = .ok body) :
    Node.bodyTokens body = collected f stack ++ ts.filter fun t => !isSeparator t.kind := by
  induction ts generalizing f stack with
  | nil =>
    cases stack with
    | nil =>
      cases h
      simp [collected, openTokens]
    | cons level levels => cases h
  | cons t after ih =>
    rw [build] at h
    cases hstep : step f stack t after with
    | error fault => simp [hstep] at h
    | ok next =>
      obtain ⟨f', stack'⟩ := next
      rw [hstep] at h
      rw [ih h, (grows_of_step hstep).collected_eq, List.append_assoc, ← List.filter_append,
        List.singleton_append]

/-- A tree has the tokens it was built from, in order, without the separators. -/
theorem bodyTokens_of_ofTokens {tokens : List Token} {body : List Statement}
    (h : ofTokens tokens = .ok body) :
    Node.bodyTokens body = tokens.filter fun t => !isSeparator t.kind := by
  have := bodyTokens_of_build h
  simpa [collected, openTokens, Frame.statements, Frame.flushed, Node.bodyTokens] using this

/-- The tree of a text is that of its tokens. -/
lemma exists_tokens_of_ofText {source : Text} {tree : List Statement}
    (h : ofText source = .ok tree) :
    ∃ tokens, Token.lex source = .ok tokens ∧ ofTokens tokens = .ok tree := by
  rw [ofText] at h
  cases hlex : Token.lex source with
  | error fault => simp [hlex] at h
  | ok tokens =>
    rw [hlex] at h
    exact ⟨tokens, rfl, h⟩

/-! ## Matched blocks -/

/-- The blocks collected in a frame are matched. -/
def Frame.Matched (f : Frame) : Prop :=
  Node.BodyMatched f.done.reverse ∧ Node.StatementMatched f.current.reverse

lemma Frame.Matched.statements {f : Frame} (h : f.Matched) : Node.BodyMatched f.statements := by
  unfold Frame.statements Frame.flushed
  split_ifs with hc
  · exact h.1
  · rw [List.reverse_cons, Node.bodyMatched_append]
    exact ⟨h.1, h.2, trivial⟩

lemma Frame.Matched.push {f : Frame} (h : f.Matched) {node : Node} (hn : node.Matched) :
    (f.push node).Matched := by
  refine ⟨h.1, ?_⟩
  rw [Frame.push, List.reverse_cons, Node.statementMatched_append]
  exact ⟨h.2, hn, trivial⟩

lemma Grows.matched {f f' : Frame} {stack stack' : Stack} {t : Token}
    (h : Grows f stack t f' stack') (hf : f.Matched) (hstack : ∀ level ∈ stack, level.2.Matched) :
    f'.Matched ∧ ∀ level ∈ stack', level.2.Matched := by
  cases h with
  | pass _ => exact ⟨hf, hstack⟩
  | finish _ => exact ⟨⟨hf.statements, trivial⟩, hstack⟩
  | close opener outer levels _ hs hm =>
    subst hs
    refine ⟨(hstack _ List.mem_cons_self).push ⟨hm, hf.statements⟩, fun level hl => ?_⟩
    exact hstack level (List.mem_cons_of_mem _ hl)
  | opens header _ _ =>
    refine ⟨⟨trivial, trivial⟩, ?_⟩
    simpa using ⟨hf, fun a b hab => hstack (a, b) hab⟩
  | single header _ _ _ => exact ⟨hf.push trivial, hstack⟩

lemma matched_of_build {f : Frame} {stack : Stack} {ts : List Token} {body : List Statement}
    (h : build f stack ts = .ok body) (hf : f.Matched) (hstack : ∀ level ∈ stack, level.2.Matched) :
    Node.BodyMatched body := by
  induction ts generalizing f stack with
  | nil =>
    cases stack with
    | nil =>
      cases h
      exact hf.statements
    | cons level levels => cases h
  | cons t after ih =>
    rw [build] at h
    cases hstep : step f stack t after with
    | error fault => simp [hstep] at h
    | ok next =>
      obtain ⟨f', stack'⟩ := next
      rw [hstep] at h
      obtain ⟨hf', hstack'⟩ := (grows_of_step hstep).matched hf hstack
      exact ih h hf' hstack'

/-- Every block of a tree is closed by the token that its opener asks for. -/
theorem matched_of_ofTokens {tokens : List Token} {body : List Statement}
    (h : ofTokens tokens = .ok body) : Node.BodyMatched body :=
  matched_of_build h ⟨trivial, trivial⟩ (by simp)

end Tree

end TablePack
