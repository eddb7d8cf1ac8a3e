import Mathlib.Tactic
import TablePack.Proofs.Flatten

/-!
# How a tree grows

What a list of tokens adds to the tree, whatever comes after it: `Collects` is about tokens that add
nodes to the statement at hand, and `Completes` about tokens that make up a whole statement. Both
are closed under putting lists of tokens one after another, so the tree of a text can be read off
the way in which the text is written.

* `Tree.Collects.block`: a bracketed list;
* `Tree.Collects.completes`: a line that is a statement;
* `Tree.ofTokens_module`: the tree of a module.
-/

namespace TablePack

open Token (Kind)

namespace Tree

/-- The kinds of tokens that neither open nor close nor separate anything. -/
def isPlain : Kind → Bool
  | .newline | .semi | .lparen | .rparen | .rbracket | .indexBracket | .arrayBracket => false
  | .lbrace | .rbrace | .keyword _ => false
  | _ => true

variable {stack : Stack}

/-- Tokens that add nodes to the current statement. -/
def Collects (stack : Stack) (ts : List Token) (nodes : List Node) : Prop :=
  ∀ f after, build f stack (ts ++ after)
    = build { f with current := nodes.reverse ++ f.current } stack after

namespace Collects

variable {ts us : List Token} {nodes others : List Node}

lemma nil (stack : Stack) : Collects stack [] [] := by
  intro f after
  rfl

lemma append (h : Collects stack ts nodes) (h' : Collects stack us others) :
    Collects stack (ts ++ us) (nodes ++ others) := by
  intro f after
  rw [List.append_assoc, h, h', List.reverse_append, List.append_assoc]

lemma leaf {t : Token} (ht : isPlain t.kind) : Collects stack [t] [.leaf t] := by
  intro f after
  have hstep : step f stack t after = .ok (f.push (.leaf t), stack) := by
    obtain ⟨kind, start, text⟩ := t
    cases kind <;> first | rfl | cases ht
  rw [List.singleton_append, build, hstep]
  rfl

/-- Inside of square brackets a newline is passed over. -/
lemma newline {t : Token} (ht : t.kind = .newline) (hstack : newlineEnds stack = false) :
    Collects stack [t] [] := by
  intro f after
  have hstep : step f stack t after = .ok (f, stack) := by
    simp [step, ht, hstack]
  rw [List.singleton_append, build, hstep]
  rfl

/-- The tokens of a line, or those inside of square brackets. -/
lemma leaves (ts : List Token) (hts : ∀ t ∈ ts, isPlain t.kind ∨ t.kind = .newline ∧
      newlineEnds stack = false) :
    Collects stack ts ((ts.filter fun t => t.kind != .newline).map .leaf) := by
  induction ts with
  | nil => exact nil stack
  | cons t ts ih =>
    obtain ⟨ht, hrest⟩ := List.forall_mem_cons.1 hts
    rcases ht with ht | ⟨ht, hstack⟩
    · have hne : t.kind ≠ .newline := by
        intro hnl
        rw [hnl] at ht
        cases ht
      rw [List.filter_cons_of_pos (by simpa using hne), List.map_cons]
      exact (leaf ht).append (ih hrest)
    · rw [List.filter_cons_of_neg (by simp [ht])]
      exact (newline ht hstack).append (ih hrest)

/-- Brackets make a block of what stands between them. -/
lemma block {opener closer : Token} (hopener : isBracket opener.kind)
    (hcloser : closerOf opener.kind = closer.kind) (hne : nodes ≠ [])
    (h : ∀ f, Collects ((opener, f) :: stack) ts nodes) :
    Collects stack (opener :: (ts ++ [closer])) [.block opener closer [nodes]] := by
  intro f after
  have hopen : step f stack opener (ts ++ closer :: after) = .ok ({}, (opener, f) :: stack) := by
    obtain ⟨kind, start, text⟩ := opener
    cases kind <;> first | rfl | cases hopener
  have hstatements : ({ current := nodes.reverse } : Frame).statements = [nodes] := by
    simp [Frame.statements, Frame.flushed, hne]
  rw [List.cons_append, List.append_assoc, List.singleton_append, build, hopen]
  simp only
  rw [h, build, List.append_nil, step_of_closer hcloser.symm]
  simp only [hstatements]
  rfl

end Collects

/-- Tokens that make up a statement. -/
def Completes (stack : Stack) (ts : List Token) (statement : Statement) : Prop :=
  ∀ done after, dotFollows after = false →
    build ⟨false, done, []⟩ stack (ts ++ after) = build ⟨false, statement :: done, []⟩ stack after

/-- A newline completes a statement, unless the line goes on. -/
lemma Collects.completes {ts : List Token} {nodes : List Node} {last : Node} {nl : Token}
    (h : Collects stack ts (nodes ++ [last])) (hlast : last.kind?.any continuesLine = false)
    (hnl : nl.kind = .newline) (hstack : newlineEnds stack) :
    Completes stack (ts ++ [nl]) (nodes ++ [last]) := by
  intro done after hafter
  have hcontinues : Frame.continues ⟨false, done, last :: nodes.reverse⟩ = false := hlast
  have hstep : step ⟨false, done, last :: nodes.reverse⟩ stack nl after
      = .ok (⟨false, (nodes ++ [last]) :: done, []⟩, stack) := by
    simp [step, hnl, hstack, hcontinues, hafter, Frame.endStatement, Frame.flushed]
  rw [List.append_assoc, h, List.singleton_append, build, List.append_nil, List.reverse_append,
    List.reverse_singleton, List.singleton_append, hstep]

/-- Whether tokens start with one that goes on with the line before. -/
lemma dotFollows_cons {t : Token} (ts : List Token) (hnl : t.kind ≠ .newline)
    (hdot : t.kind ≠ .dot) : dotFollows (t :: ts) = false := by
  rw [dotFollows, List.find?_cons_of_pos (by simpa using hnl)]
  simpa using hdot

/-- Lines, each with its statement. -/
lemma build_lines {lines : List (List Token × Statement)} {after : List Token}
    (hlines : ∀ l ∈ lines, Completes stack l.1 l.2)
    (hhead : ∀ l ∈ lines, ∃ t ts, l.1 = t :: ts ∧ t.kind ≠ .newline ∧ t.kind ≠ .dot)
    (hafter : dotFollows after = false) (done : List Statement) :
    build ⟨false, done, []⟩ stack (lines.flatMap Prod.fst ++ after)
      = build ⟨false, (lines.map Prod.snd).reverse ++ done, []⟩ stack after := by
  induction lines generalizing done with
  | nil => rfl
  | cons line lines ih =>
    obtain ⟨hline, hlines⟩ := List.forall_mem_cons.1 hlines
    obtain ⟨-, hhead⟩ := List.forall_mem_cons.1 hhead
    -- the next line, or what comes after the last one, does not go on with this one
    have hnext : dotFollows (lines.flatMap Prod.fst ++ after) = false := by
      cases lines with
      | nil => exact hafter
      | cons next lines =>
        obtain ⟨t, ts, hts, hnl, hdot⟩ := hhead next List.mem_cons_self
        rw [List.flatMap_cons, hts]
        exact dotFollows_cons _ hnl hdot
    rw [List.flatMap_cons, List.append_assoc, hline _ _ hnext, ih hlines hhead, List.map_cons,
      List.reverse_cons, List.append_assoc]
    rfl

/-- A module whose lines are statements. -/
lemma ofTokens_module {opener closer nl : Token} (hopener : opener.kind = .keyword .module_)
    (hcloser : closer.kind = .keyword .end_) (hnl : nl.kind = .newline)
    {lines : List (List Token × Statement)}
    (hlines : ∀ l ∈ lines, Completes [(opener, {})] l.1 l.2)
    (hhead : ∀ l ∈ lines, ∃ t ts, l.1 = t :: ts ∧ t.kind ≠ .newline ∧ t.kind ≠ .dot) :
    ofTokens (opener :: (lines.flatMap Prod.fst ++ [closer, nl]))
      = .ok [[.block opener closer (lines.map Prod.snd)]] := by
  have hopen : ∀ after, step {} [] opener after = .ok ({}, [(opener, {})]) := by
    intro after
    simp [step, place, hopener, isCloser, isBracket, opensBlock, opensLoop]
  have hclose : step ⟨false, (lines.map Prod.snd).reverse, []⟩ [(opener, {})] closer [nl]
      = .ok ({ current := [.block opener closer (lines.map Prod.snd)] }, []) := by
    simp [step, hcloser, isCloser, hopener, closerOf, Frame.statements, Frame.flushed, Frame.push]
  have hend : step { current := [.block opener closer (lines.map Prod.snd)] } [] nl []
      = .ok (⟨false, [[.block opener closer (lines.map Prod.snd)]], []⟩, []) := by
    simp [step, hnl, newlineEnds, Frame.continues, Node.kind?, dotFollows, Frame.endStatement,
      Frame.flushed]
  have hafter : dotFollows [closer, nl] = false :=
    dotFollows_cons _ (by simp [hcloser]) (by simp [hcloser])
  have hbuild := build_lines hlines hhead hafter []
  rw [ofTokens, build, hopen]
  change build ⟨false, [], []⟩ [(opener, {})] (lines.flatMap Prod.fst ++ [closer, nl]) = _
  rw [hbuild, List.append_nil, build, hclose]
  simp only
  rw [build, hend]
  rfl

end Tree

end TablePack
