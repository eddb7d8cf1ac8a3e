import Mathlib.Tactic
import TablePack.Proofs.Located
import TablePack.Proofs.Pieces
import TablePack.Proofs.TreeBuilding

/-!
# Files of setters

A file that consists of a module, in it one statement `self._name = value` after another. A `Setter`
is such a statement with what is known of its value: the pieces it is written in, that they are read
as such, and the nodes that they make up. Then so is the whole file, for setters of any kind.

* `Setter.fitting_file`: the file is read piece by piece;
* `Setter.ofText_file`: its tree;
* `Setter.locate_file`: its tables are those of its setters.
-/

namespace TablePack

open Token (Kind)
open Text (size isNameChar)
open Piece (textOf tokensAt Fitting)

/-! ## Leaves -/

namespace Piece

/-- The leaves of a list of pieces that starts at byte `pos`, without its newlines. -/
def leavesAt (pos : ℕ) (ps : List Piece) : List Node :=
  ((tokensAt pos ps).filter fun t => t.kind != .newline).map .leaf

lemma leavesAt_append (pos : ℕ) (ps qs : List Piece) :
    leavesAt pos (ps ++ qs) = leavesAt pos ps ++ leavesAt (pos + size (textOf ps)) qs := by
  rw [leavesAt, tokensAt_append, List.filter_append, List.map_append, leavesAt, leavesAt]

end Piece

/-! ## Setters -/

/-- A statement that sets a field of the module, on a line of its own. -/
structure Setter where
  indent : ℕ
  /-- The name of the field after its underscore. -/
  stem : Text
  value : List Piece
  /-- The nodes of the value where it starts at a byte offset. -/
  nodes : ℕ → List Node
  isNameChar_stem : ∀ c ∈ stem, isNameChar c
  fitting : ∀ after, Fitting ('\n' :: after) (some .assign) ' ' value
  collects : ∀ pos stack, Tree.Collects stack (tokensAt pos value) (nodes pos)
  exists_last : ∀ pos, ∃ init last, nodes pos = init ++ [last] ∧
    last.kind?.any Tree.continuesLine = false

namespace Setter

open Piece (blanks ident dot assign newline const)

/-- The pieces before the value. -/
def head (l : Setter) : List Piece :=
  [blanks l.indent, ident "self".toList, dot, ident ('_' :: l.stem), blanks 1, assign, blanks 1]

/-- The pieces of a line. -/
def line (l : Setter) : List Piece := l.head ++ (l.value ++ [newline])

/-- The statement where the line starts at a byte offset. -/
def statement (l : Setter) (pos : ℕ) : Statement :=
  (tokensAt pos l.head).map .leaf ++ l.nodes (pos + size (textOf l.head))

/-- The statements of the lines from a byte offset on. -/
def statements (pos : ℕ) : List Setter → List Statement
  | [] => []
  | l :: ls => l.statement pos :: statements (pos + size (textOf l.line)) ls

/-- The pieces of a module with the given lines. -/
def file (ls : List Setter) : List Piece :=
  [⟨some (.keyword .module_), "module".toList⟩, blanks 1, const "Parser".toList, newline]
    ++ (ls.flatMap line ++ [⟨some (.keyword .end_), "end".toList⟩, newline])

lemma textOf_head (l : Setter) :
    textOf l.head
      = List.replicate l.indent ' ' ++ ("self.".toList ++ '_' :: l.stem ++ " = ".toList) := by
  simp [head, blanks, ident, dot, assign]

lemma textOf_line (l : Setter) :
    textOf l.line = List.replicate l.indent ' '
      ++ ("self.".toList ++ '_' :: l.stem ++ " = ".toList ++ textOf l.value ++ ['\n']) := by
  rw [line, Piece.textOf_append, Piece.textOf_append, textOf_head]
  simp [newline]

/-- The text of a file of setters. -/
lemma textOf_file (ls : List Setter) :
    textOf (file ls)
      = "module Parser\n".toList ++ (textOf (ls.flatMap line) ++ "end\n".toList) := by
  rw [file, Piece.textOf_append, Piece.textOf_append]
  rfl

/-! ## Reading -/

lemma fitting_line (l : Setter) (after : Text) : Fitting after (some .newline) '\n' l.line := by
  have hstem := l.isNameChar_stem
  have hself : ∀ d ∈ "elf".toList, isNameChar d := Text.forall_mem_of_all (by decide)
  rw [line, Piece.fitting_append, Piece.fitting_append]
  refine ⟨⟨.blanks _, ?_, .dot (by simp [ident]), ?_, .blanks 1, .assign rfl, .blanks 1, trivial⟩,
    l.fitting after, .newline, trivial⟩
  · have hline : ∀ previous : Char, 's' = '_' → previous ≠ '\n' := fun _ h => absurd h (by decide)
    exact .word (by decide) hself (hline _) (by rintro d ⟨⟩; decide) rfl rfl (by decide)
  · have hline : '_' = '_' → '.' ≠ '\n' := by decide
    exact .word (by decide) hstem hline (by rintro d ⟨⟩; decide) rfl rfl (by decide)

lemma lastKind_line (l : Setter) (last : Option Kind) :
    Piece.lastKind last l.line = some .newline := by
  simp [Piece.lastKind, line, newline]

lemma lastChar_line (l : Setter) (previous : Char) : Piece.lastChar previous l.line = '\n' := by
  simp [Piece.lastChar, line, newline]

lemma fitting_lines (ls : List Setter) (after : Text) :
    Fitting after (some .newline) '\n' (ls.flatMap line) ∧
      Piece.lastKind (some .newline) (ls.flatMap line) = some .newline ∧
      Piece.lastChar '\n' (ls.flatMap line) = '\n' := by
  induction ls with
  | nil => exact ⟨trivial, rfl, rfl⟩
  | cons l ls ih =>
    obtain ⟨hfitting, hlast, hchar⟩ := ih
    refine ⟨?_, ?_, ?_⟩
    · rw [List.flatMap_cons, Piece.fitting_append, lastKind_line, lastChar_line]
      exact ⟨l.fitting_line _, hfitting⟩
    · rw [List.flatMap_cons, Piece.lastKind, List.foldl_append]
      change Piece.lastKind (Piece.lastKind _ l.line) _ = _
      rw [lastKind_line, hlast]
    · rw [List.flatMap_cons, Piece.lastChar, List.foldl_append]
      change Piece.lastChar (Piece.lastChar _ l.line) _ = _
      rw [lastChar_line, hchar]

/-- A file of setters is read piece by piece. -/
lemma fitting_file (ls : List Setter) : Fitting [] none '\n' (file ls) := by
  have hmodule : ∀ d ∈ "odule".toList, isNameChar d := Text.forall_mem_of_all (by decide)
  have hparser : ∀ d ∈ "arser".toList, isNameChar d := Text.forall_mem_of_all (by decide)
  have hend : ∀ d ∈ "nd".toList, isNameChar d := Text.forall_mem_of_all (by decide)
  obtain ⟨hlines, hlast, hchar⟩ :=
    fitting_lines ls (textOf [⟨some (.keyword .end_), "end".toList⟩, newline])
  rw [file, Piece.fitting_append, Piece.fitting_append]
  refine ⟨⟨?_, .blanks 1, ?_, .newline, trivial⟩, ?_, ?_⟩
  · exact .word (by decide) hmodule (by decide) (by rintro d ⟨⟩; decide) rfl rfl (by decide)
  · exact .word (by decide) hparser (by decide) (by rintro d ⟨⟩; decide) rfl rfl (by decide)
  · rw [List.append_nil]
    exact hlines
  · change Fitting [] (Piece.lastKind (some .newline) _) (Piece.lastChar '\n' _) _
    rw [hlast, hchar]
    refine ⟨?_, .newline, trivial⟩
    exact .word (by decide) hend (by decide) (by rintro d ⟨⟩; decide) rfl rfl (by decide)

/-! ## The tree -/

variable {stack : Tree.Stack}

lemma completes_line (l : Setter) (pos : ℕ) (hstack : Tree.newlineEnds stack) :
    Tree.Completes stack (tokensAt pos l.line) (l.statement pos) := by
  have hhead : Tree.Collects stack (tokensAt pos l.head) ((tokensAt pos l.head).map .leaf) := by
    refine Tree.Collects.leaves (tokensAt pos l.head) ?_
    intro t ht
    left
    simp only [head, tokensAt, blanks, ident, dot, assign, Option.map_none, Option.map_some,
      Option.toList_none, Option.toList_some, List.nil_append, List.cons_append, List.mem_cons,
      List.not_mem_nil, or_false] at ht
    rcases ht with rfl | rfl | rfl | rfl <;> rfl
  obtain ⟨init, last, hnodes, hlast⟩ := l.exists_last (pos + size (textOf l.head))
  have hcollects := hhead.append (l.collects (pos + size (textOf l.head)) stack)
  rw [hnodes, ← List.append_assoc] at hcollects
  rw [line, Piece.tokensAt_append, Piece.tokensAt_append, ← List.append_assoc, statement, hnodes,
    ← List.append_assoc]
  exact hcollects.completes hlast rfl hstack

/-- The lines of a file, each with its tokens and its statement. -/
def linesAt (pos : ℕ) : List Setter → List (List Token × Statement)
  | [] => []
  | l :: ls => (tokensAt pos l.line, l.statement pos) :: linesAt (pos + size (textOf l.line)) ls

lemma flatMap_linesAt (pos : ℕ) (ls : List Setter) :
    (linesAt pos ls).flatMap Prod.fst = tokensAt pos (ls.flatMap line) := by
  induction ls generalizing pos with
  | nil => rfl
  | cons l ls ih => rw [linesAt, List.flatMap_cons, ih, List.flatMap_cons, Piece.tokensAt_append]

lemma map_linesAt (pos : ℕ) (ls : List Setter) :
    (linesAt pos ls).map Prod.snd = statements pos ls := by
  induction ls generalizing pos with
  | nil => rfl
  | cons l ls ih => rw [linesAt, List.map_cons, ih, statements]

/-- Every line is a statement, and none of them goes on with the line before. -/
lemma mem_linesAt {pos : ℕ} {ls : List Setter} (hstack : Tree.newlineEnds stack)
    {p : List Token × Statement} (hp : p ∈ linesAt pos ls) :
    Tree.Completes stack p.1 p.2 ∧ ∃ t ts, p.1 = t :: ts ∧ t.kind ≠ .newline ∧ t.kind ≠ .dot := by
  induction ls generalizing pos with
  | nil => cases hp
  | cons l ls ih =>
    rcases List.mem_cons.1 hp with rfl | hp
    · exact ⟨l.completes_line pos hstack, _, _, rfl, by simp, by simp⟩
    · exact ih hp

/-- The tree of a file of setters. -/
lemma ofText_file (ls : List Setter) : ∃ closer,
    Tree.ofText (textOf (file ls)) = .ok [[.block ⟨.keyword .module_, 0, "module".toList⟩ closer
      ([.leaf ⟨.const, 7, "Parser".toList⟩] :: statements 14 ls)]] := by
  set opener : Token := ⟨.keyword .module_, 0, "module".toList⟩ with hopener
  set name : Token := ⟨.const, 7, "Parser".toList⟩ with hname
  set closer : Token := ⟨.keyword .end_, 14 + size (textOf (ls.flatMap line)), "end".toList⟩
  have hstack : Tree.newlineEnds [(opener, {})] := rfl
  have hfirst : Tree.Completes [(opener, {})] [name, ⟨.newline, 13, ['\n']⟩] [.leaf name] := by
    have hleaf : Tree.Collects [(opener, {})] [name] ([] ++ [.leaf name]) := Tree.Collects.leaf rfl
    exact hleaf.completes rfl rfl hstack
  have htokens : tokensAt 0 (file ls) = opener :: ((([name, ⟨.newline, 13, ['\n']⟩], [.leaf name])
      :: linesAt 14 ls).flatMap Prod.fst ++ [closer, ⟨.newline, closer.stop, ['\n']⟩]) := by
    rw [List.flatMap_cons, flatMap_linesAt, file, Piece.tokensAt_append, Piece.tokensAt_append]
    rfl
  have hlines : ∀ p ∈ ([name, ⟨.newline, 13, ['\n']⟩], [.leaf name]) :: linesAt 14 ls,
      Tree.Completes [(opener, {})] p.1 p.2 ∧
        ∃ t ts, p.1 = t :: ts ∧ t.kind ≠ .newline ∧ t.kind ≠ .dot := by
    intro p hp
    rcases List.mem_cons.1 hp with rfl | hp
    · exact ⟨hfirst, _, _, rfl, by simp [hname], by simp [hname]⟩
    · exact mem_linesAt hstack hp
  refine ⟨closer, ?_⟩
  rw [Tree.ofText, Token.lex_textOf (fitting_file ls), htokens]
  simp only
  rw [Tree.ofTokens_module rfl rfl rfl (fun p hp => (hlines p hp).1) fun p hp => (hlines p hp).2,
    List.map_cons, map_linesAt]

/-- The tables of a file of setters. -/
lemma locate_file (ls : List Setter) (marker : Char) :
    Table.locate (textOf (file ls)) marker
      = .ok (Table.inStatements (textOf (file ls)) marker (statements 14 ls)) := by
  obtain ⟨closer, htree⟩ := ofText_file ls
  rw [Table.locate, htree]
  simp [Except.map, Table.inStatements, Table.inNodes, Table.ofStatement?]

/-! ## Setters without tables -/

/-- A setter that is no table and has none in its value. -/
def Silent (l : Setter) : Prop :=
  ∀ source marker pos, Table.inStatements source marker [l.statement pos] = []

lemma inStatements_of_silent {ls : List Setter} (h : ∀ l ∈ ls, l.Silent) (source : Text)
    (marker : Char) (pos : ℕ) : Table.inStatements source marker (statements pos ls) = [] := by
  induction ls generalizing pos with
  | nil => rw [statements, Table.inStatements]
  | cons l ls ih =>
    obtain ⟨hl, hls⟩ := List.forall_mem_cons.1 h
    have hfirst := hl source marker pos
    rw [Table.inStatements, Table.inStatements, List.append_nil] at hfirst
    rw [statements, Table.inStatements, hfirst, ih hls, List.append_nil]

lemma locate_of_silent {ls : List Setter} (h : ∀ l ∈ ls, l.Silent) (marker : Char) :
    Table.locate (textOf (file ls)) marker = .ok [] := by
  rw [locate_file, inStatements_of_silent h]

end Setter

end TablePack
