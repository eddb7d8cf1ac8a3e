import Mathlib.Tactic
import TablePack.Compaction
import TablePack.Proofs.Setter

/-!
# Constructors of packed tables

The statement that constructs a packed table, as a line of a file. Its value is a class path, the
name `new` and the byte literals in parentheses; it is read as such whatever bytes the literals
hold. There is no array in it, so it is no table, and none is found in it.

* `Encoding.constructor`: the line;
* `Encoding.textOf_constructor`: its text is the statement that compaction writes;
* `Encoding.silent_constructor`: it has no table.
-/

namespace TablePack

open Token (Kind)
open Text (size)
open Piece (textOf tokensAt leavesAt Fitting)

/-! ## Statements without tables -/

namespace Table

variable {source : Text} {marker : Char}

/-- A statement that does not end with an array is no table. -/
lemma ofStatement?_eq_none {init : List Node} {last : Node}
    (h : ∀ opener closer body, last = .block opener closer body → opener.kind ≠ .arrayBracket) :
    ofStatement? source marker (init ++ [last]) = none := by
  rw [Option.eq_none_iff_forall_ne_some]
  intro t ht
  obtain ⟨f, hvalid, hstatement, -⟩ := ofStatement?_eq_some_iff.1 ht
  have hlast := congrArg List.getLast? hstatement
  rw [Form.statement, List.getLast?_append, List.getLast?_append] at hlast
  exact h _ _ _ (Option.some.inj hlast) hvalid.opener_kind

lemma inNodes_leaves (source : Text) (marker : Char) (ts : List Token) (nodes : List Node) :
    inNodes source marker (ts.map .leaf ++ nodes) = inNodes source marker nodes := by
  induction ts with
  | nil => rfl
  | cons t ts ih => rw [List.map_cons, List.cons_append, inNodes, ih]

/-- A statement of tokens alone has no table. -/
lemma inStatements_leaves (ts : List Token) : inStatements source marker [ts.map .leaf] = [] := by
  have hnone : ofStatement? source marker (ts.map .leaf) = none := by
    rcases List.eq_nil_or_concat ts with rfl | ⟨ts, t, rfl⟩
    · rfl
    · rw [List.concat_eq_append, List.map_append]
      refine ofStatement?_eq_none ?_
      intro opener closer body h
      cases h
  have hnodes : inNodes source marker (ts.map .leaf) = [] := by
    have hleaves := inNodes_leaves source marker ts []
    rwa [List.append_nil, inNodes] at hleaves
  rw [inStatements, hnone, inStatements, hnodes]
  rfl

end Table

/-! ## The line -/

namespace Encoding

open Piece (colons const dot ident lparen rparen literal joined comma blanks)

/-- The pieces of the constructor before its parentheses. -/
def front (e : Encoding) : List Piece :=
  [colons, const "Ragel".toList, colons, const "Bitmap".toList, colons,
    const e.variant.name.toList, dot, ident "new".toList]

/-- The pieces between the parentheses. -/
def arguments (e : Encoding) : List Piece := joined (e.buffers.map literal)

/-- The pieces of the constructor. -/
def pieces (e : Encoding) : List Piece := e.front ++ (lparen :: (e.arguments ++ [rparen]))

lemma textOf_pieces (e : Encoding) :
    textOf e.pieces = "::Ragel::Bitmap".toList ++ [':', ':'] ++ e.variant.name.toList
      ++ ".new(".toList ++ [',', ' '].intercalate (e.buffers.map ByteLiteral.write) ++ [')'] := by
  have harguments : textOf e.arguments
      = [',', ' '].intercalate (e.buffers.map ByteLiteral.write) := by
    rw [arguments, Piece.textOf_joined, List.map_map]
    rfl
  rw [pieces, Piece.textOf_append, Piece.textOf_cons, Piece.textOf_append, harguments]
  simp [front, colons, const, dot, ident, lparen, rparen]

/-- The byte literals are read, whatever is before them and after them. -/
lemma fitting_literals (after : Text) (last : Option Kind) (previous : Char)
    (buffers : List (List UInt8)) :
    Fitting after last previous (joined (buffers.map literal)) := by
  induction buffers generalizing last previous with
  | nil => trivial
  | cons bytes buffers ih =>
    cases buffers with
    | nil => exact ⟨.literal bytes, trivial⟩
    | cons bytes' buffers => exact ⟨.literal bytes, .comma, .blanks 1, ih _ _⟩

lemma fitting_pieces (e : Encoding) (after : Text) : Fitting after (some .assign) ' ' e.pieces := by
  have hragel : ∀ d ∈ "agel".toList, Text.isNameChar d := Text.forall_mem_of_all (by decide)
  have hbitmap : ∀ d ∈ "itmap".toList, Text.isNameChar d := Text.forall_mem_of_all (by decide)
  have hnew : ∀ d ∈ "ew".toList, Text.isNameChar d := Text.forall_mem_of_all (by decide)
  rw [pieces, Piece.fitting_append]
  constructor
  · refine ⟨.colons, ?_, .colons, ?_, .colons, ?_, .dot (by simp [ident]), ?_, trivial⟩
    · exact .word (by decide) hragel (by decide) (by rintro d ⟨⟩; decide) rfl rfl (by decide)
    · exact .word (by decide) hbitmap (by decide) (by rintro d ⟨⟩; decide) rfl rfl (by decide)
    · -- the name of a variant is a capital letter and name characters
      have hvariant : ∃ c w, e.variant.name.toList = c :: w ∧ Text.isNameStart c ∧ c.isUpper ∧
          c ≠ '_' ∧ ∀ d ∈ w, Text.isNameChar d := by
        cases e.variant with
        | _ =>
          exact ⟨_, _, rfl, by decide, by decide, by decide, Text.forall_mem_of_all (by decide)⟩
      obtain ⟨c, w, hname, hstart, hupper, hscore, hw⟩ := hvariant
      rw [const, hname]
      refine .word hstart hw (fun h => absurd h hscore) (by rintro d ⟨⟩; decide) rfl ?_ (by decide)
      simp [Piece.wordKind, hupper]
    · have hline : ∀ previous : Char, 'n' = '_' → previous ≠ '\n' := fun _ h => absurd h (by decide)
      exact .word (by decide) hnew (hline _) (by rintro d ⟨⟩; decide) rfl rfl (by decide)
  · refine ⟨.lparen, ?_⟩
    rw [Piece.fitting_append]
    exact ⟨fitting_literals _ _ _ e.buffers, .rparen, trivial⟩

/-- The block that the parentheses are where they start at a byte offset. -/
def argumentsNode (e : Encoding) (pos : ℕ) : Node :=
  .block ⟨.lparen, pos, ['(']⟩ ⟨.rparen, pos + 1 + Text.size (textOf e.arguments), [')']⟩
    [leavesAt (pos + 1) e.arguments]

lemma isPlain_of_mem_arguments {e : Encoding} {pos : ℕ} {t : Token}
    (ht : t ∈ tokensAt pos e.arguments) : Tree.isPlain t.kind := by
  obtain ⟨p, hp, hkind, -⟩ := Piece.exists_piece_of_mem ht
  rcases Piece.mem_joined hp with hp | rfl | rfl
  · obtain ⟨bytes, -, rfl⟩ := List.mem_map.1 hp
    rw [← Option.some.inj hkind]
    rfl
  · rw [← Option.some.inj hkind]
    rfl
  · cases hkind

lemma leavesAt_arguments_ne_nil {e : Encoding} (h : e.buffers ≠ []) (pos : ℕ) :
    leavesAt pos e.arguments ≠ [] := by
  obtain ⟨bytes, buffers, hbuffers⟩ := List.exists_cons_of_ne_nil h
  rw [arguments, hbuffers]
  cases buffers <;> exact List.cons_ne_nil _ _

lemma collects_pieces {e : Encoding} (h : e.buffers ≠ []) (pos : ℕ) (stack : Tree.Stack) :
    Tree.Collects stack (tokensAt pos e.pieces)
      (leavesAt pos e.front ++ [e.argumentsNode (pos + Text.size (textOf e.front))]) := by
  set here := pos + Text.size (textOf e.front) with hhere
  have htokens : tokensAt pos e.pieces = tokensAt pos e.front ++ (⟨.lparen, here, ['(']⟩ ::
      (tokensAt (here + 1) e.arguments
        ++ [⟨.rparen, here + 1 + Text.size (textOf e.arguments), [')']⟩])) := by
    rw [pieces, Piece.tokensAt_append, tokensAt, Piece.tokensAt_append]
    rfl
  have hfront : Tree.Collects stack (tokensAt pos e.front) (leavesAt pos e.front) := by
    refine Tree.Collects.leaves _ ?_
    intro t ht
    obtain ⟨p, hp, hkind, -⟩ := Piece.exists_piece_of_mem ht
    left
    simp only [front, List.mem_cons, List.not_mem_nil, or_false] at hp
    rcases hp with rfl | rfl | rfl | rfl | rfl | rfl | rfl | rfl <;>
      rw [← Option.some.inj hkind] <;> rfl
  rw [htokens]
  refine hfront.append (Tree.Collects.block rfl rfl (leavesAt_arguments_ne_nil h _) ?_)
  intro f
  refine Tree.Collects.leaves _ ?_
  intro t ht
  exact .inl (isPlain_of_mem_arguments ht)

/-- The line that constructs a packed table. -/
def constructor (e : Encoding) (h : e.buffers ≠ []) (indent : ℕ) (stem : Text)
    (hstem : ∀ c ∈ stem, Text.isNameChar c) : Setter where
  indent := indent
  stem := stem
  value := e.pieces
  nodes pos := leavesAt pos e.front ++ [e.argumentsNode (pos + Text.size (textOf e.front))]
  isNameChar_stem := hstem
  fitting after := e.fitting_pieces ('\n' :: after)
  collects := collects_pieces h
  exists_last _ := ⟨_, _, rfl, rfl⟩

variable {e : Encoding} {h : e.buffers ≠ []} {indent : ℕ} {stem : Text}
  {hstem : ∀ c ∈ stem, Text.isNameChar c}

/-- The text of the line is the statement that compaction writes. -/
lemma textOf_constructor {opts : Options} (hopts : opts.classPath = "::Ragel::Bitmap".toList) :
    textOf (e.constructor h indent stem hstem).line = List.replicate indent ' '
      ++ (Compaction.statement opts "self".toList ('_' :: stem) e ++ ['\n']) := by
  have hvalue : textOf (e.constructor h indent stem hstem).value = textOf e.pieces := rfl
  rw [Setter.textOf_line, hvalue, textOf_pieces, Compaction.statement, hopts]
  simp [constructor]

/-- There is no table in the line. -/
lemma silent_constructor : (e.constructor h indent stem hstem).Silent := by
  intro source marker pos
  set l := e.constructor h indent stem hstem
  set here := pos + Text.size (textOf l.head)
  have hstatement : l.statement pos = ((tokensAt pos l.head).map .leaf ++ leavesAt here e.front)
      ++ [e.argumentsNode (here + Text.size (textOf e.front))] := by
    rw [List.append_assoc]
    rfl
  -- the statement ends with parentheses and not with an array
  have hnone : Table.ofStatement? source marker (l.statement pos) = none := by
    rw [hstatement]
    refine Table.ofStatement?_eq_none ?_
    rintro opener closer body ⟨⟩
    exact Kind.noConfusion
  -- inside of the parentheses there are no more blocks
  have hnodes : Table.inNodes source marker (l.statement pos) = [] := by
    rw [hstatement, leavesAt, ← List.map_append, Table.inNodes_leaves, argumentsNode, leavesAt,
      Table.inNodes, Table.inStatements_leaves, Table.inNodes]
    rfl
  rw [Table.inStatements, hnone, Table.inStatements, hnodes]
  rfl

end Encoding

end TablePack
