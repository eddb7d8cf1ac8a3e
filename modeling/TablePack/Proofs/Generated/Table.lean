import Mathlib.Tactic
import TablePack.Proofs.Setter

/-!
# Generated files

The files that tables are meant for: a module with one table after another, each of them on one line
or wrapped into rows of numbers (`Generated`). A table is written in pieces that fit, and the pieces
between its brackets are numbers and commas in turn, also where they are wrapped. So each line is a
setter, and the statement that it is read as is a table with the numbers that were written.

* `Generated.elements?_eq`: the numbers of an array are read as they are written;
* `Generated.locate_source`: the tables of a generated file;
* `Generated.map_tablesAt`: their names, their numbers and their lines.
-/

namespace TablePack

open Token (Kind)
open Text (size)

/-! ## Tables as they are generated -/

/-- How the numbers of a generated table are laid out. -/
inductive Generated.Layout where
  /-- On the line of the name. -/
  | oneLine
  /-- On lines of their own, with `perRow` numbers each and `inner` spaces before them. The closing
  bracket comes after `closing` spaces. -/
  | wrapped (perRow inner closing : ℕ) (perRow_pos : 0 < perRow)

/-- A table as it is generated. -/
structure Generated where
  /-- The name without the underscore at its start. -/
  stem : Text
  numbers : List ℕ
  /-- The number of spaces before the statement. -/
  indent : ℕ
  layout : Generated.Layout
  stem_ne : stem ≠ []
  stem_word : ∀ c ∈ stem, c.isAlphanum ∨ c = '_'
  numbers_ne : numbers ≠ []
  numbers_lt : ∀ n ∈ numbers, n < 2 ^ 64

namespace Generated

def name (g : Generated) : Text := '_' :: g.stem

def spaces (n : ℕ) : Text := List.replicate n ' '

/-- Numbers in decimal, with commas between them. -/
def decimals (numbers : List ℕ) : Text :=
  ", ".toList.intercalate (numbers.map fun n => (toString n).toList)

/-- Numbers in rows of `perRow`; the last row may be shorter. -/
def rows (perRow : ℕ) (numbers : List ℕ) : List (List ℕ) :=
  if _h : 0 < perRow ∧ numbers ≠ [] then
    numbers.take perRow :: rows perRow (numbers.drop perRow)
  else []
termination_by numbers.length
decreasing_by
  have := List.length_pos_iff.2 _h.2
  rw [List.length_drop]
  omega

/-- The array of a table. -/
def arrayText (g : Generated) : Text :=
  match g.layout with
  | .oneLine => "[".toList ++ decimals g.numbers ++ "]".toList
  | .wrapped perRow inner closing _ =>
    "[\n".toList
      ++ ((rows perRow g.numbers).flatMap fun row => spaces inner ++ decimals row ++ ",\n".toList)
      ++ spaces closing ++ "]".toList

/-- The statement of a table. -/
def text (g : Generated) : Text := "self.".toList ++ g.name ++ " = ".toList ++ g.arrayText

lemma text_eq (g : Generated) :
    g.text = "self.".toList ++ g.name ++ " = ".toList ++ g.arrayText := rfl

/-- The number of lines of a table. -/
def height (g : Generated) : ℕ :=
  match g.layout with
  | .oneLine => 1
  | .wrapped perRow _ _ _ => (g.numbers.length + perRow - 1) / perRow + 2

/-- A file with the given lines in a module. -/
def file (lines : List Text) : Text :=
  "module Parser\n".toList ++ lines.flatMap (· ++ "\n".toList) ++ "end\n".toList

/-- The file of some tables. -/
def source (tables : List Generated) : Text :=
  file (tables.map fun g => spaces g.indent ++ g.text)

/-- What is to be found of each table, from a line on: its name, its receiver, its numbers, and its
first and its last line. -/
def spans (line : ℕ) : List Generated → List (Text × Text × List ℕ × ℕ × ℕ)
  | [] => []
  | g :: tables =>
    (g.name, "self".toList, g.numbers, line, line + g.height - 1) :: spans (line + g.height) tables

/-! ## Rows -/

section Rows

variable {perRow : ℕ}

lemma flatten_rows (hpos : 0 < perRow) (numbers : List ℕ) :
    (rows perRow numbers).flatten = numbers := by
  fun_induction rows perRow numbers with
  | case1 numbers h ih => rw [List.flatten_cons, ih, List.take_append_drop]
  | case2 numbers h =>
    rw [not_and_not_right] at h
    rw [h hpos, List.flatten_nil]

lemma ne_nil_of_mem_rows {numbers row : List ℕ} (h : row ∈ rows perRow numbers) : row ≠ [] := by
  fun_induction rows perRow numbers with
  | case1 numbers hcond ih =>
    rcases List.mem_cons.1 h with rfl | h
    · have := List.length_pos_iff.2 hcond.2
      rw [← List.length_pos_iff, List.length_take]
      omega
    · exact ih h
  | case2 numbers hcond => cases h

lemma length_rows (hpos : 0 < perRow) (numbers : List ℕ) :
    (rows perRow numbers).length = (numbers.length + perRow - 1) / perRow := by
  fun_induction rows perRow numbers with
  | case1 numbers hcond ih =>
    have hlen := List.length_pos_iff.2 hcond.2
    rw [List.length_cons, ih, List.length_drop,
      show numbers.length + perRow - 1 = numbers.length - 1 + perRow by omega,
      Nat.add_div_right _ hpos]
    -- what is left after a full row, and after the last row
    rcases Nat.lt_or_ge numbers.length perRow with hlt | hge
    · rw [Nat.div_eq_of_lt (by omega), Nat.div_eq_of_lt (by omega)]
    · rw [show numbers.length - perRow + perRow - 1 = numbers.length - 1 by omega]
  | case2 numbers hcond =>
    rw [not_and_not_right] at hcond
    rw [hcond hpos, List.length_nil, List.length_nil, Nat.zero_add, Nat.div_eq_of_lt (by omega)]

end Rows

end Generated

/-! ## The integers among the pieces -/

namespace Piece

/-- The text of a piece that is an integer. -/
def integer? (p : Piece) : Option Text := if p.kind? = some .int then some p.text else none

lemma filterMap_leavesAt (pos : ℕ) (ps : List Piece) :
    (leavesAt pos ps).filterMap Node.integer? = ps.filterMap integer? := by
  induction ps generalizing pos with
  | nil => rfl
  | cons p ps ih =>
    rw [← List.singleton_append, leavesAt_append, List.filterMap_append, ih, List.filterMap_append]
    congr 1
    obtain ⟨kind?, text⟩ := p
    cases kind? with
    | none => rfl
    | some kind => cases kind <;> rfl

end Piece

namespace Generated

open Piece (blanks newline comma lbracket rbracket decimal joined textOf tokensAt leavesAt Fitting)

/-! ## Arrays -/

lemma textOf_decimals (numbers : List ℕ) :
    textOf (joined (numbers.map decimal)) = decimals numbers := by
  rw [Piece.textOf_joined, List.map_map, decimals]
  congr 1
  refine List.map_congr_left fun n _ => ?_
  simp [decimal]

/-- The pieces of a row of numbers. -/
def rowPieces (inner : ℕ) (row : List ℕ) : List Piece :=
  blanks inner :: (joined (row.map decimal) ++ [comma, newline])

/-- The pieces between the brackets. -/
def elements (g : Generated) : List Piece :=
  match g.layout with
  | .oneLine => joined (g.numbers.map decimal)
  | .wrapped perRow inner closing _ =>
    newline :: ((rows perRow g.numbers).flatMap (rowPieces inner) ++ [blanks closing])

/-- The pieces of the array. -/
def array (g : Generated) : List Piece := lbracket :: (g.elements ++ [rbracket])

lemma textOf_rows (inner : ℕ) (rs : List (List ℕ)) :
    textOf (rs.flatMap (rowPieces inner))
      = rs.flatMap fun row => spaces inner ++ decimals row ++ ",\n".toList := by
  induction rs with
  | nil => rfl
  | cons row rs ih =>
    rw [List.flatMap_cons, Piece.textOf_append, ih, List.flatMap_cons, rowPieces,
      Piece.textOf_cons, Piece.textOf_append, textOf_decimals]
    simp [blanks, spaces, comma, newline]

lemma textOf_array (g : Generated) : textOf g.array = g.arrayText := by
  rw [array, elements, arrayText]
  cases g.layout with
  | oneLine => simp [lbracket, rbracket, textOf_decimals]
  | wrapped perRow inner closing hpos =>
    simp [lbracket, rbracket, newline, blanks, spaces, textOf_rows]

/-- A list of numbers is read up to a comma or a bracket. -/
lemma fitting_decimals {after : Text} (hafter : ∀ d ∈ after.head?, d = ',' ∨ d = ']')
    (last : Option Kind) (previous : Char) (numbers : List ℕ) :
    Fitting after last previous (joined (numbers.map decimal)) := by
  induction numbers generalizing last previous with
  | nil => trivial
  | cons n numbers ih =>
    cases numbers with
    | nil => exact ⟨.decimal n hafter, trivial⟩
    | cons m numbers =>
      refine ⟨.decimal n ?_, .comma, .blanks 1, ih _ _⟩
      rintro d ⟨⟩
      exact .inl rfl

lemma fitting_rows (after : Text) (last : Option Kind) (previous : Char) (inner : ℕ)
    (rs : List (List ℕ)) : Fitting after last previous (rs.flatMap (rowPieces inner)) := by
  induction rs generalizing last previous with
  | nil => trivial
  | cons row rs ih =>
    rw [List.flatMap_cons, Piece.fitting_append]
    refine ⟨⟨.blanks inner, ?_⟩, ih _ _⟩
    rw [Piece.fitting_append]
    refine ⟨fitting_decimals ?_ _ _ row, .comma, .newline, trivial⟩
    rintro d ⟨⟩
    exact .inl rfl

lemma fitting_array (g : Generated) (after : Text) :
    Fitting after (some .assign) ' ' g.array := by
  refine ⟨.lbracket (by rintro kind ⟨⟩; rfl), ?_⟩
  rw [Piece.fitting_append]
  refine ⟨?_, .rbracket, trivial⟩
  rw [elements]
  cases g.layout with
  | oneLine =>
    refine fitting_decimals ?_ _ _ g.numbers
    rintro d ⟨⟩
    exact .inr rfl
  | wrapped perRow inner closing hpos =>
    refine ⟨.newline, ?_⟩
    rw [Piece.fitting_append]
    exact ⟨fitting_rows _ _ _ inner _, .blanks closing, trivial⟩

/-- Between the brackets there are numbers, commas and newlines. -/
lemma kind_of_mem_elements {g : Generated} {p : Piece} (hp : p ∈ g.elements) {kind : Kind}
    (hkind : p.kind? = some kind) : kind = .int ∨ kind = .comma ∨ kind = .newline := by
  have hjoined : ∀ {numbers : List ℕ}, p ∈ joined (numbers.map decimal) →
      kind = .int ∨ kind = .comma := by
    intro numbers hmem
    rcases Piece.mem_joined hmem with hmem | rfl | rfl
    · obtain ⟨n, -, rfl⟩ := List.mem_map.1 hmem
      exact .inl (Option.some.inj hkind).symm
    · exact .inr (Option.some.inj hkind).symm
    · cases hkind
  rw [elements] at hp
  cases hlayout : g.layout with
  | oneLine =>
    rw [hlayout] at hp
    have := hjoined hp
    tauto
  | wrapped perRow inner closing hpos =>
    simp only [hlayout, rowPieces, List.mem_cons, List.mem_append, List.mem_flatMap,
      List.not_mem_nil, or_false] at hp
    rcases hp with rfl | ⟨row, -, rfl | hp | rfl | rfl⟩ | rfl
    · exact .inr (.inr (Option.some.inj hkind).symm)
    · cases hkind
    · have := hjoined hp
      tauto
    · exact .inr (.inl (Option.some.inj hkind).symm)
    · exact .inr (.inr (Option.some.inj hkind).symm)
    · cases hkind

/-! ## The numbers of an array -/

lemma integers_decimals (numbers : List ℕ) :
    (joined (numbers.map decimal)).filterMap Piece.integer? = numbers.map (Nat.toDigits 10) := by
  induction numbers with
  | nil => rfl
  | cons n numbers ih =>
    cases numbers with
    | nil => rfl
    | cons m numbers =>
      rw [List.map_cons (f := Nat.toDigits 10), ← ih]
      rfl

lemma integers_rows (inner : ℕ) (rs : List (List ℕ)) :
    (rs.flatMap (rowPieces inner)).filterMap Piece.integer? = rs.flatten.map (Nat.toDigits 10) := by
  induction rs with
  | nil => rfl
  | cons row rs ih =>
    have hrow : (rowPieces inner row).filterMap Piece.integer? = row.map (Nat.toDigits 10) := by
      rw [rowPieces, ← integers_decimals, ← List.singleton_append, List.filterMap_append,
        List.filterMap_append]
      simp [Piece.integer?, blanks, comma, newline]
    rw [List.flatMap_cons, List.filterMap_append, hrow, ih, List.flatten_cons, List.map_append]

lemma integers_elements (g : Generated) :
    g.elements.filterMap Piece.integer? = g.numbers.map (Nat.toDigits 10) := by
  rw [elements]
  cases g.layout with
  | oneLine => exact integers_decimals g.numbers
  | wrapped perRow inner closing hpos =>
    have hrows := integers_rows inner (rows perRow g.numbers)
    rw [flatten_rows hpos] at hrows
    rw [List.filterMap_cons_none rfl, List.filterMap_append, hrows]
    simp [Piece.integer?, blanks]

lemma isIntegerList_decimals (pos : ℕ) (numbers : List ℕ) :
    Table.isIntegerList (leavesAt pos (joined (numbers.map decimal))) := by
  induction numbers generalizing pos with
  | nil => rfl
  | cons n numbers ih =>
    cases numbers with
    | nil => rfl
    | cons m numbers => exact ih _

/-- A row and its last comma may stand before any list of integers. -/
lemma isIntegerList_row (pos : ℕ) {row : List ℕ} (hne : row ≠ []) {t : Token}
    (ht : t.kind = .comma) (rest : List Node) :
    Table.isIntegerList (leavesAt pos (joined (row.map decimal)) ++ .leaf t :: rest)
      = Table.isIntegerList rest := by
  induction row generalizing pos with
  | nil => exact absurd rfl hne
  | cons n row ih =>
    cases row with
    | nil =>
      have hcomma : (Node.leaf t).isComma := by simp [Node.isComma, Node.kind?, ht]
      change (true && (Node.leaf t).isComma && Table.isIntegerList rest) = _
      rw [hcomma]
      rfl
    | cons m row => exact ih _ (by simp)

lemma isIntegerList_rows (pos inner : ℕ) {rs : List (List ℕ)} (hne : ∀ row ∈ rs, row ≠ []) :
    Table.isIntegerList (leavesAt pos (rs.flatMap (rowPieces inner))) := by
  induction rs generalizing pos with
  | nil => rfl
  | cons row rs ih =>
    obtain ⟨hrow, hrest⟩ := List.forall_mem_cons.1 hne
    rw [List.flatMap_cons, Piece.leavesAt_append, rowPieces, ← List.singleton_append,
      Piece.leavesAt_append, Piece.leavesAt_append]
    change Table.isIntegerList ((leavesAt _ _ ++ [.leaf ⟨.comma, _, [',']⟩]) ++ _)
    rw [List.append_assoc, List.singleton_append, isIntegerList_row _ hrow rfl]
    exact ih _ hrest

lemma isIntegerList_elements (g : Generated) (pos : ℕ) :
    Table.isIntegerList (leavesAt pos g.elements) := by
  rw [elements]
  cases g.layout with
  | oneLine => exact isIntegerList_decimals pos g.numbers
  | wrapped perRow inner closing hpos =>
    have hne : ∀ row ∈ rows perRow g.numbers, row ≠ [] := fun _ => ne_nil_of_mem_rows
    have hrows := isIntegerList_rows (pos + 1) inner hne
    change Table.isIntegerList (leavesAt pos ([newline] ++ (_ ++ [blanks closing])))
    rw [Piece.leavesAt_append, Piece.leavesAt_append]
    change Table.isIntegerList (leavesAt (pos + 1) _ ++ [])
    rw [List.append_nil]
    exact hrows

end Generated

namespace Numeral

lemma positional_toDigits (n : ℕ) : positional 10 (Nat.toDigits 10 n) = n := by
  have hdigit : ∀ d < 10, digit? 10 (Nat.digitChar d) = some d := by decide
  induction n using Nat.strong_induction_on with
  | _ n ih =>
    rcases Nat.lt_or_ge n 10 with hlt | hge
    · rw [Nat.toDigits_of_lt_base hlt, positional]
      simp [hdigit n hlt]
    · have hmod : n % 10 < 10 := Nat.mod_lt _ (by norm_num)
      have hinit := ih (n / 10) (by omega)
      rw [positional] at hinit
      rw [Nat.toDigits_of_base_le (by norm_num) hge, positional, List.filterMap_append,
        List.reverse_append, Nat.ofDigits_append, hinit]
      simp [hdigit _ hmod]
      omega

/-- A number is read as it is written. -/
lemma value_toDigits {n : ℕ} (h : n ≤ limit) : value (Nat.toDigits 10 n) = n := by
  have hdigits : ∀ c ∈ Nat.toDigits 10 n, c.isDigit := by
    intro c hc
    exact Nat.isDigit_of_mem_toDigits (by norm_num) le_rfl hc
  obtain ⟨c, w, hcw⟩ := List.exists_cons_of_ne_nil
    (List.length_pos_iff.1 (Nat.length_toDigits_pos (b := 10) (n := n)))
  by_cases hc : c = '0'
  · -- the number is zero
    subst hc
    have hvalue := positional_toDigits n
    rw [hcw, head_toDigits hcw rfl] at hvalue ⊢
    rw [← hvalue]
    rfl
  · have hliteral : Literal (Nat.toDigits 10 n) 10 (Nat.toDigits 10 n) := by
      rw [hcw] at hdigits ⊢
      refine .decimal (hdigits c List.mem_cons_self) hc ?_
      intro d hd
      exact isDigitOf_ten_of_isDigit (hdigits d (List.mem_cons_of_mem _ hd))
    rw [value_eq_min hliteral, positional_toDigits, min_eq_left h]

end Numeral

namespace Generated

open Piece (leavesAt textOf tokensAt)

/-- The elements of a generated array are its numbers. -/
lemma elements?_eq (g : Generated) (pos : ℕ) :
    Table.elements? [leavesAt pos g.elements] = some g.numbers := by
  rw [Table.elements?, if_pos (g.isIntegerList_elements pos), Piece.filterMap_leavesAt,
    integers_elements, List.map_map]
  congr 1
  conv_rhs => rw [← List.map_id g.numbers]
  refine List.map_congr_left fun n hn => ?_
  have hlt := g.numbers_lt n hn
  exact Numeral.value_toDigits (by rw [Numeral.limit]; omega)

/-! ## Lines -/

lemma isNameChar_stem (g : Generated) : ∀ c ∈ g.stem, Text.isNameChar c := by
  intro c hc
  rcases g.stem_word c hc with halnum | rfl
  · rw [Char.isAlphanum, Bool.or_eq_true] at halnum
    rcases halnum with halpha | hdigit
    · simp [Text.isNameChar, Text.isNameStart, halpha]
    · simp [Text.isNameChar, hdigit]
  · rfl

/-- The block that the array is where it starts at a byte offset. -/
def arrayNode (g : Generated) (pos : ℕ) : Node :=
  .block ⟨.arrayBracket, pos, ['[']⟩ ⟨.rbracket, pos + 1 + size (textOf g.elements), [']']⟩
    [leavesAt (pos + 1) g.elements]

lemma leavesAt_elements_ne_nil (g : Generated) (pos : ℕ) : leavesAt pos g.elements ≠ [] := by
  intro hnil
  have hintegers := Piece.filterMap_leavesAt pos g.elements
  rw [hnil, integers_elements] at hintegers
  exact g.numbers_ne (List.map_eq_nil_iff.1 hintegers.symm)

lemma collects_array (g : Generated) (pos : ℕ) (stack : Tree.Stack) :
    Tree.Collects stack (tokensAt pos g.array) [g.arrayNode pos] := by
  have htokens : tokensAt pos g.array = ⟨.arrayBracket, pos, ['[']⟩ ::
      (tokensAt (pos + 1) g.elements
        ++ [⟨.rbracket, pos + 1 + size (textOf g.elements), [']']⟩]) := by
    rw [array, tokensAt, Piece.tokensAt_append]
    rfl
  rw [htokens]
  refine Tree.Collects.block rfl rfl (g.leavesAt_elements_ne_nil _) ?_
  intro f
  refine Tree.Collects.leaves _ ?_
  intro t ht
  obtain ⟨p, hp, hkind, -⟩ := Piece.exists_piece_of_mem ht
  rcases kind_of_mem_elements hp hkind with hk | hk | hk
  · exact .inl (by rw [hk]; rfl)
  · exact .inl (by rw [hk]; rfl)
  · exact .inr ⟨hk, rfl⟩

/-- The line of a generated table. -/
def setter (g : Generated) : Setter where
  indent := g.indent
  stem := g.stem
  value := g.array
  nodes pos := [g.arrayNode pos]
  isNameChar_stem := g.isNameChar_stem
  fitting _ := g.fitting_array _
  collects := g.collects_array
  exists_last pos := ⟨[], g.arrayNode pos, rfl, rfl⟩

lemma textOf_line (g : Generated) :
    textOf g.setter.line = spaces g.indent ++ (g.text ++ ['\n']) := by
  rw [Setter.textOf_line, text_eq, ← textOf_array]
  rfl

/-- The table of a generated line that starts at a byte offset. -/
def tableAt (g : Generated) (pos : ℕ) : Table :=
  ⟨g.name, "self".toList, g.numbers, pos + g.indent, pos + g.indent + size g.text⟩

@[simp] lemma size_spaces (n : ℕ) : size (spaces n) = n := by
  induction n with
  | zero => rfl
  | succ n ih =>
    rw [spaces, List.replicate_succ, Text.size_cons, ← spaces, ih, show ' '.utf8Size = 1 from rfl]
    omega

/-- The nodes of the statement of a generated line. -/
def form (g : Generated) (pos : ℕ) : Table.Form where
  parts := [.leaf ⟨.ident, pos + g.indent, "self".toList⟩]
  first := .leaf ⟨.ident, pos + g.indent, "self".toList⟩
  last := .leaf ⟨.ident, pos + g.indent, "self".toList⟩
  dot := ⟨.dot, pos + g.indent + 4, ['.']⟩
  name := ⟨.ident, pos + g.indent + 5, g.name⟩
  assign := ⟨.assign, pos + g.indent + 5 + size g.name + 1, ['=']⟩
  opener := ⟨.arrayBracket, pos + size (textOf g.setter.head), ['[']⟩
  closer := ⟨.rbracket, pos + size (textOf g.setter.head) + 1 + size (textOf g.elements), [']']⟩
  body := [leavesAt (pos + size (textOf g.setter.head) + 1) g.elements]

lemma statement_setter (g : Generated) (pos : ℕ) :
    g.setter.statement pos = (g.form pos).statement := by
  have hblanks : size (Piece.blanks g.indent).text = g.indent := size_spaces g.indent
  have hhead : (tokensAt pos g.setter.head).map Node.leaf =
      [.leaf ⟨.ident, pos + g.indent, "self".toList⟩,
      .leaf ⟨.dot, pos + g.indent + 4, ['.']⟩, .leaf ⟨.ident, pos + g.indent + 5, g.name⟩,
      .leaf ⟨.assign, pos + g.indent + 5 + size g.name + 1, ['=']⟩] := by
    conv_rhs => rw [← hblanks]
    rfl
  rw [Setter.statement, hhead]
  rfl

lemma ofStatement?_setter (g : Generated) (before after : Text) :
    Table.ofStatement? (before ++ (textOf g.setter.line ++ after)) '_'
      (g.setter.statement (size before)) = some (g.tableAt (size before)) := by
  rw [statement_setter, Table.ofStatement?_eq_some_iff]
  refine ⟨g.form (size before), ?_, rfl, ?_⟩
  · refine ⟨rfl, rfl, ?_, rfl, rfl, ?_, rfl, rfl, g.elements?_eq _⟩
    · intro node hnode
      rw [List.mem_singleton.1 hnode]
      rfl
    · obtain ⟨c, stem, hstem⟩ := List.exists_cons_of_ne_nil g.stem_ne
      rw [form, name, hstem]
      rfl
  · -- the receiver is the slice up to the dot, and the table stops where its text does
    have hreceiver : Text.slice (before ++ (textOf g.setter.line ++ after))
        (size before + g.indent) (size before + g.indent + 4) = "self".toList := by
      have hsize : size before + g.indent = size (before ++ spaces g.indent) := by simp
      have hself : before ++ (textOf g.setter.line ++ after)
          = (before ++ spaces g.indent) ++ ("self".toList ++ (['.'] ++ g.name ++ " = ".toList
            ++ g.arrayText ++ ['\n'] ++ after)) := by
        rw [textOf_line, text_eq]
        simp
      rw [hself, hsize]
      exact Text.slice_append _ _ _
    have hstop : (g.form (size before)).closer.stop = size before + g.indent + size g.text := by
      have hself : size "self.".toList = 5 := rfl
      have hassign : size " = ".toList = 3 := rfl
      have hhead : size (textOf g.setter.head) = g.indent + 5 + size g.name + 3 := by
        rw [Setter.textOf_head]
        change size (spaces g.indent ++ ("self.".toList ++ g.name ++ " = ".toList)) = _
        simp only [Text.size_append, size_spaces, hself, hassign]
        omega
      have harray : size g.arrayText = 1 + size (textOf g.elements) + 1 := by
        rw [← textOf_array, array, Piece.textOf_cons, Piece.textOf_append, Text.size_append,
          Text.size_append, ← Nat.add_assoc]
        rfl
      change size before + size (textOf g.setter.head) + 1 + size (textOf g.elements) + 1 = _
      rw [hhead, text_eq]
      simp only [Text.size_append, hself, hassign, harray]
      omega
    rw [tableAt, Table.Form.table, hstop]
    change _ = Table.mk _ (Text.slice _ (size before + g.indent) (size before + g.indent + 4)) _ _ _
    rw [hreceiver]
    rfl

/-! ## The tables of a file -/

/-- The tables of generated lines from a byte offset on. -/
def tablesAt (pos : ℕ) : List Generated → List Table
  | [] => []
  | g :: gs => g.tableAt pos :: tablesAt (pos + size (textOf g.setter.line)) gs

lemma inStatements_setters (gs : List Generated) (before after : Text) :
    Table.inStatements (before ++ (textOf ((gs.map setter).flatMap Setter.line) ++ after)) '_'
      (Setter.statements (size before) (gs.map setter)) = tablesAt (size before) gs := by
  induction gs generalizing before with
  | nil => rw [List.map_nil, Setter.statements, Table.inStatements, tablesAt]
  | cons g gs ih =>
    -- the first line is a table of its own, and the others lie after it
    have hfirst := g.ofStatement?_setter before
      (textOf ((gs.map setter).flatMap Setter.line) ++ after)
    have hrest := ih (before ++ textOf g.setter.line)
    rw [List.append_assoc, Text.size_append] at hrest
    rw [List.map_cons, List.flatMap_cons, Piece.textOf_append, List.append_assoc, Setter.statements,
      Table.inStatements, hfirst, hrest]
    rfl

/-- The lines of the setters, as text. -/
lemma textOf_lines (gs : List Generated) :
    textOf ((gs.map setter).flatMap Setter.line)
      = (gs.map fun g => spaces g.indent ++ g.text).flatMap (· ++ ['\n']) := by
  induction gs with
  | nil => rfl
  | cons g gs ih =>
    rw [List.map_cons, List.flatMap_cons, Piece.textOf_append, ih, textOf_line, List.map_cons,
      List.flatMap_cons]
    simp only [List.append_assoc]

lemma source_eq (gs : List Generated) : source gs = textOf (Setter.file (gs.map setter)) := by
  rw [Setter.textOf_file, textOf_lines]
  exact List.append_assoc _ _ _

/-- The tables of a generated file. -/
lemma locate_source (gs : List Generated) :
    Table.locate (source gs) '_' = .ok (tablesAt 14 gs) := by
  have htables := inStatements_setters gs "module Parser\n".toList "end\n".toList
  rw [source_eq, Setter.locate_file, Setter.textOf_file]
  exact congrArg _ htables

/-! ## Lines of a file -/

lemma length_lines (t : Text) : (Text.lines t).length = t.count '\n' + 1 := by
  induction t with
  | nil => rfl
  | cons c t ih =>
    by_cases hc : c = '\n'
    · rw [hc, Text.lines_newline, List.length_cons, ih, List.count_cons_self]
    · rw [Text.length_lines_cons t hc, ih, List.count_cons_of_ne hc]

lemma line_append (a b : Text) : (Text.position (a ++ b) (size a)).line = a.count '\n' + 1 := by
  rw [Text.position_append]
  exact length_lines a

lemma count_spaces (n : ℕ) : (spaces n).count '\n' = 0 := by
  rw [spaces, List.count_replicate, if_neg (by decide)]

lemma count_decimals (numbers : List ℕ) : (decimals numbers).count '\n' = 0 := by
  rw [← textOf_decimals, List.count_eq_zero]
  intro hmem
  obtain ⟨p, hp, hnl⟩ := List.mem_flatMap.1 hmem
  rcases Piece.mem_joined hp with hp | rfl | rfl
  · obtain ⟨n, -, rfl⟩ := List.mem_map.1 hp
    have hdigit := Nat.isDigit_of_mem_toDigits (by norm_num) le_rfl hnl
    cases hdigit
  · revert hnl
    decide
  · revert hnl
    decide

/-- The number of lines of a table. -/
lemma count_text (g : Generated) : g.text.count '\n' + 1 = g.height := by
  have hname : g.name.count '\n' = 0 := by
    rw [List.count_eq_zero, name, List.mem_cons, not_or]
    refine ⟨by decide, ?_⟩
    intro hmem
    exact absurd (g.isNameChar_stem _ hmem) (by decide)
  have harray : g.arrayText.count '\n' + 1 = g.height := by
    rw [arrayText, height]
    cases g.layout with
    | oneLine => simp [count_decimals]
    | wrapped perRow inner closing hpos =>
      have hrows : ∀ rs : List (List ℕ),
          (rs.flatMap fun row => spaces inner ++ decimals row ++ ",\n".toList).count '\n'
            = rs.length := by
        intro rs
        induction rs with
        | nil => rfl
        | cons row rs ih =>
          rw [List.flatMap_cons, List.count_append, ih]
          simp [count_spaces, count_decimals]
          omega
      simp only [List.count_append, hrows, count_spaces, length_rows hpos]
      simp
      omega
  rw [text_eq, List.count_append, List.count_append, List.count_append, hname, ← harray]
  simp

/-- What is found of the tables of a file. -/
lemma map_tablesAt (gs : List Generated) {source after : Text} (before : Text)
    (hsource : source = before ++ (textOf ((gs.map setter).flatMap Setter.line) ++ after)) :
    (tablesAt (size before) gs).map (fun t => (t.name, t.receiver, t.numbers,
        (Text.position source t.start).line, (Text.position source t.stop).line))
      = spans (before.count '\n' + 1) gs := by
  induction gs generalizing before with
  | nil => rfl
  | cons g gs ih =>
    rw [List.map_cons, List.flatMap_cons, Piece.textOf_append, List.append_assoc] at hsource
    have hheight := g.count_text
    -- the two divisions of the text at the table
    have hstart : (Text.position source (size before + g.indent)).line = before.count '\n' + 1 := by
      have hline := line_append (before ++ spaces g.indent)
        (g.text ++ ['\n'] ++ (textOf ((gs.map setter).flatMap Setter.line) ++ after))
      rw [Text.size_append, size_spaces, List.count_append, count_spaces] at hline
      rw [hsource, textOf_line, ← hline]
      simp
    have hstop : (Text.position source (size before + g.indent + size g.text)).line
        = before.count '\n' + g.height := by
      have hline := line_append (before ++ spaces g.indent ++ g.text)
        (['\n'] ++ (textOf ((gs.map setter).flatMap Setter.line) ++ after))
      rw [Text.size_append, Text.size_append, size_spaces, List.count_append, List.count_append,
        count_spaces] at hline
      have hlast : (source.position (size before + g.indent + size g.text)).line
          = before.count '\n' + 0 + g.text.count '\n' + 1 := by
        rw [hsource, textOf_line, ← hline]
        simp
      omega
    have hrest := ih (before ++ textOf g.setter.line) (by rw [hsource]; simp)
    have hcount : (textOf g.setter.line).count '\n' = g.height := by
      rw [textOf_line, List.count_append, List.count_append, count_spaces, ← hheight]
      simp
    rw [Text.size_append, List.count_append, hcount] at hrest
    rw [tablesAt, List.map_cons, hrest, spans, tableAt]
    simp only [hstart, hstop]
    rw [show before.count '\n' + g.height + 1 = before.count '\n' + 1 + g.height by omega,
      show before.count '\n' + 1 + g.height - 1 = before.count '\n' + g.height by omega]

end Generated

end TablePack
