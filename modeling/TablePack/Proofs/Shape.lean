import Mathlib.Tactic
import TablePack.Proofs.Located
import TablePack.Proofs.Nesting

/-!
# Which statements are tables

What a table looks like is said by a grammar on nodes: the parts of a receiver (`ReceiverPart`), a
dot, a name, an equals sign, and an array whose literals stand in one row (`Elements`). A statement
of that shape (`IsTable`) is found wherever it stands in a tree, as long as no statement around it
is a table itself (`Outermost`).

* `Table.isTable_iff`: the grammar says of a statement what the search says;
* `Table.finds_inStatements`: which statements of a tree the search finds;
* `Table.locate_shape`: the tables of a text.
-/

namespace TablePack

open Numeral (Literal positional)
open Token (Kind Stream)

namespace Table

/-! ## The shape of a table -/

/-- The parts of a receiver: names, variables, dots and colons, and the groups that are no array. -/
inductive ReceiverPart : Node → Prop
  | leaf {t : Token} : t.kind ∈ [Kind.ident, .const, .var, .dot, .colons] → ReceiverPart (.leaf t)
  | group {opener closer : Token} {body : List Statement} :
      opener.kind ∈ [Kind.lparen, .indexBracket, .lbrace] →
      ReceiverPart (.block opener closer body)

/-- Integer literals with commas between them, and perhaps one more after the last literal. -/
inductive Row : Statement → List Token → Prop
  | last {t : Token} : t.kind = .int → Row [.leaf t] [t]
  | trailing {t comma : Token} : t.kind = .int → comma.kind = .comma →
      Row [.leaf t, .leaf comma] [t]
  | more {t comma : Token} {nodes : Statement} {literals : List Token} : t.kind = .int →
      comma.kind = .comma → Row nodes literals →
      Row (.leaf t :: .leaf comma :: nodes) (t :: literals)

/-- The body of an array that holds nothing but the given integer literals. -/
inductive Elements : List Statement → List Token → Prop
  | empty : Elements [] []
  | row {nodes : Statement} {literals : List Token} : Row nodes literals → Elements [nodes] literals

/-- What makes a statement a table with the given literals. -/
structure Form.Fits (f : Form) (marker : Char) (literals : List Token) : Prop where
  head_eq : f.parts.head? = some f.first
  getLast_eq : f.parts.getLast? = some f.last
  receiver : ∀ node ∈ f.parts, ReceiverPart node
  dot_text : f.dot.text = ['.']
  name_kind : f.name.kind = .ident
  name_text : ∃ c more, f.name.text = marker :: c :: more
  assign_kind : f.assign.kind = .assign
  opener_kind : f.opener.kind = .arrayBracket
  elements : Elements f.body literals

/-- What is told of the table that a statement is: its field, the text of its receiver, the values
of its literals, and where the statement starts and stops. -/
structure Form.Describes (f : Form) (source : Text) (literals : List Token) (table : Table) :
    Prop where
  name_eq : table.name = f.name.text
  receiver : Text.Excerpt source f.first.start f.last.stop table.receiver
  numbers : List.Forall₂
    (fun t n => ∃ radix digits, Literal t.text radix digits ∧
      n = min (positional radix digits) Numeral.limit) literals table.numbers
  start_eq : table.start = f.first.start
  stop_eq : table.stop = f.closer.stop

/-- A statement that has the shape of a table. -/
def IsTable (marker : Char) (statement : Statement) : Prop :=
  ∃ (f : Form) (literals : List Token), f.Fits marker literals ∧ statement = f.statement

/-! ## The shape and its recogniser -/

lemma receiverPart_iff {node : Node} : ReceiverPart node ↔ node.isReceiverPart := by
  constructor
  · rintro (⟨h⟩ | ⟨h⟩)
    · simp only [List.mem_cons, List.not_mem_nil, or_false] at h
      rcases h with h | h | h | h | h <;> simp [Node.isReceiverPart, h]
    · simp only [List.mem_cons, List.not_mem_nil, or_false] at h
      rcases h with h | h | h <;> simp [Node.isReceiverPart, Tree.isBracket, h]
  · intro h
    cases node with
    | leaf t =>
      refine .leaf ?_
      cases hkind : t.kind <;> simp_all [Node.isReceiverPart]
    | block opener closer body =>
      refine .group ?_
      cases hkind : opener.kind <;> simp_all [Node.isReceiverPart, Tree.isBracket]

lemma isFieldName_iff {marker : Char} {text : Text} :
    isFieldName marker text ↔ ∃ c more, text = marker :: c :: more := by
  constructor
  · intro h
    unfold isFieldName at h
    split at h
    · rename_i c d more
      obtain rfl : c = marker := by simpa using h
      exact ⟨d, more, rfl⟩
    · cases h
  · rintro ⟨c, more, rfl⟩
    simp [isFieldName]

lemma exists_of_integer? {node : Node} (h : node.integer?.isSome) :
    ∃ t : Token, node = .leaf t ∧ t.kind = .int := by
  cases node with
  | leaf t =>
    refine ⟨t, rfl, ?_⟩
    by_contra hkind
    simp [Node.integer?, hkind] at h
  | block => simp [Node.integer?] at h

lemma exists_of_isComma {node : Node} (h : node.isComma) :
    ∃ t : Token, node = .leaf t ∧ t.kind = .comma := by
  cases node with
  | leaf t => exact ⟨t, rfl, by simpa [Node.isComma, Node.kind?] using h⟩
  | block => simp [Node.isComma, Node.kind?] at h

lemma Row.isIntegerList {nodes : Statement} {literals : List Token} (h : Row nodes literals) :
    Table.isIntegerList nodes ∧ nodes.filterMap Node.integer? = literals.map Token.text := by
  induction h with
  | last ht => simp [Table.isIntegerList, Node.integer?, ht]
  | trailing ht hcomma =>
    simp [Table.isIntegerList, Node.integer?, Node.isComma, Node.kind?, ht, hcomma]
  | more ht hcomma _ ih =>
    simp [Table.isIntegerList, Node.integer?, Node.isComma, Node.kind?, ht, hcomma, ih]

lemma exists_row {nodes : Statement} (h : isIntegerList nodes) (hne : nodes ≠ []) :
    ∃ literals, Row nodes literals := by
  fun_induction isIntegerList nodes with
  | case1 => exact absurd rfl hne
  | case2 node =>
    obtain ⟨t, rfl, ht⟩ := exists_of_integer? h
    exact ⟨[t], .last ht⟩
  | case3 node separator nodes ih =>
    simp only [Bool.and_eq_true] at h
    obtain ⟨t, rfl, ht⟩ := exists_of_integer? h.1.1
    obtain ⟨comma, rfl, hcomma⟩ := exists_of_isComma h.1.2
    by_cases hnil : nodes = []
    · subst hnil
      exact ⟨[t], .trailing ht hcomma⟩
    · obtain ⟨literals, hrow⟩ := ih h.2 hnil
      exact ⟨t :: literals, .more ht hcomma hrow⟩

lemma elements?_eq_some_iff {body : List Statement} (hne : ∀ statement ∈ body, statement ≠ [])
    {numbers : List ℕ} :
    elements? body = some numbers ↔
      ∃ literals, Elements body literals ∧
        numbers = literals.map fun t => Numeral.value t.text := by
  constructor
  · intro h
    unfold elements? at h
    split at h
    · cases h
      exact ⟨[], .empty, rfl⟩
    · rename_i nodes
      split_ifs at h with hlist
      cases h
      obtain ⟨literals, hrow⟩ := exists_row hlist (hne nodes (by simp))
      refine ⟨literals, .row hrow, ?_⟩
      rw [hrow.isIntegerList.2, List.map_map]
      rfl
    · cases h
  · rintro ⟨literals, helements, rfl⟩
    cases helements with
    | empty => rfl
    | row hrow =>
      rw [elements?, if_pos hrow.isIntegerList.1, hrow.isIntegerList.2, List.map_map]
      rfl

lemma Row.mem {nodes : Statement} {literals : List Token} (h : Row nodes literals) {t : Token}
    (ht : t ∈ literals) : t.kind = .int ∧ t ∈ Node.statementTokens nodes := by
  induction h with
  | last hkind =>
    obtain rfl := List.mem_singleton.1 ht
    exact ⟨hkind, by simp [Node.statementTokens, Node.tokens]⟩
  | trailing hkind _ =>
    obtain rfl := List.mem_singleton.1 ht
    exact ⟨hkind, by simp [Node.statementTokens, Node.tokens]⟩
  | more hkind _ _ ih =>
    rcases List.mem_cons.1 ht with rfl | ht
    · exact ⟨hkind, by simp [Node.statementTokens, Node.tokens]⟩
    · exact ⟨(ih ht).1, by simp [Node.statementTokens, (ih ht).2]⟩

lemma Elements.mem {body : List Statement} {literals : List Token} (h : Elements body literals)
    {t : Token} (ht : t ∈ literals) : t.kind = .int ∧ t ∈ Node.bodyTokens body := by
  cases h with
  | empty => cases ht
  | row hrow => exact ⟨(hrow.mem ht).1, by simp [Node.bodyTokens, (hrow.mem ht).2]⟩

lemma Form.valid_iff {f : Form} {marker : Char} {numbers : List ℕ}
    (hne : ∀ statement ∈ f.body, statement ≠ []) :
    f.Valid marker numbers ↔
      ∃ literals, f.Fits marker literals ∧
        numbers = literals.map fun t => Numeral.value t.text := by
  constructor
  · intro h
    obtain ⟨literals, helements, hnumbers⟩ := (elements?_eq_some_iff hne).1 h.elements
    exact ⟨literals, ⟨h.head_eq, h.getLast_eq,
      fun node hnode => receiverPart_iff.2 (h.receiver node hnode), h.dot_text, h.name_kind,
      isFieldName_iff.1 h.name_text, h.assign_kind, h.opener_kind, helements⟩, hnumbers⟩
  · rintro ⟨literals, h, hnumbers⟩
    exact ⟨h.head_eq, h.getLast_eq, fun node hnode => receiverPart_iff.1 (h.receiver node hnode),
      h.dot_text, h.name_kind, isFieldName_iff.2 h.name_text, h.assign_kind, h.opener_kind,
      (elements?_eq_some_iff hne).2 ⟨literals, h.elements, hnumbers⟩⟩

lemma Form.body_ne_nil {f : Form} (h : ∀ node ∈ f.statement, node.Sturdy) :
    ∀ statement ∈ f.body, statement ≠ [] := by
  cases h (.block f.opener f.closer f.body) (by simp [Form.statement]) with
  | block _ hne _ => exact hne

/-- A statement of a tree is recognised where it has the shape of a table. -/
lemma isTable_iff {source : Text} {marker : Char} {statement : Statement}
    (hsturdy : ∀ node ∈ statement, node.Sturdy) :
    IsTable marker statement ↔ ∃ table, ofStatement? source marker statement = some table := by
  constructor
  · rintro ⟨f, literals, hfits, rfl⟩
    refine ⟨f.table source (literals.map fun t => Numeral.value t.text),
      ofStatement?_eq_some_iff.2 ⟨f, ?_, rfl, rfl⟩⟩
    exact (Form.valid_iff (Form.body_ne_nil hsturdy)).2 ⟨literals, hfits, rfl⟩
  · rintro ⟨table, htable⟩
    obtain ⟨f, hvalid, rfl, -⟩ := exists_form_of_ofStatement? htable
    obtain ⟨literals, hfits, -⟩ := (Form.valid_iff (Form.body_ne_nil hsturdy)).1 hvalid
    exact ⟨f, literals, hfits, rfl⟩

/-! ## The search -/

/-- A statement at any depth of a list of statements that is inside of no table. -/
inductive Outermost (marker : Char) : List Statement → Statement → Prop
  | here {body : List Statement} {statement : Statement} : statement ∈ body →
      Outermost marker body statement
  | inside {body inner : List Statement} {outer statement : Statement} {opener closer : Token} :
      outer ∈ body → ¬ IsTable marker outer → .block opener closer inner ∈ outer →
      Outermost marker inner statement → Outermost marker body statement

/-- A statement in one of the blocks among some nodes. -/
def InBlocks (marker : Char) (nodes : List Node) (statement : Statement) : Prop :=
  ∃ opener closer inner, .block opener closer inner ∈ nodes ∧ Outermost marker inner statement

lemma outermost_cons_iff {marker : Char} {first statement : Statement} {body : List Statement} :
    Outermost marker (first :: body) statement ↔ statement = first ∨
      (¬ IsTable marker first ∧ InBlocks marker first statement) ∨
      Outermost marker body statement := by
  constructor
  · rintro (hmem | ⟨hmem, hnot, hblock, hinner⟩)
    · rcases List.mem_cons.1 hmem with rfl | hmem
      · exact .inl rfl
      · exact .inr (.inr (.here hmem))
    · rcases List.mem_cons.1 hmem with rfl | hmem
      · exact .inr (.inl ⟨hnot, _, _, _, hblock, hinner⟩)
      · exact .inr (.inr (.inside hmem hnot hblock hinner))
  · rintro (rfl | ⟨hnot, opener, closer, inner, hblock, hinner⟩ | hbody)
    · exact .here (by simp)
    · exact .inside (by simp) hnot hblock hinner
    · cases hbody with
      | here hmem => exact .here (by simp [hmem])
      | inside hmem hnot hblock hinner => exact .inside (by simp [hmem]) hnot hblock hinner

lemma inBlocks_cons_leaf {marker : Char} {t : Token} {nodes : List Node} {statement : Statement} :
    InBlocks marker (.leaf t :: nodes) statement ↔ InBlocks marker nodes statement := by
  simp [InBlocks]

lemma inBlocks_cons_block {marker : Char} {opener closer : Token} {body : List Statement}
    {nodes : List Node} {statement : Statement} :
    InBlocks marker (.block opener closer body :: nodes) statement ↔
      Outermost marker body statement ∨ InBlocks marker nodes statement := by
  constructor
  · rintro ⟨opener', closer', inner, hmem, hinner⟩
    rcases List.mem_cons.1 hmem with heq | hmem
    · cases heq
      exact .inl hinner
    · exact .inr ⟨opener', closer', inner, hmem, hinner⟩
  · rintro (hbody | ⟨opener', closer', inner, hmem, hinner⟩)
    · exact ⟨opener, closer, body, by simp, hbody⟩
    · exact ⟨opener', closer', inner, by simp [hmem], hinner⟩

/-- The tables are the statements with a property, one after another in some tokens. -/
def Finds (source : Text) (marker : Char) (Found : Statement → Prop) (tokens : List Token)
    (tables : List Table) : Prop :=
  ∃ statements : List Statement,
    List.Forall₂ (fun s table => ofStatement? source marker s = some table) statements tables ∧
    (∀ s, s ∈ statements ↔ Found s) ∧
    (statements.flatMap Node.statementTokens).Sublist tokens

namespace Finds

variable {source : Text} {marker : Char} {Found Later : Statement → Prop}
  {tokens more : List Token} {tables others : List Table}

lemma none (hfound : ∀ s, ¬ Found s) : Finds source marker Found tokens [] :=
  ⟨[], .nil, by simpa using hfound, by simp⟩

lemma one {statement : Statement} {table : Table}
    (h : ofStatement? source marker statement = some table) :
    Finds source marker (· = statement) (Node.statementTokens statement) [table] :=
  ⟨[statement], .cons h .nil, by simp, by simp⟩

lemma append (h : Finds source marker Found tokens tables)
    (h' : Finds source marker Later more others) :
    Finds source marker (fun s => Found s ∨ Later s) (tokens ++ more) (tables ++ others) := by
  obtain ⟨statements, htables, hmem, hsub⟩ := h
  obtain ⟨statements', htables', hmem', hsub'⟩ := h'
  refine ⟨statements ++ statements', List.rel_append htables htables', fun s => ?_, ?_⟩
  · rw [List.mem_append, hmem, hmem']
  · rw [List.flatMap_append]
    exact hsub.append hsub'

lemma congr (h : Finds source marker Found tokens tables) (hfound : ∀ s, Later s ↔ Found s)
    (hsub : tokens.Sublist more) : Finds source marker Later more tables := by
  obtain ⟨statements, htables, hmem, hsub'⟩ := h
  exact ⟨statements, htables, fun s => (hmem s).trans (hfound s).symm, hsub'.trans hsub⟩

end Finds

mutual

lemma finds_inNodes (source : Text) (marker : Char) : ∀ nodes : List Node,
    (∀ node ∈ nodes, node.Sturdy) →
      Finds source marker (fun s => InBlocks marker nodes s ∧ IsTable marker s)
        (Node.statementTokens nodes) (inNodes source marker nodes)
  | [], _ => by
    rw [inNodes]
    exact .none (by simp [InBlocks])
  | .leaf t :: nodes, h => by
    have hnodes := finds_inNodes source marker nodes (List.forall_mem_cons.1 h).2
    rw [Node.statementTokens, inNodes]
    exact hnodes.congr (fun s => by rw [inBlocks_cons_leaf]) (List.sublist_append_right _ _)
  | .block opener closer body :: nodes, h => by
    obtain ⟨hblock, hrest⟩ := List.forall_mem_cons.1 h
    have hsturdy : ∀ statement ∈ body, ∀ node ∈ statement, node.Sturdy := by
      cases hblock with
      | block _ _ hbody => exact hbody
    have hbody := finds_inStatements source marker body hsturdy
    have hnodes := finds_inNodes source marker nodes hrest
    rw [Node.statementTokens, inNodes]
    refine (hbody.append hnodes).congr (fun s => ?_) (List.Sublist.append ?_ (List.Sublist.refl _))
    · rw [inBlocks_cons_block, or_and_right]
    · rw [Node.tokens]
      exact (List.sublist_append_left _ _).cons _

/-- The search finds the outermost statements of a tree that have the shape of a table. -/
lemma finds_inStatements (source : Text) (marker : Char) : ∀ body : List (List Node),
    (∀ statement ∈ body, ∀ node ∈ statement, node.Sturdy) →
      Finds source marker (fun s => Outermost marker body s ∧ IsTable marker s)
        (Node.bodyTokens body) (inStatements source marker body)
  | [], _ => by
    rw [inStatements]
    refine .none fun s hs => ?_
    rcases hs.1 with hmem | ⟨hmem, -, -, -⟩ <;> cases hmem
  | first :: body, h => by
    obtain ⟨hfirst, hbody⟩ := List.forall_mem_cons.1 h
    have hrest := finds_inStatements source marker body hbody
    rw [Node.bodyTokens, inStatements]
    cases hs : ofStatement? source marker first with
    | none =>
      have hnot : ¬ IsTable marker first := by
        rw [@isTable_iff source _ _ hfirst, hs]
        simp
      have hinner := finds_inNodes source marker first hfirst
      refine (hinner.append hrest).congr (fun s => ?_) (List.Sublist.refl _)
      rw [outermost_cons_iff, ← or_and_right]
      constructor
      · rintro ⟨rfl | ⟨-, hinner⟩ | hlater, htable⟩
        · exact absurd htable hnot
        · exact ⟨.inl hinner, htable⟩
        · exact ⟨.inr hlater, htable⟩
      · rintro ⟨hinner | hlater, htable⟩
        · exact ⟨.inr (.inl ⟨hnot, hinner⟩), htable⟩
        · exact ⟨.inr (.inr hlater), htable⟩
    | some table =>
      have hfits : IsTable marker first := (isTable_iff hfirst).2 ⟨table, hs⟩
      refine ((Finds.one hs).append hrest).congr (fun s => ?_) (List.Sublist.refl _)
      rw [outermost_cons_iff]
      constructor
      · rintro ⟨rfl | ⟨hnot, -⟩ | hlater, htable⟩
        · exact .inl rfl
        · exact absurd hfits hnot
        · exact .inr ⟨hlater, htable⟩
      · rintro (rfl | ⟨hlater, htable⟩)
        · exact ⟨.inl rfl, hfits⟩
        · exact ⟨.inr (.inr hlater), htable⟩

end

/-! ## The tables of a text -/

lemma Outermost.sturdy {marker : Char} {body : List Statement} {statement : Statement}
    (h : Outermost marker body statement) (hne : ∀ s ∈ body, s ≠ [])
    (hsturdy : ∀ s ∈ body, ∀ node ∈ s, node.Sturdy) :
    statement ≠ [] ∧ ∀ node ∈ statement, node.Sturdy := by
  induction h with
  | here hmem => exact ⟨hne _ hmem, hsturdy _ hmem⟩
  | inside hmem _ hblock _ ih =>
    cases hsturdy _ hmem _ hblock with
    | block _ hinner hnodes => exact ih hinner hnodes

/-- What is told of the table that a statement is recognised as. -/
lemma exists_describes {source : Text} {marker : Char} {statement : Statement} {table : Table}
    (h : ofStatement? source marker statement = some table)
    (hsturdy : ∀ node ∈ statement, node.Sturdy)
    (hstream : Stream source (Node.statementTokens statement))
    (hspelled : ∀ t ∈ Node.statementTokens statement, t.SpelledApart) :
    ∃ (f : Form) (literals : List Token), f.Fits marker literals ∧ statement = f.statement ∧
      f.Describes source literals table := by
  obtain ⟨f, hvalid, rfl, htable⟩ := exists_form_of_ofStatement? h
  obtain ⟨literals, hfits, hnumbers⟩ := (Form.valid_iff (Form.body_ne_nil hsturdy)).1 hvalid
  refine ⟨f, literals, hfits, rfl, ?_⟩
  have hvalues : List.Forall₂
      (fun t n => ∃ radix digits, Literal t.text radix digits ∧
        n = min (positional radix digits) Numeral.limit) literals table.numbers := by
    rw [hnumbers, List.forall₂_map_right_iff, List.forall₂_same]
    intro t ht
    obtain ⟨hkind, hmem⟩ := hfits.elements.mem ht
    have htoken : t ∈ Node.statementTokens f.statement := by
      simp [Form.statement, Node.statementTokens, Node.tokens, hmem]
    obtain ⟨radix, digits, hliteral⟩ := (hspelled t htoken).exists_literal hkind
    exact ⟨radix, digits, hliteral, Numeral.value_eq_min hliteral⟩
  have hreceiver := hvalid.excerpt hstream
  rw [htable] at hvalues ⊢
  exact ⟨rfl, hreceiver, hvalues, rfl, rfl⟩

lemma tokens_sublist_statementTokens {node : Node} {statement : Statement} (h : node ∈ statement) :
    node.tokens.Sublist (Node.statementTokens statement) := by
  rw [Node.statementTokens_eq_flatMap, List.flatMap]
  exact List.sublist_flatten_of_mem (List.mem_map_of_mem h)

/-- Nodes follow one another where the tokens of their statements do. -/
lemma pairwise_statements {statements : List Statement}
    (h : (statements.flatMap Node.statementTokens).Pairwise fun a b => a.stop ≤ b.start) :
    statements.Pairwise fun a b => ∀ m ∈ a, ∀ n ∈ b, m.stop ≤ n.start := by
  refine (List.pairwise_flatMap.1 h).2.imp fun {a b} hab m hm n hn => ?_
  obtain ⟨ts, last, hlast, hstop⟩ := m.exists_tokens_eq_concat
  obtain ⟨first, us, hfirst, hstart⟩ := n.exists_tokens_eq_cons
  rw [← hstop, ← hstart]
  exact hab last ((tokens_sublist_statementTokens hm).subset (by simp [hlast])) first
    ((tokens_sublist_statementTokens hn).subset (by simp [hfirst]))

/-- The tables of a text are the statements of its tree that have the shape of a table and are
inside of no other table, at any depth. There is one table for each of them, in the order of the
text, and it has the name of the field, the receiver as it is written and the values of the
literals. -/
theorem locate_shape {source : Text} {tree : List Statement} (h : Tree.ofText source = .ok tree)
    (marker : Char) :
    ∃ tables statements, locate source marker = .ok tables ∧
      List.Forall₂
        (fun statement table => ∃ (f : Form) (literals : List Token), f.Fits marker literals ∧
          statement = f.statement ∧ f.Describes source literals table) statements tables ∧
      (∀ statement, statement ∈ statements ↔
        Outermost marker tree statement ∧ IsTable marker statement) ∧
      statements.Nodup ∧
      statements.Pairwise fun a b => ∀ m ∈ a, ∀ n ∈ b, m.stop ≤ n.start := by
  obtain ⟨tokens, hlex, htokens⟩ := Tree.exists_tokens_of_ofText h
  obtain ⟨hne, hsturdy⟩ := Tree.sturdy_of_build htokens (.empty false) (by simp [Tree.SturdyStack])
  obtain ⟨statements, htables, hmem, hsub⟩ := finds_inStatements source marker tree hsturdy
  rw [Tree.bodyTokens_of_ofTokens htokens] at hsub
  replace hsub := hsub.trans List.filter_sublist
  obtain ⟨hstream, hspelled⟩ := Token.stream_of_lex hlex
  replace hstream := hstream.sublist hsub
  have hinside : ∀ s ∈ statements, (Node.statementTokens s).Sublist
      (statements.flatMap Node.statementTokens) := fun s hs => by
    rw [List.flatMap]
    exact List.sublist_flatten_of_mem (List.mem_map_of_mem hs)
  have houter : ∀ s ∈ statements, s ≠ [] ∧ ∀ node ∈ s, node.Sturdy := fun s hs =>
    ((hmem s).1 hs).1.sturdy hne hsturdy
  have hordered := pairwise_statements hstream.ordered
  refine ⟨_, statements, by rw [locate, h]; rfl, ?_, hmem, ?_, hordered⟩
  · refine ((List.forall₂_and_left statements _).2 ⟨fun s hs => hs, htables⟩).imp ?_
    rintro s table ⟨hs, htable⟩
    exact exists_describes htable (houter s hs).2 (hstream.sublist (hinside s hs)) fun t ht =>
      hspelled t (hsub.subset ((hinside s hs).subset ht))
  · refine hordered.imp_of_mem fun {a b} ha hb hab heq => ?_
    subst heq
    obtain ⟨node, hnode⟩ := List.exists_mem_of_ne_nil a (houter a ha).1
    have hspan := (Node.Sequenced.sublist ⟨hstream.ne_nil, hstream.ordered⟩
      ((tokens_sublist_statementTokens hnode).trans (hinside a ha))).start_lt_stop
    exact absurd (hab node hnode node hnode) (by omega)

/-- A table inside of a module that has another one in its receiver, next to an array that holds a
negative number. -/
theorem locate_shape_receiver :
    ∃ tree statements,
      Tree.ofText "module M\n f(g._a = [1])._b = [0x1f,\n 2,]\n h._c = [-1]\nend\n".toList
        = .ok tree ∧
      List.Forall₂
        (fun statement table => ∃ (f : Form) (literals : List Token), f.Fits '_' literals ∧
          statement = f.statement ∧ f.Describes
            "module M\n f(g._a = [1])._b = [0x1f,\n 2,]\n h._c = [-1]\nend\n".toList literals table)
        statements [⟨"_b".toList, "f(g._a = [1])".toList, [31, 2], 10, 40⟩] ∧
      ∀ statement, statement ∈ statements ↔
        Outermost '_' tree statement ∧ IsTable '_' statement := by
  have hlocate : locate "module M\n f(g._a = [1])._b = [0x1f,\n 2,]\n h._c = [-1]\nend\n".toList '_'
      = .ok [⟨"_b".toList, "f(g._a = [1])".toList, [31, 2], 10, 40⟩] := by
    decide +kernel
  obtain ⟨tree, htree, -⟩ := eq_ok_of_map_eq_ok hlocate
  obtain ⟨tables, statements, hfound, hdescribes, hmem, -, -⟩ := locate_shape htree '_'
  cases hlocate.symm.trans hfound
  exact ⟨tree, statements, htree, hdescribes, hmem⟩

end Table

end TablePack
