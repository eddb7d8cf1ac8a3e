import Mathlib.Tactic
import TablePack.Proofs.Constructor
import TablePack.Proofs.Exchange.Tree

/-!
# The tables after an exchange

The array of a table is exchanged for something else. Then the statement is no table any more, and
all other tables are found as before.

The search is described by the statements that it stops at, the `Table.sites` of a tree. An exchange
acts on these: it removes the one that holds the array, and it changes the others as it changes the
tree.

* `Table.inStatements_eq`: the tables are those of the sites;
* `Exchange.ofStatement?_statement`: a statement that does not hold the array;
* `Exchange.sites_body`: the sites of the new tree;
* `Exchange.sites_of_site`: the same for an array that is the value of a table.
-/

namespace TablePack

open Node (statementTokens bodyTokens)

/-! ## Sites -/

namespace Table

/-- Two tables with the same name and the same numbers. -/
structure Alike (a b : Table) : Prop where
  name_eq : b.name = a.name
  numbers_eq : b.numbers = a.numbers

/-- Whether a statement is a table. The source only decides how the receiver is spelled. -/
def isTable (marker : Char) (statement : Statement) : Bool :=
  (ofStatement? [] marker statement).isSome

lemma isSome_ofStatement?_iff {source : Text} {marker : Char} {statement : Statement} :
    (ofStatement? source marker statement).isSome ↔
      ∃ (f : Form) (numbers : List ℕ), f.Valid marker numbers ∧ statement = f.statement := by
  rw [Option.isSome_iff_exists]
  constructor
  · rintro ⟨t, ht⟩
    obtain ⟨f, hvalid, hstatement, -⟩ := ofStatement?_eq_some_iff.1 ht
    exact ⟨f, t.numbers, hvalid, hstatement⟩
  · rintro ⟨f, numbers, hvalid, hstatement⟩
    exact ⟨f.table source numbers, ofStatement?_eq_some_iff.2 ⟨f, hvalid, hstatement, rfl⟩⟩

lemma isSome_ofStatement? (source : Text) (marker : Char) (statement : Statement) :
    (ofStatement? source marker statement).isSome = isTable marker statement := by
  rw [isTable, Bool.eq_iff_iff, isSome_ofStatement?_iff, isSome_ofStatement?_iff]

mutual

/-- The statements in the blocks of a statement at which the search stops. -/
def sitesInNodes (marker : Char) : List Node → List Statement
  | [] => []
  | .leaf _ :: nodes => sitesInNodes marker nodes
  | .block _ _ body :: nodes => sites marker body ++ sitesInNodes marker nodes

/-- The statements at which the search for tables stops, in order. -/
def sites (marker : Char) : List (List Node) → List Statement
  | [] => []
  | statement :: statements =>
    (if isTable marker statement then [statement] else sitesInNodes marker statement)
      ++ sites marker statements

end

mutual

lemma inNodes_eq (source : Text) (marker : Char) : ∀ nodes : List Node,
    inNodes source marker nodes
      = (sitesInNodes marker nodes).filterMap (ofStatement? source marker)
  | [] => by rw [inNodes, sitesInNodes, List.filterMap_nil]
  | .leaf _ :: nodes => by rw [inNodes, sitesInNodes, inNodes_eq source marker nodes]
  | .block _ _ body :: nodes => by
    rw [inNodes, sitesInNodes, List.filterMap_append, inNodes_eq source marker nodes,
      inStatements_eq source marker body]

/-- The tables of a tree are those of its sites. -/
lemma inStatements_eq (source : Text) (marker : Char) : ∀ tree : List (List Node),
    inStatements source marker tree = (sites marker tree).filterMap (ofStatement? source marker)
  | [] => by rw [inStatements, sites, List.filterMap_nil]
  | statement :: statements => by
    have hsome := isSome_ofStatement? source marker statement
    rw [inStatements, sites, List.filterMap_append, inStatements_eq source marker statements]
    cases htable : ofStatement? source marker statement with
    | none =>
      rw [htable] at hsome
      rw [← hsome, inNodes_eq source marker statement]
      rfl
    | some table =>
      rw [htable] at hsome
      rw [← hsome]
      simp [htable]

end

mutual

lemma isTable_of_mem_sitesInNodes {marker : Char} {site : Statement} : ∀ nodes : List Node,
    site ∈ sitesInNodes marker nodes → isTable marker site
  | [], h => by
    rw [sitesInNodes] at h
    cases h
  | .leaf _ :: nodes, h => by
    rw [sitesInNodes] at h
    exact isTable_of_mem_sitesInNodes nodes h
  | .block _ _ body :: nodes, h => by
    rw [sitesInNodes, List.mem_append] at h
    exact h.elim (isTable_of_mem_sites body) (isTable_of_mem_sitesInNodes nodes)

lemma isTable_of_mem_sites {marker : Char} {site : Statement} : ∀ tree : List (List Node),
    site ∈ sites marker tree → isTable marker site
  | [], h => by
    rw [sites] at h
    cases h
  | statement :: statements, h => by
    rw [sites, List.mem_append] at h
    refine h.elim (fun h => ?_) (isTable_of_mem_sites statements)
    split at h
    · rename_i htable
      rwa [List.mem_singleton.1 h]
    · exact isTable_of_mem_sitesInNodes statement h

end

lemma sitesInNodes_append (marker : Char) (a b : List Node) :
    sitesInNodes marker (a ++ b) = sitesInNodes marker a ++ sitesInNodes marker b := by
  induction a with
  | nil => rw [List.nil_append, sitesInNodes, List.nil_append]
  | cons node nodes ih =>
    cases node with
    | leaf t => rw [List.cons_append, sitesInNodes, sitesInNodes, ih]
    | block opener closer body =>
      rw [List.cons_append, sitesInNodes, sitesInNodes, ih, List.append_assoc]

/-- Where no table is found there is no site. -/
lemma sitesInNodes_eq_nil {source : Text} {marker : Char} {nodes : List Node}
    (h : inNodes source marker nodes = []) : sitesInNodes marker nodes = [] := by
  rw [inNodes_eq, List.filterMap_eq_nil_iff] at h
  refine List.eq_nil_iff_forall_not_mem.2 fun site hsite => ?_
  have htable := isTable_of_mem_sitesInNodes nodes hsite
  rw [← isSome_ofStatement? source, h site hsite] at htable
  cases htable

mutual

lemma sublist_sitesInNodes (marker : Char) : ∀ nodes : List Node,
    ((sitesInNodes marker nodes).flatMap statementTokens).Sublist (statementTokens nodes)
  | [] => by
    rw [sitesInNodes]
    exact List.nil_sublist _
  | .leaf t :: nodes => by
    rw [sitesInNodes, statementTokens]
    exact (sublist_sitesInNodes marker nodes).trans (List.sublist_append_right _ _)
  | .block opener closer body :: nodes => by
    rw [sitesInNodes, List.flatMap_append, statementTokens, Node.tokens]
    refine List.Sublist.append ?_ (sublist_sitesInNodes marker nodes)
    exact ((sublist_sites marker body).trans (List.sublist_append_left _ _)).trans
      (List.sublist_cons_self _ _)

/-- The sites of a tree lie in its tokens one after another. -/
lemma sublist_sites (marker : Char) : ∀ tree : List (List Node),
    ((sites marker tree).flatMap statementTokens).Sublist (bodyTokens tree)
  | [] => by
    rw [sites]
    exact List.nil_sublist _
  | statement :: statements => by
    rw [sites, List.flatMap_append, bodyTokens]
    refine List.Sublist.append ?_ (sublist_sites marker statements)
    split
    · simp
    · exact sublist_sitesInNodes marker statement

end

end Table

/-! ## A statement after an exchange -/

namespace Exchange

variable (x : Exchange)

/-- Whether a node is the array. -/
def isArray : Node → Bool
  | .leaf _ => false
  | .block opener _ _ => opener == x.opener

/-- Whether the array is a node of a statement. -/
def holds (nodes : List Node) : Bool := nodes.any x.isArray

/-- What becomes of a node that is not the array. -/
def nodeMap : Node → Node
  | .leaf token => .leaf (x.relabeling.token token)
  | .block opener closer statements =>
    .block (x.relabeling.token opener) (x.relabeling.token closer) (x.body statements)

lemma nodeMap_leaf (t : Token) : x.nodeMap (.leaf t) = .leaf (x.relabeling.token t) := rfl

lemma nodeMap_block (opener closer : Token) (statements : List Statement) :
    x.nodeMap (.block opener closer statements)
      = .block (x.relabeling.token opener) (x.relabeling.token closer) (x.body statements) := rfl

lemma node_of_isArray {first : Node} (h : x.isArray first) : x.node first = x.nodes := by
  cases first with
  | leaf token => cases h
  | block opener closer statements =>
    rw [isArray, beq_iff_eq] at h
    rw [node, if_pos h]

lemma node_of_not_isArray {first : Node} (h : x.isArray first = false) :
    x.node first = [x.nodeMap first] := by
  cases first with
  | leaf token => rw [node, nodeMap]
  | block opener closer statements =>
    rw [isArray, beq_eq_false_iff_ne] at h
    rw [node, if_neg h, nodeMap]

lemma holds_cons (first : Node) (nodes : List Node) :
    x.holds (first :: nodes) = (x.isArray first || x.holds nodes) := List.any_cons

lemma statement_of_not_holds {nodes : List Node} (h : x.holds nodes = false) :
    x.statement nodes = nodes.map x.nodeMap := by
  induction nodes with
  | nil => rw [statement, List.map_nil]
  | cons first nodes ih =>
    rw [holds_cons, Bool.or_eq_false_iff] at h
    rw [statement, x.node_of_not_isArray h.1, ih h.2, List.map_cons, List.singleton_append]

lemma kind?_nodeMap (first : Node) : (x.nodeMap first).kind? = first.kind? := by
  cases first <;> simp [nodeMap, Node.kind?]

lemma integer?_nodeMap (first : Node) : (x.nodeMap first).integer? = first.integer? := by
  cases first <;> simp [nodeMap, Node.integer?, x.text_token]

lemma isReceiverPart_nodeMap (first : Node) :
    (x.nodeMap first).isReceiverPart = first.isReceiverPart := by
  cases first <;> simp [nodeMap, Node.isReceiverPart]

lemma integer?_of_isArray {first : Node} (h : x.isArray first) :
    first.integer? = none ∧ first.isComma = false := by
  cases first with
  | leaf token => cases h
  | block opener closer statements => exact ⟨rfl, rfl⟩

lemma isIntegerList_cons_of_none {first : Node} (h : first.integer? = none) (nodes : List Node) :
    Table.isIntegerList (first :: nodes) = false := by
  cases nodes <;> simp [Table.isIntegerList, h]

/-- Neither the array nor what stands in its place is part of a list of integers. -/
lemma isIntegerList_statement (nodes : List Node) :
    Table.isIntegerList (x.statement nodes) = Table.isIntegerList nodes := by
  obtain ⟨t, rest, hnodes, hint, hcomma⟩ := x.exists_first
  have hfirst : (Node.leaf t).integer? = none := by simp [Node.integer?, hint]
  have hseparator : (Node.leaf t).isComma = false := by simp [Node.isComma, Node.kind?, hcomma]
  fun_induction Table.isIntegerList nodes with
  | case1 => rw [statement, Table.isIntegerList]
  | case2 node =>
    rw [statement, statement, List.append_nil]
    cases harray : x.isArray node with
    | true =>
      rw [x.node_of_isArray harray, hnodes, isIntegerList_cons_of_none hfirst,
        (x.integer?_of_isArray harray).1]
      rfl
    | false => rw [x.node_of_not_isArray harray, Table.isIntegerList, integer?_nodeMap]
  | case3 node separator nodes ih =>
    rw [statement, statement]
    cases harray : x.isArray node with
    | true =>
      rw [x.node_of_isArray harray, hnodes, List.cons_append, isIntegerList_cons_of_none hfirst,
        (x.integer?_of_isArray harray).1]
      rfl
    | false =>
      rw [x.node_of_not_isArray harray, List.singleton_append]
      cases hcloser : x.isArray separator with
      | true =>
        rw [x.node_of_isArray hcloser, hnodes, List.cons_append, Table.isIntegerList, hseparator,
          (x.integer?_of_isArray hcloser).2]
        simp
      | false =>
        rw [x.node_of_not_isArray hcloser, List.singleton_append, Table.isIntegerList, ih,
          integer?_nodeMap, Node.isComma, kind?_nodeMap, Node.isComma]

lemma not_holds_of_isIntegerList {nodes : List Node} (h : Table.isIntegerList nodes) :
    x.holds nodes = false := by
  fun_induction Table.isIntegerList nodes with
  | case1 => rfl
  | case2 node =>
    rw [holds_cons, Bool.or_eq_false_iff]
    refine ⟨?_, rfl⟩
    by_contra harray
    rw [(x.integer?_of_isArray (by simpa using harray)).1] at h
    cases h
  | case3 node separator nodes ih =>
    rw [Bool.and_eq_true_iff, Bool.and_eq_true_iff] at h
    rw [holds_cons, holds_cons, Bool.or_eq_false_iff, Bool.or_eq_false_iff]
    refine ⟨?_, ?_, ih h.2⟩
    · by_contra harray
      rw [(x.integer?_of_isArray (by simpa using harray)).1] at h
      cases h.1.1
    · by_contra harray
      rw [(x.integer?_of_isArray (by simpa using harray)).2] at h
      cases h.1.2

lemma elements?_body (statements : List Statement) :
    Table.elements? (x.body statements) = Table.elements? statements := by
  rw [body_eq_map]
  match statements with
  | [] => rfl
  | [nodes] =>
    rw [List.map_singleton, Table.elements?, Table.elements?, isIntegerList_statement]
    split
    · rename_i hlist
      rw [x.statement_of_not_holds (x.not_holds_of_isIntegerList hlist), List.filterMap_map]
      exact congrArg (fun texts : List Text => some (texts.map Numeral.value))
        (List.filterMap_congr fun node _ => x.integer?_nodeMap node)
    · rfl
  | _ :: _ :: _ => rfl

/-- A statement that does not hold the array is a table before and after, or never. -/
lemma ofStatement?_statement (source source' : Text) (marker : Char) {nodes : List Node}
    (h : x.holds nodes = false) :
    Option.Rel Table.Alike (Table.ofStatement? source marker nodes)
      (Table.ofStatement? source' marker (x.statement nodes)) := by
  rw [x.statement_of_not_holds h, Table.ofStatement?, Table.ofStatement?, List.head?_map,
    ← List.map_reverse]
  generalize nodes.reverse = reversed
  cases nodes.head? with
  | none => exact .none
  | some first =>
    rcases reversed with _ | ⟨_ | ⟨opener, closer, statements⟩, _ | ⟨assign | _, _ | ⟨name | _,
      _ | ⟨dot | _, _ | ⟨last, parts⟩⟩⟩⟩⟩
    all_goals try exact .none
    have hparts : ((last :: parts).map x.nodeMap).all Node.isReceiverPart
        = (last :: parts).all Node.isReceiverPart := by
      simp only [List.all_map, Function.comp_def, isReceiverPart_nodeMap]
    simp only [Option.map_some, List.map_cons] at hparts ⊢
    simp only [nodeMap_leaf, nodeMap_block, hparts, Relabeling.kind_token, x.text_token,
      x.elements?_body]
    split
    · cases Table.elements? statements with
      | none => exact .none
      | some numbers => exact .some ⟨rfl, rfl⟩
    · exact .none

lemma isTable_statement (marker : Char) {nodes : List Node} (h : x.holds nodes = false) :
    Table.isTable marker (x.statement nodes) = Table.isTable marker nodes := by
  have hrel := x.ofStatement?_statement [] [] marker h
  rw [Table.isTable, Table.isTable]
  generalize Table.ofStatement? [] marker nodes = found at hrel
  generalize Table.ofStatement? [] marker (x.statement nodes) = found' at hrel
  cases hrel <;> rfl

/-- A statement that ended with the array is no table any more. -/
lemma not_isTable_of_array (marker : Char) (init : List Node) :
    Table.isTable marker (init ++ x.nodes) = false := by
  obtain ⟨front, opener, closer, statements, hnodes, hkind⟩ := x.exists_last
  rw [Table.isTable, hnodes, ← List.append_assoc]
  rw [Table.ofStatement?_eq_none]
  · rfl
  · rintro opener' closer' statements' ⟨⟩
    exact hkind

/-! ## The sites after an exchange -/

mutual

/-- In the blocks of a statement, the array is only held by a table without a site inside. -/
def Lone (marker : Char) : List Node → Prop
  | [] => True
  | .leaf _ :: nodes => Lone marker nodes
  | .block _ _ statements :: nodes => LoneBody marker statements ∧ Lone marker nodes

/-- In a tree, the array is only held by a table without a site inside. -/
def LoneBody (marker : Char) : List (List Node) → Prop
  | [] => True
  | statement :: statements =>
    (x.holds statement → Table.isTable marker statement ∧
      Table.sitesInNodes marker statement = []) ∧
      Lone marker statement ∧ LoneBody marker statements

end

/-- The array ends the table that holds it. -/
lemma exists_init {marker : Char} {nodes : List Node} (hholds : x.holds nodes)
    (htable : Table.isTable marker nodes) :
    ∃ init last, nodes = init ++ [last] ∧ x.isArray last ∧ x.holds init = false := by
  obtain ⟨f, numbers, hvalid, rfl⟩ := Table.isSome_ofStatement?_iff.1 htable
  have hinit : x.holds (f.parts ++ [.leaf f.dot, .leaf f.name, .leaf f.assign]) = false := by
    rw [holds, List.any_append, Bool.or_eq_false_iff]
    refine ⟨?_, rfl⟩
    rw [List.any_eq_false]
    intro part hpart
    cases part with
    | leaf token => simp [isArray]
    | block opener closer statements =>
      -- An array is no part of a receiver.
      have hreceiver := hvalid.receiver _ hpart
      simp only [Node.isReceiverPart, Bool.and_eq_true, bne_iff_ne] at hreceiver
      rw [isArray, beq_iff_eq]
      rintro rfl
      exact hreceiver.2 x.opener_kind
  have hstatement : f.statement = (f.parts ++ [.leaf f.dot, .leaf f.name, .leaf f.assign])
      ++ [.block f.opener f.closer f.body] := by
    simp [Table.Form.statement]
  refine ⟨_, _, hstatement, ?_, hinit⟩
  rw [hstatement, holds, List.any_append, Bool.or_eq_true_iff] at hholds
  rcases hholds with hholds | hlast
  · rw [← holds, hinit] at hholds
    cases hholds
  · simpa using hlast

mutual

/-- The sites in the blocks of a statement. Where the statement itself holds the array, it has
none. -/
lemma sitesInNodes_statement (marker : Char) : ∀ nodes : List Node, x.Lone marker nodes →
    (x.holds nodes → Table.sitesInNodes marker nodes = []) →
    Table.sitesInNodes marker (x.statement nodes)
      = ((Table.sitesInNodes marker nodes).filter fun site => !x.holds site).map x.statement
  | [], _, _ => by
    rw [statement, Table.sitesInNodes]
    rfl
  | .leaf t :: nodes, hlone, hholds => by
    rw [Lone] at hlone
    rw [statement, node, List.singleton_append, Table.sitesInNodes, Table.sitesInNodes]
    refine sitesInNodes_statement marker nodes hlone fun h => ?_
    rw [holds_cons, Table.sitesInNodes] at hholds
    exact hholds (by simp [h])
  | .block opener closer statements :: nodes, hlone, hholds => by
    rw [Lone] at hlone
    rw [holds_cons, Table.sitesInNodes] at hholds
    have hnodes := sitesInNodes_statement marker nodes hlone.2 fun h =>
      (List.append_eq_nil_iff.1 (hholds (by simp [h]))).2
    rw [statement, Table.sitesInNodes, List.filter_append, List.map_append]
    by_cases harray : opener = x.opener
    · -- The array has no site inside, and neither has what stands in its place.
      have hnil := List.append_eq_nil_iff.1 (hholds (by simp [isArray, harray]))
      have hsilent : Table.sitesInNodes marker (x.nodes ++ x.statement nodes)
          = Table.sitesInNodes marker (x.statement nodes) := by
        rw [Table.sitesInNodes_append, Table.sitesInNodes_eq_nil (x.silent [] marker),
          List.nil_append]
      rw [node, if_pos harray, hsilent, hnodes, hnil.1]
      rfl
    · rw [node, if_neg harray, List.singleton_append, Table.sitesInNodes, hnodes,
        sites_body marker statements hlone.1]

/-- The sites of a tree after an exchange. -/
lemma sites_body (marker : Char) : ∀ tree : List (List Node), x.LoneBody marker tree →
    Table.sites marker (x.body tree)
      = ((Table.sites marker tree).filter fun site => !x.holds site).map x.statement
  | [], _ => by
    rw [body, Table.sites]
    rfl
  | nodes :: statements, hlone => by
    rw [LoneBody] at hlone
    obtain ⟨htable, hinner, hrest⟩ := hlone
    have hnodes := sitesInNodes_statement marker nodes hinner fun h => (htable h).2
    rw [body, Table.sites, Table.sites, sites_body marker statements hrest, List.filter_append,
      List.map_append]
    congr 1
    cases hholds : x.holds nodes with
    | true =>
      obtain ⟨hsite, hnil⟩ := htable hholds
      obtain ⟨init, last, rfl, hlast, -⟩ := x.exists_init hholds hsite
      have hno : Table.isTable marker (x.statement (init ++ [last])) = false := by
        rw [statement_append, statement, x.node_of_isArray hlast, statement, List.append_nil]
        exact x.not_isTable_of_array marker _
      rw [if_neg (by simp [hno]), if_pos hsite, hnodes, hnil]
      simp [hholds]
    | false =>
      rw [x.isTable_statement marker hholds]
      split
      · simp [hholds]
      · exact hnodes

end

/-! ## Where the array is -/

lemma mem_of_holds {nodes : List Node} (h : x.holds nodes) : x.opener ∈ statementTokens nodes := by
  obtain ⟨first, hfirst, harray⟩ := List.any_eq_true.1 h
  cases first with
  | leaf token => cases harray
  | block opener closer statements =>
    rw [isArray, beq_iff_eq] at harray
    exact Node.mem_statementTokens hfirst (by simp [Node.tokens, harray])

lemma mem_of_mem_sites {marker : Char} {tree : List Statement} {site : Statement}
    (hsite : site ∈ Table.sites marker tree) (h : x.holds site) : x.opener ∈ bodyTokens tree :=
  (Table.sublist_sites marker tree).subset
    (List.mem_flatMap.2 ⟨site, hsite, x.mem_of_holds h⟩)

lemma mem_of_mem_sitesInNodes {marker : Char} {nodes : List Node} {site : Statement}
    (hsite : site ∈ Table.sitesInNodes marker nodes) (h : x.holds site) :
    x.opener ∈ statementTokens nodes :=
  (Table.sublist_sitesInNodes marker nodes).subset
    (List.mem_flatMap.2 ⟨site, hsite, x.mem_of_holds h⟩)

mutual

lemma lone_of_not_mem (marker : Char) : ∀ nodes : List Node,
    x.opener ∉ statementTokens nodes → x.Lone marker nodes
  | [], _ => by
    rw [Lone]
    trivial
  | .leaf t :: nodes, h => by
    rw [statementTokens, List.mem_append, not_or] at h
    rw [Lone]
    exact lone_of_not_mem marker nodes h.2
  | .block opener closer statements :: nodes, h => by
    rw [statementTokens, List.mem_append, not_or, Node.tokens, List.mem_cons, List.mem_append,
      not_or, not_or] at h
    rw [Lone]
    exact ⟨loneBody_of_not_mem marker statements h.1.2.1, lone_of_not_mem marker nodes h.2⟩

lemma loneBody_of_not_mem (marker : Char) : ∀ tree : List (List Node),
    x.opener ∉ bodyTokens tree → x.LoneBody marker tree
  | [], _ => by
    rw [LoneBody]
    trivial
  | nodes :: statements, h => by
    rw [bodyTokens, List.mem_append, not_or] at h
    rw [LoneBody]
    exact ⟨fun hholds => absurd (x.mem_of_holds hholds) h.1, lone_of_not_mem marker nodes h.1,
      loneBody_of_not_mem marker statements h.2⟩

end

/-- The array is not inside of a block of the statement that holds it. -/
lemma lone_of_holds (marker : Char) {nodes : List Node} (hnodup : (statementTokens nodes).Nodup)
    (h : x.holds nodes) : x.Lone marker nodes := by
  induction nodes with
  | nil => cases h
  | cons first nodes ih =>
    rw [statementTokens, List.nodup_append] at hnodup
    obtain ⟨hfirst, hnodes, hapart⟩ := hnodup
    rw [holds_cons, Bool.or_eq_true_iff] at h
    cases first with
    | leaf t =>
      rw [Lone]
      exact ih hnodes (h.resolve_left (by simp [isArray]))
    | block opener closer statements =>
      rw [Node.tokens] at hfirst hapart
      rw [Lone]
      by_cases harray : opener = x.opener
      · subst harray
        have hbody := (List.nodup_cons.1 hfirst).1
        refine ⟨x.loneBody_of_not_mem marker statements ?_, x.lone_of_not_mem marker nodes ?_⟩
        · exact fun hmem => hbody (List.mem_append_left _ hmem)
        · exact fun hmem => hapart _ List.mem_cons_self _ hmem rfl
      · have hrest : x.holds nodes := h.resolve_left (by simpa [isArray] using harray)
        refine ⟨x.loneBody_of_not_mem marker statements fun hmem => ?_, ih hnodes hrest⟩
        exact hapart _ (by simp [hmem]) _ (x.mem_of_holds hrest) rfl

mutual

lemma lone_of_mem_sitesInNodes {marker : Char} {site : Statement} (hholds : x.holds site)
    (hinner : Table.sitesInNodes marker site = []) : ∀ nodes : List Node,
    (statementTokens nodes).Nodup → site ∈ Table.sitesInNodes marker nodes →
      x.Lone marker nodes ∧ x.holds nodes = false
  | [], _, hsite => by
    rw [Table.sitesInNodes] at hsite
    cases hsite
  | .leaf t :: nodes, hnodup, hsite => by
    rw [statementTokens, List.nodup_append] at hnodup
    rw [Table.sitesInNodes] at hsite
    rw [Lone, holds_cons]
    exact lone_of_mem_sitesInNodes hholds hinner nodes hnodup.2.1 hsite
  | .block opener closer statements :: nodes, hnodup, hsite => by
    rw [statementTokens, List.nodup_append, Node.tokens, List.nodup_cons, List.nodup_append]
      at hnodup
    obtain ⟨⟨hopener, hbody, -, -⟩, hnodes, hapart⟩ := hnodup
    rw [Table.sitesInNodes, List.mem_append] at hsite
    rw [Lone, holds_cons, Bool.or_eq_false_iff]
    rcases hsite with hsite | hsite
    · have hmem := x.mem_of_mem_sites hsite hholds
      have hrest : x.opener ∉ statementTokens nodes := fun h =>
        hapart _ (List.mem_cons_of_mem _ (List.mem_append_left _ hmem)) _ h rfl
      refine ⟨⟨loneBody_of_mem_sites hholds hinner statements hbody hsite,
        x.lone_of_not_mem marker nodes hrest⟩, ?_, ?_⟩
      · rw [isArray, beq_eq_false_iff_ne]
        rintro rfl
        exact hopener (List.mem_append_left _ hmem)
      · by_contra h
        exact hrest (x.mem_of_holds (by simpa using h))
    · have hmem := x.mem_of_mem_sitesInNodes hsite hholds
      obtain ⟨hlone, hnot⟩ := lone_of_mem_sitesInNodes hholds hinner nodes hnodes hsite
      refine ⟨⟨x.loneBody_of_not_mem marker statements fun h => ?_, hlone⟩, ?_, hnot⟩
      · exact hapart _ (List.mem_cons_of_mem _ (List.mem_append_left _ h)) _ hmem rfl
      · rw [isArray, beq_eq_false_iff_ne]
        rintro rfl
        exact hapart _ List.mem_cons_self _ hmem rfl

/-- An array that a site holds is held by nothing else. -/
lemma loneBody_of_mem_sites {marker : Char} {site : Statement} (hholds : x.holds site)
    (hinner : Table.sitesInNodes marker site = []) : ∀ tree : List (List Node),
    (bodyTokens tree).Nodup → site ∈ Table.sites marker tree → x.LoneBody marker tree
  | [], _, hsite => by
    rw [Table.sites] at hsite
    cases hsite
  | nodes :: statements, hnodup, hsite => by
    rw [bodyTokens, List.nodup_append] at hnodup
    obtain ⟨hnodes, hstatements, hapart⟩ := hnodup
    rw [Table.sites, List.mem_append] at hsite
    rw [LoneBody]
    rcases hsite with hsite | hsite
    · have hrest : x.opener ∈ statementTokens nodes → x.LoneBody marker statements := fun hmem =>
        x.loneBody_of_not_mem marker statements fun h => hapart _ hmem _ h rfl
      split at hsite
      · rename_i htable
        obtain rfl := List.mem_singleton.1 hsite
        exact ⟨fun _ => ⟨htable, hinner⟩, x.lone_of_holds marker hnodes hholds,
          hrest (x.mem_of_holds hholds)⟩
      · obtain ⟨hlone, hnot⟩ := lone_of_mem_sitesInNodes hholds hinner nodes hnodes hsite
        refine ⟨fun h => ?_, hlone, hrest (x.mem_of_mem_sitesInNodes hsite hholds)⟩
        rw [hnot] at h
        cases h
    · have hmem := x.mem_of_mem_sites hsite hholds
      have hfirst : x.opener ∉ statementTokens nodes := fun h => hapart _ h _ hmem rfl
      exact ⟨fun h => absurd (x.mem_of_holds h) hfirst, x.lone_of_not_mem marker nodes hfirst,
        loneBody_of_mem_sites hholds hinner statements hstatements hsite⟩

end

/-! ## The other sites -/

mutual

lemma node_eq_self : ∀ first : Node,
    (∀ t ∈ first.tokens, x.relabeling.token t = t ∧ t ≠ x.opener) → x.node first = [first]
  | .leaf t, h => by
    rw [node, (h t (by simp [Node.tokens])).1]
  | .block opener closer statements, h => by
    have hopener := h opener (by simp [Node.tokens])
    have hcloser := h closer (by simp [Node.tokens])
    rw [node, if_neg hopener.2, hopener.1, hcloser.1,
      body_eq_self statements fun t ht => h t (by simp [Node.tokens, ht])]

lemma statement_eq_self : ∀ nodes : List Node,
    (∀ t ∈ statementTokens nodes, x.relabeling.token t = t ∧ t ≠ x.opener) →
      x.statement nodes = nodes
  | [], _ => by rw [statement]
  | first :: nodes, h => by
    rw [statement, node_eq_self first fun t ht => h t (by simp [statementTokens, ht]),
      statement_eq_self nodes fun t ht => h t (by simp [statementTokens, ht]),
      List.singleton_append]

lemma body_eq_self : ∀ tree : List (List Node),
    (∀ t ∈ bodyTokens tree, x.relabeling.token t = t ∧ t ≠ x.opener) → x.body tree = tree
  | [], _ => by rw [body]
  | nodes :: statements, h => by
    rw [body, statement_eq_self nodes fun t ht => h t (by simp [bodyTokens, ht]),
      body_eq_self statements fun t ht => h t (by simp [bodyTokens, ht])]

end

/-- The array is the value of a site, and what stands before the token `u` of it stays there. This
site is a table no more, those before it stay as they are, and those after it are relabelled. -/
lemma sites_of_site {marker : Char} {tree before after : List Statement} {site : Statement}
    (hordered : (bodyTokens tree).Pairwise fun a b => a.stop ≤ b.start)
    (hne : ∀ t ∈ bodyTokens tree, t.text ≠ []) {u : Token} (hu : u ∈ statementTokens site)
    (hfixed : ∀ t : Token, t.text ≠ [] → t.stop ≤ u.start → x.relabeling.token t = t)
    (hsites : Table.sites marker tree = before ++ site :: after) (hholds : x.holds site)
    (hinner : Table.sitesInNodes marker site = []) :
    Table.sites marker (x.body tree) = before ++ after.map x.statement ∧
      ∀ other ∈ after, x.holds other = false := by
  have hlt : ∀ t ∈ bodyTokens tree, t.start < t.stop := fun t ht =>
    Token.start_lt_stop (hne t ht)
  have hnodup : (bodyTokens tree).Nodup := by
    refine hordered.imp_of_mem fun {a b} ha _ hab => ?_
    rintro rfl
    exact absurd (hlt a ha) (by omega)
  have hsub := Table.sublist_sites marker tree
  rw [hsites, List.flatMap_append, List.flatMap_cons] at hsub
  have hmem := x.mem_of_holds hholds
  obtain ⟨-, -, hbefore⟩ := List.pairwise_append.1 (hordered.sublist hsub)
  obtain ⟨-, -, hdisjoint⟩ := List.nodup_append.1 (hnodup.sublist hsub)
  obtain ⟨-, -, hafter⟩ := List.nodup_append.1
    ((List.nodup_append.1 (hnodup.sublist hsub)).2.1)
  have hnotBefore : ∀ other ∈ before, x.holds other = false := by
    intro other hother
    by_contra h
    exact hdisjoint _ (List.mem_flatMap.2 ⟨other, hother, x.mem_of_holds (by simpa using h)⟩) _
      (List.mem_append_left _ hmem) rfl
  have hnotAfter : ∀ other ∈ after, x.holds other = false := by
    intro other hother
    by_contra h
    have hother' := x.mem_of_holds (by simpa using h)
    exact hafter _ hmem _ (List.mem_flatMap.2 ⟨other, hother, hother'⟩) rfl
  refine ⟨?_, hnotAfter⟩
  have hlone := x.loneBody_of_mem_sites hholds hinner tree hnodup (by rw [hsites]; simp)
  have hself : before.map x.statement = before := by
    refine (List.map_congr_left fun other hother => ?_).trans (List.map_id before)
    refine x.statement_eq_self other fun t ht => ?_
    have htmem := List.mem_flatMap.2 ⟨other, hother, ht⟩
    have hstop : t.stop ≤ u.start := hbefore t htmem u (List.mem_append_left _ hu)
    refine ⟨hfixed t (hne t (hsub.subset (List.mem_append_left _ htmem))) hstop, ?_⟩
    rintro rfl
    exact hdisjoint _ htmem _ (List.mem_append_left _ hmem) rfl
  have hfilterBefore : before.filter (fun other => !x.holds other) = before :=
    List.filter_eq_self.2 fun other hother => by simp [hnotBefore other hother]
  have hfilterAfter : after.filter (fun other => !x.holds other) = after :=
    List.filter_eq_self.2 fun other hother => by simp [hnotAfter other hother]
  rw [x.sites_body marker tree hlone, hsites, List.filter_append, List.filter_cons_of_neg
    (by simp [hholds]), hfilterBefore, hfilterAfter, List.map_append, hself]

end Exchange

end TablePack
