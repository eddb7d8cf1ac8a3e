import Mathlib.Tactic
import TablePack.Proofs.Flatten
import TablePack.Proofs.Lines
import TablePack.Proofs.Stream
import TablePack.Table

/-!
# Where the tables of a text lie

A statement that is a table consists of the parts of a receiver, a dot, a name, an equals sign and
an array (`Form`). The search goes through a tree from left to right and does not look into a
statement that is a table, so the tokens of the tables lie in the tokens of the tree one statement
after another, with other tokens between them (`Cover`). Together with the order of the tokens in
the text this gives the place of each table as a division of the text (`Division`), and the order of
the tables.

* `Table.ofStatement?_eq_some_iff`: the statements that are tables;
* `Table.cover_inStatements`: the tables that the search finds;
* `Table.located_division`, `Table.located_pairwise`: where they lie;
* `Table.locate_spans`: the offsets that their positions stand for.
-/

namespace TablePack

open Token (Stream)
open Text (size)

namespace Table

/-! ## Statements that are tables -/

/-- The nodes of a statement that is a table. -/
structure Form where
  /-- The parts of the receiver, the first and the last of them. -/
  parts : List Node
  first : Node
  last : Node
  dot : Token
  name : Token
  assign : Token
  opener : Token
  closer : Token
  /-- What stands between the brackets. -/
  body : List Statement

namespace Form

/-- The statement that has the given nodes. -/
def statement (f : Form) : Statement :=
  f.parts ++ [.leaf f.dot, .leaf f.name, .leaf f.assign, .block f.opener f.closer f.body]

/-- The table that a statement is. -/
def table (f : Form) (source : Text) (numbers : List ℕ) : Table :=
  ⟨f.name.text, Text.slice source f.first.start f.last.stop, numbers, f.first.start, f.closer.stop⟩

/-- What makes a statement a table with the given numbers. -/
structure Valid (f : Form) (marker : Char) (numbers : List ℕ) : Prop where
  head_eq : f.parts.head? = some f.first
  getLast_eq : f.parts.getLast? = some f.last
  receiver : ∀ node ∈ f.parts, node.isReceiverPart
  dot_text : f.dot.text = ['.']
  name_kind : f.name.kind = .ident
  name_text : isFieldName marker f.name.text
  assign_kind : f.assign.kind = .assign
  opener_kind : f.opener.kind = .arrayBracket
  elements : elements? f.body = some numbers

end Form

lemma exists_form_of_ofStatement? {source : Text} {marker : Char} {statement : Statement}
    {table : Table} (h : ofStatement? source marker statement = some table) :
    ∃ f : Form, f.Valid marker table.numbers ∧ statement = f.statement ∧
      table = f.table source table.numbers := by
  unfold ofStatement? at h
  split at h
  · rename_i first opener closer body assign name dot last parts hfirst hreverse
    split_ifs at h with hcond
    obtain ⟨numbers, helements, rfl⟩ := Option.map_eq_some_iff.1 h
    simp only [Bool.and_eq_true, beq_iff_eq, List.all_eq_true] at hcond
    obtain ⟨⟨⟨⟨⟨hparts, hdot⟩, hname⟩, hassign⟩, hopener⟩, hfield⟩ := hcond
    have hstatement : statement = (last :: parts).reverse
        ++ [.leaf dot, .leaf name, .leaf assign, .block opener closer body] := by
      rw [← List.reverse_reverse statement, hreverse]
      simp
    refine ⟨⟨(last :: parts).reverse, first, last, dot, name, assign, opener, closer, body⟩,
      ⟨?_, by simp, ?_, hdot, hname, hfield, hassign, hopener, helements⟩, hstatement, rfl⟩
    · rw [hstatement, List.head?_append_of_ne_nil _ (by simp)] at hfirst
      exact hfirst
    · intro node hnode
      exact hparts node (List.mem_reverse.1 hnode)
  · cases h

/-- The statements that are tables. -/
lemma ofStatement?_eq_some_iff {source : Text} {marker : Char} {statement : Statement}
    {table : Table} :
    ofStatement? source marker statement = some table ↔
      ∃ f : Form, f.Valid marker table.numbers ∧ statement = f.statement ∧
        table = f.table source table.numbers := by
  refine ⟨exists_form_of_ofStatement?, ?_⟩
  rintro ⟨f, hf, rfl, htable⟩
  obtain ⟨parts, hparts⟩ : ∃ parts, f.parts = parts ++ [f.last] :=
    List.getLast?_eq_some_iff.1 hf.getLast_eq
  have hhead : f.statement.head? = some f.first := by
    rw [Form.statement, List.head?_append, hf.head_eq]
    rfl
  have hreverse : f.statement.reverse = .block f.opener f.closer f.body :: .leaf f.assign
      :: .leaf f.name :: .leaf f.dot :: f.last :: parts.reverse := by
    simp [Form.statement, hparts]
  have hall : (f.last :: parts.reverse).all Node.isReceiverPart := by
    rw [List.all_eq_true]
    intro node hnode
    apply hf.receiver
    rw [hparts]
    simpa [or_comm] using hnode
  rw [ofStatement?, hhead, hreverse]
  simp only [hall, hf.dot_text, hf.name_kind, hf.name_text, hf.assign_kind, hf.opener_kind,
    hf.elements, beq_self_eq_true, Bool.and_self, if_true, Option.map_some]
  rw [htable]
  rfl

/-! ## The tables of a tree -/

/-- The tables are statements that lie in the tokens one after another. -/
inductive Cover (source : Text) (marker : Char) : List Token → List Table → Prop
  | gap (tokens : List Token) : Cover source marker tokens []
  | table (gap : List Token) (statement : Statement) {table : Table} {tokens : List Token}
      {tables : List Table} : ofStatement? source marker statement = some table →
      Node.StatementMatched statement → Cover source marker tokens tables →
      Cover source marker (gap ++ (Node.statementTokens statement ++ tokens)) (table :: tables)

namespace Cover

variable {source : Text} {marker : Char} {tokens more : List Token} {tables others : List Table}

lemma extend (h : Cover source marker tokens tables) (before : List Token) :
    Cover source marker (before ++ tokens) tables := by
  cases h with
  | gap => exact .gap _
  | table gap statement hs hm hc =>
    rw [← List.append_assoc]
    exact .table _ statement hs hm hc

lemma append (h : Cover source marker tokens tables) (h' : Cover source marker more others) :
    Cover source marker (tokens ++ more) (tables ++ others) := by
  induction h with
  | gap tokens => exact h'.extend tokens
  | table gap statement hs hm _ ih =>
    rw [List.append_assoc, List.append_assoc]
    exact .table gap statement hs hm ih

/-- Each of the tables is a statement whose tokens stand together. -/
lemma exists_statement (h : Cover source marker tokens tables) {table : Table}
    (ht : table ∈ tables) :
    ∃ statement, ofStatement? source marker statement = some table ∧
      Node.StatementMatched statement ∧ Node.statementTokens statement <:+: tokens := by
  induction h with
  | gap => cases ht
  | @table gap statement first tokens tables hs hm _ ih =>
    rcases List.mem_cons.1 ht with rfl | ht
    · exact ⟨statement, hs, hm, gap, tokens, by rw [List.append_assoc]⟩
    · obtain ⟨other, hother, hmatched, before, after, rfl⟩ := ih ht
      refine ⟨other, hother, hmatched, gap ++ (Node.statementTokens statement ++ before), after, ?_⟩
      simp only [List.append_assoc]

end Cover

mutual

lemma cover_inNodes (source : Text) (marker : Char) : ∀ nodes : List Node,
    Node.StatementMatched nodes →
      Cover source marker (Node.statementTokens nodes) (inNodes source marker nodes)
  | [], _ => by
    rw [inNodes]
    exact .gap _
  | .leaf t :: nodes, h => by
    rw [Node.statementTokens, inNodes]
    exact (cover_inNodes source marker nodes h.2).extend _
  | .block opener closer body :: nodes, h => by
    have hbody := cover_inStatements source marker body h.1.2
    have hnodes := (cover_inNodes source marker nodes h.2).extend [closer]
    rw [Node.statementTokens, Node.tokens, inNodes, List.cons_append, List.append_assoc]
    exact (hbody.append hnodes).extend [opener]

/-- The tables of a tree are statements that lie in its tokens one after another. -/
lemma cover_inStatements (source : Text) (marker : Char) : ∀ body : List (List Node),
    Node.BodyMatched body →
      Cover source marker (Node.bodyTokens body) (inStatements source marker body)
  | [], _ => by
    rw [inStatements]
    exact .gap _
  | statement :: statements, h => by
    have hrest := cover_inStatements source marker statements h.2
    rw [Node.bodyTokens, inStatements]
    cases hs : ofStatement? source marker statement with
    | none => exact (cover_inNodes source marker statement h.1).append hrest
    | some table => exact .table [] statement hs h.1 hrest

end

/-! ## Their place in the text -/

/-- A text divided at a table: `before` it, its receiver, the rest of it up to the closing bracket,
and what comes `after` it. -/
structure Division (source : Text) (table : Table) (before gap after : Text) : Prop where
  source_eq : source = before ++ (table.receiver ++ (gap ++ ']' :: after))
  start_eq : table.start = size before
  stop_eq : table.stop = size before + size table.receiver + size gap + 1

namespace Form

variable {f : Form} {marker : Char} {numbers : List ℕ}

/-- The first token of a statement, the last one of its receiver, and the closing bracket. -/
lemma Valid.exists_statementTokens (h : f.Valid marker numbers) :
    ∃ firstToken lastToken receiver between,
      Node.statementTokens f.statement = receiver ++ (between ++ [f.closer]) ∧
      receiver.head? = some firstToken ∧ receiver.getLast? = some lastToken ∧
      firstToken.start = f.first.start ∧ lastToken.stop = f.last.stop := by
  obtain ⟨nodes, hnodes⟩ := List.head?_eq_some_iff.1 h.head_eq
  obtain ⟨parts, hparts⟩ := List.getLast?_eq_some_iff.1 h.getLast_eq
  obtain ⟨firstToken, _, hfirst, hstart⟩ := f.first.exists_tokens_eq_cons
  obtain ⟨_, lastToken, hlast, hstop⟩ := f.last.exists_tokens_eq_concat
  refine ⟨firstToken, lastToken, Node.statementTokens f.parts,
    [f.dot, f.name, f.assign] ++ f.opener :: Node.bodyTokens f.body, ?_, ?_, ?_, hstart, hstop⟩
  · simp [statement, Node.statementTokens, Node.tokens]
  · rw [hnodes, Node.statementTokens, hfirst]
    rfl
  · rw [hparts, Node.statementTokens_append, Node.statementTokens, hlast]
    simp [Node.statementTokens]

/-- The receiver stands in the text from its first node through its last one. -/
lemma Valid.excerpt (h : f.Valid marker numbers) {source : Text}
    (hstream : Stream source (Node.statementTokens f.statement)) :
    Text.Excerpt source f.first.start f.last.stop
      (Text.slice source f.first.start f.last.stop) := by
  obtain ⟨firstToken, lastToken, receiver, between, htokens, hfirst, hlast, hstart, hstop⟩ :=
    h.exists_statementTokens
  rw [htokens] at hstream
  rw [← hstart, ← hstop]
  exact (hstream.sublist (List.sublist_append_left _ _)).excerpt hfirst hlast

end Form

lemma exists_division {source : Text} {marker : Char} {statement : Statement} {table : Table}
    (h : ofStatement? source marker statement = some table)
    (hmatched : Node.StatementMatched statement)
    (hstream : Stream source (Node.statementTokens statement))
    (hspelled : ∀ t ∈ Node.statementTokens statement, t.SpelledApart) :
    ∃ before gap after, Division source table before gap after := by
  obtain ⟨f, hf, rfl, htable⟩ := exists_form_of_ofStatement? h
  obtain ⟨firstToken, lastToken, receiver, between, htokens, hfirst, hlast, hstart, hstop⟩ :=
    hf.exists_statementTokens
  have hreceiver : Text.Excerpt source f.first.start f.last.stop table.receiver := by
    rw [htable]
    exact hf.excerpt hstream
  rw [htokens] at hstream hspelled
  have hlastMem := List.mem_of_mem_getLast? hlast
  have hcloser : f.closer.text = [']'] := by
    have hkind : f.closer.kind = .rbracket := by
      simp only [Form.statement, Node.statementMatched_append, Node.StatementMatched,
        Node.Matched, hf.opener_kind] at hmatched
      exact hmatched.2.2.2.2.1.1
    have hspell := hspelled f.closer (by simp)
    rw [Token.SpelledApart, hkind, if_neg (by decide)] at hspell
    simpa using hspell.punctuation [[']']] rfl
  -- the offsets at which the text is divided: around the receiver, and before the closing bracket
  obtain ⟨before, rest, hsource, hbefore, hend⟩ := hreceiver
  obtain ⟨before', after, hsource', hbefore'⟩ := hstream.placed f.closer (by simp)
  have hle : size (before ++ table.receiver) ≤ size before' := by
    rw [Text.size_append, hend, hbefore', ← hstop]
    exact (List.pairwise_append.1 hstream.ordered).2.2 _ hlastMem _ (by simp)
  rw [← List.append_assoc] at hsource
  obtain ⟨gap, hgap, hrest⟩ := Text.append_split_of_size_le (hsource.symm.trans hsource') hle
  refine ⟨before, gap, after, ?_, ?_, ?_⟩
  · rw [hsource, hrest, hcloser]
    simp
  · rw [hbefore, htable]
    rfl
  · have hclose : table.stop = f.closer.start + size f.closer.text := by
      rw [htable]
      rfl
    rw [hclose, ← hbefore', hgap, hcloser, Text.size_append, Text.size_append]
    rfl

lemma exists_start_mem {source : Text} {marker : Char} {statement : Statement} {table : Table}
    (h : ofStatement? source marker statement = some table) :
    (∃ t ∈ Node.statementTokens statement, t.start = table.start) ∧
      ∃ t ∈ Node.statementTokens statement, t.stop = table.stop := by
  obtain ⟨f, hf, rfl, htable⟩ := exists_form_of_ofStatement? h
  obtain ⟨firstToken, lastToken, receiver, between, htokens, hfirst, -, hstart, -⟩ :=
    hf.exists_statementTokens
  have hmem := List.mem_of_mem_head? hfirst
  rw [htokens, htable]
  exact ⟨⟨firstToken, by simp [hmem], hstart⟩, f.closer, by simp, rfl⟩

/-- Tables that lie one after another in ordered tokens are ordered. -/
lemma Cover.pairwise {source : Text} {marker : Char} {tokens : List Token} {tables : List Table}
    (h : Cover source marker tokens tables)
    (hordered : tokens.Pairwise fun a b => a.stop ≤ b.start) :
    tables.Pairwise fun a b => a.stop ≤ b.start := by
  induction h with
  | gap => exact .nil
  | @table gap statement table tokens tables hs _ hc ih =>
    obtain ⟨-, hrest, -⟩ := List.pairwise_append.1 hordered
    obtain ⟨-, htokens, hcross⟩ := List.pairwise_append.1 hrest
    refine List.pairwise_cons.2 ⟨fun other hother => ?_, ih htokens⟩
    obtain ⟨a, ha, hstop⟩ := (exists_start_mem hs).2
    obtain ⟨later, hlater, -, hinside⟩ := hc.exists_statement hother
    obtain ⟨b, hb, hstart⟩ := (exists_start_mem hlater).1
    rw [← hstop, ← hstart]
    exact hcross a ha b (hinside.subset hb)

/-! ## The tables of a text -/

/-- What is found in a text is found in the tree of its tokens. -/
lemma cover_of_locate {source : Text} {marker : Char} {tables : List Table}
    (h : locate source marker = .ok tables) :
    ∃ tokens, Token.lex source = .ok tokens ∧
      Cover source marker (tokens.filter fun t => !Tree.isSeparator t.kind) tables := by
  obtain ⟨body, hbody, rfl⟩ := eq_ok_of_map_eq_ok h
  obtain ⟨tokens, hlex, htokens⟩ := Tree.exists_tokens_of_ofText hbody
  refine ⟨tokens, hlex, ?_⟩
  rw [← Tree.bodyTokens_of_ofTokens htokens]
  exact cover_inStatements source marker body (Tree.matched_of_ofTokens htokens)

/-- Every table of a text divides it. -/
lemma located_division {source : Text} {marker : Char} {tables : List Table}
    (h : locate source marker = .ok tables) {table : Table} (ht : table ∈ tables) :
    ∃ before gap after, Division source table before gap after := by
  obtain ⟨tokens, hlex, hcover⟩ := cover_of_locate h
  obtain ⟨hstream, hspelled⟩ := Token.stream_of_lex hlex
  obtain ⟨statement, hs, hm, hinside⟩ := hcover.exists_statement ht
  have hsub := hinside.sublist.trans List.filter_sublist
  exact exists_division hs hm (hstream.sublist hsub) fun t ht => hspelled t (hsub.subset ht)

/-- The tables of a text lie in it one after another. -/
lemma located_pairwise {source : Text} {marker : Char} {tables : List Table}
    (h : locate source marker = .ok tables) : tables.Pairwise fun a b => a.stop ≤ b.start := by
  obtain ⟨tokens, hlex, hcover⟩ := cover_of_locate h
  exact hcover.pairwise ((Token.stream_of_lex hlex).1.ordered.sublist List.filter_sublist)

/-- A table stands from byte `s` up to byte `e` of a text: these are the offsets of its two
positions, the text can be cut there, what is between them starts with the receiver and ends with
the closing bracket, and the last column is one of the last line. -/
structure Spans (source : Text) (table : Table) (s e : ℕ) : Prop where
  start_eq : Text.offset? source (Text.position source table.start) = some s
  stop_eq : Text.offset? source (Text.position source table.stop) = some e
  lt : s < e
  le_size : e ≤ size source
  cut_start : (Text.cut? s source).isSome
  cut_stop : (Text.cut? e source).isSome
  starts : table.receiver <+: Text.slice source s e
  ends : [']'] <:+ Text.slice source s e
  column_le : ∃ line, (Text.lines source)[(Text.position source table.stop).line - 1]? = some line ∧
    (Text.position source table.stop).column ≤ size line

lemma Division.spans {source : Text} {table : Table} {before gap after : Text}
    (h : Division source table before gap after) :
    Spans source table table.start table.stop := by
  obtain ⟨hsource, hstart, hstop⟩ := h
  set middle := table.receiver ++ (gap ++ [']']) with hmiddle
  have hsource₁ : source = before ++ (middle ++ after) := by
    rw [hsource, hmiddle]
    simp
  have hsource₂ : source = (before ++ middle) ++ after :=
    hsource₁.trans (List.append_assoc _ _ _).symm
  have hsize : table.stop = size (before ++ middle) := by
    rw [hstop, hmiddle]
    simp only [Text.size_append, Text.size_cons, Text.size_nil]
    rw [show ']'.utf8Size = 1 from rfl]
    omega
  have hslice : Text.slice source table.start table.stop = middle := by
    rw [hstart, hsize, Text.size_append, hsource₁, Text.slice_append]
  refine ⟨?_, ?_, by omega, ?_, ?_, ?_, ?_, ?_, ?_⟩
  · rw [hstart, hsource₁, Text.offset?_position]
  · rw [hsize, hsource₂, Text.offset?_position]
  · rw [hsize, hsource₂, Text.size_append _ after]
    omega
  · rw [hstart, hsource₁, Text.cut?_size_append]
    rfl
  · rw [hsize, hsource₂, Text.cut?_size_append]
    rfl
  · rw [hslice, hmiddle]
    exact List.prefix_append _ _
  · rw [hslice, hmiddle, ← List.append_assoc]
    exact List.suffix_append _ _
  · rw [hsize, hsource₂, Text.position_append]
    refine ⟨_, Text.getElem?_lines_append _ _, ?_⟩
    simp only [Text.size_append]
    omega

/-- The tables of a text are disjoint and in order: the offsets that their positions stand for
divide the text between characters, enclose the table from its receiver to its closing bracket, and
no table starts before the one found before it has stopped. -/
theorem locate_spans {source : Text} {marker : Char} {tables : List Table}
    (h : locate source marker = .ok tables) :
    ∃ spans : List (ℕ × ℕ),
      List.Forall₂ (fun table span => Spans source table span.1 span.2) tables spans ∧
      spans.Pairwise fun a b => a.2 ≤ b.1 := by
  refine ⟨tables.map fun table => (table.start, table.stop), ?_, ?_⟩
  · rw [List.forall₂_map_right_iff, List.forall₂_same]
    intro table ht
    obtain ⟨before, gap, after, hdivision⟩ := located_division h ht
    exact hdivision.spans
  · rw [List.pairwise_map]
    exact located_pairwise h

/-- Two tables, of which the first one has another one in its receiver. -/
theorem locate_spans_nested :
    ∃ spans : List (ℕ × ℕ),
      List.Forall₂
        (fun table span =>
          Spans "f(self._a = [1])._b = [2, 3]; x._c =\n [4]\n".toList table span.1 span.2)
        [⟨"_b".toList, "f(self._a = [1])".toList, [2, 3], 0, 28⟩,
          ⟨"_c".toList, "x".toList, [4], 30, 41⟩] spans ∧
      spans.Pairwise fun a b => a.2 ≤ b.1 := by
  have h : locate "f(self._a = [1])._b = [2, 3]; x._c =\n [4]\n".toList '_'
      = .ok [⟨"_b".toList, "f(self._a = [1])".toList, [2, 3], 0, 28⟩,
        ⟨"_c".toList, "x".toList, [4], 30, 41⟩] := by
    decide +kernel
  exact locate_spans h

end Table

end TablePack
