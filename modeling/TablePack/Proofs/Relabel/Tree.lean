import Mathlib.Tactic
import TablePack.Proofs.Flatten
import TablePack.Proofs.Relabel.Tokens
import TablePack.Table

/-!
# Trees and tables of relabelled tokens

A tree is built by looking at the kinds of tokens alone. Relabelled tokens therefore have the same
tree, with its tokens relabelled (`Node.map`), and a fault at the relabelled token. A table is
recognised by kinds, by the texts of names and integers, and by a dot; so the same statements are
tables, with the same names and numbers, and only their receivers depend on what else stands in the
two texts.

* `Relabeling.step_map`, `Relabeling.build_map`: the tree;
* `Relabeling.ofStatement?_map`: one statement;
* `Relabeling.inStatements_map`: all tables of a tree;
* `Relabeling.locate_map`: the tables of a text.
-/

namespace TablePack

open Token (Kind)

/-! ## Nodes -/

namespace Node

mutual

/-- A node with other tokens. -/
def map (g : Token → Token) : Node → Node
  | leaf token => leaf (g token)
  | block opener closer body => block (g opener) (g closer) (bodyMap g body)

/-- A statement with other tokens. -/
def statementMap (g : Token → Token) : List Node → List Node
  | [] => []
  | node :: nodes => map g node :: statementMap g nodes

/-- Statements with other tokens. -/
def bodyMap (g : Token → Token) : List (List Node) → List (List Node)
  | [] => []
  | statement :: statements => statementMap g statement :: bodyMap g statements

end

variable {g : Token → Token}

lemma statementMap_eq (nodes : List Node) : statementMap g nodes = nodes.map (map g) := by
  induction nodes with
  | nil => rw [statementMap, List.map_nil]
  | cons node nodes ih => rw [statementMap, ih, List.map_cons]

lemma bodyMap_eq (body : List Statement) : bodyMap g body = body.map (statementMap g) := by
  induction body with
  | nil => rw [bodyMap, List.map_nil]
  | cons statement statements ih => rw [bodyMap, ih, List.map_cons]

lemma mem_statementTokens {node : Node} {nodes : List Node} (hnode : node ∈ nodes) {t : Token}
    (ht : t ∈ node.tokens) : t ∈ statementTokens nodes := by
  induction nodes with
  | nil => cases hnode
  | cons other nodes ih =>
    rw [statementTokens, List.mem_append]
    rcases List.mem_cons.1 hnode with rfl | hnode
    · exact .inl ht
    · exact .inr (ih hnode)

end Node

/-! ## Frames -/

namespace Tree

variable {g : Token → Token}

/-- A frame with other tokens. -/
def Frame.map (g : Token → Token) (f : Frame) : Frame where
  header := f.header
  done := Node.bodyMap g f.done
  current := Node.statementMap g f.current

/-- Open blocks with other tokens. -/
def stackMap (g : Token → Token) (stack : Stack) : Stack :=
  stack.map fun level => (g level.1, level.2.map g)

lemma Frame.map_empty (g : Token → Token) (header : Bool) :
    ({ header := header } : Frame).map g = { header := header } := by
  simp only [map, Node.bodyMap, Node.statementMap]

lemma Frame.push_map (f : Frame) (node : Node) :
    (f.map g).push (node.map g) = (f.push node).map g := by
  simp only [push, map, Node.statementMap]

lemma Frame.flushed_map (f : Frame) : (f.map g).flushed = Node.bodyMap g f.flushed := by
  simp only [flushed, map, Node.statementMap_eq, List.isEmpty_map]
  split
  · rfl
  · rw [Node.bodyMap, Node.statementMap_eq, List.map_reverse]

lemma Frame.statements_map (f : Frame) : (f.map g).statements = Node.bodyMap g f.statements := by
  rw [statements, statements, flushed_map, Node.bodyMap_eq, Node.bodyMap_eq, List.map_reverse]

lemma Frame.endStatement_map (f : Frame) : (f.map g).endStatement = f.endStatement.map g := by
  rw [endStatement, flushed_map, endStatement, map, Node.statementMap]

lemma build_cons (f : Frame) (stack : Stack) (t : Token) (after : List Token) :
    build f stack (t :: after)
      = (step f stack t after).bind fun p => build p.1 p.2 after := by
  rw [build]
  cases step f stack t after <;> rfl

lemma ofText_eq (source : Text) : ofText source = (Token.lex source).bind ofTokens := by
  rw [ofText]
  cases Token.lex source <;> rfl

end Tree

/-! ## Building -/

namespace Relabeling

variable {r : Relabeling} {f : Tree.Frame} {stack : Tree.Stack} {t : Token} {after : List Token}

@[simp] lemma kind?_map (r : Relabeling) (node : Node) : (node.map r.token).kind? = node.kind? := by
  cases node with
  | leaf token => simp [Node.map, Node.kind?]
  | block opener closer body => simp [Node.map, Node.kind?]

lemma continues_map (r : Relabeling) (f : Tree.Frame) :
    (f.map r.token).continues = f.continues := by
  simp only [Tree.Frame.continues, Tree.Frame.map, Node.statementMap_eq]
  cases f.current <;> simp

lemma newlineEnds_map (r : Relabeling) (stack : Tree.Stack) :
    Tree.newlineEnds (Tree.stackMap r.token stack) = Tree.newlineEnds stack := by
  cases stack <;> simp [Tree.newlineEnds, Tree.stackMap]

lemma dotFollows_map (r : Relabeling) (after : List Token) :
    Tree.dotFollows (after.map r.token) = Tree.dotFollows after := by
  simp only [Tree.dotFollows, List.find?_map, Function.comp_def, kind_token, Option.any_map]

lemma afterParens_map (r : Relabeling) (depth : ℕ) (ts : List Token) :
    Tree.afterParens depth (ts.map r.token) = (Tree.afterParens depth ts).map r.token := by
  induction ts generalizing depth with
  | nil => rfl
  | cons t ts ih =>
    simp only [List.map_cons, Tree.afterParens, kind_token, ih]
    split
    · rfl
    · split <;> rfl
    · rfl

lemma isEndless_map (r : Relabeling) (after : List Token) :
    Tree.isEndless (after.map r.token) = Tree.isEndless after := by
  simp only [Tree.isEndless, List.dropWhile_map, Function.comp_def, kind_token, List.head?_map,
    Option.any_map, afterParens_map]
  split
  · simp only [List.head?_map, Option.any_map, kind_token]
  · simp only [List.head?_map, Option.any_map, kind_token]

lemma opensBlock_map (r : Relabeling) (k : Keyword) (before : List Node) (after : List Token) :
    Tree.opensBlock k (Node.statementMap r.token before) (after.map r.token)
      = Tree.opensBlock k before after := by
  have hbefore : (Node.statementMap r.token before).head?.all
        (fun node => node.kind?.any Tree.takesValue)
      = before.head?.all fun node => node.kind?.any Tree.takesValue := by
    rw [Node.statementMap_eq]
    cases before <;> simp
  cases k <;> simp only [Tree.opensBlock, hbefore, isEndless_map]

lemma place_map (r : Relabeling) (f : Tree.Frame) (stack : Tree.Stack) (t : Token)
    (after : List Token) :
    Tree.place (f.map r.token) (Tree.stackMap r.token stack) (r.token t) (after.map r.token)
      = ((Tree.place f stack t after).1.map r.token,
          Tree.stackMap r.token (Tree.place f stack t after).2) := by
  have hleaf : (f.map r.token).push (.leaf (r.token t)) = (f.push (.leaf t)).map r.token := by
    rw [← Tree.Frame.push_map, Node.map]
  have hheader : (f.map r.token).header = f.header := rfl
  have hopens : ∀ k, Tree.opensBlock k (f.map r.token).current (after.map r.token)
      = Tree.opensBlock k f.current after := fun k => opensBlock_map r k f.current after
  unfold Tree.place
  rw [kind_token]
  by_cases hbracket : Tree.isBracket t.kind
  · rw [if_pos hbracket, if_pos hbracket]
    exact Prod.ext (Tree.Frame.map_empty r.token false).symm rfl
  rw [if_neg hbracket, if_neg hbracket]
  cases t.kind with
  | keyword k =>
    simp only [hheader, hopens, hleaf]
    by_cases hdo : (k = .do_ && f.header) = true
    · rw [if_pos hdo, if_pos hdo]
      rfl
    rw [if_neg hdo, if_neg hdo]
    by_cases hblock : Tree.opensBlock k f.current after
    · rw [if_pos hblock, if_pos hblock]
      exact Prod.ext (Tree.Frame.map_empty r.token _).symm rfl
    · rw [if_neg hblock, if_neg hblock]
  | _ => simp only [hleaf]

/-- A token whose text a fault may show, where it is relabelled. -/
lemma Keeps.moves (h : r.Keeps t) (hne : t.kind ≠ .newline) (hfixed : Token.isFixed t.kind)
    (problem : Text → Problem) :
    r.Moves ⟨t.start, problem t.text⟩ ⟨(r.token t).start, problem (r.token t).text⟩ := by
  refine ⟨h.start_mem hne, ?_⟩
  rw [h.start_eq hne, h.text_eq hfixed]

/-- One token does the same to both trees. -/
lemma step_map (ht : r.Keeps t) :
    Corresponds r.Moves (fun p p' => p' = (p.1.map r.token, Tree.stackMap r.token p.2))
      (Tree.step f stack t after)
      (Tree.step (f.map r.token) (Tree.stackMap r.token stack) (r.token t)
        (after.map r.token)) := by
  unfold Tree.step
  rw [kind_token, newlineEnds_map, continues_map, dotFollows_map, Tree.Frame.endStatement_map]
  refine .ite (fun _ => .ite (fun _ => .ok rfl) fun _ => .ok rfl) fun hne =>
    .ite (fun _ => .ok rfl) fun _ => .ite (fun hcloser => ?_) fun _ => .ok (place_map ..)
  have hfixed : Token.isFixed t.kind := by simp [Token.isFixed, hcloser]
  cases stack with
  | nil => exact .error (ht.moves hne hfixed _)
  | cons level levels =>
    obtain ⟨opener, outer⟩ := level
    simp only [Tree.stackMap, List.map_cons, kind_token]
    refine .ite (fun _ => .ok ?_) fun _ => .error (ht.moves hne hfixed _)
    rw [← Tree.Frame.push_map, Node.map, Tree.Frame.statements_map]

/-- The openers of blocks are kept, and have texts that are kept. -/
def KeepsStack (r : Relabeling) (stack : Tree.Stack) : Prop :=
  ∀ level ∈ stack, r.Keeps level.1 ∧ level.1.kind ≠ .newline ∧ Token.isFixed level.1.kind

lemma KeepsStack.grows {f' : Tree.Frame} {stack' : Tree.Stack} (h : r.KeepsStack stack)
    (ht : r.Keeps t) (hgrows : Tree.Grows f stack t f' stack') : r.KeepsStack stack' := by
  cases hgrows with
  | pass _ => exact h
  | finish _ => exact h
  | close opener outer levels _ hstack _ =>
    subst hstack
    exact (List.forall_mem_cons.1 h).2
  | opens header hseparator hopen =>
    refine List.forall_mem_cons.2 ⟨⟨ht, ?_, ?_⟩, h⟩
    · intro hnewline
      exact hseparator (by rw [Tree.isSeparator, show t.kind = .newline from hnewline]; rfl)
    · rcases hopen with hbracket | ⟨word, before, after, hkind, -⟩
      · simp [Token.isFixed, hbracket]
      · rw [hkind]
        rfl
  | single header _ _ _ => exact h

lemma build_map {ts : List Token} (hts : ∀ t ∈ ts, r.Keeps t) (hstack : r.KeepsStack stack) :
    Corresponds r.Moves (fun body body' => body' = Node.bodyMap r.token body)
      (Tree.build f stack ts)
      (Tree.build (f.map r.token) (Tree.stackMap r.token stack) (ts.map r.token)) := by
  induction ts generalizing f stack with
  | nil =>
    cases stack with
    | nil => exact .ok (Tree.Frame.statements_map f)
    | cons level levels =>
      obtain ⟨hkeeps, hne, hfixed⟩ := hstack level List.mem_cons_self
      exact .error (hkeeps.moves hne hfixed _)
  | cons t ts ih =>
    obtain ⟨ht, hrest⟩ := List.forall_mem_cons.1 hts
    rw [List.map_cons, Tree.build_cons, Tree.build_cons]
    refine (step_map ht).bind fun p p' hfirst hp => ?_
    subst hp
    exact ih hrest (hstack.grows ht (Tree.grows_of_step hfirst))

/-- Relabelled tokens have the relabelled tree. -/
lemma ofTokens_map {ts : List Token} (hts : ∀ t ∈ ts, r.Keeps t) :
    Corresponds r.Moves (fun body body' => body' = Node.bodyMap r.token body) (Tree.ofTokens ts)
      (Tree.ofTokens (ts.map r.token)) := by
  have hbuild := @build_map r {} [] ts hts (List.forall_mem_nil _)
  rwa [Tree.Frame.map_empty] at hbuild

/-! ## Tables -/

/-- A token of a tree that is kept. -/
def Roots (r : Relabeling) (t : Token) : Prop := r.Keeps t ∧ t.kind ≠ .newline

lemma start_map {node : Node} (h : ∀ t ∈ node.tokens, r.Roots t) :
    node.start ∈ r.domain ∧ (node.map r.token).start = r.offset node.start := by
  cases node with
  | leaf token =>
    obtain ⟨ht, hne⟩ := h token (by simp [Node.tokens])
    exact ⟨ht.start_mem hne, by simp only [Node.map, Node.start, ht.start_eq hne]⟩
  | block opener closer body =>
    obtain ⟨ht, hne⟩ := h opener (by simp [Node.tokens])
    exact ⟨ht.start_mem hne, by simp only [Node.map, Node.start, ht.start_eq hne]⟩

lemma stop_map {node : Node} (h : ∀ t ∈ node.tokens, r.Roots t) :
    node.stop ∈ r.domain ∧ (node.map r.token).stop = r.offset node.stop := by
  cases node with
  | leaf token =>
    obtain ⟨ht, hne⟩ := h token (by simp [Node.tokens])
    exact ⟨ht.stop_mem hne, by simp only [Node.map, Node.stop, ht.stop_eq hne]⟩
  | block opener closer body =>
    obtain ⟨ht, hne⟩ := h closer (by simp [Node.tokens])
    exact ⟨ht.stop_mem hne, by simp only [Node.map, Node.stop, ht.stop_eq hne]⟩

lemma isReceiverPart_map (r : Relabeling) (node : Node) :
    (node.map r.token).isReceiverPart = node.isReceiverPart := by
  cases node with
  | leaf token => simp only [Node.map, Node.isReceiverPart, kind_token]
  | block opener closer body => simp only [Node.map, Node.isReceiverPart, kind_token]

lemma integer?_map {node : Node} (h : ∀ t ∈ node.tokens, r.Roots t) :
    (node.map r.token).integer? = node.integer? := by
  cases node with
  | leaf token =>
    simp only [Node.map, Node.integer?, kind_token]
    split
    · rename_i hkind
      rw [(h token (by simp [Node.tokens])).1.text_eq (by rw [hkind]; rfl)]
    · rfl
  | block opener closer body => simp only [Node.map, Node.integer?]

lemma isIntegerList_map {nodes : List Node} (h : ∀ t ∈ Node.statementTokens nodes, r.Roots t) :
    Table.isIntegerList (nodes.map (Node.map r.token)) = Table.isIntegerList nodes := by
  fun_induction Table.isIntegerList nodes with
  | case1 => rfl
  | case2 node =>
    rw [List.map_cons, List.map_nil, Table.isIntegerList,
      integer?_map fun t ht => h t (Node.mem_statementTokens List.mem_cons_self ht)]
  | case3 node separator nodes ih =>
    rw [List.map_cons, List.map_cons, Table.isIntegerList, Node.isComma, Node.isComma, kind?_map,
      integer?_map fun t ht => h t (Node.mem_statementTokens List.mem_cons_self ht), ih]
    intro t ht
    exact h t (by simp [Node.statementTokens, ht])

lemma elements?_map {body : List Statement} (h : ∀ t ∈ Node.bodyTokens body, r.Roots t) :
    Table.elements? (Node.bodyMap r.token body) = Table.elements? body := by
  rw [Node.bodyMap_eq]
  match body with
  | [] => rfl
  | [nodes] =>
    have hnodes : ∀ t ∈ Node.statementTokens nodes, r.Roots t := fun t ht =>
      h t (by simp [Node.bodyTokens, ht])
    have hintegers : (nodes.map (Node.map r.token)).filterMap Node.integer?
        = nodes.filterMap Node.integer? := by
      rw [List.filterMap_map]
      exact List.filterMap_congr fun node hnode =>
        integer?_map fun t ht => hnodes t (Node.mem_statementTokens hnode ht)
    simp only [List.map_cons, List.map_nil, Table.elements?, Node.statementMap_eq,
      isIntegerList_map hnodes, hintegers]
  | _ :: _ :: _ => rfl

/-- A table, and the same table in the other text. Their receivers are in the relation `Q`. -/
structure Twin (r : Relabeling) (Q : Text → Text → Prop) (a b : Table) : Prop where
  name_eq : b.name = a.name
  receiver : Q a.receiver b.receiver
  numbers_eq : b.numbers = a.numbers
  start_mem : a.start ∈ r.domain
  start_eq : b.start = r.offset a.start
  stop_mem : a.stop ∈ r.domain
  stop_eq : b.stop = r.offset a.stop

section Search

variable {source source' : Text} {marker : Char} {Q : Text → Text → Prop}

/-- A token of a tree: it stands in the text, and it is kept. -/
def Rooted (r : Relabeling) (source : Text) (t : Token) : Prop := t.Placed source ∧ r.Roots t

/-- The texts between two tokens, before and after a relabeling, are in the relation `Q`. -/
def Sees (r : Relabeling) (Q : Text → Text → Prop) (source source' : Text) : Prop :=
  ∀ a b, r.Rooted source a → r.Rooted source b →
    Q (source.slice a.start b.stop) (source'.slice (r.offset a.start) (r.offset b.stop))

/-- A statement is a table in both texts or in neither. -/
lemma ofStatement?_map (hsees : r.Sees Q source source') {statement : Statement}
    (h : ∀ t ∈ Node.statementTokens statement, r.Rooted source t) :
    Option.Rel (r.Twin Q) (Table.ofStatement? source marker statement)
      (Table.ofStatement? source' marker (Node.statementMap r.token statement)) := by
  have hfirstMem : ∀ first, statement.head? = some first → ∀ t ∈ first.tokens, r.Rooted source t :=
    fun first hfirst t ht => h t (Node.mem_statementTokens (List.mem_of_mem_head? hfirst) ht)
  have hmem : ∀ node ∈ statement.reverse, ∀ t ∈ node.tokens, r.Rooted source t :=
    fun node hnode t ht => h t (Node.mem_statementTokens (List.mem_reverse.1 hnode) ht)
  rw [Node.statementMap_eq, Table.ofStatement?, Table.ofStatement?, List.head?_map,
    ← List.map_reverse]
  generalize statement.reverse = reversed at hmem
  cases hfirst : statement.head? with
  | none => exact .none
  | some first =>
    have hfirstRoots := hfirstMem first hfirst
    obtain ⟨hstartMem, hstart⟩ := start_map fun t ht => (hfirstRoots t ht).2
    rcases reversed with _ | ⟨_ | ⟨opener, closer, body⟩, _ | ⟨assign | _, _ | ⟨name | _,
      _ | ⟨dot | _, _ | ⟨last, parts⟩⟩⟩⟩⟩
    all_goals try exact .none
    have hlastRoots := hmem last (by simp)
    obtain ⟨-, hstop⟩ := stop_map fun t ht => (hlastRoots t ht).2
    have hbody : ∀ t ∈ Node.bodyTokens body, r.Roots t := fun t ht =>
      (hmem (.block opener closer body) (by simp) t (by simp [Node.tokens, ht])).2
    obtain ⟨hcloser, hcloserKind⟩ :=
      (hmem (.block opener closer body) (by simp) closer (by simp [Node.tokens])).2
    obtain ⟨hname, -⟩ := (hmem (.leaf name) (by simp) name (by simp [Node.tokens])).2
    have hparts : ((last :: parts).map (Node.map r.token)).all Node.isReceiverPart
        = (last :: parts).all Node.isReceiverPart := by
      simp only [List.all_map, Function.comp_def, isReceiverPart_map]
    have hreceiver : Q (source.slice first.start last.stop)
        (source'.slice (r.offset first.start) (r.offset last.stop)) := by
      obtain ⟨a, as, has, hastart⟩ := first.exists_tokens_eq_cons
      obtain ⟨bs, b, hbs, hbstop⟩ := last.exists_tokens_eq_concat
      rw [← hastart, ← hbstop]
      exact hsees a b (hfirstRoots a (by rw [has]; simp)) (hlastRoots b (by rw [hbs]; simp))
    simp only [Option.map_some, List.map_cons, Node.map] at hparts ⊢
    simp only [hparts, r.beq_word dot (w := ['.']) (by decide), kind_token, elements?_map hbody,
      hstart, hstop, hcloser.stop_eq hcloserKind]
    -- the name is spelled the same way in both texts, where it is one
    by_cases hkind : name.kind = .ident
    · rw [hname.text_eq (by rw [hkind]; rfl)]
      split
      · cases Table.elements? body with
        | none => exact .none
        | some numbers =>
          exact .some ⟨rfl, hreceiver, rfl, hstartMem, rfl, hcloser.stop_mem hcloserKind, rfl⟩
      · exact .none
    · have hfalse : (name.kind == .ident) = false := beq_eq_false_iff_ne.2 hkind
      simp only [hfalse, Bool.and_false, Bool.false_and, Bool.false_eq_true, if_false]
      exact .none

mutual

lemma inNodes_map (hsees : r.Sees Q source source') :
    ∀ nodes : List Node, (∀ t ∈ Node.statementTokens nodes, r.Rooted source t) →
    List.Forall₂ (r.Twin Q) (Table.inNodes source marker nodes)
      (Table.inNodes source' marker (Node.statementMap r.token nodes))
  | [], _ => by
    rw [Node.statementMap, Table.inNodes, Table.inNodes]
    exact .nil
  | .leaf t :: nodes, h => by
    rw [Node.statementMap, Node.map, Table.inNodes, Table.inNodes]
    exact inNodes_map hsees nodes fun t ht => h t (by simp [Node.statementTokens, ht])
  | .block opener closer body :: nodes, h => by
    rw [Node.statementMap, Node.map, Table.inNodes, Table.inNodes]
    refine List.rel_append ?_ ?_
    · exact inStatements_map hsees body fun t ht =>
        h t (by simp [Node.statementTokens, Node.tokens, ht])
    · exact inNodes_map hsees nodes fun t ht => h t (by simp [Node.statementTokens, ht])

/-- The search finds the same tables in both trees. -/
lemma inStatements_map (hsees : r.Sees Q source source') :
    ∀ body : List (List Node), (∀ t ∈ Node.bodyTokens body, r.Rooted source t) →
    List.Forall₂ (r.Twin Q) (Table.inStatements source marker body)
      (Table.inStatements source' marker (Node.bodyMap r.token body))
  | [], _ => by
    rw [Node.bodyMap, Table.inStatements, Table.inStatements]
    exact .nil
  | statement :: statements, h => by
    have hstatement : ∀ t ∈ Node.statementTokens statement, r.Rooted source t :=
      fun t ht => h t (by simp [Node.bodyTokens, ht])
    have htable := @ofStatement?_map r _ _ marker _ hsees _ hstatement
    rw [Node.bodyMap, Table.inStatements, Table.inStatements]
    refine List.rel_append ?_ ?_
    · generalize Table.ofStatement? source marker statement = found at htable
      generalize Table.ofStatement? source' marker _ = found' at htable
      cases htable with
      | none => exact inNodes_map hsees statement hstatement
      | some htwin => exact .cons htwin .nil
    · exact inStatements_map hsees statements fun t ht => h t (by simp [Node.bodyTokens, ht])

end

/-- Tokens that are relabelled have the tree that is relabelled. -/
lemma ofText_map
    (hlex : Corresponds r.Moves (fun ts ts' => ts' = ts.map r.token ∧ ∀ t ∈ ts, r.Keeps t)
      (Token.lex source) (Token.lex source')) :
    Corresponds r.Moves (fun body body' => body' = Node.bodyMap r.token body ∧
        ∀ t ∈ Node.bodyTokens body, r.Rooted source t)
      (Tree.ofText source) (Tree.ofText source') := by
  rw [Tree.ofText_eq, Tree.ofText_eq]
  refine hlex.bind fun tokens tokens' hfirst ⟨htokens, hkeeps⟩ => ?_
  obtain ⟨hstream, -⟩ := Token.stream_of_lex hfirst
  have hbuild := ofTokens_map hkeeps
  rw [htokens]
  generalize Tree.ofTokens (tokens.map r.token) = result at hbuild ⊢
  cases hbody : Tree.ofTokens tokens with
  | error fault =>
    rw [hbody] at hbuild
    cases hbuild with
    | error hf => exact .error hf
  | ok body =>
    rw [hbody] at hbuild
    cases hbuild with
    | ok hmap =>
      refine .ok ⟨hmap, fun t ht => ?_⟩
      rw [Tree.bodyTokens_of_ofTokens hbody, List.mem_filter] at ht
      refine ⟨hstream.placed t ht.1, hkeeps t ht.1, fun hkind => ?_⟩
      simp [hkind, Tree.isSeparator] at ht

/-- A text whose tokens are relabelled has the same tables. -/
lemma locate_map
    (hlex : Corresponds r.Moves (fun ts ts' => ts' = ts.map r.token ∧ ∀ t ∈ ts, r.Keeps t)
      (Token.lex source) (Token.lex source'))
    (hsees : r.Sees Q source source') :
    Corresponds r.Moves (List.Forall₂ (r.Twin Q)) (Table.locate source marker)
      (Table.locate source' marker) := by
  refine (ofText_map hlex).map fun body body' ⟨hbody, hrooted⟩ => ?_
  rw [hbody]
  exact inStatements_map hsees body hrooted

end Search

end Relabeling

end TablePack
