import Mathlib.Tactic
import TablePack.Proofs.Boundaries
import TablePack.Proofs.Exchange.Header

/-!
# A constructor in the place of a table

The header of a table stands on one line, and its array comes after it. A packed table is written
with a header that has a space on each side of the sign, and with a constructor. When this stands in
the place of the table, the text has a tree again, and the search stops at the same statements, but
for the one that was the table.

* `Table.IsHeader`, `Table.Plain`: how the table is written;
* `Table.Found.exists_meets`: the run comes to its array;
* `Table.Plain.exists_exchanged`: the tree and the sites of the other text.
-/

namespace TablePack

open Token (Kind Told IsArray Assigned)
open Text (size)
open Piece (textOf)
open TablePack.Tree (Part isSeparator)

/-! ## Sites in a tree -/

namespace Table

variable {tree : List Statement} {marker : Char} {site : Statement}

mutual

lemma exists_part_of_mem_sitesInNodes : ∀ (nodes : List Node) (whole : List Statement),
    Part tree whole → nodes ⊆ whole.flatten → site ∈ sitesInNodes marker nodes →
      ∃ body, Part tree body ∧ site ∈ body
  | [], _, _, _, h => by
    rw [sitesInNodes] at h
    cases h
  | .leaf _ :: nodes, whole, hpart, hsub, h => by
    rw [sitesInNodes] at h
    exact exists_part_of_mem_sitesInNodes nodes whole hpart (List.cons_subset.1 hsub).2 h
  | .block _ _ body :: nodes, whole, hpart, hsub, h => by
    rw [sitesInNodes, List.mem_append] at h
    obtain ⟨hmem, hnodes⟩ := List.cons_subset.1 hsub
    rcases h with h | h
    · exact exists_part_of_mem_sites body body (.body hpart hmem) (List.Subset.refl _) h
    · exact exists_part_of_mem_sitesInNodes nodes whole hpart hnodes h

/-- A site is a statement of the tree, at some depth. -/
lemma exists_part_of_mem_sites : ∀ body whole : List (List Node),
    Part tree whole → body ⊆ whole → site ∈ sites marker body →
      ∃ body, Part tree body ∧ site ∈ body
  | [], _, _, _, h => by
    rw [sites] at h
    cases h
  | statement :: statements, whole, hpart, hsub, h => by
    rw [sites, List.mem_append] at h
    rcases h with h | h
    · split at h
      · rw [List.mem_singleton.1 h]
        exact ⟨whole, hpart, hsub List.mem_cons_self⟩
      · have hnodes : statement ⊆ whole.flatten := fun node hnode =>
          List.mem_flatten.2 ⟨statement, hsub List.mem_cons_self, hnode⟩
        exact exists_part_of_mem_sitesInNodes statement whole hpart hnodes h
    · exact exists_part_of_mem_sites statements whole hpart (List.cons_subset.1 hsub).2 h

end

lemma infix_of_mem_sites (h : site ∈ sites marker tree) :
    Node.statementTokens site <:+: Node.bodyTokens tree := by
  obtain ⟨body, hpart, hmem⟩ := exists_part_of_mem_sites tree tree .whole (List.Subset.refl _) h
  refine List.IsInfix.trans ?_ hpart.isInfix_bodyTokens
  obtain ⟨before, after, rfl⟩ := List.append_of_mem hmem
  refine ⟨Node.bodyTokens before, Node.bodyTokens after, ?_⟩
  rw [Node.bodyTokens_append, Node.bodyTokens, List.append_assoc]

end Table

lemma Node.statementMatched_of_mem {body : List Statement} {statement : Statement}
    (h : BodyMatched body) (hmem : statement ∈ body) : StatementMatched statement := by
  obtain ⟨before, after, rfl⟩ := List.append_of_mem hmem
  rw [bodyMatched_append, BodyMatched] at h
  exact h.2.1

lemma Tree.Part.matched {tree body : List Statement} (h : Part tree body)
    (htree : Node.BodyMatched tree) : Node.BodyMatched body := by
  induction h with
  | whole => exact htree
  | body _ hmem ih =>
    obtain ⟨statement, hstatement, hnode⟩ := List.mem_flatten.1 hmem
    obtain ⟨before, after, rfl⟩ := List.append_of_mem hnode
    have hmatched := Node.statementMatched_of_mem ih hstatement
    rw [Node.statementMatched_append, Node.StatementMatched, Node.Matched] at hmatched
    exact hmatched.2.1.2

/-! ## How a table is written -/

/-- A token within a part of a text has its characters from there. -/
lemma Token.Placed.mem_of_between {source x m y : Text} {t : Token} (h : t.Placed source)
    (hsource : source = x ++ (m ++ y)) (hstart : size x ≤ t.start)
    (hstop : t.stop ≤ size x + size m) {c : Char} (hc : c ∈ t.text) : c ∈ m := by
  obtain ⟨before, after, hplaced, hsize⟩ := h
  obtain ⟨gap, rfl, hgap⟩ :=
    Text.append_split_of_size_le (hsource.symm.trans hplaced) (hsize ▸ hstart)
  rw [← List.append_assoc] at hgap
  have hle : size (gap ++ t.text) ≤ size m := by
    rw [Token.stop, ← hsize, Text.size_append] at hstop
    rw [Text.size_append]
    omega
  obtain ⟨rest, rfl, -⟩ := Text.append_split_of_size_le hgap.symm hle
  simp [hc]

namespace Scanner

variable {s s' : Scanner}

lemma eq_of_run_nil (hrest : s.rest = []) (h : s.run = .ok s') : s' = s := by
  rw [run_nil hrest] at h
  split at h
  · exact (Except.ok.inj h).symm
  · cases h

end Scanner

/-- The scanner comes to the end of a text, and nothing is left that the end of the line would
end. -/
def Scanner.Settles (x : Text) : Prop :=
  ∃ s : Scanner, Scanner.run { rest := x } = .ok s ∧ s.Settled

/-- The state at the end of a text can be computed. -/
lemma Scanner.settles_of_run {x : Text} (h : (Scanner.run { rest := x }).map
    (fun s => s.params.isNone && !Token.rescuesLine s.recent) = .ok true) : Scanner.Settles x := by
  obtain ⟨s, hrun, hs⟩ := eq_ok_of_map_eq_ok h
  rw [Bool.and_eq_true, Option.isNone_iff_eq_none, Bool.not_eq_true'] at hs
  refine ⟨s, hrun, (Scanner.run_eq_ok_iff.1 hrun).2.2, ?_, hs.2⟩
  rw [hs.1]
  simp

namespace Table

/-- What stands before the value in the statement that constructs a packed table. -/
def head (t : Table) : Text := t.receiver ++ '.' :: (t.name ++ [' ', '=', ' '])

/-- How the receiver, the name and the sign of a table may be written: on one line, with any blanks
after the dot and around the sign. There is none before the dot, where it may keep two dots apart
that are one sign without it. -/
def IsHeader (t : Table) (header : Text) : Prop :=
  ∃ x y z : Text, header = t.receiver ++ '.' :: (x ++ (t.name ++ (y ++ '=' :: z))) ∧
    (∀ c ∈ x, Text.isBlank c) ∧ (∀ c ∈ y, Text.isBlank c) ∧ ∀ c ∈ z, Text.isBlank c

/-- A table of which the header is on one line. The array goes over one line too, or the line has
begun nothing that its end would end. -/
structure Plain (source : Text) (t : Table) (before header body after : Text) : Prop where
  isHeader : t.IsHeader header
  source_eq : source = before ++ (header ++ '[' :: (body ++ ']' :: after))
  start_eq : t.start = size before
  stop_eq : t.stop = size before + size header + size body + 2
  line : ('\n' ∉ body ∧ ';' ∉ body) ∨ Scanner.Settles (before ++ t.head)

namespace Plain

variable {source before header body after : Text} {t : Table}
  (h : t.Plain source before header body after)

include h

lemma source_eq_append :
    source = before ++ ((header ++ '[' :: (body ++ [']'])) ++ after) := by
  rw [h.source_eq]
  simp

lemma stop_eq_size : t.stop = size before + size (header ++ '[' :: (body ++ [']'])) := by
  have hopen : size ['['] = 1 := rfl
  have hclose : size [']'] = 1 := rfl
  rw [h.stop_eq, ← List.singleton_append, Text.size_append, Text.size_append, Text.size_append]
  omega

end Plain

/-- The tokens of a table, from the last one of its receiver on. -/
lemma Form.Valid.exists_last {f : Form} {marker : Char} {numbers : List ℕ}
    (h : f.Valid marker numbers) : ∃ ts last, Node.statementTokens f.statement
      = ts ++ last :: f.dot :: f.name :: f.assign :: f.opener
        :: (Node.bodyTokens f.body ++ [f.closer]) ∧ last.stop = f.last.stop := by
  obtain ⟨parts, hparts⟩ := List.getLast?_eq_some_iff.1 h.getLast_eq
  obtain ⟨ts, last, hlast, hstop⟩ := f.last.exists_tokens_eq_concat
  refine ⟨Node.statementTokens parts ++ ts, last, ?_, hstop⟩
  simp [Form.statement, Node.statementTokens, Node.tokens, hparts, hlast]

/-- A table of a text, with its nodes, the run over the text and the tokens around it. -/
structure Found (source : Text) (marker : Char) (t : Table) (f : Form) (e : Scanner)
    (pre post : List Token) : Prop where
  run_eq : Scanner.run { rest := source } = .ok e
  valid : f.Valid marker t.numbers
  table_eq : t = f.table source t.numbers
  tokens_eq : (Token.tellBrackets e.recent.reverse).filter (fun t => !isSeparator t.kind)
    = pre ++ (Node.statementTokens f.statement ++ post)
  closer_kind : f.closer.kind = .rbracket

variable {source before header body after : Text} {t : Table} {tree : List Statement}
  {marker : Char} {site : Statement}

lemma exists_found (htree : Tree.ofText source = .ok tree) (hsite : site ∈ sites marker tree)
    (ht : ofStatement? source marker site = some t) :
    ∃ f e pre post, site = f.statement ∧ Found source marker t f e pre post := by
  obtain ⟨f, hvalid, hstatement, htable⟩ := exists_form_of_ofStatement? ht
  obtain ⟨tokens, hlex, hbuild⟩ := Tree.exists_tokens_of_ofText htree
  obtain ⟨pre, post, hinfix⟩ := infix_of_mem_sites hsite
  rw [Tree.bodyTokens_of_ofTokens hbuild, hstatement, List.append_assoc] at hinfix
  rw [Token.lex_eq] at hlex
  obtain ⟨e, hrun, rfl⟩ := eq_ok_of_map_eq_ok hlex
  refine ⟨f, e, pre, post, hstatement, hrun, hvalid, htable, hinfix.symm, ?_⟩
  obtain ⟨body, hpart, hmem⟩ := exists_part_of_mem_sites tree tree .whole (List.Subset.refl _) hsite
  have hmatched :=
    Node.statementMatched_of_mem (hpart.matched (Tree.matched_of_ofTokens hbuild)) hmem
  rw [hstatement, Form.statement] at hmatched
  simp only [Node.statementMatched_append, Node.StatementMatched, Node.Matched,
    hvalid.opener_kind] at hmatched
  exact hmatched.2.2.2.2.1.1

namespace Found

variable {f : Form} {e : Scanner} {pre post : List Token}
  (h : Found source marker t f e pre post)

include h

lemma lex_eq : Token.lex source = .ok (Token.tellBrackets e.recent.reverse) := by
  rw [Token.lex_eq, h.run_eq]
  rfl

lemma sublist : (Node.statementTokens f.statement).Sublist
    (Token.tellBrackets e.recent.reverse) := by
  have hsub := (List.sublist_append_left (Node.statementTokens f.statement) post).trans
    (List.sublist_append_right pre _)
  rw [← h.tokens_eq] at hsub
  exact hsub.trans List.filter_sublist

lemma stream : Token.Stream source (Node.statementTokens f.statement) :=
  (Token.stream_of_lex h.lex_eq).1.sublist h.sublist

lemma spelled {u : Token} (hu : u ∈ Node.statementTokens f.statement) : u.SpelledApart :=
  (Token.stream_of_lex h.lex_eq).2 u (h.sublist.subset hu)

lemma closer_text : f.closer.text = [']'] := by
  have hspelled := h.spelled (u := f.closer)
    (by simp [Form.statement, Node.statementTokens, Node.tokens])
  rw [Token.SpelledApart, h.closer_kind, if_neg (by decide)] at hspelled
  simpa using hspelled.punctuation [[']']] rfl

/-- The name starts with a character at which a token is read. -/
lemma exists_isSolid : ∃ d v, f.name.text = d :: v ∧ Scanner.isSolid d := by
  have hmem : f.name ∈ Node.statementTokens f.statement := by
    simp [Form.statement, Node.statementTokens, Node.tokens]
  obtain ⟨u, hu, htold⟩ :=
    Token.exists_told (Token.told_tellBrackets _) (h.sublist.subset hmem)
  obtain rfl := Scanner.eq_of_told htold (by simp [h.valid.name_kind])
  exact Scanner.exists_isSolid h.run_eq (List.mem_reverse.1 hu) (by rw [h.valid.name_kind]; rfl)

lemma receiver_eq : t.receiver = Text.slice source f.first.start f.last.stop :=
  congrArg Table.receiver h.table_eq

lemma start_eq : t.start = f.first.start := congrArg Table.start h.table_eq

/-- The receiver ends where its last node does. -/
lemma last_stop (hbefore : t.start = size before) :
    size (before ++ t.receiver) = f.last.stop := by
  obtain ⟨b, a, -, hstart, hstop⟩ := h.valid.excerpt h.stream
  have hreceiver := h.receiver_eq
  have hfirst := h.start_eq
  rw [Text.size_append, hreceiver]
  omega

lemma elements {u : Token} (hu : u ∈ Node.bodyTokens f.body) : u.kind = .int ∨ u.kind = .comma :=
  (bodyTokens_of_elements? h.valid.elements).1 u hu

/-- Between the brackets there is a number. -/
lemma exists_element (hne : t.numbers ≠ []) : ∃ u, u ∈ Node.bodyTokens f.body := by
  refine List.exists_mem_of_ne_nil _ fun hnil => hne ?_
  rw [(bodyTokens_of_elements? h.valid.elements).2, hnil]
  rfl

/-- The brackets do not touch. -/
lemma start_lt (hne : t.numbers ≠ []) : f.opener.start + 1 < f.closer.start := by
  obtain ⟨u, hu⟩ := h.exists_element hne
  have hsub : [f.opener, u, f.closer].Sublist (Node.statementTokens f.statement) := by
    obtain ⟨ts, last, htokens, -⟩ := h.valid.exists_last
    rw [htokens, List.append_cons, List.append_cons, List.append_cons, List.append_cons]
    refine List.sublist_append_of_sublist_right (List.Sublist.cons_cons _ ?_)
    exact (List.singleton_sublist.2 hu).append (List.Sublist.refl [f.closer])
  have hstream := h.stream.sublist hsub
  have hopener : f.opener.stop = f.opener.start + 1 := by
    have hspelled := h.spelled (hsub.subset List.mem_cons_self)
    rw [Token.SpelledApart, if_pos (.inr h.valid.opener_kind)] at hspelled
    rw [Token.stop, hspelled]
    rfl
  have hwide := Token.start_lt_stop (hstream.ne_nil u (by simp))
  have hordered := hstream.ordered
  simp only [List.pairwise_cons, List.mem_cons, List.not_mem_nil, or_false] at hordered
  have hfirst := hordered.1 u (.inl rfl)
  have hlast := hordered.2.1 f.closer rfl
  omega

/-- The array of a plain table has no separator in it where its text has none. -/
lemma not_separator (hplain : t.Plain source before header body after)
    (hbody : '\n' ∉ body ∧ ';' ∉ body) {opener : Token} {older inner later : List Token}
    (hrecent : e.recent.reverse = older ++ opener :: (inner ++ f.closer :: later))
    (hopener : opener.stop = size (before ++ header) + 1) :
    ∀ u ∈ inner, u.kind ≠ .newline ∧ u.kind ≠ .semi := by
  have hreach : Scanner.Reaches { rest := source } e := (Scanner.run_eq_ok_iff.1 h.run_eq).1
  have hstream := hreach.stream
  intro u hu
  have hmem : u ∈ e.recent.reverse := by rw [hrecent]; simp [hu]
  have hordered := hstream.ordered
  rw [hrecent] at hordered
  obtain ⟨hfirst, hrest⟩ := List.pairwise_cons.1 (List.pairwise_append.1 hordered).2.1
  have hstart := hfirst u (by simp [hu])
  have hstop := (List.pairwise_append.1 hrest).2.2 u hu f.closer List.mem_cons_self
  have hclose : t.stop = f.closer.start + 1 := by
    rw [h.table_eq, Form.table, Token.stop, h.closer_text]
    rfl
  have hend := hplain.stop_eq
  have hsource : source = (before ++ header ++ ['[']) ++ (body ++ ']' :: after) := by
    rw [hplain.source_eq]
    simp
  have hbracket : size ['['] = 1 := rfl
  rw [Text.size_append] at hopener
  -- The characters of the token are characters of the body.
  have hchars : ∀ c ∈ u.text, c ∈ body := fun c hc =>
    (hstream.placed u hmem).mem_of_between hsource
      (by rw [Text.size_append, Text.size_append]; omega)
      (by rw [Text.size_append, Text.size_append]; omega) hc
  have hspelled := ((Scanner.sound_start source).reaches hreach).spelled u (by
    rw [List.mem_reverse, ((Scanner.sound_start source).reaches hreach).recent_eq] at hmem
    exact List.mem_of_mem_filter hmem)
  have hne : ∀ k c, Token.spellings? k = some [[c]] → c ∉ body → u.kind ≠ k := by
    rintro k c hk hc rfl
    rw [List.mem_singleton.1 (hspelled.punctuation _ hk)] at hchars
    exact hc (hchars c List.mem_cons_self)
  exact ⟨hne _ '\n' rfl hbody.1, hne _ ';' rfl hbody.2⟩

lemma closer_stop : f.closer.stop = t.stop := by
  rw [h.table_eq]
  rfl

/-- The run comes to the end of the receiver, and the field is to come. -/
lemma exists_receiver (hplain : t.Plain source before header body after) {w : Text}
    (hheader : header ++ '[' :: (body ++ ']' :: after) = t.receiver ++ '.' :: w) :
    ∃ s, Scanner.Reaches { rest := source } s ∧ s.rest = '.' :: w ∧
      Scanner.Ahead s e (f.dot :: f.name :: f.assign :: f.opener
        :: (Node.bodyTokens f.body ++ f.closer :: post)) := by
  obtain ⟨ts, last, htokens, hstop⟩ := h.valid.exists_last
  have hfilter : (Token.tellBrackets e.recent.reverse).filter (fun t => !isSeparator t.kind)
      = (pre ++ ts) ++ last :: f.dot :: f.name :: f.assign :: f.opener
        :: (Node.bodyTokens f.body ++ f.closer :: post) := by
    rw [h.tokens_eq, htokens]
    simp
  obtain ⟨s, hreach, hpos, hahead⟩ := Scanner.exists_ahead h.run_eq hfilter
  refine ⟨s, hreach, ?_, hahead⟩
  rw [hreach.rest_eq, hpos, hstop, ← h.last_stop hplain.start_eq, hplain.source_eq, hheader,
    ← List.append_assoc, Text.dropBytes_size_append]

/-- The run comes to the array of a plain table. Over another text that has the constructor of the
table, the run comes to the value, and the states are the same but for the offsets. -/
lemma exists_meets (hplain : t.Plain source before header body after) (hne : t.numbers ≠ []) :
    ∃ s inner later older seam,
      Scanner.Meets source s e older f.name f.assign { f.opener with kind := .lbracket } inner
        f.closer later ∧ f.dot.start ≤ seam ∧
      ∀ w, ∃ q, Scanner.Reaches { rest := before ++ (t.head ++ w) } q ∧ q.rest = w ∧
        Scanner.Beside s q older f.name f.assign seam := by
  obtain ⟨x, y, z, hheader, hx, hy, hz⟩ := hplain.isHeader
  have hname : t.name = f.name.text := congrArg Table.name h.table_eq
  rw [hname] at hheader
  obtain ⟨s₀, hreach₀, hrest₀, hahead₀⟩ := h.exists_receiver hplain
    (w := x ++ (f.name.text ++ (y ++ '=' :: (z ++ '[' :: (body ++ ']' :: after)))))
    (by rw [hheader]; simp)
  have hrun₀ : s₀.run = .ok e := (Scanner.run_of_reaches hreach₀).symm.trans h.run_eq
  obtain ⟨hdot, hassign, ⟨s, hpasses, hrest, hahead⟩, p, p', hnext, hreads, hends, hrecent⟩ :=
    hahead₀.exists_field hrun₀ h.valid.dot_text h.valid.name_kind h.exists_isSolid hx hy hz hrest₀
  rw [hdot] at hpasses hrecent
  have hreach : Scanner.Reaches { rest := source } s := hreach₀.trans hpasses.coming.reaches
  have hrun : s.run = .ok e := (Scanner.run_of_reaches hreach).symm.trans h.run_eq
  obtain ⟨inner, later, hcoming, harray, hstart, -⟩ := hahead.exists_array hrun hrest
    h.valid.opener_kind (fun u hu => h.elements hu) h.closer_kind h.closer_text
  have hother : ∀ w, ∃ q, Scanner.Reaches { rest := before ++ (t.head ++ w) } q ∧ q.rest = w ∧
      Scanner.Beside s q (⟨.dot, s₀.pos, ['.']⟩ :: s₀.recent) f.name f.assign (s₀.pos + 1) := by
    intro w
    have hfirst := hnext.head?_of_ident hreads h.valid.name_kind
    have hne := hreads.spelled.ne_nil
    have hborder := Scanner.border_dot hx hne hfirst
      (y ++ '=' :: (z ++ '[' :: (body ++ ']' :: after)))
    have hborder' := Scanner.border_dot (List.forall_mem_nil _) hne hfirst (' ' :: '=' :: ' ' :: w)
    have hsource : source = (before ++ t.receiver) ++ '.' :: (x ++ (f.name.text ++ (y ++ '='
        :: (z ++ '[' :: (body ++ ']' :: after))))) := by
      rw [hplain.source_eq, hheader]
      simp
    -- The dot is where the texts part.
    have hshared := Scanner.reaches_border hborder hborder' hreach₀ hsource hrest₀
    obtain ⟨q, hq, hrest'⟩ := Scanner.exists_spaced
      (s := s₀.onto ('.' :: (f.name.text ++ ' ' :: '=' :: ' ' :: w))) hnext hreads
      h.valid.name_kind hends hrecent (Scanner.rest_onto _ _)
    have hhead : before ++ (t.head ++ w)
        = (before ++ t.receiver) ++ '.' :: (f.name.text ++ ' ' :: '=' :: ' ' :: w) := by
      rw [head, hname]
      simp
    rw [hhead]
    exact ⟨q, hshared.trans hq.coming.reaches, hrest',
      hpasses.beside hreach₀ h.valid.name_kind h.valid.assign_kind hassign hq⟩
  have hpos : s.pos = size (before ++ header) := by
    obtain ⟨v, hv, hsize⟩ := ((Scanner.sound_start source).reaches hreach).split
    rw [hplain.source_eq, hrest, ← List.append_assoc] at hv
    rw [← hsize, List.append_cancel_right hv]
  have hline : (∀ u ∈ inner, u.kind ≠ .newline ∧ u.kind ≠ .semi) ∨ s.Settled := by
    refine hplain.line.imp (fun hbody => ?_) fun hsettles => ?_
    · have hrecent : e.recent.reverse = s.recent.reverse
          ++ { f.opener with kind := .lbracket } :: (inner ++ f.closer :: later) := by
        rw [hcoming.recent_eq]
        simp
      refine h.not_separator hplain hbody hrecent ?_
      rw [← hpos, ← hstart, Token.stop, harray.opener_text]
      rfl
    · -- The line up to the array is itself a text, and the run over it ends beside this state.
      obtain ⟨q', hrun', hsettled⟩ := hsettles
      obtain ⟨q, hreach', hrest', hbeside⟩ := hother []
      rw [List.append_nil] at hreach'
      rw [Scanner.run_of_reaches hreach'] at hrun'
      obtain rfl := Scanner.eq_of_run_nil hrest' hrun'
      exact hbeside.settled h.valid.name_kind h.valid.assign_kind hpasses.coming.recent_eq hsettled
  refine ⟨s, inner, later, _, _, ⟨hreach, hrun, hcoming, hpasses.coming.recent_eq,
    h.valid.name_kind, h.valid.assign_kind, harray, hstart, hstart ▸ h.start_lt hne, hline⟩,
    ?_, hother⟩
  rw [hdot]
  exact Nat.le_succ _

end Found

/-- With a constructor in the place of a plain table the text has a tree again. The table is gone,
and those after it have their names and their numbers. -/
lemma Plain.exists_exchanged {first last : List Statement} {encoding : Encoding}
    (hplain : t.Plain source before header body after) (htree : Tree.ofText source = .ok tree)
    (hsites : sites marker tree = first ++ site :: last)
    (ht : ofStatement? source marker site = some t) (hne : t.numbers ≠ [])
    (hinner : inNodes source marker site = []) (hbuffers : encoding.buffers ≠ []) :
    ∃ tree' last', Tree.ofText (before ++ (t.head ++ (textOf encoding.pieces ++ after)))
        = .ok tree' ∧ sites marker tree' = first ++ last' ∧
      List.Forall₂ (fun a b => ∀ source', Option.Rel Alike (ofStatement? source marker a)
        (ofStatement? source' marker b)) last last' := by
  obtain ⟨f, e, pre, post, rfl, hfound⟩ := exists_found htree (by rw [hsites]; simp) ht
  obtain ⟨s, inner, later, older, seam, hmeets, hseam, hother⟩ := hfound.exists_meets hplain hne
  obtain ⟨q, hreach, hrest, hbeside⟩ := hother (textOf encoding.pieces ++ after)
  have hsource : source = (before ++ (header ++ '[' :: (body ++ [']']))) ++ after := by
    rw [hplain.source_eq]
    simp
  have hsize : size (before ++ (header ++ '[' :: (body ++ [']']))) = f.closer.stop := by
    rw [hfound.closer_stop, hplain.stop_eq_size, Text.size_append]
  have htree' := hmeets.ofText_exchanged hbeside hbuffers htree hsource hsize hreach hrest
  set x := hmeets.exchange hbeside hbuffers with hx
  have hopener : x.opener = f.opener := by
    change ({ f.opener with kind := .arrayBracket } : Token) = f.opener
    rw [← hfound.valid.opener_kind]
  have hholds : x.holds f.statement := by
    simp [Exchange.holds, Form.statement, Exchange.isArray, hopener]
  have hstream : Token.Stream source (Node.bodyTokens tree) := by
    obtain ⟨tokens, hlex, hbuild⟩ := Tree.exists_tokens_of_ofText htree
    rw [Tree.bodyTokens_of_ofTokens hbuild]
    exact (Token.stream_of_lex hlex).1.sublist List.filter_sublist
  -- What stands before the dot stays where it is; the name and the sign may move.
  have hdot : f.dot ∈ Node.statementTokens f.statement := by
    simp [Form.statement, Node.statementTokens, Node.tokens]
  obtain ⟨hsites', hnot⟩ := x.sites_of_site hstream.ordered hstream.ne_nil hdot
    (fun u hu hstop => hmeets.token_of_le hbeside hbuffers hu (hstop.trans hseam)) hsites hholds
    (sitesInNodes_eq_nil hinner)
  refine ⟨_, _, htree', hsites', ?_⟩
  rw [List.forall₂_map_right_iff, List.forall₂_same]
  intro other hother source'
  exact x.ofStatement?_statement source source' marker (hnot other hother)

end Table

end TablePack
