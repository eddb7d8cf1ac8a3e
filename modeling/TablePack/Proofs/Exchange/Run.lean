import Mathlib.Tactic
import TablePack.Proofs.CommonStart
import TablePack.Proofs.Exchange.Tree
import TablePack.Proofs.Exchange.Value

/-!
# Reading on after a value

A text has an array as the value of a field; another text is the same but for the constructor that
stands in its place, and for the blanks around the sign of the assignment. When the scanner has read
the array in the one and the constructor in the other, it remembers the same, but for offsets that
are of no use any more, and reads the rest of both alike.

* `Scanner.Coming.exists_afterArray`, `Scanner.exists_afterConstructor`: the states after the value;
* `Scanner.Meets`, `Scanner.Beside`: the two runs, where they come to the value;
* `Scanner.Meets.exists_run`: the run over the other text, and its tree
  (`Scanner.Meets.ofText_exchanged`).
-/

namespace TablePack

open Token (Kind Fence IsArray Assigned rescuesLine)
open Piece (tokensAt textOf)
open Text (size)

namespace Scanner

variable {source : Text} {s s' e : Scanner} {opener closer : Token} {inner later : List Token}

/-! ## The states after the value -/

/-- A line has begun nothing that its end would end: no heredoc, no list of parameters, and no error
is being rescued. -/
structure Settled (s : Scanner) : Prop where
  pending_eq : s.pending = []
  ending_ne : ∀ p ∈ s.params, p.ending ≠ .line
  rescues_eq : rescuesLine s.recent = false

/-- What is remembered when a value has been read. -/
structure AfterValue (s s' : Scanner) (value : List Token) : Prop where
  recent_eq : s'.recent = value.reverse ++ s.recent
  line_eq : s'.atLineStart = false
  locals_eq : s'.locals = s.locals
  params_eq : s'.params = afterValue s.params
  pending_eq : s'.pending = s.pending

lemma ReadsToken.atLineStart_eq {t : Token} {c : Char} (h : ReadsToken s s' t)
    (hkind : t.kind ≠ .newline) (htext : t.text = [c]) (hc : c ≠ '\n') :
    s'.atLineStart = false := by
  rw [atLineStart, h.previous_eq hkind, htext]
  exact beq_eq_false_iff_ne.2 hc

lemma Coming.exists_afterArray (harray : IsArray opener inner closer)
    (hline : (∀ t ∈ inner, t.kind ≠ .newline ∧ t.kind ≠ .semi) ∨ s.Settled)
    (h : Coming s e (opener :: (inner ++ closer :: later))) :
    ∃ s', Reaches s s' ∧ Coming s' e later ∧ s'.pos = closer.stop ∧
      AfterValue s s' (opener :: (inner ++ [closer])) := by
  obtain ⟨s₁, s', hbefore, hnext, hreads, hcoming, hkeeps⟩ :=
    @Coming.exists_quiet s e closer (opener :: inner) later h (quietRun_array harray s.recent)
  have hkind : closer.kind ≠ .newline := by simp [harray.closer_kind]
  refine ⟨s', hbefore.reaches.tail hnext, hcoming, hreads.pos_eq hkind, ?_, ?_, hkeeps.locals_eq,
    ?_, ?_⟩
  · rw [hreads.recent_eq, hbefore.recent_eq]
    simp
  · exact hreads.atLineStart_eq hkind harray.closer_text (by decide)
  · rw [hkeeps.params_eq]
    exact tracked_array harray (hline.imp_right Settled.ending_ne)
  · rcases hkeeps.pending_eq with heq | ⟨hnil, t, ht, hnewline⟩
    · exact heq
    -- The array has a newline, and there was no heredoc that it could have ended.
    · rw [List.cons_append, List.mem_cons, List.mem_append, List.mem_singleton] at ht
      rcases ht with rfl | ht | rfl
      · rw [harray.opener_kind] at hnewline
        cases hnewline
      · have hsettled := hline.resolve_left fun hnone => (hnone t ht).1 hnewline
        exact hnil.trans hsettled.pending_eq.symm
      · exact absurd hnewline hkind

lemma Reaches.eq_of_pos_le (h : Reaches s s') (hpos : s'.pos ≤ s.pos) : s = s' := by
  rcases Relation.ReflTransGen.cases_head h with heq | ⟨s₁, hnext, hreach⟩
  · exact heq
  · have hlt := hnext.pos_lt
    have hle : s₁.pos ≤ s'.pos := by
      clear h hnext hlt hpos
      induction hreach with
      | refl => exact le_rfl
      | tail _ hnext ih => exact ih.trans hnext.pos_lt.le
    omega

lemma exists_afterConstructor {encoding : Encoding} {after : Text}
    (hready : Ready s (some .assign) ' ')
    (hparen : ∀ p ∈ s.params, p.ending = .paren → 0 < p.depth)
    (hrest : s.rest = textOf encoding.pieces ++ after) :
    ∃ s', Reaches s s' ∧ s'.rest = after ∧ s'.pos = (encoding.rparenAt s.pos).stop ∧
      AfterValue s s' (tokensAt s.pos encoding.pieces) := by
  have hquiet := quietRun_constructor encoding s.pos s.recent
  have htracked := tracked_constructor encoding s.pos hparen
  obtain ⟨s', hreach, hend, hpos, hpending, hrecent⟩ := exists_reaches
    (encoding.fitting_pieces after) hready
    (fun h => absurd h encoding.newline_not_mem_pieces) hrest
  rw [Encoding.scannedAt_pieces] at hrecent
  rw [← encoding.stop_rparenAt] at hpos
  obtain ⟨init, hinit⟩ : ∃ init, tokensAt s.pos encoding.pieces
      = init ++ [encoding.rparenAt s.pos] := ⟨_, by
    rw [Encoding.tokensAt_pieces, List.append_cons, ← List.append_assoc]⟩
  rw [hinit] at hquiet htracked hrecent ⊢
  have hcoming : Coming _ s' (init ++ [encoding.rparenAt s.pos]) := ⟨hreach, hrecent⟩
  obtain ⟨s₁, s₂, -, -, hreads, hlast, hkeeps⟩ := hcoming.exists_quiet hquiet
  have hkind : (encoding.rparenAt s.pos).kind ≠ .newline := Kind.noConfusion
  obtain rfl : s₂ = s' := hlast.reaches.eq_of_pos_le (by rw [hpos, hreads.pos_eq hkind])
  exact ⟨s₂, hreach, hend, hpos, hrecent, hreads.atLineStart_eq hkind rfl (by decide),
    hkeeps.locals_eq, hkeeps.params_eq.trans htracked, hpending⟩

end Scanner

/-! ## The rest of the run -/

lemma Encoding.lt_start_rparenAt (encoding : Encoding) (pos : ℕ) :
    pos + 1 < (encoding.rparenAt pos).start := by
  have hfront : 0 < Text.size (textOf encoding.front) := Text.size_pos (List.cons_ne_nil _ _)
  have hparen : Text.size ['('] = 1 := rfl
  simp only [rparenAt, lparenAt, Token.stop]
  omega

namespace Scanner

/-- A run over a text that comes to an array, the value of a field. The tokens `older` stand before
the name of the field. -/
structure Meets (source : Text) (s e : Scanner) (older : List Token) (name assign opener : Token)
    (inner : List Token) (closer : Token) (later : List Token) : Prop where
  reaches : Reaches { rest := source } s
  run_eq : s.run = .ok e
  coming : Coming s e (opener :: (inner ++ closer :: later))
  recent_eq : s.recent = assign :: name :: older
  name_kind : name.kind = .ident
  assign_kind : assign.kind = .assign
  array : IsArray opener inner closer
  start_eq : opener.start = s.pos
  start_lt : s.pos + 1 < closer.start
  line : (∀ t ∈ inner, t.kind ≠ .newline ∧ t.kind ≠ .semi) ∨ s.Settled

/-- A state of a run over another text, before the value of the same field. The texts part at byte
`seam`, where the other one has the name, and there is a space on each side of the sign. -/
structure Beside (s q : Scanner) (older : List Token) (name assign : Token) (seam : ℕ) :
    Prop where
  recent_eq : q.recent = { assign with start := seam + size name.text + 1 }
    :: { name with start := seam } :: older
  locals_eq : q.locals = s.locals
  params_eq : q.params = s.params
  pending_eq : q.pending = s.pending
  ready : Ready q (some .assign) ' '
  seam_pos : 0 < seam
  seam_le : seam ≤ name.start
  seam_le_pos : seam ≤ q.pos
  older_le : ∀ t ∈ older, t.stop ≤ seam
  pending_le : ∀ doc ∈ s.pending, doc.start ≤ seam

lemma rescuesLine_field {older : List Token} {name assign : Token} (hname : name.kind = .ident)
    (hassign : assign.kind = .assign) :
    rescuesLine (assign :: name :: older) = rescuesLine older := by
  refine @Token.rescuesLine_append older [assign, name] ?_ (.inl ?_) <;> simp [hname, hassign]

lemma Beside.rescuesLine_eq {q : Scanner} {older : List Token} {name assign : Token} {seam : ℕ}
    (h : Beside s q older name assign seam) (hname : name.kind = .ident)
    (hassign : assign.kind = .assign) : rescuesLine q.recent = rescuesLine older := by
  rw [h.recent_eq]
  exact rescuesLine_field hname hassign

lemma Beside.settled {q : Scanner} {older : List Token} {name assign : Token} {seam : ℕ}
    (h : Beside s q older name assign seam) (hname : name.kind = .ident)
    (hassign : assign.kind = .assign) (hrecent : s.recent = assign :: name :: older)
    (hsettled : q.Settled) : s.Settled := by
  refine ⟨h.pending_eq ▸ hsettled.pending_eq, h.params_eq ▸ hsettled.ending_ne, ?_⟩
  rw [hrecent, rescuesLine_field hname hassign, ← h.rescuesLine_eq hname hassign]
  exact hsettled.rescues_eq

/-- Of a field and its array, what may be seen when the array has been closed: the kinds of the
tokens, and where the last one stops. -/
def stub (closer : Token) (older : List Token) : List Token :=
  closer :: ⟨.lbracket, 0, ['[']⟩ :: ⟨.assign, 0, []⟩ :: ⟨.ident, 0, []⟩ :: older

lemma fence_stub {closer : Token} (hkind : closer.kind = .rbracket) (htext : closer.text = [']'])
    (older : List Token) : Fence (stub closer older) closer.stop (rescuesLine older) := by
  have harray : IsArray ⟨.lbracket, 0, ['[']⟩ [] closer :=
    ⟨rfl, rfl, List.forall_mem_nil _, hkind, htext⟩
  have hassigned : Assigned (⟨.assign, 0, []⟩ :: ⟨.ident, 0, []⟩ :: older) :=
    ⟨_, _, _, rfl, rfl, rfl⟩
  have hfence := Token.fence_array harray hassigned (.inl (List.forall_mem_nil _))
  rwa [rescuesLine_field rfl rfl] at hfence

namespace Meets

variable {source : Text} {s e q : Scanner} {opener closer name assign : Token}
  {inner later older : List Token} {seam : ℕ} {encoding : Encoding}
  (h : Meets source s e older name assign opener inner closer later)
  (hq : Beside s q older name assign seam)

include h

lemma assigned : Assigned s.recent := ⟨assign, name, older, h.recent_eq, h.assign_kind, h.name_kind⟩

lemma opener_stop_eq : opener.stop = s.pos + 1 := by
  rw [Token.stop, h.start_eq, h.array.opener_text]
  rfl

/-- The name, the sign and the bracket stand one after another. -/
lemma ordered : name.start < assign.start ∧ assign.start < s.pos := by
  have hstream := h.reaches.stream
  have hreverse : s.recent.reverse = older.reverse ++ [name, assign] := by
    rw [h.recent_eq]
    simp
  rw [hreverse] at hstream
  have hname := Token.start_lt_stop (hstream.ne_nil name (by simp))
  have hassign := Token.start_lt_stop (hstream.ne_nil assign (by simp))
  have hordered := (List.pairwise_append.1 hstream.ordered).2.1
  simp only [List.pairwise_cons, List.mem_singleton, forall_eq] at hordered
  have hstop := ((sound_start source).reaches h.reaches).recent_stop_le assign
    (by rw [h.recent_eq]; exact List.mem_cons_self)
  omega

include hq

lemma seam_lt : seam < closer.start := by
  have hordered := h.ordered
  have hseam := hq.seam_le
  have hclose := h.start_lt
  omega

omit h hq in
/-- The offsets of the two texts. The one has an array that the token `closer` closes, and the other
has a constructor. -/
def shift (h : Meets source s e older name assign opener inner closer later)
    (hq : Beside s q older name assign seam) (encoding : Encoding) : Shift where
  seam := seam
  old := closer.start
  new := (encoding.rparenAt q.pos).start
  seam_lt_old := h.seam_lt hq
  seam_lt_new := hq.seam_le_pos.trans_lt
    ((Nat.lt_succ_self q.pos).trans (encoding.lt_start_rparenAt q.pos))

lemma keeps_of_mem {t : Token} (ht : t ∈ stub closer older) :
    (h.shift hq encoding).relabeling.Keeps t := by
  simp only [stub, List.mem_cons] at ht
  rcases ht with rfl | rfl | rfl | rfl | ht
  · have hkeeps := (h.shift hq encoding).keeps_add t.kind 0 t.text
    rwa [Nat.zero_add] at hkeeps
  · exact Shift.keeps_of_le hq.seam_pos
  · exact Shift.keeps_of_le (Nat.zero_le seam)
  · exact Shift.keeps_of_le (Nat.zero_le seam)
  · exact Shift.keeps_of_le (hq.older_le t ht)

/-- Only the last token of a stub moves. -/
lemma map_stub : (stub closer older).map (h.shift hq encoding).relabeling.token
    = stub ((h.shift hq encoding).relabeling.token closer) older := by
  have hfixed : ∀ t ∈ ⟨.lbracket, 0, ['[']⟩ :: ⟨.assign, 0, []⟩ :: ⟨.ident, 0, []⟩ :: older,
      t.stop ≤ seam := by
    simp only [List.forall_mem_cons]
    exact ⟨hq.seam_pos, Nat.zero_le seam, Nat.zero_le seam, hq.older_le⟩
  exact congrArg (List.cons _) (Shift.map_token_of_le hfixed)

/-- The bracket that closes the array becomes the parenthesis that closes the constructor. -/
lemma stop_closer : ((h.shift hq encoding).relabeling.token closer).stop
    = (encoding.rparenAt q.pos).stop := by
  have hoffset := (h.shift hq encoding).offset_add 0
  rw [Nat.zero_add, Nat.zero_add] at hoffset
  change (h.shift hq encoding).offset closer.start + size closer.text = _
  rw [h.array.closer_text]
  exact congrArg (· + 1) hoffset

/-- When both values are read, and only a stub is remembered of the field, the one state is the
other at another offset. -/
lemma shifted {a b : Scanner} {A B : List Token} (ha : AfterValue s a A)
    (hb : AfterValue q b B) (hapos : a.pos = closer.stop) (hrest : b.rest = a.rest)
    (hbpos : b.pos = (encoding.rparenAt q.pos).stop) :
    Shifted (h.shift hq encoding)
      (({ a with recent := [] } : Scanner).atop (stub closer older))
      (({ b with recent := [] } : Scanner).atop ((stub closer older).map
        (h.shift hq encoding).relabeling.token)) where
  rest_eq := hrest
  pos_eq := by
    have hstop : closer.stop = 1 + closer.start := by
      rw [Token.stop, h.array.closer_text, Nat.add_comm]
      rfl
    exact ⟨1, hapos.trans hstop, hbpos.trans (Nat.add_comm _ _)⟩
  line_eq := hb.line_eq.trans ha.line_eq.symm
  recent_eq := rfl
  keeps := fun t ht => h.keeps_of_mem hq ht
  pending_eq := by
    have hstay : s.pending.map (Heredoc.moved (h.shift hq encoding).offset) = s.pending := by
      refine (List.map_congr_left fun doc hdoc => ?_).trans (List.map_id _)
      have hoffset := (h.shift hq encoding).offset_of_le (hq.pending_le doc hdoc)
      rw [Heredoc.moved, hoffset]
      rfl
    change b.pending = a.pending.map _
    rw [ha.pending_eq, hb.pending_eq, hq.pending_eq, hstay]
  pending_mem := fun doc hdoc => .inl (hq.pending_le doc (ha.pending_eq ▸ hdoc))
  locals_eq := hb.locals_eq.trans (hq.locals_eq.trans ha.locals_eq.symm)
  params_eq := hb.params_eq.trans ((congrArg afterValue hq.params_eq).trans ha.params_eq.symm)

lemma exists_run (hbuffers : encoding.buffers ≠ [])
    (hparen : ∀ p ∈ s.params, p.ending = .paren → 0 < p.depth) {x after : Text}
    (hsource : source = x ++ after) (hx : size x = closer.stop)
    (hrest : q.rest = textOf encoding.pieces ++ after) :
    ∃ e', q.run = .ok e' ∧
      e'.recent = (later.map (h.shift hq encoding).relabeling.token).reverse
        ++ ((tokensAt q.pos encoding.pieces).reverse ++ q.recent) ∧
      ∀ t ∈ later, (h.shift hq encoding).relabeling.Keeps t := by
  set r := (h.shift hq encoding).relabeling with hr
  obtain ⟨a, hsa, hae, hapos, ha⟩ := h.coming.exists_afterArray h.array h.line
  obtain ⟨b, hqb, hbrest, hbpos, hb⟩ :=
    exists_afterConstructor hq.ready (hq.params_eq ▸ hparen) hrest
  have hrest : b.rest = a.rest := by
    have hreach : Reaches { rest := source } a := h.reaches.trans hsa
    rw [hbrest, hreach.rest_eq, hapos, ← hx, hsource, Text.dropBytes_size_append]
  -- The array is forgotten but for a stub, then the offsets change, and then the stub is forgotten
  -- for the constructor.
  have hfence := Token.fence_array h.array h.assigned (h.line.imp_right Settled.rescues_eq)
  rw [h.recent_eq, rescuesLine_field h.name_kind h.assign_kind, ← h.recent_eq] at hfence
  have hfence₁ := fence_stub h.array.closer_kind h.array.closer_text older
  have hfence₂ : Fence ((stub closer older).map r.token) (encoding.rparenAt q.pos).stop
      (rescuesLine older) := by
    rw [h.map_stub hq, ← h.stop_closer hq]
    exact @fence_stub (r.token closer) h.array.closer_kind h.array.closer_text older
  have hfence₃ := Token.fence_constructor hbuffers q.pos q.recent
  rw [hq.rescuesLine_eq h.name_kind h.assign_kind] at hfence₃
  have hrun : (({ a with recent := [] } : Scanner).atop
      ((opener :: (inner ++ [closer])).reverse ++ s.recent)).run = .ok e := by
    rw [← ha.recent_eq]
    exact (run_of_reaches hsa).symm.trans h.run_eq
  obtain ⟨e₁, hrun₁, u, he, rfl⟩ := (atop_run hfence hfence₁ _).exists_of_eq_ok hrun
  obtain ⟨e₂, hrun₂, hshifted⟩ :=
    (h.shifted hq ha hb hapos hrest hbpos).run.exists_of_eq_ok hrun₁
  obtain ⟨e₃, hrun₃, v, rfl, rfl⟩ := (atop_run hfence₂ hfence₃ _).exists_of_eq_ok hrun₂
  have hu : u.recent = later.reverse := by
    have hrecent := hae.recent_eq
    rw [he, ha.recent_eq] at hrecent
    exact List.append_cancel_right hrecent
  have hv : v.recent = u.recent.map r.token := by
    have hrecent := hshifted.recent_eq
    simp only [atop, List.map_append] at hrecent
    exact List.append_cancel_right hrecent
  refine ⟨v.atop ((tokensAt q.pos encoding.pieces).reverse ++ q.recent), ?_, ?_,
    fun t ht => hshifted.keeps t ?_⟩
  · rw [run_of_reaches hqb, ← hrun₃, ← hb.recent_eq]
    rfl
  · rw [← List.map_reverse, ← hu, ← hv]
    rfl
  · exact List.mem_append_left _ (by rwa [hu, List.mem_reverse])

end Meets

end Scanner

/-! ## The tree -/

namespace Encoding

variable {encoding : Encoding} {opener closer : Token} {inner : List Token} {pos : ℕ}

/-- No look ahead over parentheses ends in a constructor. -/
lemma afterParens_pieces (pos : ℕ) {depth : ℕ} (h : 0 < depth) (after : List Token) :
    Tree.afterParens depth (tokensAt pos encoding.pieces ++ after)
      = Tree.afterParens depth after := by
  have hfront : ∀ t ∈ tokensAt pos encoding.front, t.kind ≠ .lparen ∧ t.kind ≠ .rparen := by
    intro t ht
    rcases kind_of_mem_front ht with h | h | h | h <;> rw [h] <;> exact ⟨by decide, by decide⟩
  have harguments : ∀ t ∈ encoding.argumentsAt pos, t.kind ≠ .lparen ∧ t.kind ≠ .rparen := by
    intro t ht
    rcases of_mem_arguments ht with ⟨h, -⟩ | h <;> rw [h] <;> exact ⟨by decide, by decide⟩
  rw [tokensAt_pieces, List.append_assoc, Exchange.afterParens_skip hfront, List.cons_append,
    Exchange.afterParens_lparen rfl, List.append_assoc, Exchange.afterParens_skip harguments,
    List.singleton_append, Exchange.afterParens_rparen rfl, if_neg (by omega), Nat.add_sub_cancel]

/-- There is no table among the nodes of a constructor. -/
lemma inNodes_pieces (encoding : Encoding) (pos here : ℕ) (source : Text) (marker : Char) :
    Table.inNodes source marker
      (Piece.leavesAt pos encoding.front ++ [encoding.argumentsNode here]) = [] := by
  rw [Piece.leavesAt, Table.inNodes_leaves, argumentsNode, Piece.leavesAt, Table.inNodes,
    Table.inStatements_leaves, Table.inNodes]
  rfl

/-- A constructor in the place of an array, in a text where a token that starts at `o` starts at
`start o`. -/
def exchange (encoding : Encoding) (hbuffers : encoding.buffers ≠ []) (pos : ℕ) (start : ℕ → ℕ)
    (harray : IsArray opener inner closer) : Exchange where
  relabeling := .ofOffset start ∅ (Set.subsingleton_empty.strictMonoOn start)
  opener := { opener with kind := .arrayBracket }
  inner := inner
  closer := closer
  tokens := tokensAt pos encoding.pieces
  nodes := Piece.leavesAt pos encoding.front
    ++ [encoding.argumentsNode (pos + Text.size (textOf encoding.front))]
  opener_kind := rfl
  inner_kind := harray.inner_kind
  closer_kind := harray.closer_kind
  text_token := fun _ => rfl
  collects := collects_pieces hbuffers pos
  exists_first := ⟨_, _, rfl, by simp, by simp⟩
  exists_last := ⟨_, _, _, _, rfl, by simp⟩
  afterParens_tokens := fun _ after hdepth => afterParens_pieces pos hdepth after
  silent := fun source marker => encoding.inNodes_pieces pos _ source marker

end Encoding

/-! ## The tokens -/

namespace Token

lemma tellFrom_of_ne {ts : List Token} (h : ∀ t ∈ ts, t.kind ≠ .lbracket)
    (previous : Option Token) : tellFrom previous ts = ts := by
  induction ts generalizing previous with
  | nil => rfl
  | cons t ts ih =>
    obtain ⟨ht, hts⟩ := List.forall_mem_cons.1 h
    rw [tellFrom_cons, tellBracket, if_neg ht, ih hts]

lemma tellBrackets_field {name assign : Token} (hname : name.kind = .ident)
    (hassign : assign.kind = .assign) (older : List Token) :
    tellBrackets (assign :: name :: older).reverse
      = tellBrackets older.reverse ++ [name, assign] := by
  have hfield : ∀ t ∈ [name, assign], t.kind ≠ .lbracket := by simp [hname, hassign]
  rw [List.reverse_cons, List.reverse_cons, List.append_assoc, List.singleton_append,
    tellBrackets_append, tellFrom_of_ne hfield]

/-- Of the token before them, brackets show whether a value ends there, and where. -/
lemma tellFrom_congr {a b : Token} (hkind : a.kind.endsPrimary = b.kind.endsPrimary)
    (hstop : a.stop = b.stop) (ts : List Token) : tellFrom (some a) ts = tellFrom (some b) ts := by
  cases ts with
  | nil => rfl
  | cons t ts =>
    rw [tellFrom_cons, tellFrom_cons, tellBracket, tellBracket, Option.any_some, Option.any_some,
      hkind, hstop]

end Token

namespace Scanner

namespace Meets

variable {source : Text} {s e q : Scanner} {opener closer name assign : Token}
  {inner later older : List Token} {seam : ℕ} {encoding : Encoding}
  (h : Meets source s e older name assign opener inner closer later)
  (hq : Beside s q older name assign seam)

/-- Where a token of the one text starts in the other. -/
def startIn (h : Meets source s e older name assign opener inner closer later)
    (hq : Beside s q older name assign seam) (encoding : Encoding) (start : ℕ) : ℕ :=
  if start = name.start then seam
  else if start = assign.start then seam + size name.text + 1
  else (h.shift hq encoding).offset start

/-- The constructor in the place of the array. -/
def exchange (h : Meets source s e older name assign opener inner closer later)
    (hq : Beside s q older name assign seam) (hbuffers : encoding.buffers ≠ []) : Exchange :=
  encoding.exchange hbuffers q.pos (h.startIn hq encoding) h.array

include h

/-- The tokens of the text that has the array. -/
lemma lex_eq : Token.lex source = .ok (Token.tellBrackets older.reverse ++ [name] ++ ([assign]
    ++ (({ opener with kind := .arrayBracket } :: (inner ++ [closer]))
      ++ Token.tellFrom (some closer) later))) := by
  have hinner : ∀ t ∈ inner, t.kind ≠ .lbracket := by
    intro t ht
    rcases h.array.inner_kind t ht with hkind | hkind | hkind | hkind <;> rw [hkind] <;> decide
  have hopener : Token.tellBracket (some assign) opener
      = { opener with kind := .arrayBracket } := by
    rw [Token.tellBracket, if_pos h.array.opener_kind, Option.any_some, h.assign_kind]
    rfl
  have hcloser : ∀ previous, Token.tellBracket previous closer = closer := by
    intro previous
    rw [Token.tellBracket, if_neg (by simp [h.array.closer_kind])]
  have hlast : (assign :: name :: older).reverse.getLast? = some assign := by simp
  rw [Token.lex_eq, run_of_reaches h.reaches, h.run_eq, Except.map, h.coming.recent_eq,
    List.reverse_append, List.reverse_reverse, h.recent_eq, Token.tellBrackets_append, hlast,
    Token.tellFrom_cons, hopener, Token.tellFrom_append, Token.tellFrom_of_ne hinner,
    Token.tellFrom_cons, hcloser, Token.tellBrackets_field h.name_kind h.assign_kind]
  simp

include hq

/-- The tokens of the text that has the constructor. -/
lemma lex_exchanged {source' : Text} {e' : Scanner} (hreach : Reaches { rest := source' } q)
    (hrun : q.run = .ok e')
    (hrecent : e'.recent = (later.map (h.shift hq encoding).relabeling.token).reverse
      ++ ((tokensAt q.pos encoding.pieces).reverse ++ q.recent))
    (hkeeps : ∀ t ∈ later, (h.shift hq encoding).relabeling.Keeps t) :
    Token.lex source' = .ok (Token.tellBrackets older.reverse ++ [{ name with start := seam }]
      ++ ([{ assign with start := seam + size name.text + 1 }]
        ++ (tokensAt q.pos encoding.pieces ++ (Token.tellFrom (some closer) later).map
          (h.shift hq encoding).relabeling.token))) := by
  have hpieces : ∀ t ∈ tokensAt q.pos encoding.pieces, t.kind ≠ .lbracket := by
    intro t ht hkind
    have hmem := Encoding.kind_mem_kinds ht
    rw [hkind] at hmem
    exact absurd hmem (by decide)
  have hlast : (tokensAt q.pos encoding.pieces).getLast? = some (encoding.rparenAt q.pos) := by
    rw [Encoding.tokensAt_pieces, List.getLast?_append, List.getLast?_cons, List.getLast?_append]
    rfl
  have hprimary : (encoding.rparenAt q.pos).kind.endsPrimary
      = ((h.shift hq encoding).relabeling.token closer).kind.endsPrimary := by
    rw [Relabeling.kind_token, h.array.closer_kind]
    rfl
  have hcloser : ∀ p ∈ some closer, (h.shift hq encoding).relabeling.Keeps p := fun p hp =>
    Option.some.inj hp ▸ h.keeps_of_mem hq List.mem_cons_self
  have htold := Relabeling.tellFrom_map hkeeps hcloser
  have hfield := @Token.tellBrackets_field { name with start := seam }
    { assign with start := seam + size name.text + 1 } h.name_kind h.assign_kind older
  rw [Token.lex_eq, run_of_reaches hreach, hrun, Except.map, hrecent, List.reverse_append,
    List.reverse_append, List.reverse_reverse, List.reverse_reverse, List.append_assoc,
    Token.tellBrackets_append, Token.tellFrom_append, Token.tellFrom_of_ne hpieces, hlast,
    Option.some_or, Token.tellFrom_congr hprimary (h.stop_closer hq).symm, ← htold.1,
    hq.recent_eq, hfield, List.append_assoc, List.append_assoc]
  rfl

variable (hbuffers : encoding.buffers ≠ [])

lemma token_of_le {t : Token} (hne : t.text ≠ []) (ht : t.stop ≤ seam) :
    (h.exchange hq hbuffers).relabeling.token t = t := by
  have hstart : t.start < t.stop := Token.start_lt_stop hne
  have hseam := hq.seam_le
  have hordered := h.ordered.1
  have hmoved : h.startIn hq encoding t.start = t.start := by
    rw [startIn, if_neg (by omega), if_neg (by omega)]
    exact (h.shift hq encoding).offset_of_le (hstart.le.trans ht)
  change { t with start := h.startIn hq encoding t.start } = t
  rw [hmoved]

lemma token_of_ge {t : Token} (ht : closer.stop ≤ t.start) :
    (h.exchange hq hbuffers).relabeling.token t = (h.shift hq encoding).relabeling.token t := by
  have hordered := h.ordered
  have hclose := h.start_lt
  have hstop : closer.start ≤ closer.stop := Nat.le_add_right _ _
  have hmoved : h.startIn hq encoding t.start = (h.shift hq encoding).offset t.start := by
    rw [startIn, if_neg (by omega), if_neg (by omega)]
  exact congrArg (Token.mk t.kind · t.text) hmoved

lemma token_name :
    (h.exchange hq hbuffers).relabeling.token name = { name with start := seam } :=
  congrArg (Token.mk name.kind · name.text) (if_pos rfl)

lemma token_assign : (h.exchange hq hbuffers).relabeling.token assign
    = { assign with start := seam + size name.text + 1 } := by
  have hmoved : h.startIn hq encoding assign.start = seam + size name.text + 1 := by
    rw [startIn, if_neg h.ordered.1.ne', if_pos rfl]
  exact congrArg (Token.mk assign.kind · assign.text) hmoved

/-- The tree of the text that has the constructor. -/
lemma ofText_exchanged {tree : List Statement} (htree : Tree.ofText source = .ok tree)
    {source' x after : Text} (hsource : source = x ++ after) (hx : size x = closer.stop)
    (hreach : Reaches { rest := source' } q) (hrest : q.rest = textOf encoding.pieces ++ after) :
    Tree.ofText source' = .ok ((h.exchange hq hbuffers).body tree) := by
  set X := h.exchange hq hbuffers with hX
  have hlex := h.lex_eq
  have hstream := (Token.stream_of_lex hlex).1
  have hordered := hstream.ordered
  rw [Tree.ofText, hlex] at htree
  have hparen : ∀ p ∈ s.params, p.ending = .paren → 0 < p.depth := by
    have hfield := Token.tellBrackets_field h.name_kind h.assign_kind older
    rw [List.append_assoc, ← List.append_assoc [name], List.singleton_append, ← List.append_assoc,
      ← hfield, ← h.recent_eq] at htree
    exact fun p hp => depth_pos h.reaches htree hp
  obtain ⟨e', hrun, hrecent, hkeeps⟩ := h.exists_run hq hbuffers hparen hsource hx hrest
  rw [Tree.ofText, h.lex_exchanged hq hreach hrun hrecent hkeeps]
  -- Tokens before the array and after it are not its bracket, since they stand elsewhere.
  have hwide : X.opener.start < X.opener.stop := by
    change opener.start < opener.stop
    rw [h.opener_stop_eq, h.start_eq]
    exact Nat.lt_succ_self _
  have hrest := (List.pairwise_append.1 (List.pairwise_append.1 hordered).2.1).2.1
  have hthere : ∀ t ∈ Token.tellBrackets older.reverse ++ [name], t ≠ X.opener := by
    rintro t ht rfl
    have := (List.pairwise_append.1 hordered).2.2 _ ht X.opener
      (by simp [hX, exchange, Encoding.exchange])
    omega
  have hlater : ∀ t ∈ Token.tellFrom (some closer) later, t ≠ X.opener := by
    rintro t ht rfl
    have := (List.pairwise_append.1 hrest).2.2 X.opener List.mem_cons_self _ ht
    omega
  have hfixed : (Token.tellBrackets older.reverse).map X.relabeling.token
      = Token.tellBrackets older.reverse := by
    refine (List.map_congr_left fun t ht => ?_).trans (List.map_id _)
    obtain ⟨u, hu, htold⟩ := Token.exists_told (Token.told_tellBrackets _) ht
    refine h.token_of_le hq hbuffers (hstream.ne_nil t (by simp [ht])) ?_
    rw [htold.stop_eq]
    exact hq.older_le u (List.mem_reverse.1 hu)
  have hshifted : (Token.tellFrom (some closer) later).map X.relabeling.token
      = (Token.tellFrom (some closer) later).map (h.shift hq encoding).relabeling.token :=
    List.map_congr_left fun t ht => h.token_of_ge hq hbuffers
      ((List.pairwise_append.1 hrest).2.2 closer (by simp) t ht)
  have hexchanged := X.ofTokens_eq h.assign_kind hthere hlater htree
  rwa [List.map_append, hfixed, List.map_singleton, hshifted, h.token_name hq hbuffers,
    h.token_assign hq hbuffers] at hexchanged

end Meets

end Scanner

end TablePack
