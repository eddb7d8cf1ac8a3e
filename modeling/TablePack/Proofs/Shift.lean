import Mathlib.Tactic
import TablePack.Proofs.LaterOffset
import TablePack.Proofs.Relabel.Tokens

/-!
# Going on at another offset

Two runs of the scanner come to the same rest, at different offsets, and remember the same tokens:
those up to some byte, the seam, at the same offset in both texts, and those after it as far apart
as the runs are. From there on the runs go on alike.

* `Shift`: the seam and the two offsets; `Shift.relabeling` is the map on tokens that goes with it;
* `Scanner.Shifted`: the relation between the states of the two runs;
* `Scanner.Shifted.perform`: one step;
* `Scanner.Shifted.run`: the whole run.
-/

namespace TablePack

open Token (Kind Lexeme)

/-- Tokens of which the offsets alone are changed. -/
abbrev Relabeling.ofOffset (offset : ℕ → ℕ) (domain : Set ℕ) (h : StrictMonoOn offset domain) :
    Relabeling where
  token t := { t with start := offset t.start }
  offset := offset
  domain := domain
  kind_token := fun _ => rfl
  token_with := fun _ _ _ _ => rfl
  word_token := fun _ _ _ => Iff.rfl
  strictMonoOn := h

/-- Two texts that are the same up to byte `seam`, and the same again from byte `old` of the first
and from byte `new` of the second on. -/
structure Shift where
  seam : ℕ
  old : ℕ
  new : ℕ
  seam_lt_old : seam < old
  seam_lt_new : seam < new

namespace Shift

variable (d : Shift)

/-- An offset of the first text, as an offset of the second. -/
def offset (o : ℕ) : ℕ := if o ≤ d.seam then o else o + d.new - d.old

lemma offset_of_le {o : ℕ} (h : o ≤ d.seam) : d.offset o = o := if_pos h

lemma offset_add (k : ℕ) : d.offset (k + d.old) = k + d.new := by
  have := d.seam_lt_old
  rw [offset, if_neg (by omega)]
  omega

/-- The offsets at which both texts have the same. -/
def domain : Set ℕ := {o | o ≤ d.seam ∨ d.old ≤ o}

lemma strictMonoOn_offset : StrictMonoOn d.offset d.domain := by
  have hold := d.seam_lt_old
  have hnew := d.seam_lt_new
  rintro a (ha | ha) b (hb | hb) hab
  · rwa [d.offset_of_le ha, d.offset_of_le hb]
  · obtain ⟨k, rfl⟩ := Nat.exists_eq_add_of_le' hb
    rw [d.offset_of_le ha, d.offset_add]
    omega
  · omega
  · obtain ⟨k, rfl⟩ := Nat.exists_eq_add_of_le' ha
    obtain ⟨l, rfl⟩ := Nat.exists_eq_add_of_le' hb
    rw [d.offset_add, d.offset_add]
    omega

/-- The tokens of the first text, as tokens of the second. -/
abbrev relabeling : Relabeling := .ofOffset d.offset d.domain d.strictMonoOn_offset

variable {d}

/-- What stands before the seam stays where it is. -/
lemma token_of_le {t : Token} (h : t.stop ≤ d.seam) : d.relabeling.token t = t := by
  have hstart : t.start ≤ d.seam := (Nat.le_add_right _ _).trans h
  simp only [d.offset_of_le hstart]

lemma keeps_of_le {t : Token} (h : t.stop ≤ d.seam) : d.relabeling.Keeps t := by
  have hstart : t.start ≤ d.seam := (Nat.le_add_right _ _).trans h
  refine ⟨fun _ => rfl, fun _ => .inl hstart, fun _ => rfl, fun _ => .inl h, fun _ => ?_⟩
  rw [token_of_le h]
  exact (d.offset_of_le h).symm

lemma map_token_of_le {recent : List Token} (h : ∀ t ∈ recent, t.stop ≤ d.seam) :
    recent.map d.relabeling.token = recent :=
  (List.map_congr_left fun t ht => token_of_le (h t ht)).trans (List.map_id recent)

/-- What is read after the two offsets is as far apart as these. -/
lemma token_add (d : Shift) (kind : Kind) (k : ℕ) (text : Text) :
    d.relabeling.token ⟨kind, k + d.old, text⟩ = ⟨kind, k + d.new, text⟩ := by
  simp only [d.offset_add]

lemma keeps_add (d : Shift) (kind : Kind) (k : ℕ) (text : Text) :
    d.relabeling.Keeps ⟨kind, k + d.old, text⟩ := by
  refine ⟨fun _ => rfl, fun _ => .inr (Nat.le_add_left _ _), fun _ => rfl, fun _ => .inr ?_,
    fun _ => ?_⟩
  · simp only [Token.stop]
    omega
  · rw [token_add, Token.stop, Token.stop]
    simp only
    rw [Nat.add_right_comm, Nat.add_right_comm k d.old, d.offset_add]

lemma moves_of_le {f : Fault} (h : f.offset ≤ d.seam) : d.relabeling.Moves f f :=
  ⟨.inl h, congrArg (Fault.mk · f.problem) (d.offset_of_le h).symm⟩

lemma moves_later (d : Shift) (f : Fault) :
    d.relabeling.Moves (f.later d.old) (f.later d.new) :=
  ⟨.inr (Nat.le_add_left _ _), by simp only [Fault.later, d.offset_add]⟩

lemma moved_later (d : Shift) (doc : Heredoc) :
    (doc.later d.old).moved d.offset = doc.later d.new := by
  simp only [Heredoc.later, Heredoc.moved, d.offset_add]

end Shift

/-! ## States -/

namespace Scanner

/-- States before the same rest at two offsets, that remember the same. -/
structure Shifted (d : Shift) (s s' : Scanner) : Prop where
  rest_eq : s'.rest = s.rest
  pos_eq : ∃ k, s.pos = k + d.old ∧ s'.pos = k + d.new
  line_eq : s'.atLineStart = s.atLineStart
  recent_eq : s'.recent = s.recent.map d.relabeling.token
  keeps : ∀ t ∈ s.recent, d.relabeling.Keeps t
  pending_eq : s'.pending = s.pending.map (Heredoc.moved d.offset)
  pending_mem : ∀ doc ∈ s.pending, doc.start ∈ d.domain
  locals_eq : s'.locals = s.locals
  params_eq : s'.params = s.params

namespace Shifted

variable {d : Shift} {s s' : Scanner} {c : Char} {t : Text}

lemma argument_eq (h : Shifted d s s') : s'.view.argument = s.view.argument := by
  obtain ⟨k, hpos, hpos'⟩ := h.pos_eq
  have hkeeps := h.keeps
  simp only [view, afterLocal, h.locals_eq, h.recent_eq]
  cases hrecent : s.recent with
  | nil => rfl
  | cons t older =>
    rw [hrecent] at hkeeps
    have ht := hkeeps t List.mem_cons_self
    simp only [List.map_cons, d.relabeling.followsAccess_map]
    by_cases hkind : t.kind = .ident
    · have hne : t.kind ≠ .newline := by rw [hkind]; simp
      -- Whether a blank follows the name is the one thing that is decided by offsets, and the order
      -- of offsets is kept.
      have hstop : (d.relabeling.token t).stop < s'.pos ↔ t.stop < s.pos := by
        have hmem : s.pos ∈ d.relabeling.domain := .inr (by omega)
        rw [ht.stop_eq hne, hpos', ← d.offset_add, ← hpos]
        exact d.relabeling.strictMonoOn.lt_iff_lt (ht.stop_mem hne) hmem
      rw [decide_eq_decide.2 hstop]
    · simp only [beq_eq_false_iff_ne.2 hkind, Bool.false_and]

lemma view_eq (h : Shifted d s s') : s'.view = s.view := by
  have hargument := h.argument_eq
  have hline : s'.view.lineStart = s.view.lineStart := h.line_eq
  have hdef : s'.view.defining = s.view.defining := by
    simp only [view, h.recent_eq, d.relabeling.inDefName_map]
  have hvalue : s'.view.value = s.view.value := by
    simp only [view, h.recent_eq, d.relabeling.valueExpected_map]
  calc s'.view = ⟨s'.view.lineStart, s'.view.defining, s'.view.value, s'.view.argument⟩ := rfl
    _ = s.view := by rw [hline, hdef, hvalue, hargument]

lemma advance (h : Shifted d s s') (n : ℕ) : Shifted d (s.advance n) (s'.advance n) where
  rest_eq := by rw [rest_advance, rest_advance, h.rest_eq]
  pos_eq := by
    obtain ⟨k, hpos, hpos'⟩ := h.pos_eq
    refine ⟨k + Text.size (s.rest.take n), ?_, ?_⟩
    · simp only [Scanner.advance, hpos]
      omega
    · simp only [Scanner.advance, h.rest_eq, hpos']
      omega
  line_eq := by
    have hline := h.line_eq
    simp only [atLineStart, Scanner.advance, h.rest_eq] at hline ⊢
    cases (s.rest.take n).getLast? with
    | none => exact hline
    | some c => rfl
  recent_eq := h.recent_eq
  keeps := h.keeps
  pending_eq := h.pending_eq
  pending_mem := h.pending_mem
  locals_eq := h.locals_eq
  params_eq := h.params_eq

lemma emit (h : Shifted d s s') (l : Lexeme) : Shifted d (s.emit l) (s'.emit l) := by
  obtain ⟨k, hpos, hpos'⟩ := h.pos_eq
  have hadvance := h.advance (l.more + 1)
  have htoken : (⟨l.kind, s'.pos, s'.rest.take (l.more + 1)⟩ : Token)
      = d.relabeling.token ⟨l.kind, s.pos, s.rest.take (l.more + 1)⟩ := by
    rw [hpos, hpos', h.rest_eq, d.token_add]
  have hkeeps : d.relabeling.Keeps ⟨l.kind, s.pos, s.rest.take (l.more + 1)⟩ := by
    rw [hpos]
    exact d.keeps_add ..
  refine ⟨hadvance.rest_eq, hadvance.pos_eq, hadvance.line_eq, ?_, ?_, h.pending_eq,
    h.pending_mem, h.locals_eq, ?_⟩
  · simp only [Scanner.emit]
    rw [htoken, h.recent_eq]
    split <;> rfl
  · simp only [Scanner.emit]
    split
    · exact h.keeps
    · exact List.forall_mem_cons.2 ⟨hkeeps, h.keeps⟩
  · simp only [Scanner.emit, h.params_eq]
    rw [htoken]
    rfl

lemma bindNames (h : Shifted d s s') (names : List Text) :
    Shifted d (s.bindNames names) (s'.bindNames names) :=
  ⟨h.rest_eq, h.pos_eq, h.line_eq, h.recent_eq, h.keeps, h.pending_eq, h.pending_mem,
    by simp only [Scanner.bindNames, h.locals_eq], h.params_eq⟩

lemma openParams (h : Shifted d s s') : Shifted d s.openParams s'.openParams :=
  ⟨h.rest_eq, h.pos_eq, h.line_eq, h.recent_eq, h.keeps, h.pending_eq, h.pending_mem,
    h.locals_eq, by
    simp only [Scanner.openParams, h.recent_eq, d.relabeling.opened?_map, h.params_eq]⟩

lemma readSign (h : Shifted d s s') (sign : Sign) :
    Shifted d (s.readSign sign) (s'.readSign sign) := by
  rw [Scanner.readSign, Scanner.readSign, h.recent_eq, Relabeling.targets_map h.keeps]
  exact ((h.bindNames _).emit _).openParams

lemma newline (h : Shifted d s s') :
    Corresponds d.relabeling.Moves (Shifted d) s.newline s'.newline := by
  have hread := h.emit ⟨.newline, 0⟩
  rw [Scanner.newline, Scanner.newline]
  dsimp only
  rw [hread.rest_eq, h.pending_eq, Heredoc.bodiesLength_moved]
  cases hbodies : Heredoc.bodiesLength s.pending (s.emit ⟨.newline, 0⟩).rest with
  | error doc => exact .error ⟨h.pending_mem doc (mem_of_bodiesLength hbodies), rfl⟩
  | ok n =>
    have hadvance := hread.advance n
    exact .ok ⟨hadvance.rest_eq, hadvance.pos_eq, hadvance.line_eq, hadvance.recent_eq,
      hadvance.keeps, rfl, List.forall_mem_nil _, hadvance.locals_eq, hadvance.params_eq⟩

lemma word (h : Shifted d s s') (c : Char) (t : Text) :
    Shifted d (s.word c t) (s'.word c t) := by
  have hmethod : s'.namesMethod t = s.namesMethod t := by
    simp only [namesMethod, namesReceiver, h.recent_eq, d.relabeling.inDefName_map]
  have hextent : s'.wordExtent t = s.wordExtent t := by simp only [wordExtent, hmethod]
  have hkind : ∀ word after, s'.wordKind word after = s.wordKind word after := by
    intro word after
    simp only [wordKind, h.recent_eq, d.relabeling.inDefName_map, d.relabeling.kindAt?_map]
  have hbinds : ∀ kind, s'.bindsWord kind = s.bindsWord kind := by
    intro kind
    simp only [bindsWord, h.recent_eq, d.relabeling.inDefName_map, d.relabeling.kindAt?_map,
      d.relabeling.inRescue_map, h.params_eq]
  have hemit := (h.emit ⟨s.wordKind (c :: t.take (s.wordExtent t)) (t.drop (s.wordExtent t)),
    s.wordExtent t⟩).bindNames (if s.bindsWord (s.wordKind (c :: t.take (s.wordExtent t))
      (t.drop (s.wordExtent t))) then [c :: t.take (s.wordExtent t)] else [])
  simp only [Scanner.word, hextent, hkind, hbinds, hmethod]
  refine ⟨hemit.rest_eq, hemit.pos_eq, hemit.line_eq, hemit.recent_eq, hemit.keeps,
    hemit.pending_eq, hemit.pending_mem, hemit.locals_eq, ?_⟩
  dsimp only
  split
  · rfl
  · exact hemit.params_eq

/-- The states after a newline and the bodies that follow it, where the two texts have different
bodies. -/
lemma of_newline {t' : Text} {n n' : ℕ} (hrest : s.rest = '\n' :: t) (hrest' : s'.rest = '\n' :: t')
    (hrecent : s'.recent = s.recent) (hseam : ∀ u ∈ s.recent, u.stop ≤ d.seam)
    (hlocals : s'.locals = s.locals) (hparams : s'.params = s.params)
    (hstart : s'.pos = d.offset s.pos) (hdrop : t'.drop n' = t.drop n)
    (hstop : ∃ k, s.pos + Text.size ('\n' :: t.take n) = k + d.old ∧
      s'.pos + Text.size ('\n' :: t'.take n') = k + d.new)
    (hlast : ('\n' :: t'.take n').getLast? = ('\n' :: t.take n).getLast?) :
    Shifted d { (s.emit ⟨.newline, 0⟩).advance n with pending := [] }
      { (s'.emit ⟨.newline, 0⟩).advance n' with pending := [] } := by
  have hstride := stride_newline hrest n
  have hstride' := stride_newline hrest' n'
  have htoken : (⟨.newline, s'.pos, s'.rest.take 1⟩ : Token)
      = d.relabeling.token ⟨.newline, s.pos, s.rest.take 1⟩ := by
    rw [hrest, hrest', hstart]
    rfl
  -- The newline itself may stand between the seam and the common rest, where offsets are not
  -- related; nothing is asked of it.
  have hkeeps : d.relabeling.Keeps ⟨.newline, s.pos, s.rest.take 1⟩ :=
    ⟨by simp, fun h => absurd rfl h, fun h => absurd rfl h, fun h => absurd rfl h,
      fun h => absurd rfl h⟩
  refine ⟨?_, ?_, ?_, ?_, ?_, rfl, List.forall_mem_nil _, hlocals, ?_⟩
  · simp only [rest_advance, rest_emit, hrest, hrest']
    exact hdrop
  · obtain ⟨k, hk, hk'⟩ := hstop
    exact ⟨k, hstride.pos_eq.trans hk, hstride'.pos_eq.trans hk'⟩
  · rw [atLineStart, atLineStart, hstride.previous_eq, hstride'.previous_eq, hlast]
    rfl
  · change (⟨.newline, s'.pos, s'.rest.take 1⟩ : Token) :: s'.recent
      = (⟨.newline, s.pos, s.rest.take 1⟩ :: s.recent).map d.relabeling.token
    rw [htoken, hrecent, List.map_cons, Shift.map_token_of_le hseam]
  · exact List.forall_mem_cons.2 ⟨hkeeps, fun u hu => Shift.keeps_of_le (hseam u hu)⟩
  · simp only [Scanner.advance, Scanner.emit, hparams]
    rfl

/-! ## One step, and the run -/

/-- A move has the same effect on both states. -/
lemma perform (h : Shifted d s s') (c : Char) (t : Text) (m : Move) :
    Corresponds d.relabeling.Moves (Shifted d) (s.perform c t (m.later d.old))
      (s'.perform c t (m.later d.new)) := by
  cases m with
  | skip n => exact .ok (h.advance n)
  | lineBreak => exact h.newline
  | lexeme l => exact .ok (h.emit l)
  | word => exact .ok (h.word c t)
  | announce doc n =>
    have hemit := h.emit ⟨.string, n⟩
    refine .ok ⟨hemit.rest_eq, hemit.pos_eq, hemit.line_eq, hemit.recent_eq, hemit.keeps, ?_, ?_,
      hemit.locals_eq, hemit.params_eq⟩
    · simp only [h.pending_eq, List.map_append, List.map_cons, List.map_nil, d.moved_later]
    · intro new hnew
      rcases List.mem_append.1 hnew with hnew | hnew
      · exact h.pending_mem new hnew
      · rw [List.mem_singleton.1 hnew]
        exact .inr (Nat.le_add_left _ _)
  | sign sign => exact .ok (h.readSign sign)

/-- The two runs go on alike to the end. -/
lemma run (h : Shifted d s s') :
    Corresponds d.relabeling.Moves (Shifted d) s.run s'.run := by
  induction hlen : s.rest.length using Nat.strong_induction_on generalizing s s' with
  | _ len ih =>
    subst hlen
    cases hrest : s.rest with
    | nil =>
      rw [run_nil hrest, run_nil (h.rest_eq.trans hrest), h.pending_eq]
      have hmem := h.pending_mem
      cases hpending : s.pending with
      | nil => exact .ok h
      | cons doc docs => exact .error ⟨hmem doc (by rw [hpending]; simp), rfl⟩
    | cons c t =>
      obtain ⟨k, hpos, hpos'⟩ := h.pos_eq
      rw [run_cons hrest, run_cons (h.rest_eq.trans hrest), step_eq, step_eq, h.view_eq, hpos,
        hpos', choose_later, choose_later]
      cases hm : choose s.view k c t with
      | error fault => exact .error (d.moves_later fault)
      | ok m =>
        refine (h.perform c t m).bind fun a b ha hab => ih _ ?_ hab rfl
        have hchoose : choose s.view s.pos c t = .ok (m.later d.old) := by
          rw [hpos, choose_later, hm]
          rfl
        exact hrest ▸ (next_of_move hrest hchoose ha).length_lt

end Shifted

end Scanner

end TablePack
