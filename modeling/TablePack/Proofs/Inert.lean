import Mathlib.Tactic
import TablePack.Error
import TablePack.Proofs.CommonStart
import TablePack.Proofs.Layout
import TablePack.Proofs.Lines
import TablePack.Proofs.Relabel.Tree
import TablePack.Proofs.Shift

/-!
# Text that is not read

Comments and the bodies of heredocs are passed over. A text keeps its tokens and its tables when the
text of a comment is replaced, or when the body of a heredoc is; only offsets change, and where a
comment is replaced, no line and no column of anything that is reported.

The two runs are compared in three parts. Up to the comment, or to the newline before the bodies,
they are the same (`Scanner.reaches_border`). Then they pass over different texts. From there on
they go on alike (`Scanner.Shifted.run`).

* `Token.comment_inert`: comments;
* `Heredoc.body_inert`: bodies of heredocs.
-/

namespace TablePack

open Text (size position line)

/-! ## Outcomes -/

lemma map_eq_map_of_forall₂ {α β γ : Type} {R : α → β → Prop} {f : α → γ} {g : β → γ} {l : List α}
    {l' : List β} (h : List.Forall₂ R l l') (hR : ∀ a b, R a b → f a = g b) :
    l.map f = l'.map g := by
  induction h with
  | nil => rfl
  | cons hab _ ih => rw [List.map_cons, List.map_cons, hR _ _ hab, ih]

/-- The kind and the text of a token, without its place. -/
def Token.spelling (t : Token) : Token.Kind × Text := (t.kind, t.text)

namespace Relabeling

variable {r : Relabeling} {source source' : Text}

/-- The runs over two texts end alike, with relabelled tokens. -/
def Carries (r : Relabeling) (source source' : Text) : Prop :=
  Corresponds r.Moves (fun s s' => s'.recent = s.recent.map r.token ∧ ∀ t ∈ s.recent, r.Keeps t)
    (Scanner.run { rest := source }) (Scanner.run { rest := source' })

lemma Carries.lex (h : r.Carries source source')
    (hspelling : ∀ t, (r.token t).spelling = t.spelling) :
    Corresponds r.Moves (fun ts ts' => ts.map Token.spelling = ts'.map Token.spelling)
      (Token.lex source) (Token.lex source') := by
  refine (lex_map h).imp (fun _ _ => id) fun ts ts' ⟨hts, _⟩ => ?_
  rw [hts, List.map_map]
  exact List.map_congr_left fun t _ => (hspelling t).symm

lemma Carries.locate (h : r.Carries source source') (marker : Char) :
    Corresponds r.Moves (List.Forall₂ (r.Twin fun _ _ => True)) (Table.locate source marker)
      (Table.locate source' marker) :=
  locate_map (lex_map h) fun _ _ _ _ => trivial

end Relabeling

/-! ## Comments -/

/-- A token that the scanner reads in a text, whether or not the text can be read to its end. -/
def Token.Emitted (source : Text) (t : Token) : Prop :=
  ∃ s, Scanner.Reaches { rest := source } s ∧ t ∈ s.tokens

lemma Token.Emitted.exists_state {source : Text} {t : Token} (h : t.Emitted source) :
    ∃ s, Scanner.Reaches { rest := source } s ∧ s.pos = t.start := by
  obtain ⟨s, hreach, hmem⟩ := h
  induction hreach with
  | refl => cases hmem
  | @tail s s' hreach hnext ih =>
    obtain ⟨eaten, hstride⟩ := hnext.stride
    rcases hstride.tokens_eq with ⟨htokens, -⟩ | ⟨kind, text, -, -, -, htokens, -⟩
    · exact ih (htokens ▸ hmem)
    · rw [htokens] at hmem
      rcases List.mem_cons.1 hmem with rfl | hmem
      · exact ⟨s, hreach, rfl⟩
      · exact ih hmem

lemma Token.emitted_of_scan {source : Text} {tokens : List Token} {t : Token}
    (h : scan source = .ok tokens) (ht : t ∈ tokens) : t.Emitted source := by
  obtain ⟨s, hs, rfl⟩ := eq_ok_of_map_eq_ok h
  exact ⟨s, (Scanner.run_eq_ok_iff.1 hs).1, List.mem_reverse.1 ht⟩

namespace Scanner

variable {before c c₁ c₂ after : Text} {s : Scanner}

/-- The state after a comment. -/
def afterComment (s : Scanner) (c after : Text) : Scanner :=
  (s.onto ('#' :: (c ++ after))).emit ⟨.comment, c.length⟩

lemma next_afterComment (s : Scanner) (hc : '\n' ∉ c) (hafter : after.head?.all (· == '\n')) :
    Next (s.onto ('#' :: (c ++ after))) (s.afterComment c after) := by
  refine ⟨'#', c ++ after, rfl, ?_⟩
  have hstep : (s.onto ('#' :: (c ++ after))).step '#' (c ++ after)
      = .ok ((s.onto ('#' :: (c ++ after))).emit (Token.Lexeme.comment (c ++ after))) := rfl
  rw [hstep, Token.Lexeme.comment, Text.span_line hc hafter]
  rfl

lemma rest_afterComment (s : Scanner) (c after : Text) : (s.afterComment c after).rest = after := by
  rw [afterComment, rest_emit, rest_onto, List.drop_succ_cons, List.drop_left]

lemma pos_afterComment (s : Scanner) (c after : Text) :
    (s.afterComment c after).pos = s.pos + (1 + size c) := by
  change s.pos + size (('#' :: (c ++ after)).take (c.length + 1)) = _
  rw [List.take_succ_cons, List.take_left]
  rfl

/-- Whatever the text of the comment, the run comes to it and goes on after it. -/
lemma run_comment (hreach : Reaches { rest := before ++ '#' :: (c₁ ++ after) } s)
    (hrest : s.rest = '#' :: (c₁ ++ after)) (hc : '\n' ∉ c) (hafter : after.head?.all (· == '\n')) :
    run { rest := before ++ '#' :: (c ++ after) } = run (s.afterComment c after) := by
  have hborder := reaches_border (.inl rfl) (.inl rfl : Text.Border '#' (c ++ after)) hreach rfl
    hrest
  exact run_of_reaches (hborder.tail (next_afterComment s hc hafter))

/-- Where nothing follows the comment, all tokens stand before it. -/
lemma carries_last_comment (hreach : Reaches { rest := before ++ '#' :: (c₁ ++ []) } s)
    (hrest : s.rest = '#' :: (c₁ ++ [])) (h₁ : '\n' ∉ c₁) (h₂ : '\n' ∉ c₂) :
    (Relabeling.ofOffset id {o | o ≤ s.pos} strictMonoOn_id).Carries
      (before ++ '#' :: (c₁ ++ [])) (before ++ '#' :: (c₂ ++ [])) := by
  have hsound := (sound_start _).reaches hreach
  rw [Relabeling.Carries, run_comment hreach hrest h₁ rfl, run_comment hreach hrest h₂ rfl,
    run_nil (rest_afterComment s c₁ []), run_nil (rest_afterComment s c₂ [])]
  have hpending : ∀ c, (s.afterComment c []).pending = s.pending := fun _ => rfl
  have hrecent : ∀ c, (s.afterComment c []).recent = s.recent := fun _ => rfl
  rw [hpending, hpending]
  cases hdocs : s.pending with
  | nil =>
    refine .ok ⟨?_, fun t ht => ?_⟩
    · rw [hrecent, hrecent]
      exact (List.map_id _).symm
    · have hstop := hsound.recent_stop_le t ht
      have hstart : t.start ≤ s.pos := (Nat.le_add_right _ _).trans hstop
      exact ⟨fun _ => rfl, fun _ => hstart, fun _ => rfl, fun _ => hstop, fun _ => rfl⟩
  | cons doc docs =>
    -- A heredoc that is still open was announced before the comment.
    have hlt := pending_lt_pos hreach doc (by rw [hdocs]; exact List.mem_cons_self)
    exact .error ⟨hlt.le, rfl⟩

/-- The place of what follows the line of a comment. -/
def commentShift (pos : ℕ) (c₁ c₂ : Text) : Shift where
  seam := pos
  old := pos + (1 + size c₁) + 1
  new := pos + (1 + size c₂) + 1
  seam_lt_old := by omega
  seam_lt_new := by omega

/-- Where a line follows the comment, the two runs go on alike after the newline. -/
lemma carries_comment {v : Text} (hreach : Reaches { rest := before ++ '#' :: (c₁ ++ '\n' :: v) } s)
    (hrest : s.rest = '#' :: (c₁ ++ '\n' :: v)) (h₁ : '\n' ∉ c₁) (h₂ : '\n' ∉ c₂) :
    (commentShift s.pos c₁ c₂).relabeling.Carries (before ++ '#' :: (c₁ ++ '\n' :: v))
      (before ++ '#' :: (c₂ ++ '\n' :: v)) := by
  have hsound := (sound_start _).reaches hreach
  have hrest' := fun c => rest_afterComment s c ('\n' :: v)
  have hstep : ∀ (s : Scanner) (t : Text), s.step '\n' t = s.newline := fun _ _ => rfl
  have hpending : ∀ c, (s.afterComment c ('\n' :: v)).pending = s.pending := fun _ => rfl
  have hrecent : ∀ c, (s.afterComment c ('\n' :: v)).recent = s.recent := fun _ => rfl
  have hdrop : ∀ c, (s.afterComment c ('\n' :: v)).rest.drop 1 = v := fun c => by rw [hrest' c]; rfl
  rw [Relabeling.Carries, run_comment hreach hrest h₁ rfl, run_comment hreach hrest h₂ rfl,
    run_cons (hrest' c₁), run_cons (hrest' c₂), hstep, hstep]
  -- Bodies that follow the line of the comment are the same in both texts, and so is what becomes
  -- of them.
  cases hbodies : Heredoc.bodiesLength s.pending v with
  | error doc =>
    have hbodies' : ∀ c, Heredoc.bodiesLength (s.afterComment c ('\n' :: v)).pending
        ((s.afterComment c ('\n' :: v)).rest.drop 1) = .error doc := by
      intro c
      rw [hpending, hdrop, hbodies]
    rw [newline_of_unterminated (hbodies' c₁), newline_of_unterminated (hbodies' c₂)]
    have hlt := pending_lt_pos hreach doc (mem_of_bodiesLength hbodies)
    exact .error (Shift.moves_of_le hlt.le)
  | ok n =>
    have hbodies' : ∀ c, Heredoc.bodiesLength (s.afterComment c ('\n' :: v)).pending
        ((s.afterComment c ('\n' :: v)).rest.drop 1) = .ok n := by
      intro c
      rw [hpending, hdrop, hbodies]
    rw [newline_of_bodies (hbodies' c₁), newline_of_bodies (hbodies' c₂)]
    have hshifted := Shifted.of_newline (d := commentShift s.pos c₁ c₂) (hrest' c₁) (hrest' c₂) rfl
      hsound.recent_stop_le rfl rfl ?_ (rfl : v.drop n = v.drop n) ?_ rfl
    · exact hshifted.run.imp (fun _ _ => id) fun _ _ h => ⟨h.recent_eq, h.keeps⟩
    · have hpast : ¬ s.pos + (1 + size c₁) ≤ (commentShift s.pos c₁ c₂).seam := by
        simp only [commentShift]
        omega
      rw [pos_afterComment, pos_afterComment, Shift.offset, if_neg hpast]
      simp only [commentShift]
      omega
    · have hnewline : '\n'.utf8Size = 1 := rfl
      refine ⟨size (v.take n), ?_, ?_⟩
      · rw [pos_afterComment, Text.size_cons, hnewline]
        simp only [commentShift]
        omega
      · rw [pos_afterComment, Text.size_cons, hnewline]
        simp only [commentShift]
        omega

/-- What follows the line of a comment keeps its line and its column. -/
lemma position_comment (v : Text) (h₁ : '\n' ∉ c₁) (h₂ : '\n' ∉ c₂) {o : ℕ}
    (ho : o ∈ (commentShift (size before) c₁ c₂).domain) :
    position (before ++ '#' :: (c₂ ++ '\n' :: v)) ((commentShift (size before) c₁ c₂).offset o)
      = position (before ++ '#' :: (c₁ ++ '\n' :: v)) o := by
  rcases ho with ho | ho
  · rw [Shift.offset_of_le _ ho]
    exact Text.position_append_of_le ho _ _
  · obtain ⟨k, rfl⟩ := Nat.exists_eq_add_of_le' ho
    have hline : ∀ c, '\n' ∉ c →
        position (before ++ '#' :: (c ++ '\n' :: v)) (k + (size before + (1 + size c) + 1))
          = ⟨(position v k).line + (before.count '\n' + 1), (position v k).column⟩ := by
      intro c hc
      have hsize : size (before ++ '#' :: c) = size before + (1 + size c) := by
        rw [Text.size_append, Text.size_cons]
        rfl
      have hcount : (before ++ '#' :: c).count '\n' = before.count '\n' := by
        rw [List.count_append, List.count_cons_of_ne (by decide), List.count_eq_zero.2 hc,
          Nat.add_zero]
      have := Text.position_append_newline (before ++ '#' :: c) v k
      rwa [List.append_assoc, List.cons_append, hsize, hcount] at this
    rw [Shift.offset_add]
    exact (hline c₂ h₂).trans (hline c₁ h₁).symm

end Scanner

/-- What is shown of a table: its name, its numbers, and where it starts and stops. -/
def Table.sight (source : Text) (t : Table) : Text × List ℕ × Position × Position :=
  (t.name, t.numbers, position source t.start, position source t.stop)

/-- Faults in two texts that are reported alike. -/
def SameError (source source' : Text) (f f' : Fault) : Prop :=
  Error.ofFault source f = Error.ofFault source' f'

namespace Relabeling

variable {r : Relabeling} {source source' : Text}

lemma Moves.sameError {f f' : Fault} (h : r.Moves f f')
    (hposition : ∀ o ∈ r.domain, position source' (r.offset o) = position source o) :
    SameError source source' f f' := by
  obtain ⟨hmem, rfl⟩ := h
  rw [SameError, Error.ofFault, Error.ofFault, hposition _ hmem]

lemma Twin.sight_eq {t t' : Table} (h : r.Twin (fun _ _ => True) t t')
    (hposition : ∀ o ∈ r.domain, position source' (r.offset o) = position source o) :
    t.sight source = t'.sight source' := by
  rw [Table.sight, Table.sight, h.name_eq, h.numbers_eq, h.start_eq, h.stop_eq,
    hposition _ h.start_mem, hposition _ h.stop_mem]

end Relabeling

/-- Comments are inert: the text of a comment can be replaced without a change to what is read,
to the tables that are found, or to the error that is reported. -/
theorem Token.comment_inert {before c₁ c₂ after : Text} (h₁ : '\n' ∉ c₁) (h₂ : '\n' ∉ c₂)
    (hafter : after = [] ∨ after.head? = some '\n')
    (hcomment : ∃ t : Token, t.Emitted (before ++ '#' :: (c₁ ++ after)) ∧ t.kind = .comment ∧
      t.start = size before) :
    Corresponds (SameError (before ++ '#' :: (c₁ ++ after)) (before ++ '#' :: (c₂ ++ after)))
        (fun ts ts' => ts.map spelling = ts'.map spelling)
        (lex (before ++ '#' :: (c₁ ++ after))) (lex (before ++ '#' :: (c₂ ++ after))) ∧
      ∀ marker,
        Corresponds (SameError (before ++ '#' :: (c₁ ++ after)) (before ++ '#' :: (c₂ ++ after)))
          (fun tables tables' =>
            tables.map (Table.sight (before ++ '#' :: (c₁ ++ after)))
              = tables'.map (Table.sight (before ++ '#' :: (c₂ ++ after))))
          (Table.locate (before ++ '#' :: (c₁ ++ after)) marker)
          (Table.locate (before ++ '#' :: (c₂ ++ after)) marker) := by
  obtain ⟨t, hemitted, -, hstart⟩ := hcomment
  obtain ⟨s, hreach, hpos⟩ := hemitted.exists_state
  rw [hstart] at hpos
  have hrest : s.rest = '#' :: (c₁ ++ after) := by
    have hs : Text.Stands _ s.pos s.rest := ((Scanner.sound_start _).reaches hreach).split
    have hcomment : Text.Stands (before ++ '#' :: (c₁ ++ after)) s.pos ('#' :: (c₁ ++ after)) :=
      ⟨before, rfl, hpos.symm⟩
    exact hs.eq_dropBytes.trans hcomment.eq_dropBytes.symm
  -- Without a line after the comment there is nothing to shift.
  obtain ⟨r, hspelling, hcarries, hposition⟩ : ∃ r : Relabeling,
      (∀ t, (r.token t).spelling = t.spelling) ∧
      r.Carries (before ++ '#' :: (c₁ ++ after)) (before ++ '#' :: (c₂ ++ after)) ∧
      ∀ o ∈ r.domain, position (before ++ '#' :: (c₂ ++ after)) (r.offset o)
        = position (before ++ '#' :: (c₁ ++ after)) o := by
    rcases hafter with rfl | hafter
    · refine ⟨_, fun _ => rfl, Scanner.carries_last_comment hreach hrest h₁ h₂, fun o ho => ?_⟩
      rw [hpos] at ho
      exact Text.position_append_of_le ho _ _
    · obtain ⟨v, rfl⟩ := List.head?_eq_some_iff.1 hafter
      refine ⟨_, fun _ => rfl, Scanner.carries_comment hreach hrest h₁ h₂, fun o ho => ?_⟩
      rw [hpos] at ho ⊢
      exact Scanner.position_comment v h₁ h₂ ho
  constructor
  · exact (hcarries.lex hspelling).imp (fun _ _ h => h.sameError hposition) fun _ _ => id
  · intro marker
    exact (hcarries.locate marker).imp (fun _ _ h => h.sameError hposition)
      fun _ _ h => map_eq_map_of_forall₂ h fun _ _ h => h.sight_eq hposition

/-- A comment inside a table, replaced by one with quotes, a bracket and an announcement. -/
theorem Token.comment_inert_quotes :
    ∃ tables, Table.locate "x._t = [1, # it's ] <<X\n2]\n".toList '_' = .ok tables ∧
      tables.map (Table.sight "x._t = [1, # it's ] <<X\n2]\n".toList)
        = [("_t".toList, [1, 2], ⟨1, 0⟩, ⟨2, 2⟩)] := by
  have hcomment : ∃ t : Token, t.Emitted ("x._t = [1, ".toList ++ '#' :: (" one".toList
      ++ "\n2]\n".toList)) ∧ t.kind = .comment ∧ t.start = size "x._t = [1, ".toList := by
    have hseventh : (scan ("x._t = [1, ".toList ++ '#' :: (" one".toList ++ "\n2]\n".toList))).map
        (fun tokens => tokens[7]?) = .ok (some ⟨.comment, 11, "# one".toList⟩) := by
      decide +kernel
    obtain ⟨tokens, hscan, htoken⟩ := eq_ok_of_map_eq_ok hseventh
    exact ⟨_, emitted_of_scan hscan (List.mem_of_getElem? htoken), rfl, by decide +kernel⟩
  have hlocate : (Table.locate ("x._t = [1, ".toList ++ '#' :: (" one".toList
      ++ "\n2]\n".toList)) '_').map (fun tables => tables.map (Table.sight
        ("x._t = [1, ".toList ++ '#' :: (" one".toList ++ "\n2]\n".toList))))
      = .ok [("_t".toList, [1, 2], ⟨1, 0⟩, ⟨2, 2⟩)] := by
    decide +kernel
  obtain ⟨tables, htables, hsight⟩ := eq_ok_of_map_eq_ok hlocate
  have hinert := @comment_inert _ _ " it's ] <<X".toList _ (by decide) (by decide) (.inr rfl)
    hcomment
  obtain ⟨tables', htables', hsame⟩ := (hinert.2 '_').exists_of_eq_ok htables
  exact ⟨tables', htables', hsame.symm.trans hsight⟩

/-! ## Bodies of heredocs -/

namespace Heredoc

variable {doc : Heredoc} {docs more : List Heredoc} {earlier body after t : Text} {n : ℕ}

/-- A run of lines that do not end the body of a heredoc. -/
inductive Filler (doc : Heredoc) : Text → Prop
  | nil : Filler doc []
  | line {l body : Text} : '\n' ∉ l → ¬ doc.endsAt l → Filler doc body →
    Filler doc (l ++ '\n' :: body)

lemma bodyLength?_filler (h : doc.Filler body) (hafter : after ≠ [])
    (hends : doc.endsAt (line after)) :
    doc.bodyLength? (body ++ after) = some (body.length + ((line after).length + 1)) := by
  induction h with
  | nil => rw [List.nil_append, bodyLength?_of_ne_nil doc hafter, if_pos hends, List.length_nil,
      Nat.zero_add]
  | @line l body hl hline _ ih =>
    rw [List.append_assoc, List.cons_append, bodyLength?_of_ne_nil doc (by simp),
      Text.line_append_newline hl, Text.afterLine_append_newline hl, if_neg hline, ih,
      Option.map_some, List.length_append, List.length_cons]
    congr 1
    omega

lemma bodiesLength_append (h : bodiesLength docs t = .ok n) (more : List Heredoc) :
    bodiesLength (docs ++ more) t = (bodiesLength more (t.drop n)).map (n + ·) := by
  induction docs generalizing t n with
  | nil =>
    cases h
    rw [List.nil_append, List.drop_zero]
    cases bodiesLength more t with
    | error doc => rfl
    | ok m => exact congrArg _ (Nat.zero_add m).symm
  | cons first docs ih =>
    rw [bodiesLength] at h
    rw [List.cons_append, bodiesLength]
    split at h
    · cases h
    rename_i k hk
    obtain ⟨m, hm, rfl⟩ := eq_ok_of_map_eq_ok h
    rw [ih hm, List.drop_drop]
    cases bodiesLength more (t.drop (k + m)) with
    | error doc => rfl
    | ok j => exact congrArg _ (Nat.add_assoc k m j).symm

/-- The bodies after a newline, where lines that do not end the body of `doc` come before the line
that does. -/
lemma bodiesLength_filler (h : doc.Filler body) (hafter : after ≠ [])
    (hends : doc.endsAt (line after))
    (hearlier : bodiesLength docs (earlier ++ (body ++ after)) = .ok earlier.length) :
    bodiesLength (docs ++ doc :: more) (earlier ++ (body ++ after))
      = (bodiesLength more (after.drop ((line after).length + 1))).map
        fun m => (earlier ++ body).length + ((line after).length + 1 + m) := by
  rw [bodiesLength_append hearlier, List.drop_left, bodiesLength, bodyLength?_filler h hafter hends]
  dsimp only
  rw [← List.drop_drop, List.drop_left]
  cases bodiesLength more (after.drop ((line after).length + 1)) with
  | error doc => rfl
  | ok m =>
    refine congrArg Except.ok ?_
    dsimp only
    rw [List.length_append]
    omega

/-- Where `rest` follows `a`, its end is come to as the start of the body of `doc`: a newline is
reached, and the bodies of the heredocs announced before `doc` take what is left of `a`. -/
def Enters (doc : Heredoc) (a rest : Text) : Prop :=
  ∃ (s : Scanner) (earlier : Text) (docs more : List Heredoc),
    Scanner.Reaches { rest := a ++ rest } s ∧ s.rest = '\n' :: (earlier ++ rest) ∧
      s.pending = docs ++ doc :: more ∧ bodiesLength docs (earlier ++ rest) = .ok earlier.length

lemma Enters.exists_state {a rest : Text} (h : doc.Enters a rest) :
    ∃ (s : Scanner) (before earlier : Text) (docs more : List Heredoc),
      a = before ++ '\n' :: earlier ∧
      Scanner.Reaches { rest := before ++ '\n' :: (earlier ++ rest) } s ∧
      s.rest = '\n' :: (earlier ++ rest) ∧ s.pending = docs ++ doc :: more ∧
      bodiesLength docs (earlier ++ rest) = .ok earlier.length := by
  obtain ⟨s, earlier, docs, more, hreach, hrest, hdocs⟩ := h
  obtain ⟨before, hbefore, -⟩ := ((Scanner.sound_start _).reaches hreach).split
  rw [hrest] at hbefore
  have ha : a = before ++ '\n' :: earlier := by
    rw [← List.append_left_inj rest, hbefore, List.append_assoc, List.cons_append]
  exact ⟨s, before, earlier, docs, more, ha, hbefore ▸ hreach, hrest, hdocs⟩

end Heredoc

namespace Scanner

variable {before earlier b₁ b₂ after : Text} {s : Scanner} {n : ℕ}

/-- The place of what follows the bodies after a newline. -/
def bodyShift (pos : ℕ) (u₁ u₂ : Text) : Shift where
  seam := pos
  old := pos + size ('\n' :: u₁)
  new := pos + size ('\n' :: u₂)
  seam_lt_old := Nat.lt_add_of_pos_right (Text.size_pos (List.cons_ne_nil _ _))
  seam_lt_new := Nat.lt_add_of_pos_right (Text.size_pos (List.cons_ne_nil _ _))

/-- Whatever the bodies, the run comes to the newline before them. -/
lemma run_bodies {t₁ : Text} (hreach : Reaches { rest := before ++ '\n' :: t₁ } s)
    (hrest : s.rest = '\n' :: t₁) (t : Text) :
    run { rest := before ++ '\n' :: t } = run (s.onto ('\n' :: t)) :=
  run_of_reaches (reaches_border (.inr (.inl rfl)) (.inr (.inl rfl)) hreach rfl hrest)

/-- Where a body does not end in either text, both runs report it. -/
lemma carries_unterminated {t₁ t₂ : Text} {doc : Heredoc}
    (hreach : Reaches { rest := before ++ '\n' :: t₁ } s) (hrest : s.rest = '\n' :: t₁)
    (h₁ : Heredoc.bodiesLength s.pending t₁ = .error doc)
    (h₂ : Heredoc.bodiesLength s.pending t₂ = .error doc) :
    (Relabeling.ofOffset id {o | o ≤ s.pos} strictMonoOn_id).Carries (before ++ '\n' :: t₁)
      (before ++ '\n' :: t₂) := by
  have hrun : ∀ t, Heredoc.bodiesLength s.pending t = .error doc →
      run { rest := before ++ '\n' :: t } = .error ⟨doc.start, .unterminatedHeredoc⟩ := by
    intro t h
    rw [run_bodies hreach hrest t, run_cons (rest_onto s _)]
    exact congrArg (· >>= run) (newline_of_unterminated (s := s.onto ('\n' :: t)) h)
  have hlt := pending_lt_pos hreach doc (mem_of_bodiesLength h₁)
  rw [Relabeling.Carries, hrun t₁ h₁, hrun t₂ h₂]
  exact .error ⟨hlt.le, rfl⟩

/-- Where all bodies end and the same text follows them, the two runs go on alike. -/
lemma carries_bodies {t₁ t₂ : Text} {n₁ n₂ : ℕ}
    (hreach : Reaches { rest := before ++ '\n' :: t₁ } s) (hrest : s.rest = '\n' :: t₁)
    (h₁ : Heredoc.bodiesLength s.pending t₁ = .ok n₁)
    (h₂ : Heredoc.bodiesLength s.pending t₂ = .ok n₂) (hdrop : t₂.drop n₂ = t₁.drop n₁)
    (hlast : ('\n' :: t₂.take n₂).getLast? = ('\n' :: t₁.take n₁).getLast?) :
    (bodyShift s.pos (t₁.take n₁) (t₂.take n₂)).relabeling.Carries (before ++ '\n' :: t₁)
      (before ++ '\n' :: t₂) := by
  have hsound := (sound_start _).reaches hreach
  have hrun : ∀ {t : Text} {n : ℕ}, Heredoc.bodiesLength s.pending t = .ok n →
      run { rest := before ++ '\n' :: t }
        = run { ((s.onto ('\n' :: t)).emit ⟨.newline, 0⟩).advance n with pending := [] } := by
    intro t n h
    rw [run_bodies hreach hrest t, run_cons (rest_onto s _)]
    exact congrArg (· >>= run) (newline_of_bodies (s := s.onto ('\n' :: t)) h)
  have hstart : s.pos = (bodyShift s.pos (t₁.take n₁) (t₂.take n₂)).offset s.pos :=
    (Shift.offset_of_le (bodyShift s.pos (t₁.take n₁) (t₂.take n₂)) (le_refl s.pos)).symm
  have hshifted := Shifted.of_newline (d := bodyShift s.pos (t₁.take n₁) (t₂.take n₂))
    (rest_onto s ('\n' :: t₁)) (rest_onto s ('\n' :: t₂)) rfl hsound.recent_stop_le rfl rfl hstart
    hdrop ⟨0, (Nat.zero_add _).symm, (Nat.zero_add _).symm⟩ hlast
  rw [Relabeling.Carries, hrun h₁, hrun h₂]
  exact hshifted.run.imp (fun _ _ => id) fun _ _ h => ⟨h.recent_eq, h.keeps⟩

end Scanner

namespace Heredoc

variable {doc : Heredoc} {a b₁ b₂ after : Text}

/-- With other lines in the body of a heredoc, the run ends alike. -/
lemma Enters.exists_carries (henters : doc.Enters a (b₁ ++ after)) (h₁ : doc.Filler b₁)
    (h₂ : doc.Filler b₂) (hafter : after ≠ []) (hends : doc.endsAt (line after)) :
    ∃ r : Relabeling, (∀ t, (r.token t).spelling = t.spelling) ∧
      r.Carries (a ++ (b₁ ++ after)) (a ++ (b₂ ++ after)) := by
  obtain ⟨s, before, earlier, docs, more, rfl, hreach, hrest, hpending, hearlier⟩ :=
    henters.exists_state
  have hbodies : ∀ b, doc.Filler b → bodiesLength s.pending (earlier ++ (b ++ after))
      = (bodiesLength more (after.drop ((line after).length + 1))).map
        fun m => (earlier ++ b).length + ((line after).length + 1 + m) := by
    intro b hb
    rw [hpending]
    exact bodiesLength_filler hb hafter hends (bodiesLength_local (b ++ after) hearlier le_rfl)
  simp only [List.append_assoc, List.cons_append]
  -- What the later heredocs find does not depend on the body of this one.
  cases hmore : bodiesLength more (after.drop ((line after).length + 1)) with
  | error last =>
    rw [hmore] at hbodies
    exact ⟨_, fun _ => rfl,
      Scanner.carries_unterminated hreach hrest (hbodies b₁ h₁) (hbodies b₂ h₂)⟩
  | ok m =>
    rw [hmore] at hbodies
    have hdrop : ∀ b : Text, (earlier ++ (b ++ after)).drop
        ((earlier ++ b).length + ((line after).length + 1 + m))
          = after.drop ((line after).length + 1 + m) := by
      intro b
      rw [← List.append_assoc, ← List.drop_drop, List.drop_left]
    -- The last line of the body is the same in both texts, so the last character is.
    have hlast : ∀ b : Text, ('\n' :: (earlier ++ (b ++ after)).take
        ((earlier ++ b).length + ((line after).length + 1 + m))).getLast?
          = (after.take ((line after).length + 1 + m)).getLast? := by
      intro b
      rw [← List.append_assoc, List.take_length_add_append, ← List.cons_append,
        List.getLast?_append_of_ne_nil]
      exact mt List.take_eq_nil_iff.1 (by simp [hafter])
    refine ⟨_, fun _ => rfl,
      Scanner.carries_bodies hreach hrest (hbodies b₁ h₁) (hbodies b₂ h₂) ?_ ?_⟩
    · rw [hdrop, hdrop]
    · rw [hlast, hlast]

end Heredoc

/-- Bodies of heredocs are inert: lines of a body that do not end it can be replaced by others
without a change to what is read or to the tables that are found, except for their places, or to
the problem that is reported. -/
theorem Heredoc.body_inert {doc : Heredoc} {a b₁ b₂ after : Text} (h₁ : doc.Filler b₁)
    (h₂ : doc.Filler b₂) (hafter : after ≠ []) (hends : doc.endsAt (line after))
    (henters : doc.Enters a (b₁ ++ after)) :
    Corresponds (fun f f' => f.problem = f'.problem)
        (fun ts ts' => ts.map Token.spelling = ts'.map Token.spelling)
        (Token.lex (a ++ (b₁ ++ after))) (Token.lex (a ++ (b₂ ++ after))) ∧
      ∀ marker, Corresponds (fun f f' => f.problem = f'.problem)
        (fun tables tables' =>
          tables.map (fun t => (t.name, t.numbers)) = tables'.map fun t => (t.name, t.numbers))
        (Table.locate (a ++ (b₁ ++ after)) marker) (Table.locate (a ++ (b₂ ++ after)) marker) := by
  obtain ⟨r, hspelling, hcarries⟩ := henters.exists_carries h₁ h₂ hafter hends
  constructor
  · exact (hcarries.lex hspelling).imp (fun _ _ h => (congrArg Fault.problem h.2).symm)
      fun _ _ => id
  · intro marker
    exact (hcarries.locate marker).imp (fun _ _ h => (congrArg Fault.problem h.2).symm)
      fun _ _ h => map_eq_map_of_forall₂ h fun _ _ h => by rw [h.name_eq, h.numbers_eq]

/-- The second of two bodies, a line like a table, removed. -/
theorem Heredoc.body_inert_second :
    ∃ tables, Table.locate "<<A+<<B\na\nA\nB\ny._u = [2, 3]\n".toList '_' = .ok tables ∧
      tables.map (fun t => (t.name, t.numbers)) = [("_u".toList, [2, 3])] := by
  have henters : (⟨['B'], false, 4⟩ : Heredoc).Enters "<<A+<<B\na\nA\n".toList
      ("x._t = [1]\n".toList ++ "B\ny._u = [2, 3]\n".toList) := by
    refine ⟨_, "a\nA\n".toList, [⟨['A'], false, 0⟩], [], .tail (.tail (.tail .refl
      ⟨'<', _, rfl, rfl⟩) ⟨'+', _, rfl, rfl⟩) ⟨'<', _, rfl, rfl⟩, ?_, ?_, ?_⟩ <;> decide +kernel
  have hbody : (⟨['B'], false, 4⟩ : Heredoc).Filler "x._t = [1]\n".toList :=
    .line (l := "x._t = [1]".toList) (by decide) (by decide) .nil
  have hlocate : (Table.locate ("<<A+<<B\na\nA\n".toList ++ ("x._t = [1]\n".toList
      ++ "B\ny._u = [2, 3]\n".toList)) '_').map (fun tables =>
        tables.map fun t => (t.name, t.numbers)) = .ok [("_u".toList, [2, 3])] := by
    decide +kernel
  obtain ⟨tables, htables, hcontents⟩ := eq_ok_of_map_eq_ok hlocate
  have hinert := body_inert hbody .nil (by decide) (by decide) henters
  obtain ⟨tables', htables', hsame⟩ := (hinert.2 '_').exists_of_eq_ok htables
  exact ⟨tables', htables', hsame.symm.trans hcontents⟩

end TablePack
