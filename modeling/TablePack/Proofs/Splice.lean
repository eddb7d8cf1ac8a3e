import Mathlib.Tactic
import TablePack.Compaction
import TablePack.Proofs.Located

/-!
# Packing replaces the tables and nothing else

A line buffer is edited from the last table to the first one. An edit joins the lines that it
touches, so the lines after it are no longer those of the source text; those before it are, which is
the invariant here: after the edits from some division of the text on, the buffer holds the lines
before the division, glued to lines that spell the edited rest.

* `Text.spliced` replaces pieces of a text all at once;
* `Compaction.splice_eq`: the edits of a line buffer come to the same;
* `Compaction.ofText_eq_spliced`: what compaction does to a source text.
-/

namespace TablePack

open Text (size lines glue joined lastLine)

namespace Text

/-- A text from byte `here` on, with new texts in the place of the pieces between two offsets. -/
def spliced (source : Text) (here : ℕ) : List (ℕ × ℕ × Text) → Text
  | [] => dropBytes here source
  | (start, stop, new) :: pieces => slice source here start ++ (new ++ spliced source stop pieces)

/-- The number of newlines after a carriage return. -/
def returnNewlines (t : Text) : ℕ := (t.zip t.tail).count ('\r', '\n')

/-- The number of newlines that come after no carriage return. -/
def bareNewlines (t : Text) : ℕ := t.count '\n' - returnNewlines t

/-- What is added to a text so that it ends with a newline. -/
def terminator (t : Text) : Text :=
  if t.getLast? = some '\n' then []
  else if bareNewlines t < returnNewlines t then ['\r', '\n']
  else ['\n']

lemma returnNewlines_cons (c : Char) (t : Text) :
    returnNewlines (c :: t)
      = (if c = '\r' ∧ t.head? = some '\n' then 1 else 0) + returnNewlines t := by
  cases t with
  | nil => simp [returnNewlines]
  | cons d t =>
    simp only [returnNewlines, List.tail_cons, List.zip_cons_cons, List.count_cons, List.head?_cons]
    rw [Nat.add_comm]
    simp

lemma returnCount_eq (t : Text) : LineBuffer.returnCount t = returnNewlines t := by
  induction t with
  | nil => rfl
  | cons c t ih =>
    obtain ⟨l, ls, hl⟩ := List.exists_cons_of_ne_nil (lines_ne_nil t)
    rw [returnNewlines_cons, ← ih, LineBuffer.returnCount, LineBuffer.returnCount, lines_cons, hl]
    by_cases hc : c = '\n'
    · simp [hc]
    · -- the first line is empty where the text starts with a newline or is empty
      have hhead : t.head? = some '\n' ↔ l = [] ∧ ls ≠ [] := by
        cases t with
        | nil =>
          cases hl
          simp
        | cons d t =>
          rw [lines_cons] at hl
          by_cases hd : d = '\n'
          · rw [if_pos hd] at hl
            cases hl
            simp [hd, lines_ne_nil]
          · rw [if_neg hd] at hl
            obtain ⟨k, ks, hk⟩ := List.exists_cons_of_ne_nil (lines_ne_nil t)
            rw [hk] at hl
            cases hl
            simp [hd]
      rw [if_neg hc]
      cases ls with
      | nil => simp [hhead]
      | cons k ls =>
        cases l with
        | nil => simp [hhead, List.countP_cons, Nat.add_comm]
        | cons d l => simp [hhead, List.countP_cons]

end Text

namespace LineBuffer

/-- The lines of a text, without the newline at its end. -/
lemma exists_ofText_eq (source : Text) :
    ∃ body nl, source = body ++ nl ∧ (nl = [] ∨ nl = ['\n']) ∧
      ofText source = ⟨Text.lines body, nl ++ Text.terminator source⟩ := by
  unfold ofText Text.terminator
  split_ifs with hlast hmore
  · obtain ⟨body, rfl⟩ := List.getLast?_eq_some_iff.1 hlast
    exact ⟨body, ['\n'], rfl, .inr rfl, by simp⟩
  · exact ⟨source, [], by simp, .inl rfl, by
      rw [commonEnding, Text.returnCount_eq, ← Text.bareNewlines, if_pos hmore]; rfl⟩
  · exact ⟨source, [], by simp, .inl rfl, by
      rw [commonEnding, Text.returnCount_eq, ← Text.bareNewlines, if_neg hmore]; rfl⟩

end LineBuffer

namespace Compaction

/-! ## The plan -/

/-- The piece of the source text that packing a table replaces, and what it puts there. -/
def piece (opts : Options) (p : Table × Encoding) : ℕ × ℕ × Text :=
  (p.1.start, p.1.stop, statement opts p.1.receiver p.1.name p.2)

lemma sublist_of_plan {opts : Options} {source : Text} {tables : List Table}
    {planned : List (Table × Encoding)} {kept : List Kept}
    (h : plan opts source tables = .ok (planned, kept)) :
    (planned.map Prod.fst).Sublist tables := by
  induction tables generalizing planned kept with
  | nil =>
    cases h
    exact .slnil
  | cons t tables ih =>
    rw [plan] at h
    split at h
    · cases h
    · obtain ⟨⟨planned', kept'⟩, hplan, heq⟩ := eq_ok_of_map_eq_ok h
      cases heq
      exact (ih hplan).cons t
    · obtain ⟨⟨planned', kept'⟩, hplan, heq⟩ := eq_ok_of_map_eq_ok h
      cases heq
      exact (ih hplan).cons_cons t

/-! ## The edits -/

/-- A table whose statement is a piece of a text without its last newline. -/
def Within (body : Text) (t : Table) : Prop :=
  ∃ before middle after, body = before ++ (middle ++ after) ∧ size before = t.start ∧
    size before + size middle = t.stop

lemma within_of_division {body nl : Text} {t : Table} {before gap after : Text}
    (h : Table.Division (body ++ nl) t before gap after) (hnl : nl = [] ∨ nl = ['\n']) :
    Within body t := by
  obtain ⟨hsource, hstart, hstop⟩ := h
  have hbody : ∃ after', body = before ++ ((t.receiver ++ (gap ++ [']'])) ++ after') := by
    rcases hnl with rfl | rfl
    · exact ⟨after, by simpa using hsource⟩
    · -- the newline at the end is not the closing bracket
      rcases List.eq_nil_or_concat after with rfl | ⟨after', c, rfl⟩
      · have hlast := congrArg List.getLast? hsource
        simp at hlast
      · have hends : body ++ ['\n']
            = (before ++ ((t.receiver ++ (gap ++ [']'])) ++ after')) ++ [c] := by
          rw [hsource]
          simp
        exact ⟨after', (List.append_inj' hends rfl).1⟩
  obtain ⟨after', hbody⟩ := hbody
  refine ⟨before, _, after', hbody, hstart.symm, ?_⟩
  rw [hstop]
  simp only [Text.size_append, Text.size_cons, Text.size_nil]
  rw [show ']'.utf8Size = 1 from rfl]
  omega

/-- Packing the tables from some division of the text on: the lines before the division stay, and
the lines after it spell the spliced text. -/
lemma splice_eq (opts : Options) {source body nl : Text} (hsource : source = body ++ nl)
    (ending : Text) {planned : List (Table × Encoding)}
    (hwithin : ∀ p ∈ planned, Within body p.1)
    (hordered : planned.Pairwise fun p q => p.1.stop ≤ q.1.start) (pre post : Text)
    (hbody : body = pre ++ post) (hpre : ∀ p ∈ planned, size pre ≤ p.1.start) :
    ∃ after, after ≠ [] ∧
      splice opts source ⟨lines body, ending⟩ planned
        = some (planned.map fun p => entry source p.1 p.2 (p.1.stop - p.1.start),
            ⟨glue (lines pre) after, ending⟩) ∧
      joined after ++ nl = Text.spliced source (size pre) (planned.map (piece opts)) := by
  induction planned generalizing pre post with
  | nil =>
    refine ⟨lines post, Text.lines_ne_nil post, ?_, ?_⟩
    · rw [splice, hbody, Text.lines_append]
      rfl
    · rw [Text.joined_lines, hsource, hbody, List.append_assoc, List.map_nil, Text.spliced,
        Text.dropBytes_size_append]
  | cons p planned ih =>
    obtain ⟨t, e⟩ := p
    obtain ⟨before, middle, rest, hb, hstart, hstop⟩ := hwithin (t, e) List.mem_cons_self
    obtain ⟨hlater, hordered'⟩ := List.pairwise_cons.1 hordered
    have hb' : body = (before ++ middle) ++ rest := by rw [hb, List.append_assoc]
    have hsize : size (before ++ middle) = t.stop := by rw [Text.size_append, hstop]
    obtain ⟨after, hne, hsplice, hjoined⟩ := ih
      (fun q hq => hwithin q (List.mem_cons_of_mem _ hq)) hordered' _ _ hb'
      fun q hq => hsize.trans_le (hlater q hq)
    obtain ⟨x, xs, rfl⟩ := List.exists_cons_of_ne_nil hne
    -- the positions of the edit, and the edit itself
    have hposStart : Text.position source t.start
        = ⟨(lines before).length, size (lastLine before)⟩ := by
      rw [hsource, hb, List.append_assoc, ← hstart, Text.position_append]
    have hposStop : Text.position source t.stop
        = ⟨(lines (before ++ middle)).length, size (lastLine (before ++ middle))⟩ := by
      rw [hsource, hb', List.append_assoc, ← hsize, Text.position_append]
    have hreplace := LineBuffer.replace?_lines before middle x xs ending
      (statement opts t.receiver t.name e)
    have hgap : ∃ gap, before = pre ++ gap := by
      obtain ⟨gap, hgap, -⟩ := Text.append_split_of_size_le (hbody.symm.trans hb)
        (by rw [hstart]; exact hpre (t, e) List.mem_cons_self)
      exact ⟨gap, hgap⟩
    obtain ⟨gap, rfl⟩ := hgap
    refine ⟨glue (lines gap) ((statement opts t.receiver t.name e ++ x) :: xs),
      Text.glue_ne_nil (.inr (by simp)), ?_, ?_⟩
    · rw [splice, hsplice]
      simp only [edit, hposStart, hposStop, hreplace, List.map_cons]
      rw [← Text.glue_assoc _ (Text.lines_ne_nil gap), ← Text.lines_append, ← hstart, ← hstop,
        Nat.add_sub_cancel_left]
    · have hslice : Text.slice source (size pre) t.start = gap := by
        rw [← hstart, Text.size_append, hsource, hb, List.append_assoc, List.append_assoc,
          Text.slice_append]
      rw [Text.joined_glue (Text.lines_ne_nil gap) (by simp), Text.joined_lines,
        Text.joined_append_cons, List.map_cons, piece, Text.spliced, hslice, ← hsize, ← hjoined]
      simp only [List.append_assoc]

/-! ## Compaction as a whole -/

/-- A plan can be carried out, whatever the tables of a text. -/
lemma splice_of_plan {opts : Options} {source : Text} {tables : List Table}
    {planned : List (Table × Encoding)} {kept : List Kept}
    (hlocate : Table.locate source opts.marker = .ok tables)
    (hplan : plan opts source tables = .ok (planned, kept)) :
    ∃ buffer, splice opts source (LineBuffer.ofText source) planned
        = some (planned.map fun p => entry source p.1 p.2 (p.1.stop - p.1.start), buffer) ∧
      buffer.toText
        = Text.spliced source 0 (planned.map (piece opts)) ++ Text.terminator source := by
  obtain ⟨body, nl, hsource, hnl, hofText⟩ := LineBuffer.exists_ofText_eq source
  have hsub := sublist_of_plan hplan
  have hwithin : ∀ p ∈ planned, Within body p.1 := by
    intro p hp
    obtain ⟨before, gap, after, hdivision⟩ :=
      Table.located_division hlocate (hsub.subset (List.mem_map_of_mem hp))
    rw [hsource] at hdivision
    exact within_of_division hdivision hnl
  have hordered : planned.Pairwise fun p q => p.1.stop ≤ q.1.start :=
    List.pairwise_map.1 ((Table.located_pairwise hlocate).sublist hsub)
  obtain ⟨after, hne, hsplice, hjoined⟩ := splice_eq opts hsource (nl ++ Text.terminator source)
    hwithin hordered [] body rfl (by simp)
  obtain ⟨x, xs, rfl⟩ := List.exists_cons_of_ne_nil hne
  refine ⟨_, by rw [hofText, hsplice], ?_⟩
  rw [LineBuffer.toText, Text.lines_nil, Text.glue_singleton_cons, List.nil_append]
  rw [Text.size_nil] at hjoined
  rw [← hjoined, List.append_assoc]
  rfl

/-- What compaction gives once there is a plan. -/
lemma ofText_of_plan {opts : Options} {source : Text} {tables : List Table}
    {planned : List (Table × Encoding)} {kept : List Kept}
    (hlocate : Table.locate source opts.marker = .ok tables)
    (hplan : plan opts source tables = .ok (planned, kept)) :
    ofText opts source = .ok
      ⟨if planned = [] then source
        else Text.spliced source 0 (planned.map (piece opts)) ++ Text.terminator source,
        planned.map fun p => entry source p.1 p.2 (p.1.stop - p.1.start), kept⟩ := by
  obtain ⟨buffer, hsplice, htext⟩ := splice_of_plan hlocate hplan
  rw [ofText, hlocate]
  simp only [hplan, hsplice]
  by_cases hnil : planned = []
  · subst hnil
    rfl
  · rw [if_neg (by simpa using hnil), if_neg hnil, htext]

/-- What a compaction consists of. -/
lemma exists_plan_of_ofText {opts : Options} {source : Text} {c : Compaction}
    (h : ofText opts source = .ok c) :
    ∃ tables planned, Table.locate source opts.marker = .ok tables ∧
      plan opts source tables = .ok (planned, c.kept) ∧
      c.packed = planned.map (fun p => entry source p.1 p.2 (p.1.stop - p.1.start)) ∧
      c.source = if planned = [] then source
        else Text.spliced source 0 (planned.map (piece opts)) ++ Text.terminator source := by
  cases hlocate : Table.locate source opts.marker with
  | error fault => simp [ofText, hlocate] at h
  | ok tables =>
    cases hplan : plan opts source tables with
    | error e => simp [ofText, hlocate, hplan] at h
    | ok parts =>
      obtain ⟨planned, kept⟩ := parts
      rw [ofText_of_plan hlocate hplan] at h
      cases h
      exact ⟨tables, planned, rfl, hplan, rfl, rfl⟩

/-- Compaction is one simultaneous replacement. The tables of the plan stand in the source text one
after another; each of them is replaced from its receiver through its closing bracket by the
statement that constructs it, all other text stays, and a newline is added at the end where there
was none. A text without a table to replace stays as it is. -/
theorem ofText_eq_spliced {opts : Options} {source : Text} {c : Compaction}
    (h : ofText opts source = .ok c) :
    ∃ tables planned, Table.locate source opts.marker = .ok tables ∧
      plan opts source tables = .ok (planned, c.kept) ∧
      (∀ p ∈ planned, p.1 ∈ tables ∧ Table.Spans source p.1 p.1.start p.1.stop) ∧
      (planned.Pairwise fun p q => p.1.stop ≤ q.1.start) ∧
      List.Forall₂ (fun p (e : Entry) => e.name = p.1.name ∧ e.literalBytes = p.1.stop - p.1.start)
        planned c.packed ∧
      (c.packed ≠ [] → c.source = Text.spliced source 0
          (planned.map fun p => (p.1.start, p.1.stop, statement opts p.1.receiver p.1.name p.2))
        ++ Text.terminator source) ∧
      (c.packed = [] → c.source = source) := by
  obtain ⟨tables, planned, hlocate, hplan, hpacked, hsource⟩ := exists_plan_of_ofText h
  have hsub := sublist_of_plan hplan
  have hempty : c.packed = [] ↔ planned = [] := by rw [hpacked, List.map_eq_nil_iff]
  refine ⟨tables, planned, hlocate, hplan, fun p hp => ?_, ?_, ?_, fun hne => ?_, fun hnil => ?_⟩
  · have hmem := hsub.subset (List.mem_map_of_mem hp)
    obtain ⟨before, gap, after, hdivision⟩ := Table.located_division hlocate hmem
    exact ⟨hmem, hdivision.spans⟩
  · exact List.pairwise_map.1 ((Table.located_pairwise hlocate).sublist hsub)
  · rw [hpacked, List.forall₂_map_right_iff, List.forall₂_same]
    exact fun p _ => ⟨rfl, rfl⟩
  · rw [hsource, if_neg (fun hnil => hne (hempty.2 hnil))]
    rfl
  · rw [hsource, if_pos (hempty.1 hnil)]

/-- Two tables that share a line, in a text that does not end with a newline. -/
theorem ofText_eq_spliced_shared_line :
    ∃ tables planned,
      Table.locate "a._x = [1,\n2]; b._y = [300]".toList '_' = .ok tables ∧
      plan {} "a._x = [1,\n2]; b._y = [300]".toList tables = .ok (planned, []) ∧
      ("a._x = ::Ragel::Bitmap::Array8.new(\"\\x01\\x02\"); "
        ++ "b._y = ::Ragel::Bitmap::Array16.new(\"\\x01\", \",\")\n").toList
        = Text.spliced "a._x = [1,\n2]; b._y = [300]".toList 0
            (planned.map fun p => (p.1.start, p.1.stop, statement {} p.1.receiver p.1.name p.2))
          ++ Text.terminator "a._x = [1,\n2]; b._y = [300]".toList := by
  have h : ofText {} "a._x = [1,\n2]; b._y = [300]".toList
      = .ok ⟨("a._x = ::Ragel::Bitmap::Array8.new(\"\\x01\\x02\"); "
          ++ "b._y = ::Ragel::Bitmap::Array16.new(\"\\x01\", \",\")\n").toList,
        [⟨"_x".toList, 1, 2, .array8, 1, 2, 13, 2⟩, ⟨"_y".toList, 2, 2, .array16, 2, 1, 12, 2⟩],
        []⟩ := by
    decide +kernel
  obtain ⟨tables, planned, hlocate, hplan, -, -, -, hsource, -⟩ := ofText_eq_spliced h
  exact ⟨tables, planned, hlocate, hplan, hsource (by simp)⟩

end Compaction

end TablePack
