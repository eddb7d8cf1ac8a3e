import Mathlib.Tactic
import TablePack.Proofs.Splice

/-!
# Edits of lines are edits of text

A line buffer is edited by lines and columns. Read as one text, with a newline between its lines, it
is edited between two byte offsets: what stands there is replaced, and nothing else changes. This
holds of every buffer, also of one whose lines have newlines in them after earlier edits.

An edit fails where a number goes below zero on the way to the count of removed bytes, where a line
is missing, and where a column is not between two characters. That comes to a condition on the two
positions (`Admits`): to go back in a line makes the count negative, and so does to go back by a
line; further back there are no lines to touch. That a negative count fails rests on checked
arithmetic (`LineBuffer.minus?`).

* `LineBuffer.admits_of_replace?`: what an edit that is made must be like;
* `LineBuffer.Admits.exists_pieces`: the pieces into which such an edit divides a buffer;
* `LineBuffer.edits_exact`: which edits are made, and what they do.
-/

namespace TablePack

open Text (size joined glue Divides)

namespace LineBuffer

/-! ## Which edits are made -/

/-- The edits whose positions are in order, on lines of the buffer, and at columns that lie between
two characters there. -/
structure Admits (b : LineBuffer) (e : Edit) : Prop where
  one_le : 1 ≤ e.start.line
  line_le : e.start.line ≤ e.stop.line
  le_count : e.stop.line ≤ b.lineCount
  divides_start : ∃ l, b.lines[e.start.line - 1]? = some l ∧ Divides l e.start.column
  divides_stop : ∃ l, b.lines[e.stop.line - 1]? = some l ∧ Divides l e.stop.column
  ordered : e.start.line < e.stop.line ∨ e.start.column ≤ e.stop.column

lemma divides_of_cut? {n : ℕ} {t a : Text}
    (h : (Text.cut? n t).map (·.1) = some a ∨ (Text.cut? n t).map (·.2) = some a) :
    Divides t n := by
  obtain ⟨parts, hcut⟩ : ∃ parts, Text.cut? n t = some parts := by
    rcases h with h | h <;> exact (Option.map_eq_some_iff.1 h).imp fun _ => And.left
  obtain ⟨heq, hsize⟩ := Text.cut?_eq_some_iff.1 hcut
  exact ⟨parts.2, parts.1, heq, hsize⟩

lemma between?_eq_some_iff {ls touched : List Text} {first stop : ℕ} :
    between? ls first stop = some touched ↔
      first ≤ stop ∧ stop ≤ ls.length ∧ (ls.take stop).drop first = touched := by
  rw [between?]
  split_ifs with h
  · simp [h.1, h.2]
  · simp only [false_iff]
    tauto

/-- The count of the removed bytes, with all that it takes to come to it. -/
lemma removed?_eq_some_iff {e : Edit} {touched : List Text} {last : Text} {n : ℕ} :
    removed? e touched last = some n ↔
      ∃ kept, size last = kept + e.stop.column ∧
        terminatedSize touched = n + kept + e.start.column + 1 := by
  simp only [removed?, Option.bind_eq_bind, Option.bind_eq_some_iff, minus?_eq_some_iff]
  constructor
  · rintro ⟨whole, hwhole, behind, hbehind, kept, hkept, hn⟩
    exact ⟨kept, hkept, by omega⟩
  · rintro ⟨kept, hkept, hwhole⟩
    exact ⟨_, hwhole, _, rfl, kept, hkept, rfl⟩

/-- An edit that is made has its positions in order. -/
lemma admits_of_replace? {b : LineBuffer} {e : Edit} (h : (b.replace? e).isSome) : b.Admits e := by
  obtain ⟨r, hr⟩ := Option.isSome_iff_exists.1 h
  simp only [replace?, Option.bind_eq_bind, Option.bind_eq_some_iff, minus?_eq_some_iff] at hr
  obtain ⟨start, hstart, stop, hstop, first, hfirst, last, hlast, touched, htouched, removed,
    hremoved, before, hbefore, after, hafter, -⟩ := hr
  obtain ⟨hle, hcount, rfl⟩ := between?_eq_some_iff.1 htouched
  obtain ⟨kept, hkept, hsize⟩ := removed?_eq_some_iff.1 hremoved
  have hstart' : e.start.line - 1 = start := by omega
  have hstop' : e.stop.line - 1 = stop := by omega
  -- an empty stretch of lines has no newline to leave out
  have hne : start < e.stop.line := by
    by_contra hge
    have hempty : (b.lines.take e.stop.line).drop start = [] :=
      List.drop_eq_nil_of_le (by rw [List.length_take]; omega)
    rw [hempty, terminatedSize, List.foldr_nil] at hsize
    omega
  refine ⟨by omega, by omega, hcount, ⟨first, hstart' ▸ hfirst, divides_of_cut? (.inl hbefore)⟩,
    ⟨last, hstop' ▸ hlast, divides_of_cut? (.inr hafter)⟩, ?_⟩
  by_cases hline : e.start.line < e.stop.line
  · exact .inl hline
  · -- the only touched line is the last one
    have hsame : start = stop := by omega
    have hone : (b.lines.take e.stop.line).drop start = [last] := by
      rw [hstop, hsame, List.take_add_one, hlast, Option.toList_some,
        List.drop_left' (by rw [List.length_take]; omega)]
    rw [hone] at hsize
    simp only [terminatedSize, List.foldr_cons, List.foldr_nil] at hsize
    exact .inr (by omega)

/-! ## The pieces of an edit -/

/-- An edit divides the lines of a buffer into the lines before it and the part `p` of a line, the
lines in its `middle`, and the part `x` of a line and the lines after it. -/
structure Pieces (b : LineBuffer) (e : Edit) (before : List Text) (p : Text) (middle : List Text)
    (x : Text) (after : List Text) : Prop where
  ne_nil : middle ≠ []
  lines_eq : b.lines = glue (before ++ [p]) (glue middle (x :: after))
  start_eq : e.start = ⟨before.length + 1, size p⟩
  stop_eq : e.stop = ⟨before.length + middle.length, size ((glue [p] middle).getLastD [])⟩

lemma exists_append_cons_of_getElem? {ls : List Text} {i : ℕ} {l : Text} (h : ls[i]? = some l) :
    ∃ before after, ls = before ++ l :: after ∧ before.length = i := by
  obtain ⟨hlt, rfl⟩ := List.getElem?_eq_some_iff.1 h
  refine ⟨ls.take i, ls.drop (i + 1), ?_, List.length_take_of_le hlt.le⟩
  rw [← List.drop_eq_getElem_cons hlt, List.take_append_drop]

/-- An edit within a line. -/
lemma pieces_of_line {b : LineBuffer} {e : Edit} {before after : List Text} {p m x : Text}
    (hlines : b.lines = before ++ (p ++ (m ++ x)) :: after)
    (hstart : e.start = ⟨before.length + 1, size p⟩)
    (hstop : e.stop = ⟨before.length + 1, size (p ++ m)⟩) : Pieces b e before p [m] x after := by
  refine ⟨by simp, ?_, hstart, hstop⟩
  rw [hlines, Text.glue_append _ _ (by simp)]
  rfl

/-- An edit from one line to a later one. -/
lemma pieces_of_lines {b : LineBuffer} {e : Edit} {before between after : List Text}
    {p u q x : Text} (hlines : b.lines = before ++ (p ++ u) :: (between ++ (q ++ x) :: after))
    (hstart : e.start = ⟨before.length + 1, size p⟩)
    (hstop : e.stop = ⟨before.length + between.length + 2, size q⟩) :
    Pieces b e before p (u :: (between ++ [q])) x after := by
  refine ⟨by simp, ?_, hstart, ?_⟩
  · rw [hlines, Text.glue_append _ _ (by simp), Text.glue_cons u _ (by simp),
      Text.glue_append _ _ (by simp)]
    rfl
  · have hlast : (glue [p] (u :: (between ++ [q]))).getLastD [] = q := by
      rw [Text.glue_singleton_cons, ← List.cons_append, List.getLastD_concat]
    rw [hstop, hlast]
    simp only [List.length_cons, List.length_append, List.length_nil, Position.mk.injEq, and_true]
    omega

/-- An edit with its positions in order divides a buffer into pieces. -/
lemma Admits.exists_pieces {b : LineBuffer} {e : Edit} (h : b.Admits e) :
    ∃ before p middle x after, Pieces b e before p middle x after := by
  obtain ⟨first, hfirst, u, p, rfl, hp⟩ := h.divides_start
  obtain ⟨last, hlast, x, q, rfl, hq⟩ := h.divides_stop
  obtain ⟨before, rest, hlines, hbefore⟩ := exists_append_cons_of_getElem? hfirst
  have hone := h.one_le
  have hline := h.line_le
  have hstart : e.start = ⟨before.length + 1, size p⟩ := by
    rw [hbefore, hp, Nat.sub_add_cancel hone]
  by_cases hlt : e.start.line < e.stop.line
  · -- the last line is one of the lines after the first one
    have hrest : rest[e.stop.line - 1 - before.length - 1]? = some (q ++ x) := by
      rw [hlines, List.getElem?_append_right (by omega), List.getElem?_cons,
        if_neg (by omega)] at hlast
      exact hlast
    obtain ⟨between, after, rfl, hbetween⟩ := exists_append_cons_of_getElem? hrest
    refine ⟨before, p, _, x, after, pieces_of_lines hlines hstart ?_⟩
    rw [hq, show before.length + between.length + 2 = e.stop.line by omega]
  · have hsame : e.stop.line = e.start.line := by omega
    rw [hsame, hfirst] at hlast
    -- both positions divide the same line
    obtain ⟨m, rfl, rfl⟩ := Text.append_split_of_size_le (Option.some.inj hlast)
      (by rw [hp, hq]; exact h.ordered.resolve_left hlt)
    refine ⟨before, p, [m], x, rest, pieces_of_line hlines hstart ?_⟩
    rw [hq, show before.length + 1 = e.stop.line by omega]

section Pieces

variable {b : LineBuffer} {e : Edit} {before middle after : List Text} {p x : Text}

lemma Pieces.replace?_eq (h : Pieces b e before p middle x after) :
    b.replace? e
      = some (size (joined middle), ⟨before ++ (p ++ e.text ++ x) :: after, b.ending⟩) := by
  obtain ⟨start, stop, text⟩ := e
  obtain ⟨lines, ending⟩ := b
  obtain ⟨hne, hlines, hstart, hstop⟩ := h
  dsimp only at hlines hstart hstop
  subst hlines hstart hstop
  exact replace?_glue before p hne x after ending text

lemma Pieces.joined_eq (h : Pieces b e before p middle x after) :
    joined b.lines = joined (before ++ [p]) ++ joined middle ++ joined (x :: after) := by
  rw [h.lines_eq, Text.joined_glue (by simp) (Text.glue_ne_nil (.inl h.ne_nil)),
    Text.joined_glue h.ne_nil (by simp), List.append_assoc]

lemma joined_replaced (before after : List Text) (p text x : Text) :
    joined (before ++ (p ++ text ++ x) :: after)
      = joined (before ++ [p]) ++ text ++ joined (x :: after) := by
  have hglue : before ++ (p ++ text ++ x) :: after
      = glue (before ++ [p]) (glue [text] (x :: after)) := by
    rw [Text.glue_append _ _ (by simp), List.append_assoc]
    rfl
  rw [hglue, Text.joined_glue (by simp) (by simp), Text.joined_glue (by simp) (by simp),
    Text.joined_singleton, List.append_assoc]

/-- The number of lines after an edit. -/
lemma Pieces.length_eq (h : Pieces b e before p middle x after) :
    (before ++ (p ++ e.text ++ x) :: after).length + (e.stop.line - e.start.line)
      = b.lineCount := by
  have hpos := List.length_pos_of_ne_nil h.ne_nil
  have hmiddle := Text.length_glue h.ne_nil (List.cons_ne_nil x after)
  have hall := Text.length_glue (List.append_ne_nil_of_right_ne_nil before (List.cons_ne_nil p []))
    (Text.glue_ne_nil (.inl h.ne_nil) : glue middle (x :: after) ≠ [])
  rw [lineCount, h.lines_eq, h.start_eq, h.stop_eq]
  simp only [List.length_append, List.length_cons, List.length_nil] at hmiddle hall ⊢
  omega

end Pieces

/-! ## Offsets -/

/-- The offset of a position in the lines of a buffer, with a newline between them. -/
def offset (b : LineBuffer) (pos : Position) : ℕ :=
  ((b.lines.take (pos.line - 1)).map fun l => size l + 1).sum + pos.column

lemma size_joined_concat (ls : List Text) (l : Text) :
    size (joined (ls ++ [l])) = (ls.map fun l => size l + 1).sum + size l := by
  induction ls with
  | nil => simp
  | cons k ls ih =>
    rw [List.cons_append, Text.joined_cons _ (by simp), Text.size_append, Text.size_cons, ih,
      List.map_cons, List.sum_cons, show '\n'.utf8Size = 1 from rfl]
    omega

/-- The offset of a position is the size of the joined lines up to it. -/
lemma offset_eq {b : LineBuffer} {ls after : List Text} {l x : Text}
    (h : b.lines = ls ++ (l ++ x) :: after) :
    b.offset ⟨ls.length + 1, size l⟩ = size (joined (ls ++ [l])) := by
  rw [offset, size_joined_concat, h, Nat.add_sub_cancel, List.take_left]

lemma Pieces.offset_start {b : LineBuffer} {e : Edit} {before middle after : List Text}
    {p x : Text} (h : Pieces b e before p middle x after) :
    b.offset e.start = size (joined (before ++ [p])) := by
  obtain ⟨m, ms, hm⟩ := List.exists_cons_of_ne_nil
    (Text.glue_ne_nil (.inl h.ne_nil) : glue middle (x :: after) ≠ [])
  have hlines : b.lines = before ++ (p ++ m) :: ms := by
    rw [h.lines_eq, hm, Text.glue_append _ _ (by simp)]
    rfl
  rw [h.start_eq, offset_eq hlines]

lemma Pieces.offset_stop {b : LineBuffer} {e : Edit} {before middle after : List Text} {p x : Text}
    (h : Pieces b e before p middle x after) :
    b.offset e.stop = size (joined (before ++ [p]) ++ joined middle) := by
  -- the lines up to the stop, of which `q` is the last one
  obtain ⟨init, q, hq⟩ : ∃ init q, glue [p] middle = init ++ [q] := by
    rcases List.eq_nil_or_concat (glue [p] middle) with hnil | ⟨init, q, hconcat⟩
    · exact absurd hnil (Text.glue_ne_nil (.inr h.ne_nil))
    · exact ⟨init, q, by rw [hconcat, List.concat_eq_append]⟩
  have hlines : b.lines = (before ++ init) ++ (q ++ x) :: after := by
    rw [h.lines_eq, Text.glue_append _ _ (by simp), ← Text.glue_assoc _ h.ne_nil, hq,
      Text.glue_append _ _ (by simp), List.append_assoc]
    rfl
  have hlength : before.length + middle.length = (before ++ init).length + 1 := by
    have hglue := Text.length_glue (List.cons_ne_nil p []) h.ne_nil
    rw [hq] at hglue
    simp only [List.length_append, List.length_cons, List.length_nil] at hglue ⊢
    omega
  have hjoined : joined ((before ++ init) ++ [q])
      = joined (before ++ [p]) ++ joined middle := by
    rw [← Text.joined_glue (by simp) h.ne_nil, Text.glue_append _ _ (by simp), hq,
      List.append_assoc]
  rw [h.stop_eq, hq, List.getLastD_concat, hlength, offset_eq hlines, hjoined]

/-! ## What an edit does -/

/-- An edit of a buffer is an edit of its text. What stands between the offsets of the two positions
is replaced; its bytes are counted, and the lines that it spans become one. -/
structure Edited (b : LineBuffer) (e : Edit) (removed : ℕ) (b' : LineBuffer) : Prop where
  joined_eq : ∃ before cut after, joined b.lines = before ++ cut ++ after ∧
    size before = b.offset e.start ∧ size (before ++ cut) = b.offset e.stop ∧
    joined b'.lines = before ++ e.text ++ after ∧ removed = size cut
  lineCount_eq : b'.lineCount + (e.stop.line - e.start.line) = b.lineCount
  ending_eq : b'.ending = b.ending

lemma Admits.exists_edited {b : LineBuffer} {e : Edit} (h : b.Admits e) :
    ∃ removed b', b.replace? e = some (removed, b') ∧ b.Edited e removed b' := by
  obtain ⟨before, p, middle, x, after, hpieces⟩ := h.exists_pieces
  refine ⟨_, _, hpieces.replace?_eq, ⟨⟨_, _, _, hpieces.joined_eq, hpieces.offset_start.symm,
    hpieces.offset_stop.symm, joined_replaced before after p e.text x, rfl⟩, hpieces.length_eq,
    rfl⟩⟩

/-- A buffer after some edits, one after another. An edit that fails leaves the buffer as it is. -/
def afterEdits (b : LineBuffer) (edits : List Edit) : LineBuffer :=
  edits.foldl (fun b e => (b.replace? e).elim b (·.2)) b

/-- The text of a buffer without edits. -/
lemma toText_ofText (source : Text) :
    (ofText source).toText = source ++ Text.terminator source := by
  obtain ⟨body, nl, hsource, -, hofText⟩ := exists_ofText_eq source
  rw [hofText, toText, show ['\n'].intercalate (Text.lines body) = body from Text.joined_lines body,
    ← List.append_assoc, ← hsource]

/-- Edits of a buffer are edits of its text. After any edits of the lines of a text, a further one
is made exactly if its positions are in order and lie in the lines, and then it replaces what stands
between them in the joined text. Without edits, a buffer gives back its text, with an ending if it
has none. -/
theorem edits_exact (source : Text) (edits : List Edit) (e : Edit) :
    (((ofText source).afterEdits edits).Admits e →
      ∃ removed b', ((ofText source).afterEdits edits).replace? e = some (removed, b') ∧
        (ofText source).afterEdits (edits ++ [e]) = b' ∧
        ((ofText source).afterEdits edits).Edited e removed b') ∧
    (¬ ((ofText source).afterEdits edits).Admits e →
      ((ofText source).afterEdits edits).replace? e = none ∧
        (ofText source).afterEdits (edits ++ [e]) = (ofText source).afterEdits edits) ∧
    (ofText source).toText = source ++ Text.terminator source := by
  have hlast : (ofText source).afterEdits (edits ++ [e])
      = (((ofText source).afterEdits edits).replace? e).elim ((ofText source).afterEdits edits)
          (·.2) := by
    rw [afterEdits, List.foldl_append]
    rfl
  refine ⟨fun hadmits => ?_, fun hadmits => ?_, toText_ofText source⟩
  · obtain ⟨removed, b', hreplace, hedited⟩ := hadmits.exists_edited
    exact ⟨removed, b', hreplace, by rw [hlast, hreplace]; rfl, hedited⟩
  · have hnone : ((ofText source).afterEdits edits).replace? e = none := by
      rw [← Option.not_isSome_iff_eq_none]
      exact fun hsome => hadmits (admits_of_replace? hsome)
    exact ⟨hnone, by rw [hlast, hnone]; rfl⟩

-- the first line holds a character of two bytes, and an edit may not start inside it
example :
    ((ofText "é=[1,\n2]\n".toList).replace? ⟨⟨1, 3⟩, ⟨2, 1⟩, "x\ny".toList⟩).map
        (fun r => (r.1, r.2.toText))
      = some (5, "é=x\ny]\n".toList) ∧
    (ofText "é=[1,\n2]\n".toList).replace? ⟨⟨1, 1⟩, ⟨2, 1⟩, []⟩ = none := by
  decide

end LineBuffer

end TablePack
