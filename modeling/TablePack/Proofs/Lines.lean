import Mathlib.Tactic
import TablePack.LineBuffer
import TablePack.Proofs.LineIndex
import TablePack.Proofs.Offset

/-!
# Lines

The lines of `a ++ b` are those of `a` and those of `b`, where the last line of `a` and the first
line of `b` become one. `glue` is this operation on lists of lines. It describes positions as well
as edits of a line buffer:

* `lines_append`: the lines of a text in two parts;
* `position_append`, `offset?_position`: positions at a division of a text;
* `replace?_glue`: an edit of a line buffer replaces the middle one of three pieces.
-/

namespace TablePack

namespace Text

/-! ## Lines of a text in two parts -/

/-- Two lists of lines, one after the other; the lines at the seam become one. -/
def glue : List Text → List Text → List Text
  | [], m => m
  | [l], [] => [l]
  | [l], x :: m => (l ++ x) :: m
  | l :: k :: ls, m => l :: glue (k :: ls) m

/-- Lines with a newline between them. -/
def joined (ls : List Text) : Text := ['\n'].intercalate ls

/-- The last line of a text. -/
def lastLine (t : Text) : Text := (lines t).getLastD []

lemma lines_ne_nil (t : Text) : lines t ≠ [] := List.splitOn_ne_nil '\n' t

@[simp] lemma lines_nil : lines [] = [[]] := rfl

lemma lines_cons (c : Char) (t : Text) :
    lines (c :: t) = if c = '\n' then [] :: lines t else (lines t).modifyHead (c :: ·) := by
  simp only [lines, List.splitOn_eq_splitOnP, List.splitOnP_cons_eq_if_modifyHead, beq_iff_eq]

@[simp] lemma lines_newline (t : Text) : lines ('\n' :: t) = [] :: lines t := by
  rw [lines_cons, if_pos rfl]

@[simp] lemma joined_singleton (l : Text) : joined [l] = l := by
  simp [joined]

lemma joined_cons {ls : List Text} (l : Text) (h : ls ≠ []) :
    joined (l :: ls) = l ++ '\n' :: joined ls := by
  cases ls with
  | nil => exact absurd rfl h
  | cons k ls => simp [joined, List.intercalate]

lemma joined_append_cons (text l : Text) (ls : List Text) :
    joined ((text ++ l) :: ls) = text ++ joined (l :: ls) := by
  by_cases h : ls = []
  · simp [h]
  · rw [joined_cons _ h, joined_cons _ h, List.append_assoc]

lemma joined_lines (t : Text) : joined (lines t) = t := List.intercalate_splitOn '\n'

@[simp] lemma glue_nil_left (m : List Text) : glue [] m = m := by
  cases m <;> rfl

@[simp] lemma glue_singleton_cons (l x : Text) (m : List Text) :
    glue [l] (x :: m) = (l ++ x) :: m := rfl

lemma glue_cons {ls : List Text} (l : Text) (m : List Text) (h : ls ≠ []) :
    glue (l :: ls) m = l :: glue ls m := by
  cases ls with
  | nil => exact absurd rfl h
  | cons k ls => rfl

lemma glue_append (ls : List Text) {ks : List Text} (m : List Text) (h : ks ≠ []) :
    glue (ls ++ ks) m = ls ++ glue ks m := by
  induction ls with
  | nil => rfl
  | cons l ls ih => rw [List.cons_append, glue_cons l m (by simp [h]), ih, List.cons_append]

lemma glue_ne_nil {ls m : List Text} (h : ls ≠ [] ∨ m ≠ []) : glue ls m ≠ [] := by
  match ls, m with
  | [], m => simpa using h
  | [l], [] => simp [glue]
  | [l], x :: m => simp
  | l :: k :: ls, m => simp [glue]

lemma glue_modifyHead {ls m : List Text} (f : Text → Text) (hf : ∀ a b, f (a ++ b) = f a ++ b)
    (h : ls ≠ []) : glue (ls.modifyHead f) m = (glue ls m).modifyHead f := by
  match ls, m with
  | [l], [] => simp [glue]
  | [l], x :: m => simp [hf]
  | l :: k :: ls, m => simp [glue]

lemma glue_assoc {ls ms : List Text} (ns : List Text) (h : ms ≠ []) :
    glue (glue ls ms) ns = glue ls (glue ms ns) := by
  induction ls with
  | nil => simp
  | cons l ls ih =>
    by_cases hls : ls = []
    · subst hls
      match ms, ns, h with
      | [m], [], _ => simp [glue]
      | [m], x :: ns, _ => simp
      | m :: m' :: ms, ns, _ => simp [glue]
    · rw [glue_cons l ms hls, glue_cons l _ (glue_ne_nil (.inl hls)), ih, glue_cons l _ hls]

/-- The lines of a text in two parts. -/
lemma lines_append (a b : Text) : lines (a ++ b) = glue (lines a) (lines b) := by
  induction a with
  | nil =>
    obtain ⟨l, ls, hl⟩ := List.exists_cons_of_ne_nil (lines_ne_nil b)
    simp [hl]
  | cons c a ih =>
    rw [List.cons_append, lines_cons, lines_cons, ih]
    split
    · rw [glue_cons _ _ (lines_ne_nil a)]
    · rw [glue_modifyHead _ (fun _ _ => rfl) (lines_ne_nil a)]

lemma joined_glue {ls ms : List Text} (hl : ls ≠ []) (hm : ms ≠ []) :
    joined (glue ls ms) = joined ls ++ joined ms := by
  induction ls with
  | nil => exact absurd rfl hl
  | cons l ls ih =>
    by_cases hls : ls = []
    · subst hls
      obtain ⟨m, ms, rfl⟩ := List.exists_cons_of_ne_nil hm
      by_cases hms : ms = []
      · subst hms
        simp
      · simp [joined_cons _ hms]
    · rw [glue_cons l ms hls, joined_cons l (glue_ne_nil (.inl hls)), ih hls, joined_cons l hls,
        List.append_assoc, List.cons_append]

lemma length_glue {ls ms : List Text} (hl : ls ≠ []) (hm : ms ≠ []) :
    (glue ls ms).length + 1 = ls.length + ms.length := by
  induction ls with
  | nil => exact absurd rfl hl
  | cons l ls ih =>
    by_cases hls : ls = []
    · subst hls
      obtain ⟨m, ms, rfl⟩ := List.exists_cons_of_ne_nil hm
      simp
      omega
    · have := ih hls
      rw [glue_cons l ms hls, List.length_cons, List.length_cons]
      omega

/-! ## Positions at a division -/

lemma lines_eq_append_lastLine (t : Text) : lines t = (lines t).dropLast ++ [lastLine t] := by
  rw [lastLine, List.getLastD_eq_getLast?, List.getLast?_eq_some_getLast (lines_ne_nil t)]
  exact (List.dropLast_append_getLast (lines_ne_nil t)).symm

lemma lastLine_newline (t : Text) : lastLine ('\n' :: t) = lastLine t := by
  rw [lastLine, lastLine, lines_newline, List.getLastD_cons]

lemma size_lastLine_cons {c : Char} (t : Text) (h : c ≠ '\n') :
    size (lastLine (c :: t))
      = (if (lines t).length = 1 then c.utf8Size else 0) + size (lastLine t) := by
  rw [lastLine, lastLine, lines_cons, if_neg h]
  obtain ⟨l, ls, hl⟩ := List.exists_cons_of_ne_nil (lines_ne_nil t)
  rw [hl]
  cases ls with
  | nil => simp
  | cons k ls => simp

lemma length_lines_cons {c : Char} (t : Text) (h : c ≠ '\n') :
    (lines (c :: t)).length = (lines t).length := by
  rw [lines_cons, if_neg h, List.length_modifyHead]

/-- The position of a division: the number of lines up to it, and the size of the last of them. -/
lemma position_append (a b : Text) :
    position (a ++ b) (size a) = ⟨(lines a).length, size (lastLine a)⟩ := by
  induction a with
  | nil => simp [lastLine]
  | cons c a ih =>
    rw [List.cons_append, size_cons]
    by_cases hnl : c = '\n'
    · subst hnl
      rw [show '\n'.utf8Size = 1 from rfl, Nat.add_comm, position_newline_cons, ih,
        lastLine_newline, lines_newline, List.length_cons]
    · rw [position_cons hnl, ih, size_lastLine_cons a hnl, length_lines_cons a hnl]

/-- A position in the first part of a text does not depend on the rest. -/
lemma position_append_of_le {a : Text} {n : ℕ} (h : n ≤ size a) (b b' : Text) :
    position (a ++ b) n = position (a ++ b') n := by
  induction n with
  | zero => rw [position_zero, position_zero]
  | succ n ih =>
    have hsame : NewlineAt (a ++ b) n ↔ NewlineAt (a ++ b') n := by
      rw [newlineAt_append_of_lt h, newlineAt_append_of_lt h]
    simp only [position_succ, hsame, ih (Nat.le_of_succ_le h)]

/-- Lines after a newline are counted on from there, and their columns are their own. -/
lemma position_append_newline (a b : Text) (k : ℕ) :
    position (a ++ '\n' :: b) (k + (size a + 1))
      = ⟨(position b k).line + (a.count '\n' + 1), (position b k).column⟩ := by
  induction a with
  | nil => exact position_newline_cons b k
  | cons c a ih =>
    rw [List.cons_append, size_cons]
    by_cases hnl : c = '\n'
    · subst hnl
      rw [show k + ('\n'.utf8Size + size a + 1) = k + (size a + 1) + 1 by
        rw [show '\n'.utf8Size = 1 from rfl]; omega, position_newline_cons, ih,
        List.count_cons_self]
      rfl
    · rw [show k + (c.utf8Size + size a + 1) = c.utf8Size + (k + (size a + 1)) by omega,
        position_cons hnl, ih, List.count_cons_of_ne hnl]
      have hpos := position_line_pos b k
      simp only [Position.mk.injEq, true_and]
      rw [if_neg (by omega), Nat.zero_add]

lemma size_lastLine_le (t : Text) : size (lastLine t) ≤ size t := by
  induction t with
  | nil => simp [lastLine]
  | cons c t ih =>
    rw [size_cons]
    by_cases hnl : c = '\n'
    · rw [hnl, lastLine_newline]
      omega
    · rw [size_lastLine_cons t hnl]
      split_ifs <;> omega

@[simp] lemma lineStart?_one (t : Text) : lineStart? 1 t = some 0 := by
  cases t <;> rfl

lemma lineStart?_append (a b : Text) :
    lineStart? (lines a).length (a ++ b) = some (size a - size (lastLine a)) := by
  induction a with
  | nil => simp [lastLine]
  | cons c a ih =>
    have hle := size_lastLine_le a
    obtain ⟨n, hn⟩ : ∃ n, (lines a).length = n + 1 :=
      ⟨_, (Nat.succ_pred_eq_of_pos (List.length_pos_of_ne_nil (lines_ne_nil a))).symm⟩
    rw [hn] at ih
    rw [List.cons_append, size_cons]
    by_cases hnl : c = '\n'
    · subst hnl
      rw [lines_newline, lastLine_newline, List.length_cons, hn, lineStart?, if_pos rfl, ih]
      simp only [Option.map_some, Option.some.injEq]
      omega
    · rw [length_lines_cons a hnl, size_lastLine_cons a hnl, hn]
      cases n with
      | zero =>
        rw [Nat.zero_add, lineStart?_one, Option.some.injEq] at ih
        rw [Nat.zero_add, lineStart?_one, if_pos rfl, Option.some.injEq]
        omega
      | succ n =>
        rw [lineStart?, if_neg hnl, ih]
        simp only [Option.map_some, Option.some.injEq]
        rw [if_neg (by omega)]
        omega

/-- The position of a division leads back to it. -/
lemma offset?_position (a b : Text) :
    offset? (a ++ b) (position (a ++ b) (size a)) = some (size a) := by
  have hle := size_lastLine_le a
  rw [offset?, position_append, lineStart?_append]
  simp only [Option.map_some, Option.some.injEq]
  omega

/-- The line that a division divides. -/
lemma getElem?_lines_append (a b : Text) :
    (lines (a ++ b))[(lines a).length - 1]? = some (lastLine a ++ (lines b).headD []) := by
  obtain ⟨l, ls, hl⟩ := List.exists_cons_of_ne_nil (lines_ne_nil b)
  have hsplit := lines_eq_append_lastLine a
  have hlen : (lines a).length - 1 = (lines a).dropLast.length := by rw [List.length_dropLast]
  rw [lines_append, hlen, hsplit, glue_append _ _ (by simp), hl, glue_singleton_cons]
  simp

end Text

namespace LineBuffer

open Text

/-! ## Edits -/

lemma terminatedSize_eq {ls : List Text} (h : ls ≠ []) :
    terminatedSize ls = size (joined ls) + 1 := by
  induction ls with
  | nil => exact absurd rfl h
  | cons l ls ih =>
    rw [show terminatedSize (l :: ls) = size l + 1 + terminatedSize ls from rfl]
    by_cases hnil : ls = []
    · subst hnil
      simp [terminatedSize]
    · rw [ih hnil, joined_cons l hnil, size_append, size_cons, show '\n'.utf8Size = 1 from rfl]
      omega

lemma minus?_eq_some_iff {n k m : ℕ} : minus? n k = some m ↔ n = m + k := by
  rw [minus?]
  split_ifs with h
  · rw [Option.some.injEq]
    omega
  · exact iff_of_false (by simp) (by omega)

@[simp] lemma minus?_add (n k : ℕ) : minus? (n + k) k = some n := minus?_eq_some_iff.2 rfl

/-- An edit that starts after `p` in the first of some lines and stops before `x` in the last. -/
lemma replace?_touched (before after : List Text) {touched : List Text} {p q u m x : Text}
    (ending text : Text) (hhead : touched.head? = some (p ++ u))
    (hlast : touched.getLast? = some (q ++ x)) (hjoined : joined touched = p ++ m ++ x) :
    replace? ⟨before ++ (touched ++ after), ending⟩
        ⟨⟨before.length + 1, size p⟩, ⟨before.length + touched.length, size q⟩, text⟩
      = some (size m, ⟨before ++ (p ++ text ++ x) :: after, ending⟩) := by
  have hne : touched ≠ [] := by
    rintro rfl
    cases hhead
  have hpos := List.length_pos_of_ne_nil hne
  have hfirst : (before ++ (touched ++ after))[before.length]? = some (p ++ u) := by
    rw [List.getElem?_append_right le_rfl, Nat.sub_self, List.getElem?_append_left hpos,
      ← List.head?_eq_getElem?, hhead]
  have hminus : minus? (before.length + touched.length) 1
      = some (before.length + touched.length - 1) :=
    minus?_eq_some_iff.2 (by omega)
  have hstop : (before ++ (touched ++ after))[before.length + touched.length - 1]?
      = some (q ++ x) := by
    rw [List.getElem?_append_right (by omega),
      show before.length + touched.length - 1 - before.length = touched.length - 1 by omega,
      List.getElem?_append_left (by omega), ← List.getLast?_eq_getElem?, hlast]
  have htake : (before ++ (touched ++ after)).take (before.length + touched.length)
      = before ++ touched := by
    rw [← List.append_assoc, ← List.length_append, List.take_left]
  have hdrop : (before ++ (touched ++ after)).drop (before.length + touched.length) = after := by
    rw [← List.append_assoc, ← List.length_append, List.drop_left]
  have hbetween : between? (before ++ (touched ++ after)) before.length
      (before.length + touched.length) = some touched := by
    rw [between?, if_pos ⟨by omega, by simp only [List.length_append]; omega⟩, htake,
      List.drop_left]
  -- the bytes of the touched lines are those of the three parts
  have hwhole : terminatedSize touched = size m + size x + size p + 1 := by
    rw [terminatedSize_eq hne, hjoined, size_append, size_append]
    omega
  have hremoved : removed? ⟨⟨before.length + 1, size p⟩,
      ⟨before.length + touched.length, size q⟩, text⟩ touched (q ++ x) = some (size m) := by
    simp only [removed?, hwhole, size_append, Nat.add_comm (size q), minus?_add,
      Option.bind_eq_bind, Option.bind_some]
  simp only [replace?, minus?_add, hminus, hfirst, hstop, hbetween, hremoved, cut?_size_append,
    Option.bind_eq_bind, Option.bind_some, Option.map_some, List.take_left, hdrop]

/-- An edit from the end of the first piece to the end of the second one puts a text in the place
of the second piece, and counts its bytes. -/
lemma replace?_glue (before : List Text) (p : Text) {middle : List Text} (hm : middle ≠ [])
    (x : Text) (after : List Text) (ending text : Text) :
    replace? ⟨glue (before ++ [p]) (glue middle (x :: after)), ending⟩
        ⟨⟨before.length + 1, size p⟩,
          ⟨before.length + middle.length, size ((glue [p] middle).getLastD [])⟩, text⟩
      = some (size (joined middle), ⟨before ++ (p ++ text ++ x) :: after, ending⟩) := by
  -- `init ++ [q]` are the lines up to the end of the edit
  obtain ⟨init, q, hq⟩ : ∃ init q, glue [p] middle = init ++ [q] := by
    rcases List.eq_nil_or_concat (glue [p] middle) with h | ⟨init, q, h⟩
    · exact absurd h (glue_ne_nil (.inr hm))
    · exact ⟨init, q, by rw [h, List.concat_eq_append]⟩
  have hglue : ∀ ls : List Text, glue [p] (glue middle (x :: ls)) = init ++ (q ++ x) :: ls := by
    intro ls
    rw [← glue_assoc _ hm, hq, glue_append _ _ (by simp), glue_singleton_cons]
  have hjoined : joined (init ++ [q ++ x]) = p ++ joined middle ++ x := by
    rw [← hglue [], joined_glue (by simp) (glue_ne_nil (.inl hm)), joined_glue hm (by simp),
      joined_singleton, joined_singleton, List.append_assoc]
  have hlen : (init ++ [q ++ x]).length = middle.length := by
    have := length_glue (List.cons_ne_nil p []) hm
    rw [hq] at this
    simp only [List.length_append, List.length_singleton] at this ⊢
    omega
  obtain ⟨u, hu⟩ : ∃ u, (init ++ [q ++ x]).head? = some (p ++ u) := by
    obtain ⟨m, ms, rfl⟩ := List.exists_cons_of_ne_nil hm
    rw [glue_singleton_cons] at hq
    cases init with
    | nil =>
      obtain ⟨rfl, -⟩ := List.cons.inj hq
      exact ⟨m ++ x, by simp⟩
    | cons l init =>
      obtain ⟨rfl, -⟩ := List.cons.inj hq
      exact ⟨m, rfl⟩
  have hedit := replace?_touched before after ending text hu (q := q) (x := x) (by simp) hjoined
  rw [glue_append _ _ (by simp), hglue, hq, List.getLastD_concat, ← hlen]
  rwa [List.append_assoc, List.singleton_append] at hedit

/-- An edit of the lines of a text in three parts. The last part may be in any lines. -/
lemma replace?_lines (before middle : Text) (x : Text) (after : List Text) (ending text : Text) :
    replace? ⟨glue (Text.lines (before ++ middle)) (x :: after), ending⟩
        ⟨⟨(Text.lines before).length, size (lastLine before)⟩,
          ⟨(Text.lines (before ++ middle)).length, size (lastLine (before ++ middle))⟩, text⟩
      = some (size middle, ⟨glue (Text.lines before) ((text ++ x) :: after), ending⟩) := by
  have hbefore := lines_eq_append_lastLine before
  have hmiddle := lines_ne_nil middle
  set ls := (Text.lines before).dropLast
  set p := lastLine before
  have hlen : (glue (ls ++ [p]) (Text.lines middle)).length
      = ls.length + (Text.lines middle).length := by
    have := length_glue (List.append_ne_nil_of_right_ne_nil ls (List.cons_ne_nil p [])) hmiddle
    rw [List.length_append, List.length_singleton] at this
    omega
  have hlast : lastLine (before ++ middle) = (glue [p] (Text.lines middle)).getLastD [] := by
    have hne : glue [p] (Text.lines middle) ≠ [] := glue_ne_nil (.inr hmiddle)
    rw [lastLine, lines_append, hbefore, glue_append _ _ (by simp), List.getLastD_eq_getLast?,
      List.getLastD_eq_getLast?, List.getLast?_append_of_ne_nil _ hne]
  have hreplace := replace?_glue ls p hmiddle x after ending text
  rw [joined_lines] at hreplace
  rw [hlast, lines_append, hbefore, glue_assoc _ hmiddle, hlen, List.length_append,
    List.length_singleton, hreplace, glue_append _ _ (by simp), glue_singleton_cons,
    List.append_assoc]

end LineBuffer

end TablePack
