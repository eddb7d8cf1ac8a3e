import Mathlib.Tactic
import TablePack.Proofs.Lines

/-!
# Positions by counting

A position is looked up in an index of the lines, and a line buffer cuts the text into lines on its
own. Both are compared here with the bytes of the text.

The line of an offset is one more than the number of newline bytes before it, and its column counts
the bytes after the last of these. Both follow, offset by offset, from what one more byte does
(`position_succ`). The lines of the buffer up to a position are the bytes of the text up to the
offset, which may lie inside a character (`holdUpTo_ofText`).

* `Text.Counted`: a position described by counting newlines;
* `Text.position_exact`: positions are exact, increase with the offset, and lead back to it.
-/

namespace TablePack

namespace Text

/-! ## Counting newlines -/

/-- A position described by counting the newlines before an offset. -/
structure Counted (t : Text) (o : ℕ) (p : Position) : Prop where
  line_eq : p.line = 1 + Nat.count (NewlineAt t) o
  column_eq : (∀ n < o, ¬ NewlineAt t n) ∧ p.column = o ∨
    ∃ n < o, NewlineAt t n ∧ (∀ m, n < m → m < o → ¬ NewlineAt t m) ∧ p.column = o - (n + 1)

lemma counted_position (t : Text) (o : ℕ) : Counted t o (position t o) := by
  induction o with
  | zero => exact ⟨by simp, .inl (by simp)⟩
  | succ o ih =>
    obtain ⟨hline, hcolumn⟩ := ih
    rw [position_succ]
    split_ifs with hnewline
    · refine ⟨?_, .inr ⟨o, by omega, hnewline, by omega, by simp⟩⟩
      rw [Nat.count_succ, if_pos hnewline, hline, Nat.add_assoc]
    · refine ⟨by rw [Nat.count_succ, if_neg hnewline, hline, Nat.add_zero], ?_⟩
      have hbelow : ∀ {n}, n < o + 1 → n ≠ o → n < o := by omega
      rcases hcolumn with ⟨hnone, hcolumn⟩ | ⟨n, hn, hat, hlast, hcolumn⟩
      · refine .inl ⟨fun n hn => ?_, by rw [hcolumn]⟩
        by_cases hne : n = o
        · rwa [hne]
        · exact hnone n (hbelow hn hne)
      · refine .inr ⟨n, by omega, hat, fun m hm hmo => ?_, by simp only [hcolumn]; omega⟩
        by_cases hne : m = o
        · rwa [hne]
        · exact hlast m hm (hbelow hmo hne)

/-- Positions increase with the offset. -/
lemma position_strictMono (t : Text) :
    StrictMono fun o => toLex ((position t o).line, (position t o).column) := by
  refine strictMono_nat_of_lt_succ fun o => Prod.Lex.toLex_lt_toLex.2 ?_
  rw [position_succ]
  split_ifs with hnewline
  · exact .inl (Nat.lt_succ_self _)
  · exact .inr ⟨rfl, Nat.lt_succ_self _⟩

/-! ## Lines up to a position -/

/-- The bytes of lines, each with a newline. -/
def terminated (ls : List Text) : List UInt8 := ls.flatMap fun l => bytes l ++ [newlineByte]

lemma bytes_joined_concat (ls : List Text) (l : Text) :
    bytes (joined (ls ++ [l])) = terminated ls ++ bytes l := by
  induction ls with
  | nil => simp [terminated]
  | cons k ls ih =>
    rw [List.cons_append, joined_cons _ (by simp), bytes_append, bytes_cons, ih, terminated,
      terminated, List.flatMap_cons, List.append_assoc, List.append_assoc]
    rfl

lemma bytes_eq_terminated (t : Text) :
    bytes t = terminated (lines t).dropLast ++ bytes (lastLine t) := by
  rw [← bytes_joined_concat, ← lines_eq_append_lastLine, joined_lines]

lemma take_lines_append (a b : Text) :
    (lines (a ++ b)).take ((lines a).length - 1) = (lines a).dropLast := by
  rw [← List.length_dropLast, lines_append]
  conv_lhs => rw [lines_eq_append_lastLine a]
  rw [glue_append _ _ (by simp), List.dropLast_concat, List.take_left]

/-- The first `j` bytes of a text are none, or they lie in one character that is no newline. -/
def Begins (t : Text) (j : ℕ) : Prop := j = 0 ∨ ∃ c u, t = c :: u ∧ c ≠ '\n' ∧ j < c.utf8Size

lemma Begins.not_newlineAt {t : Text} {j : ℕ} (h : Begins t j) : ∀ k < j, ¬ NewlineAt t k := by
  intro k hk
  rcases h with rfl | ⟨c, u, rfl, hc, hj⟩
  · omega
  · rwa [newlineAt_cons_of_lt (hk.trans hj)]

/-- Bytes that lie in one character lie in the first line. -/
lemma Begins.firstLine {t : Text} {j : ℕ} (h : Begins t j) :
    j ≤ size ((lines t).headD []) ∧ (bytes ((lines t).headD [])).take j = (bytes t).take j := by
  rcases h with rfl | ⟨c, u, rfl, hc, hj⟩
  · simp
  · obtain ⟨l, ls, hl⟩ := List.exists_cons_of_ne_nil (lines_ne_nil u)
    have hlength : j ≤ (String.utf8EncodeChar c).length := by
      rw [String.length_utf8EncodeChar]
      exact hj.le
    rw [lines_cons, if_neg hc, hl, List.modifyHead_cons, List.headD_cons]
    refine ⟨by rw [size_cons]; omega, ?_⟩
    rw [bytes_cons, bytes_cons, List.take_append_of_le_length hlength,
      List.take_append_of_le_length hlength]

/-- An offset divides the text, or it lies in a character after a division. -/
lemma exists_division {t : Text} {o : ℕ} (h : o ≤ size t) :
    ∃ a b j, t = a ++ b ∧ o = size a + j ∧ Begins b j := by
  induction t generalizing o with
  | nil => exact ⟨[], [], 0, rfl, by simpa using h, .inl rfl⟩
  | cons c t ih =>
    rcases Nat.lt_or_ge o c.utf8Size with hlt | hge
    · by_cases hc : c = '\n'
      · have hone : '\n'.utf8Size = 1 := rfl
        rw [hc, hone] at hlt
        exact ⟨[], c :: t, 0, rfl, by simpa using hlt, .inl rfl⟩
      · exact ⟨[], c :: t, o, rfl, by simp, .inr ⟨c, t, rfl, hc, hlt⟩⟩
    · rw [size_cons] at h
      obtain ⟨a, b, j, rfl, hj, hbegins⟩ := ih (o := o - c.utf8Size) (by omega)
      refine ⟨c :: a, b, j, rfl, ?_, hbegins⟩
      rw [size_cons]
      omega

/-- Lines hold the given bytes up to a position: these are the lines before that of the position,
each with a newline, and the first bytes of that line, which has as many. -/
def HoldUpTo (ls : List Text) (p : Position) (front : List UInt8) : Prop :=
  ∃ l, ls[p.line - 1]? = some l ∧ p.column ≤ size l ∧
    terminated (ls.take (p.line - 1)) ++ (bytes l).take p.column = front

/-- The lines of a text up to the position of an offset are its bytes up to there. -/
lemma holdUpTo_lines {t : Text} {o : ℕ} (h : o ≤ size t) :
    HoldUpTo (lines t) (position t o) ((bytes t).take o) := by
  obtain ⟨a, b, j, rfl, rfl, hbegins⟩ := exists_division h
  have hposition : position (a ++ b) (size a + j)
      = ⟨(lines a).length, size (lastLine a) + j⟩ := by
    rw [position_add, position_append]
    intro k hk
    rw [newlineAt_append]
    exact hbegins.not_newlineAt k hk
  obtain ⟨hle, htake⟩ := hbegins.firstLine
  rw [hposition]
  refine ⟨_, getElem?_lines_append a b, ?_, ?_⟩
  · rw [size_append]
    exact Nat.add_le_add_left hle _
  · rw [take_lines_append, bytes_append, bytes_append, ← length_bytes, ← length_bytes,
      List.take_length_add_append, List.take_length_add_append, htake, ← List.append_assoc,
      ← bytes_eq_terminated]

/-- A line buffer leaves out the newline that ends the text, and so holds the bytes up to any offset
before it. -/
lemma holdUpTo_ofText {t : Text} {o : ℕ} (h : o ≤ size t)
    (hend : t.getLast? = some '\n' → o < size t) :
    HoldUpTo (LineBuffer.ofText t).lines (position t o) ((bytes t).take o) := by
  rw [LineBuffer.ofText]
  split_ifs with hlast
  · obtain ⟨body, rfl⟩ := List.getLast?_eq_some_iff.1 hlast
    have hbody : o ≤ size body := by
      have hlt := hend hlast
      rw [size_append, size_cons, size_nil, show '\n'.utf8Size = 1 from rfl] at hlt
      omega
    have hposition : position (body ++ ['\n']) o = position body o := by
      simpa using position_append_of_le hbody ['\n'] []
    rw [List.dropLast_concat, hposition, bytes_append,
      List.take_append_of_le_length (by rwa [length_bytes])]
    exact holdUpTo_lines hbody
  · exact holdUpTo_lines h

/-! ## Positions are exact -/

/-- The position of every offset, also of one past the end of the text, is found by counting
newlines. Positions increase with the offset, in the order by line and then by column. A position
leads back to its offset through the lines of a buffer, except from the end of a text whose last
newline starts no line there. -/
theorem position_exact (t : Text) :
    (∀ o, Counted t o (position t o)) ∧
      (StrictMono fun o => toLex ((position t o).line, (position t o).column)) ∧
      ∀ o ≤ size t, (t.getLast? = some '\n' → o < size t) →
        HoldUpTo (LineBuffer.ofText t).lines (position t o) ((bytes t).take o) :=
  ⟨counted_position t, position_strictMono t, fun _ => holdUpTo_ofText⟩

/-- An offset inside a character of the second line. -/
theorem position_exact_inside :
    5 ≤ size "é\r\nü\n".toList ∧ 5 < size "é\r\nü\n".toList ∧
      position "é\r\nü\n".toList 5 = ⟨2, 1⟩ ∧
      HoldUpTo (LineBuffer.ofText "é\r\nü\n".toList).lines ⟨2, 1⟩ [195, 169, 13, 10, 195] := by
  have hlt : 5 < size "é\r\nü\n".toList := by decide
  have hposition : position "é\r\nü\n".toList 5 = ⟨2, 1⟩ := by decide +kernel
  have hbytes : (bytes "é\r\nü\n".toList).take 5 = [195, 169, 13, 10, 195] := by decide
  have hholds := (position_exact "é\r\nü\n".toList).2.2 5 hlt.le fun _ => hlt
  rw [hposition, hbytes] at hholds
  exact ⟨hlt.le, hlt, hposition, hholds⟩

end Text

end TablePack
