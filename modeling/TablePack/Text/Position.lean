import TablePack.Text

/-!
# Positions

A byte offset read as a line and a column. Lines end at newlines only, so a carriage return is part
of its line.

A line index holds the offsets at which the lines of a text start, in order, and finds the line of
an offset among them by bisection. Every offset has a position, past the end of the text too, where
it continues the last line.
-/

namespace TablePack

/-- A line, counted from 1, and a byte column in it, counted from 0. -/
structure Position where
  line : Nat
  column : Nat
deriving Repr, DecidableEq

/-! ## Line indices -/

/-- The first number from `lo` up to `hi` at which `p` does not hold, or `hi` if there is none. The
part in which it lies is halved, so `p` may not hold again after it. -/
def bisect (p : Nat → Bool) (lo hi : Nat) : Nat :=
  if lo < hi then
    if p (lo + (hi - lo) / 2) then bisect p (lo + (hi - lo) / 2 + 1) hi
    else bisect p lo (lo + (hi - lo) / 2)
  else lo
termination_by hi - lo

theorem bisect_le {p : Nat → Bool} {lo hi : Nat} (h : lo ≤ hi) : bisect p lo hi ≤ hi := by
  fun_induction bisect p lo hi with
  | case1 lo hi hlt _ ih => exact ih (by omega)
  | case2 lo hi hlt _ ih =>
    have hmid := ih (by omega)
    omega
  | case3 lo hi _ => exact h

/-- The offsets at which the lines of a text start, in order. -/
structure LineIndex where
  starts : Array Nat
  /-- The first line starts with the text. -/
  head_eq : starts[0]? = some 0
  increasing : starts.toList.Pairwise (· < ·)

namespace LineIndex

theorem size_starts_pos (i : LineIndex) : 0 < i.starts.size :=
  (Array.getElem?_eq_some_iff.1 i.head_eq).1

/-- The line of an offset: the number of lines that start up to it. -/
def lineAt (i : LineIndex) (offset : Nat) : Nat :=
  bisect (fun k => i.starts[k]?.any (· ≤ offset)) 0 i.starts.size

theorem lineAt_sub_one_lt (i : LineIndex) (offset : Nat) :
    i.lineAt offset - 1 < i.starts.size := by
  have hpos := i.size_starts_pos
  have hle : i.lineAt offset ≤ i.starts.size := bisect_le (Nat.zero_le _)
  omega

/-- The start of the line of an offset. -/
def startAt (i : LineIndex) (offset : Nat) : Nat :=
  have := i.lineAt_sub_one_lt offset
  i.starts[i.lineAt offset - 1]

/-- The position of an offset: its line, and the distance to the start of that line. -/
def position (i : LineIndex) (offset : Nat) : Position :=
  ⟨i.lineAt offset, offset - i.startAt offset⟩

end LineIndex

/-! ## Positions in a text -/

namespace Text

/-- The starts of all lines but the first one, of a text that starts at byte `here`: each newline is
followed by one. -/
def laterStarts (here : Nat) : Text → List Nat
  | [] => []
  | c :: t =>
    if c = '\n' then (here + 1) :: laterStarts (here + 1) t
    else laterStarts (here + c.utf8Size) t

theorem lt_of_mem_laterStarts {here n : Nat} {t : Text} (h : n ∈ laterStarts here t) :
    here < n := by
  induction t generalizing here with
  | nil => cases h
  | cons c t ih =>
    rw [laterStarts] at h
    split at h
    · rcases List.mem_cons.1 h with rfl | h
      · omega
      · have hlt := ih h
        omega
    · have hlt := ih h
      omega

theorem laterStarts_increasing (here : Nat) (t : Text) :
    (laterStarts here t).Pairwise (· < ·) := by
  induction t generalizing here with
  | nil => exact .nil
  | cons c t ih =>
    rw [laterStarts]
    split
    · exact .cons (fun _ h => lt_of_mem_laterStarts h) (ih _)
    · exact ih _

end Text

/-- The index of the lines of a text. -/
def LineIndex.ofText (t : Text) : LineIndex where
  starts := (0 :: Text.laterStarts 0 t).toArray
  head_eq := rfl
  increasing := .cons (fun _ h => Text.lt_of_mem_laterStarts h) (Text.laterStarts_increasing 0 t)

namespace Text

/-- The number of lines: one more than the number of newlines. -/
def lineCount (t : Text) : Nat := (LineIndex.ofText t).starts.size

/-- The position of a byte offset: its line is one more than the number of newlines before it, its
column the distance to the last of them. -/
def position (t : Text) (offset : Nat) : Position := (LineIndex.ofText t).position offset

/-- The offset at which line `n`, counted from 1, starts. There is none for a line that the text
does not have. -/
def lineStart? : Nat → Text → Option Nat
  | 0, _ => none
  | 1, _ => some 0
  | _ + 2, [] => none
  | n + 2, c :: t => (lineStart? (if c = '\n' then n + 1 else n + 2) t).map (c.utf8Size + ·)

/-- The offset of a position. -/
def offset? (t : Text) (p : Position) : Option Nat := (lineStart? p.line t).map (· + p.column)

end Text

end TablePack
