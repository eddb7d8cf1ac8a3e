import Mathlib.Tactic
import TablePack.Buffer

/-!
# Looking up lines

Bisection finds the point up to which a property holds (`bisect_eq`). The starts of the lines are in
order, so the line of an offset is the number of starts up to it (`LineIndex.lineAt_eq`), and from
one offset to the next a line starts or the column grows (`LineIndex.position_succ`).

In a text, a line starts just after each newline byte. So one more byte ends the line or is another
column (`Text.position_succ`), and one more character in front of the text adds a line or moves what
is on the first one (`Text.position_newline_cons`, `Text.position_cons`).
-/

namespace TablePack

/-- Bisection finds `n` if the property holds below `n` and not from there on. -/
lemma bisect_eq {p : ℕ → Bool} {lo hi n : ℕ} (hlo : lo ≤ n) (hhi : n ≤ hi)
    (hp : ∀ k, lo ≤ k → k < hi → (p k ↔ k < n)) : bisect p lo hi = n := by
  fun_induction bisect p lo hi with
  | case1 lo hi hlt hmid ih =>
    have hbelow := (hp _ (by omega) (by omega)).1 hmid
    exact ih (by omega) hhi fun k hk => hp k (by omega)
  | case2 lo hi hlt hmid ih =>
    have habove : ¬ lo + (hi - lo) / 2 < n := fun hn => hmid ((hp _ (by omega) (by omega)).2 hn)
    exact ih hlo (by omega) fun k hk hlt => hp k hk (by omega)
  | case3 lo hi hge => omega

/-- Of increasing numbers, those up to a bound come first. -/
lemma any_le_iff_lt_countP {l : List ℕ} (h : l.Pairwise (· < ·)) (k o : ℕ) :
    l[k]?.any (· ≤ o) ↔ k < l.countP (· ≤ o) := by
  induction l generalizing k with
  | nil => simp
  | cons n l ih =>
    obtain ⟨hhead, htail⟩ := List.pairwise_cons.1 h
    by_cases hn : n ≤ o
    · cases k with
      | zero => simp [hn]
      | succ k => simp [hn, ih htail]
    · have hnone : l.countP (· ≤ o) = 0 := by
        rw [List.countP_eq_zero]
        intro m hm
        have := hhead m hm
        simp only [decide_eq_true_eq]
        omega
      cases k with
      | zero => simp [hn, hnone]
      | succ k => simp [hn, ih htail, hnone]

lemma countP_le_succ {l : List ℕ} (h : l.Nodup) (o : ℕ) :
    l.countP (· ≤ o + 1) = l.countP (· ≤ o) + if o + 1 ∈ l then 1 else 0 := by
  induction l with
  | nil => rfl
  | cons n l ih =>
    obtain ⟨hnot, hl⟩ := List.nodup_cons.1 h
    rw [List.countP_cons, List.countP_cons, ih hl]
    rcases Nat.lt_trichotomy n (o + 1) with hlt | rfl | hgt
    · simp [show n ≤ o + 1 by omega, show n ≤ o by omega, hlt.ne']
      omega
    · simp [hnot]
    · simp [show ¬ n ≤ o + 1 by omega, show ¬ n ≤ o by omega, hgt.ne]

namespace LineIndex

variable (i : LineIndex) (o : ℕ)

lemma any_starts_iff (k : ℕ) :
    i.starts[k]?.any (· ≤ o) ↔ k < i.starts.toList.countP (· ≤ o) := by
  rw [← Array.getElem?_toList]
  exact any_le_iff_lt_countP i.increasing k o

/-- The line of an offset is the number of starts up to it. -/
lemma lineAt_eq : i.lineAt o = i.starts.toList.countP (· ≤ o) := by
  refine bisect_eq (Nat.zero_le _) ?_ fun k _ _ => i.any_starts_iff o k
  rw [← Array.length_toList]
  exact List.countP_le_length

/-- The starts up to an offset are those of the lines up to its line. -/
lemma getElem_le_iff {k : ℕ} (hk : k < i.starts.size) : i.starts[k] ≤ o ↔ k < i.lineAt o := by
  rw [lineAt_eq, ← any_starts_iff, Array.getElem?_eq_getElem hk]
  simp

lemma lineAt_pos : 0 < i.lineAt o := by
  obtain ⟨hpos, hhead⟩ := Array.getElem?_eq_some_iff.1 i.head_eq
  rw [← i.getElem_le_iff o hpos, hhead]
  exact Nat.zero_le o

lemma lineAt_succ : i.lineAt (o + 1) = i.lineAt o + if o + 1 ∈ i.starts then 1 else 0 := by
  have hnodup : i.starts.toList.Nodup := i.increasing.imp fun h => h.ne
  rw [lineAt_eq, lineAt_eq, countP_le_succ hnodup]
  simp only [Array.mem_toList_iff]

lemma startAt_eq {k : ℕ} (hk : k < i.starts.size) (hline : i.lineAt o = k + 1) :
    i.startAt o = i.starts[k] := by
  simp only [startAt, hline, Nat.add_sub_cancel]

lemma startAt_le : i.startAt o ≤ o := by
  have hpos := i.lineAt_pos o
  exact (i.getElem_le_iff o (i.lineAt_sub_one_lt o)).2 (by omega)

lemma getElem_lt_getElem {j k : ℕ} (hk : k < i.starts.size) (h : j < k) :
    i.starts[j] < i.starts[k] :=
  List.pairwise_iff_getElem.1 i.increasing j k (h.trans hk) hk h

/-- A line that starts at an offset is the line of that offset. -/
lemma lineAt_of_getElem {k : ℕ} (hk : k < i.starts.size) (h : i.starts[k] = o) :
    i.lineAt o = k + 1 := by
  have hlt : k < i.lineAt o := (i.getElem_le_iff o hk).1 h.le
  by_contra hne
  -- the line after it would start up to the offset, too
  have hlast := i.lineAt_sub_one_lt o
  have horder := i.getElem_lt_getElem (j := k) hlast (by omega)
  have hle : i.starts[i.lineAt o - 1] ≤ o := i.startAt_le o
  omega

/-- The first offset is the first column of the first line. -/
lemma position_zero : i.position 0 = ⟨1, 0⟩ := by
  obtain ⟨hpos, hhead⟩ := Array.getElem?_eq_some_iff.1 i.head_eq
  simp [position, i.lineAt_of_getElem 0 hpos hhead]

/-- From one offset to the next, a line starts or the column grows. -/
lemma position_succ :
    i.position (o + 1) = if o + 1 ∈ i.starts then ⟨(i.position o).line + 1, 0⟩
      else ⟨(i.position o).line, (i.position o).column + 1⟩ := by
  split_ifs with h
  · obtain ⟨k, hk, hstart⟩ := Array.mem_iff_getElem.1 h
    have hline : i.lineAt (o + 1) = i.lineAt o + 1 := by rw [lineAt_succ, if_pos h]
    have hstartAt : i.startAt (o + 1) = o + 1 := by
      rw [i.startAt_eq _ hk (i.lineAt_of_getElem _ hk hstart), hstart]
    simp only [position, hline, hstartAt, Nat.sub_self]
  · have hline : i.lineAt (o + 1) = i.lineAt o := by rw [lineAt_succ, if_neg h, Nat.add_zero]
    have hstartAt : i.startAt (o + 1) = i.startAt o := by simp only [startAt, hline]
    have hle := i.startAt_le o
    simp only [position, hline, hstartAt, Position.mk.injEq, true_and]
    omega

end LineIndex

namespace Text

/-! ## Bytes -/

/-- The byte of a newline. -/
def newlineByte : UInt8 := 10

/-- A newline byte stands at an offset. -/
def NewlineAt (t : Text) (n : ℕ) : Prop := (bytes t)[n]? = some newlineByte

instance (t : Text) : DecidablePred (NewlineAt t) :=
  fun n => inferInstanceAs (Decidable ((bytes t)[n]? = some newlineByte))

@[simp] lemma bytes_nil : bytes [] = [] := rfl

@[simp] lemma bytes_cons (c : Char) (t : Text) :
    bytes (c :: t) = String.utf8EncodeChar c ++ bytes t := rfl

@[simp] lemma bytes_append (a b : Text) : bytes (a ++ b) = bytes a ++ bytes b :=
  List.flatMap_append

@[simp] lemma length_bytes (t : Text) : (bytes t).length = size t := by
  induction t with
  | nil => rfl
  | cons c t ih => rw [bytes_cons, List.length_append, String.length_utf8EncodeChar, ih, size_cons]

/-- No other character than the newline has its byte. -/
lemma eq_newline_of_mem_utf8EncodeChar {c : Char} (h : newlineByte ∈ String.utf8EncodeChar c) :
    c = '\n' := by
  have hbyte : ∀ n : ℕ, newlineByte = UInt8.ofNat n ↔ n % 256 = 10 := by
    intro n
    rw [newlineByte, ← UInt8.toNat_inj, UInt8.toNat_ofNat]
    exact eq_comm
  simp only [String.utf8EncodeChar] at h
  split_ifs at h with hone
  · rw [List.mem_singleton, hbyte] at h
    have hval : c.val.toNat = '\n'.val.toNat := by
      change c.val.toNat = 10
      omega
    exact Char.ext (UInt32.toNat_inj.1 hval)
  -- the bytes of longer characters are 128 and more
  all_goals
    simp only [List.mem_cons, List.not_mem_nil, or_false, hbyte] at h
    omega

lemma newlineAt_append (a b : Text) (n : ℕ) : NewlineAt (a ++ b) (size a + n) ↔ NewlineAt b n := by
  rw [NewlineAt, NewlineAt, bytes_append, List.getElem?_append_right (by simp), length_bytes,
    Nat.add_sub_cancel_left]

lemma newlineAt_append_of_lt {a : Text} {n : ℕ} (h : n < size a) (b : Text) :
    NewlineAt (a ++ b) n ↔ NewlineAt a n := by
  rw [NewlineAt, NewlineAt, bytes_append, List.getElem?_append_left (by rwa [length_bytes])]

lemma newlineAt_cons_of_lt {c : Char} {n : ℕ} (h : n < c.utf8Size) (t : Text) :
    NewlineAt (c :: t) n ↔ c = '\n' := by
  have hlt : n < (String.utf8EncodeChar c).length := by rwa [String.length_utf8EncodeChar]
  rw [NewlineAt, bytes_cons, List.getElem?_append_left hlt]
  constructor
  · exact fun hget => eq_newline_of_mem_utf8EncodeChar (List.mem_of_getElem? hget)
  · rintro rfl
    obtain rfl : n = 0 := Nat.lt_one_iff.1 h
    rfl

lemma newlineAt_cons_add (c : Char) (t : Text) (n : ℕ) :
    NewlineAt (c :: t) (c.utf8Size + n) ↔ NewlineAt t n :=
  newlineAt_append [c] t n

/-! ## One more byte -/

/-- All lines but the first one start just after a newline. -/
lemma mem_laterStarts (here n : ℕ) (t : Text) :
    here + n + 1 ∈ laterStarts here t ↔ NewlineAt t n := by
  induction t generalizing here n with
  | nil => simp [laterStarts, NewlineAt]
  | cons c t ih =>
    rw [laterStarts]
    split_ifs with hc
    · cases n with
      | zero => exact iff_of_true (by simp) ((newlineAt_cons_of_lt c.utf8Size_pos t).2 hc)
      | succ n =>
        have hcons := newlineAt_cons_add c t n
        rw [hc, show '\n'.utf8Size = 1 from rfl, Nat.add_comm] at hcons
        rw [hc, hcons, ← ih (here + 1) n, List.mem_cons,
          show here + (n + 1) + 1 = here + 1 + n + 1 by omega]
        exact or_iff_right (by omega)
    · rcases Nat.lt_or_ge n c.utf8Size with hlt | hge
      · rw [newlineAt_cons_of_lt hlt]
        refine iff_of_false (fun hmem => ?_) hc
        have := lt_of_mem_laterStarts hmem
        omega
      · obtain ⟨m, rfl⟩ := Nat.exists_eq_add_of_le hge
        rw [newlineAt_cons_add, ← ih (here + c.utf8Size) m, ← Nat.add_assoc here]

lemma mem_starts (t : Text) (n : ℕ) : n + 1 ∈ (LineIndex.ofText t).starts ↔ NewlineAt t n := by
  rw [← mem_laterStarts 0]
  simp [LineIndex.ofText]

/-- What one more byte does to a position: a newline ends the line, and any other byte, or none
past the end of the text, is another column. -/
lemma position_succ (t : Text) (o : ℕ) :
    position t (o + 1) = if NewlineAt t o then ⟨(position t o).line + 1, 0⟩
      else ⟨(position t o).line, (position t o).column + 1⟩ := by
  simp only [position, LineIndex.position_succ, mem_starts]

@[simp] lemma position_zero (t : Text) : position t 0 = ⟨1, 0⟩ := LineIndex.position_zero _

lemma position_add {t : Text} {o j : ℕ} (h : ∀ k < j, ¬ NewlineAt t (o + k)) :
    position t (o + j) = ⟨(position t o).line, (position t o).column + j⟩ := by
  induction j with
  | zero => rfl
  | succ j ih =>
    rw [← Nat.add_assoc, position_succ, if_neg (h j (Nat.lt_succ_self j)),
      ih fun k hk => h k (by omega), Nat.add_assoc]

lemma position_line_pos (t : Text) (o : ℕ) : 0 < (position t o).line := LineIndex.lineAt_pos _ o

/-! ## One more character in front -/

/-- The bytes of the first character lie on the first line. -/
lemma position_cons_of_le {c : Char} {n : ℕ} (hc : c ≠ '\n') (h : n ≤ c.utf8Size) (t : Text) :
    position (c :: t) n = ⟨1, n⟩ := by
  have hnone : ∀ k < n, ¬ NewlineAt (c :: t) (0 + k) := by
    intro k hk
    rwa [Nat.zero_add, newlineAt_cons_of_lt (hk.trans_le h)]
  simpa using position_add hnone

/-- A newline in front of a text makes one more line. -/
lemma position_newline_cons (t : Text) (n : ℕ) :
    position ('\n' :: t) (n + 1) = ⟨(position t n).line + 1, (position t n).column⟩ := by
  have hnewline : ∀ n, NewlineAt ('\n' :: t) (n + 1) ↔ NewlineAt t n := by
    intro n
    rw [Nat.add_comm]
    exact newlineAt_cons_add '\n' t n
  induction n with
  | zero =>
    rw [position_succ, if_pos ((newlineAt_cons_of_lt Nat.one_pos t).2 rfl), position_zero,
      position_zero]
  | succ n ih =>
    simp only [position_succ t n, position_succ _ (n + 1), hnewline, ih]
    split_ifs <;> rfl

/-- Any other character in front of a text moves what is on the first line. -/
lemma position_cons {c : Char} (hc : c ≠ '\n') (t : Text) (n : ℕ) :
    position (c :: t) (c.utf8Size + n)
      = ⟨(position t n).line,
          (if (position t n).line = 1 then c.utf8Size else 0) + (position t n).column⟩ := by
  induction n with
  | zero =>
    rw [Nat.add_zero, position_cons_of_le hc le_rfl, position_zero]
    rfl
  | succ n ih =>
    have hpos := position_line_pos t n
    have hstep := newlineAt_cons_add c t n
    rw [← Nat.add_assoc]
    by_cases hnewline : NewlineAt t n
    · rw [position_succ, if_pos (hstep.2 hnewline), position_succ, if_pos hnewline, ih]
      simp only [Position.mk.injEq, true_and]
      rw [if_neg (by omega)]
    · rw [position_succ, if_neg (mt hstep.1 hnewline), position_succ, if_neg hnewline, ih]
      simp only [Position.mk.injEq, true_and]
      omega

end Text

end TablePack
