import Mathlib.Tactic
import TablePack.Buffer.Quoting
import TablePack.Proofs.Buffer.Reads
import TablePack.Proofs.Quoted

/-!
# Quoted text in a buffer

Read byte by byte, a literal ends where it does when it is read by characters (`close_ofText`): the
bytes of a character after its first one change no frame (`close_skip`), so it does not matter that
a backslash passes over one byte only. No depth falls below zero, since a depth of the bytes is one
more than that of the characters.
-/

namespace TablePack

open Text (Stands lead trail)

namespace Buffer

/-- The frame of the bytes for a frame of the characters. -/
def Frame.ofFrame : Quoting.Frame → Frame
  | .literal start opener closer interpolates depth =>
    .literal start (lead opener) (lead closer) interpolates (depth + 1)
  | .code start depth => .code start (depth + 1)
  | .regexp start inClass => .regexp start inClass

/-- What a byte does to a frame, for what its character does. -/
def Turn.ofReading (f : Quoting.Frame) : Quoting.Reading → Turn × ℕ
  | .escape => (.stay (.ofFrame f), 1)
  | .stay frame => (.stay (.ofFrame frame), 0)
  | .enter frame => (.enter (.ofFrame frame), 0)
  | .interpolate frame => (.enter (.ofFrame frame), 1)
  | .leave => (.leave, 0)

section

variable {source t : Text} {here : ℕ} {c : Char}

lemma closing_lead (opener : Char) : closing (lead opener) = lead (Quoting.closing opener) := by
  simp (disch := decide) only [closing, Text.lead_beq_ascii, beq_iff_eq]
  split_ifs with h₁ h₂ h₃ h₄
  · subst h₁; rfl
  · subst h₂; rfl
  · subst h₃; rfl
  · subst h₄; rfl
  · unfold Quoting.closing
    split <;> simp_all

lemma fail_ofFrame {α : Type} (f : Quoting.Frame) :
    ((Frame.ofFrame f).fail (ofText source) : Checked α)
      = .error (Stop.ofFault source f.fault) := by
  have hproblem : f.fault.problem ≠ .splitCharacter := by
    cases f <;> exact Problem.noConfusion
  rw [← fail_eq_ofFault hproblem]
  cases f <;> rfl

/-- A brace after a number sign. -/
lemma brace_beq (h : Stands source here ('#' :: t)) :
    ((ofText source).get? (here + 1) == some (ascii '{')) = (t.head? == some '{') := by
  have hnext : Stands source (here + 1) t := h.cons
  rw [get?_ofText hnext, Text.map_lead_beq (by decide)]

lemma minus_succ (depth : ℕ) : Checked.minus (depth + 1) 1 = .ok depth := by
  simp [Checked.minus]

lemma read_literal (h : Stands source here (c :: t)) (start : ℕ) (opener closer : Char)
    (interpolates : Bool) (depth : ℕ) :
    (Frame.ofFrame (.literal start opener closer interpolates depth)).read (ofText source) here
        (lead c)
      = .ok (Turn.ofReading (.literal start opener closer interpolates depth)
          ((Quoting.Frame.literal start opener closer interpolates depth).read here c
            t.head?)) := by
  simp only [Frame.ofFrame, Frame.read, Quoting.Frame.read, Text.lead_beq_lead, minus_succ]
  simp (disch := decide) only [Text.lead_beq_ascii, beq_iff_eq]
  by_cases hescape : c = '\\'
  · rw [if_pos hescape, if_pos hescape]
    rfl
  rw [if_neg hescape, if_neg hescape]
  by_cases hclose : Quoting.delimits closer c
  · rw [if_pos hclose, if_pos hclose]
    cases depth <;> rfl
  rw [if_neg hclose, if_neg hclose]
  by_cases hopen : Quoting.delimits opener c
  · rw [if_pos hopen, if_pos hopen]
    rfl
  rw [if_neg hopen, if_neg hopen]
  by_cases hsign : c = '#'
  · subst hsign
    rw [brace_beq h]
    cases interpolates <;> by_cases hbrace : t.head? = some '{' <;>
      simp [hbrace, Turn.ofReading, Frame.ofFrame]
  · simp [hsign, Turn.ofReading, Frame.ofFrame]

lemma read_code (start depth : ℕ) :
    (Frame.ofFrame (.code start depth)).read (ofText source) here (lead c)
      = .ok (Turn.ofReading (.code start depth)
          ((Quoting.Frame.code start depth).read here c t.head?)) := by
  simp only [Frame.ofFrame, Frame.read, Quoting.Frame.read, minus_succ]
  simp (disch := decide) only [Text.lead_beq_ascii, beq_iff_eq, Bool.or_eq_true, decide_eq_true_eq]
  by_cases hopen : c = '{'
  · rw [if_pos hopen, if_pos hopen]
    rfl
  rw [if_neg hopen, if_neg hopen]
  by_cases hclose : c = '}'
  · rw [if_pos hclose, if_pos hclose]
    cases depth <;> rfl
  rw [if_neg hclose, if_neg hclose]
  split_ifs <;> rfl

lemma read_regexp (h : Stands source here (c :: t)) (start : ℕ) (inClass : Bool) :
    (Frame.ofFrame (.regexp start inClass)).read (ofText source) here (lead c)
      = .ok (Turn.ofReading (.regexp start inClass)
          ((Quoting.Frame.regexp start inClass).read here c t.head?)) := by
  simp only [Frame.ofFrame, Frame.read, Quoting.Frame.read]
  simp (disch := decide) only [Text.lead_beq_ascii]
  by_cases hsign : c = '#'
  · subst hsign
    rw [brace_beq h]
    by_cases hbrace : t.head? = some '{' <;> simp [hbrace, Turn.ofReading, Frame.ofFrame]
  · simp only [beq_iff_eq, hsign, Bool.and_eq_true, decide_eq_true_eq]
    split_ifs <;> simp_all [Turn.ofReading, Frame.ofFrame]

lemma read_ofFrame (h : Stands source here (c :: t)) (f : Quoting.Frame) :
    (Frame.ofFrame f).read (ofText source) here (lead c)
      = .ok (Turn.ofReading f (f.read here c t.head?)) := by
  cases f with
  | literal start opener closer interpolates depth =>
    exact read_literal h start opener closer interpolates depth
  | code start depth => exact read_code start depth
  | regexp start inClass => exact read_regexp h start inClass

/-! ## Bytes inside a character -/

lemma ne_of_isContinuation {b : UInt8} (hb : Byte.isContinuation b) (c : Char) :
    (b == lead c) = false := by
  rw [beq_eq_false_iff_ne]
  rintro rfl
  rw [Text.not_isContinuation_lead] at hb
  cases hb

/-- A byte inside a character leaves a frame as it is. -/
lemma read_of_isContinuation {src : Buffer} {pos : ℕ} {b : UInt8} (hb : Byte.isContinuation b)
    (f : Quoting.Frame) : (Frame.ofFrame f).read src pos b = .ok (.stay (.ofFrame f), 0) := by
  have hascii {d : Char} (hd : d.toNat < 0x80) : (b == ascii d) = false := by
    rw [← Text.lead_of_narrow (c := d) (by rw [Text.isWide_iff]; omega)]
    exact ne_of_isContinuation hb d
  cases f <;>
    simp (disch := decide) [Frame.ofFrame, Frame.read, hascii, ne_of_isContinuation hb]

/-- How reading goes on after a turn. -/
def resume (src : Buffer) (top : Frame) (below : List Frame) (pos : ℕ) : Turn → Checked ℕ
  | .stay frame => src.close frame below pos
  | .enter frame => src.close frame (top :: below) pos
  | .leave =>
    match below with
    | [] => .ok pos
    | frame :: outer => src.close frame outer pos

lemma close_eq {src : Buffer} {pos : ℕ} {b : UInt8} {bs : List UInt8} {top : Frame}
    {next : Turn × ℕ} (h : src.Reads pos (b :: bs)) (hread : top.read src pos b = .ok next)
    (below : List Frame) :
    src.close top below pos = src.resume top below (pos + next.2 + 1) next.1 := by
  have hsize := h.size_eq
  rw [close, if_pos (by simp [hsize]), h.byte]
  change (top.read src pos b >>= _) = _
  rw [hread]
  obtain ⟨turn, more⟩ := next
  cases turn with
  | stay frame => rfl
  | enter frame => rfl
  | leave => cases below <;> rfl

lemma close_skip {src : Buffer} {pos : ℕ} {as bs : List UInt8} (h : src.Reads pos (as ++ bs))
    (has : ∀ b ∈ as, Byte.isContinuation b) (f : Quoting.Frame) (below : List Frame) :
    src.close (.ofFrame f) below pos = src.close (.ofFrame f) below (pos + as.length) := by
  induction as generalizing pos with
  | nil => rfl
  | cons b as ih =>
    obtain ⟨hb, has⟩ := List.forall_mem_cons.1 has
    rw [close_eq h (read_of_isContinuation hb f)]
    change src.close (.ofFrame f) below (pos + 1) = _
    rw [ih h.cons has, List.length_cons, Nat.add_right_comm, Nat.add_assoc]

/-! ## Whole literals -/

lemma close_of_le {src : Buffer} {pos : ℕ} (h : src.size ≤ pos) (top : Frame)
    (below : List Frame) : src.close top below pos = top.fail src := by
  rw [close, if_neg (not_lt.2 h)]

/-- After the first byte of a character, reading goes on after the character. -/
lemma close_lead (h : Stands source here (c :: t)) (f : Quoting.Frame) (below : List Frame) :
    (ofText source).close (.ofFrame f) below (here + 1)
      = (ofText source).close (.ofFrame f) below (here + c.utf8Size) := by
  have hreads := reads_ofText h
  rw [Text.bytes_cons_eq] at hreads
  have hpos := c.utf8Size_pos
  rw [close_skip hreads.cons (fun b => Text.isContinuation_of_mem_trail) f, Text.length_trail,
    Nat.add_assoc, Nat.add_sub_cancel' hpos]

/-- The end of the literal that is reached, where `n` characters were read before. -/
def endOf (here : ℕ) (t : Text) (n m : ℕ) : ℕ := here + Text.size (t.take (m - n - 1)) + 1

lemma endOf_cons {n m : ℕ} (h : n + 1 < m) :
    endOf here (c :: t) n m = endOf (here + c.utf8Size) t (n + 1) m := by
  obtain ⟨k, rfl⟩ : ∃ k, m = n + 2 + k := ⟨m - (n + 2), by omega⟩
  have htake : n + 2 + k - n - 1 = (n + 2 + k - (n + 1) - 1) + 1 := by omega
  rw [endOf, endOf, htake, List.take_succ_cons, Text.size_cons]
  omega

lemma ofResult_congr {source : Text} {α β : Type} {f g : α → β} {r : Except Fault α}
    (h : ∀ a, r = .ok a → f a = g a) :
    Checked.ofResult source f r = Checked.ofResult source g r := by
  cases r with
  | error fault => rfl
  | ok a => exact congrArg Except.ok (h a rfl)

lemma eq_of_read_escape {f : Quoting.Frame} {next : Option Char}
    (h : f.read here c next = .escape) : c = '\\' := by
  cases f <;> simp only [Quoting.Frame.read] at h <;> split_ifs at h <;> assumption

lemma eq_of_read_interpolate {f frame : Quoting.Frame} {next : Option Char}
    (h : f.read here c next = .interpolate frame) : c = '#' ∧ next = some '{' := by
  cases f <;> simp only [Quoting.Frame.read] at h <;> split_ifs at h <;> simp_all

/-- The first byte of a character does what the character does. -/
lemma close_cons (h : Stands source here (c :: t)) (f : Quoting.Frame) (below : List Frame) :
    (ofText source).close (.ofFrame f) below here
      = (ofText source).resume (.ofFrame f) below
          (here + (Turn.ofReading f (f.read here c t.head?)).2 + 1)
          (Turn.ofReading f (f.read here c t.head?)).1 := by
  have hreads := reads_ofText h
  rw [Text.bytes_cons_eq] at hreads
  exact close_eq hreads (read_ofFrame h f) below

/-- A literal ends at the same byte, or with the same fault, whether it is read by bytes or by
characters. -/
lemma close_ofText (top : Quoting.Frame) (below : List Quoting.Frame) {here n : ℕ} {t : Text}
    (h : Stands source here t) :
    (ofText source).close (.ofFrame top) (below.map .ofFrame) here
      = .ofResult source (endOf here t n) (Quoting.close top below here n t) := by
  fun_induction Quoting.close top below here n t with
  | case1 top below here n =>
    have hsize : (ofText source).size = here := (reads_ofText h).size_eq
    rw [close_of_le hsize.le, fail_ofFrame]
    rfl
  | case2 top below here n c t frame hread ih =>
    rw [close_cons h, hread]
    change (ofText source).close (.ofFrame frame) (below.map .ofFrame) (here + 1) = _
    rw [close_lead h, ih h.cons]
    exact ofResult_congr fun m hm => (endOf_cons (Quoting.lt_of_close hm)).symm
  | case3 top below here n c t frame hread ih =>
    rw [close_cons h, hread]
    change (ofText source).close (.ofFrame frame) ((top :: below).map .ofFrame) (here + 1) = _
    rw [close_lead h, ih h.cons]
    exact ofResult_congr fun m hm => (endOf_cons (Quoting.lt_of_close hm)).symm
  | case4 top here n c t hread =>
    rw [close_cons h, hread]
    change Except.ok (here + 1) = Except.ok (endOf here (c :: t) n (n + 1))
    rw [endOf, Nat.add_sub_cancel_left]
    rfl
  | case5 top here n c t hread frame outer ih =>
    rw [close_cons h, hread]
    change (ofText source).close (.ofFrame frame) (outer.map .ofFrame) (here + 1) = _
    rw [close_lead h, ih h.cons]
    exact ofResult_congr fun m hm => (endOf_cons (Quoting.lt_of_close hm)).symm
  | case6 top below here n c hread =>
    -- the backslash is the last byte, and the position behind the next one lies outside
    obtain rfl := eq_of_read_escape hread
    have hsize := (reads_ofText h).size_eq
    rw [close_cons h, hread]
    change (ofText source).close (.ofFrame top) (below.map .ofFrame) (here + 1 + 1) = _
    rw [close_of_le (by rw [hsize]; exact Nat.le_succ _), fail_ofFrame]
    rfl
  | case7 top below here n c d u hread ih =>
    obtain rfl := eq_of_read_escape hread
    have hnext : Stands source (here + 1) (d :: u) := h.cons
    rw [close_cons h, hread]
    refine (close_lead hnext top _).trans ((ih h.cons.cons).trans (ofResult_congr fun m hm => ?_))
    have hlt := Quoting.lt_of_close hm
    rw [endOf_cons (by omega), endOf_cons (by omega)]
  | case8 top below here n c frame hread => cases (eq_of_read_interpolate hread).2
  | case9 top below here n c frame d u hread ih =>
    obtain ⟨rfl, hd⟩ := eq_of_read_interpolate hread
    have hnext : Stands source (here + 1) (d :: u) := h.cons
    rw [close_cons h, hread]
    refine (close_lead hnext frame _).trans ((ih h.cons.cons).trans (ofResult_congr fun m hm => ?_))
    have hlt := Quoting.lt_of_close hm
    rw [endOf_cons (by omega), endOf_cons (by omega)]

/-- The end of a literal. -/
lemma literal_ofText {opener : Char} (h : Stands source here (opener :: t)) (interpolates : Bool) :
    (ofText source).literal here (lead opener) (closing (lead opener)) interpolates
      = .ofResult source (fun n => endOf (here + opener.utf8Size) t 0 n)
          (Quoting.literal here opener interpolates t) := by
  rw [literal, closing_lead]
  change (ofText source).close
    (.ofFrame (.literal here opener (Quoting.closing opener) interpolates 0)) [] (here + 1) = _
  rw [close_lead h]
  exact close_ofText _ [] h.cons

lemma regexp_ofText (h : Stands source here ('/' :: t)) :
    (ofText source).regexp here
      = .ofResult source (fun n => endOf (here + 1) t 0 n) (Quoting.regexp here t) :=
  close_ofText (.regexp here false) [] h.cons

end

end Buffer

end TablePack
