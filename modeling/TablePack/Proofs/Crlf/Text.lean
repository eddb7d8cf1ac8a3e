import Mathlib.Tactic
import TablePack.Error
import TablePack.Proofs.Layout
import TablePack.Proofs.Lines

/-!
# Carriage returns before newlines

`Text.crlf` puts a carriage return before each newline of a text, and `Text.crlfOffset` says where a
byte offset goes by this. Offsets keep their order, and since a carriage return stands at the end of
its line, they keep their positions.

* `Text.position_crlf`: lines and columns stay as they are;
* `Text.slice_crlf`: so does the text between two offsets, apart from its newlines;
* `Text.Reads`: a number of characters of a text, and how many they are with carriage returns.
-/

namespace TablePack

namespace Text

/-- The text with a carriage return before each newline. -/
def crlf (t : Text) : Text := t.flatMap fun c => if c = '\n' then ['\r', '\n'] else [c]

@[simp] lemma crlf_nil : crlf [] = [] := rfl

@[simp] lemma crlf_newline (t : Text) : crlf ('\n' :: t) = '\r' :: '\n' :: crlf t := rfl

lemma crlf_cons {c : Char} (hc : c ≠ '\n') (t : Text) : crlf (c :: t) = c :: crlf t := by
  simp [crlf, hc]

@[simp] lemma crlf_append (a b : Text) : crlf (a ++ b) = crlf a ++ crlf b := List.flatMap_append

lemma crlf_of_not_mem {t : Text} (h : '\n' ∉ t) : crlf t = t := by
  induction t with
  | nil => rfl
  | cons c t ih =>
    rw [List.mem_cons, not_or] at h
    rw [crlf_cons (Ne.symm h.1), ih h.2]

lemma newline_mem_crlf {t : Text} : '\n' ∈ crlf t ↔ '\n' ∈ t := by
  constructor
  · intro h
    by_contra hnot
    rw [crlf_of_not_mem hnot] at h
    exact hnot h
  · intro h
    exact List.mem_flatMap.2 ⟨'\n', h, by simp⟩

/-- A text without newlines is the `crlf` of no other text. -/
lemma crlf_eq_iff {t w : Text} (hw : '\n' ∉ w) : crlf t = w ↔ t = w := by
  constructor
  · intro h
    rw [← h, newline_mem_crlf] at hw
    rw [← h, crlf_of_not_mem hw]
  · rintro rfl
    exact crlf_of_not_mem hw

lemma size_crlf (t : Text) : size (crlf t) = size t + t.count '\n' := by
  induction t with
  | nil => rfl
  | cons c t ih =>
    by_cases hc : c = '\n'
    · subst hc
      have hreturn : '\r'.utf8Size = 1 := rfl
      rw [crlf_newline, size_cons, size_cons, size_cons, ih, List.count_cons_self, hreturn]
      omega
    · rw [crlf_cons hc, size_cons, size_cons, ih, List.count_cons_of_ne hc]
      omega

lemma getLast?_crlf (t : Text) : (crlf t).getLast? = t.getLast? := by
  rcases List.eq_nil_or_concat' t with rfl | ⟨init, c, rfl⟩
  · rfl
  · rw [crlf_append, List.getLast?_append, List.getLast?_concat]
    by_cases hc : c = '\n'
    · subst hc
      rfl
    · rw [crlf_cons hc]
      rfl

/-- The first line stays as it is, apart from a carriage return that becomes its last character. -/
lemma exists_line (t : Text) :
    ∃ l, '\n' ∉ l ∧ (t = l ∧ crlf t = l ∨
      ∃ u, t = l ++ '\n' :: u ∧ crlf t = l ++ '\r' :: '\n' :: crlf u) := by
  obtain ⟨hl, ⟨ht, -⟩ | ht⟩ := line_cases t
  · exact ⟨t, ht ▸ hl, .inl ⟨rfl, crlf_of_not_mem (ht ▸ hl)⟩⟩
  · refine ⟨line t, hl, .inr ⟨afterLine t, ht, ?_⟩⟩
    conv_lhs => rw [ht, crlf_append, crlf_newline, crlf_of_not_mem hl]

/-! ## Characters that are read -/

/-- The first `n` characters of a text are the first `n'` characters with carriage returns, and
the same goes for what is left. -/
structure Reads (t : Text) (n n' : ℕ) : Prop where
  take_eq : (crlf t).take n' = crlf (t.take n)
  drop_eq : (crlf t).drop n' = crlf (t.drop n)

namespace Reads

variable {t : Text} {n n' m m' : ℕ}

lemma zero (t : Text) : Reads t 0 0 := ⟨by simp, by simp⟩

lemma cons {c : Char} (hc : c ≠ '\n') (h : Reads t n n') : Reads (c :: t) (n + 1) (n' + 1) := by
  refine ⟨?_, ?_⟩
  · rw [crlf_cons hc, List.take_succ_cons, List.take_succ_cons, crlf_cons hc, h.take_eq]
  · rw [crlf_cons hc, List.drop_succ_cons, List.drop_succ_cons, h.drop_eq]

lemma newline (h : Reads t n n') : Reads ('\n' :: t) (n + 1) (n' + 2) := by
  refine ⟨?_, ?_⟩
  · rw [crlf_newline, List.take_succ_cons, List.take_succ_cons, List.take_succ_cons, crlf_newline,
      h.take_eq]
  · rw [crlf_newline, List.drop_succ_cons, List.drop_succ_cons, List.drop_succ_cons, h.drop_eq]

lemma add (h : Reads t n n') (hrest : Reads (t.drop n) m m') : Reads t (n + m) (n' + m') := by
  refine ⟨?_, ?_⟩
  · rw [List.take_add, List.take_add, crlf_append, h.take_eq, h.drop_eq, hrest.take_eq]
  · rw [← List.drop_drop, ← List.drop_drop, h.drop_eq, hrest.drop_eq]

/-- The whole text is read, whatever is counted beyond it. -/
lemma all (h : t.length ≤ n) (h' : (crlf t).length ≤ n') : Reads t n n' := by
  refine ⟨?_, ?_⟩
  · rw [List.take_of_length_le h', List.take_of_length_le h]
  · rw [List.drop_of_length_le h', List.drop_of_length_le h, crlf_nil]

/-- What has no newline is read alike. -/
lemma of_not_mem (h : '\n' ∉ t.take n) : Reads t n n := by
  induction t generalizing n with
  | nil => exact ⟨by simp, by simp⟩
  | cons c t ih =>
    cases n with
    | zero => exact .zero _
    | succ n =>
      rw [List.take_succ_cons, List.mem_cons, not_or] at h
      exact .cons (Ne.symm h.1) (ih h.2)

end Reads

/-! ## Offsets -/

/-- Where a byte offset of a text goes when carriage returns are put before its newlines. -/
def crlfOffset (t : Text) (n : ℕ) : ℕ := n + (takeBytes n t).count '\n'

lemma crlfOffset_size (a b : Text) : crlfOffset (a ++ b) (size a) = size (crlf a) := by
  rw [crlfOffset, takeBytes_size_append, size_crlf]

@[simp] lemma crlfOffset_zero (t : Text) : crlfOffset t 0 = 0 := by simp [crlfOffset]

lemma crlfOffset_newline_cons (t : Text) (n : ℕ) :
    crlfOffset ('\n' :: t) (n + 1) = crlfOffset t n + 1 + 1 := by
  rw [crlfOffset, crlfOffset, takeBytes_cons (by omega), List.count_cons_self,
    show '\n'.utf8Size = 1 from rfl, Nat.add_sub_cancel]
  omega

lemma crlfOffset_cons_add {c : Char} (hc : c ≠ '\n') (t : Text) (n : ℕ) :
    crlfOffset (c :: t) (c.utf8Size + n) = c.utf8Size + crlfOffset t n := by
  have hpos := c.utf8Size_pos
  rw [crlfOffset, crlfOffset, takeBytes_cons (by omega), List.count_cons_of_ne hc,
    Nat.add_sub_cancel_left, Nat.add_assoc]

lemma takeBytes_mono (t : Text) {n m : ℕ} (h : n ≤ m) : takeBytes n t <+: takeBytes m t := by
  induction t generalizing n m with
  | nil => cases n <;> cases m <;> simp [takeBytes]
  | cons c t ih =>
    rcases Nat.eq_zero_or_pos n with rfl | hn
    · simp
    · rw [takeBytes_cons hn, takeBytes_cons (hn.trans_le h), List.cons_prefix_cons]
      exact ⟨rfl, ih (Nat.sub_le_sub_right h _)⟩

lemma strictMono_crlfOffset (t : Text) : StrictMono (crlfOffset t) := by
  intro n m h
  have hcount := (takeBytes_mono t h.le).sublist.count_le '\n'
  rw [crlfOffset, crlfOffset]
  omega

section Stands

variable {source t u : Text} {here : ℕ}

lemma Stands.crlfOffset_add (h : Stands source here (u ++ t)) :
    crlfOffset source (here + size u) = crlfOffset source here + size (crlf u) := by
  obtain ⟨before, rfl, rfl⟩ := h
  rw [crlfOffset_size, ← size_append, ← List.append_assoc, crlfOffset_size, crlf_append,
    size_append]

lemma Stands.crlfOffset_cons {c : Char} (hc : c ≠ '\n') (h : Stands source here (c :: t)) :
    crlfOffset source (here + c.utf8Size) = crlfOffset source here + c.utf8Size := by
  have := h.crlfOffset_add (u := [c])
  rwa [crlf_cons hc] at this

lemma Stands.crlfOffset_newline (h : Stands source here ('\n' :: t)) :
    crlfOffset source (here + 1) = crlfOffset source here + 2 :=
  h.crlfOffset_add (u := ['\n'])

/-- On a line, an offset moves as far as the line does. -/
lemma Stands.crlfOffset_of_le {k : ℕ} (h : Stands source here (u ++ t)) (hu : '\n' ∉ u)
    (hk : k ≤ size u) : crlfOffset source (here + k) = crlfOffset source here + k := by
  have hadd := h.crlfOffset_add
  rw [crlf_of_not_mem hu] at hadd
  -- both sides grow by at least one with each byte, and agree at the end of `u`
  have hgrow : ∀ n m, crlfOffset source n + m ≤ crlfOffset source (n + m) := by
    intro n m
    induction m with
    | zero => exact le_rfl
    | succ m ih =>
      have : crlfOffset source (n + m) < crlfOffset source (n + m + 1) :=
        strictMono_crlfOffset source (Nat.lt_succ_self _)
      rw [← Nat.add_assoc n m 1]
      omega
  have hlow := hgrow here k
  have hhigh := hgrow (here + k) (size u - k)
  rw [Nat.add_assoc, Nat.add_sub_cancel' hk, hadd] at hhigh
  omega

end Stands

/-! ## Positions -/

/-- Lines and columns stay as they are. -/
lemma position_crlf (t : Text) (n : ℕ) : position (crlf t) (crlfOffset t n) = position t n := by
  induction t generalizing n with
  | nil =>
    have hoffset : crlfOffset [] n = n := by cases n <;> simp [crlfOffset, takeBytes]
    rw [hoffset, crlf_nil]
  | cons c t ih =>
    by_cases hc : c = '\n'
    · subst hc
      cases n with
      | zero => rw [crlfOffset_zero, position_zero, position_zero]
      | succ n =>
        have hpos := position_line_pos t n
        have hreturn : '\r'.utf8Size = 1 := rfl
        have hcons := @position_cons '\r' (by decide) ('\n' :: crlf t) (crlfOffset t n + 1)
        rw [hreturn, position_newline_cons, ih, if_neg (by simp; omega)] at hcons
        rw [crlf_newline, crlfOffset_newline_cons, position_newline_cons, Nat.add_comm, hcons,
          Nat.zero_add]
    · rcases Nat.lt_or_ge n c.utf8Size with hlt | hge
      · have hstands : Stands (c :: t) 0 ([c] ++ t) := ⟨[], rfl, rfl⟩
        have hoffset : crlfOffset (c :: t) n = n := by
          have hline := hstands.crlfOffset_of_le (k := n) (by simpa using Ne.symm hc)
            (by simpa using hlt.le)
          simpa using hline
        rw [hoffset, crlf_cons hc, position_cons_of_le hc hlt.le, position_cons_of_le hc hlt.le]
      · obtain ⟨m, rfl⟩ := Nat.exists_eq_add_of_le hge
        rw [crlfOffset_cons_add hc, crlf_cons hc, position_cons hc, position_cons hc, ih]

/-! ## Parts of a text -/

lemma dropBytes_crlf {t : Text} {n : ℕ} (h : Divides t n) :
    dropBytes (crlfOffset t n) (crlf t) = crlf (dropBytes n t) := by
  obtain ⟨after, before, rfl, rfl⟩ := h
  rw [crlfOffset_size, crlf_append, dropBytes_size_append, dropBytes_size_append]

lemma slice_crlf {t : Text} {n m : ℕ} (hn : Divides t n) (hm : Divides t m) :
    slice (crlf t) (crlfOffset t n) (crlfOffset t m) = crlf (slice t n m) := by
  rcases Nat.lt_or_ge m n with hlt | hle
  · have := strictMono_crlfOffset t hlt
    rw [slice, slice, Nat.sub_eq_zero_of_le hlt.le, Nat.sub_eq_zero_of_le this.le, takeBytes_zero,
      takeBytes_zero, crlf_nil]
  · obtain ⟨after, before, ht, rfl⟩ := hn
    obtain ⟨after', before', ht', rfl⟩ := hm
    obtain ⟨middle, rfl, rfl⟩ := append_split_of_size_le (ht.symm.trans ht') hle
    subst ht
    rw [size_append, slice_append, Stands.crlfOffset_add ⟨before, rfl, rfl⟩, crlfOffset_size,
      crlf_append, crlf_append, slice_append]

end Text

/-! ## Faults -/

/-- A fault where it is in the text with carriage returns. -/
def Fault.crlf (source : Text) (f : Fault) : Fault := ⟨Text.crlfOffset source f.offset, f.problem⟩

lemma Error.ofFault_crlf (source : Text) (f : Fault) :
    Error.ofFault (Text.crlf source) (f.crlf source) = Error.ofFault source f := by
  rw [ofFault, ofFault, Fault.crlf, Text.position_crlf]

end TablePack
