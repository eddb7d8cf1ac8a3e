import Mathlib.Tactic
import TablePack.Text

/-!
# Byte offsets and the characters between them

A byte offset that lies between two characters divides a text into the part before it and the part
after it, and the offset is the size of the first part. Statements on offsets are therefore proved
on divisions `before ++ after`, and this file says how the byte functions read on them:

* `cut?_eq_some_iff`: the offsets at which a text can be cut are the sizes of its first parts;
* `slice_append`: a slice between two divisions is the text between them;
* `Stands`: what follows a division, with its offset;
* `append_split_of_size_le`: of two divisions of a text, the shorter one comes first.
-/

namespace TablePack.Text

lemma size_pos {t : Text} (h : t ≠ []) : 0 < size t := by
  cases t with
  | nil => exact absurd rfl h
  | cons c t =>
    have hc := c.utf8Size_pos
    rw [size_cons]
    omega

@[simp] lemma size_eq_zero_iff {t : Text} : size t = 0 ↔ t = [] := by
  constructor
  · intro h
    by_contra hne
    have := size_pos hne
    omega
  · rintro rfl
    rfl

lemma length_le_size (t : Text) : t.length ≤ size t := by
  induction t with
  | nil => simp
  | cons c t ih =>
    have hc := c.utf8Size_pos
    rw [List.length_cons, size_cons]
    omega

/-! ## Cutting -/

lemma cut?_cons {n : ℕ} {c : Char} {t : Text} (h : c.utf8Size ≤ n) :
    cut? n (c :: t) = (cut? (n - c.utf8Size) t).map fun parts => (c :: parts.1, parts.2) := by
  have hc := c.utf8Size_pos
  cases n with
  | zero => omega
  | succ n => simp only [cut?, h, if_true]

lemma cut?_size_append (a b : Text) : cut? (size a) (a ++ b) = some (a, b) := by
  induction a with
  | nil => simp [cut?]
  | cons c a ih =>
    rw [List.cons_append, size_cons, cut?_cons (by omega), Nat.add_sub_cancel_left, ih]
    rfl

lemma eq_append_of_cut? {n : ℕ} {t a b : Text} (h : cut? n t = some (a, b)) :
    t = a ++ b ∧ size a = n := by
  induction t generalizing n a b with
  | nil =>
    cases n with
    | zero =>
      simp only [cut?, Option.some.injEq, Prod.mk.injEq] at h
      obtain ⟨rfl, rfl⟩ := h
      simp
    | succ n => simp [cut?] at h
  | cons c t ih =>
    cases n with
    | zero =>
      simp only [cut?, Option.some.injEq, Prod.mk.injEq] at h
      obtain ⟨rfl, rfl⟩ := h
      simp
    | succ n =>
      by_cases hc : c.utf8Size ≤ n + 1
      · rw [cut?_cons hc, Option.map_eq_some_iff] at h
        obtain ⟨⟨a', b'⟩, hcut, heq⟩ := h
        obtain ⟨rfl, hsize⟩ := ih hcut
        obtain ⟨rfl, rfl⟩ := Prod.mk.inj heq
        exact ⟨rfl, by rw [size_cons, hsize]; omega⟩
      · simp [cut?, hc] at h

/-- The offsets at which a text can be cut are the sizes of its first parts. -/
lemma cut?_eq_some_iff {n : ℕ} {t a b : Text} :
    cut? n t = some (a, b) ↔ t = a ++ b ∧ size a = n := by
  constructor
  · exact eq_append_of_cut?
  · rintro ⟨rfl, rfl⟩
    exact cut?_size_append a b

/-! ## Slicing -/

lemma dropBytes_cons {n : ℕ} {c : Char} {t : Text} (h : 0 < n) :
    dropBytes n (c :: t) = dropBytes (n - c.utf8Size) t := by
  cases n with
  | zero => omega
  | succ n => rfl

@[simp] lemma dropBytes_zero (t : Text) : dropBytes 0 t = t := by
  cases t <;> rfl

lemma dropBytes_size_append (a b : Text) : dropBytes (size a) (a ++ b) = b := by
  induction a with
  | nil => simp
  | cons c a ih =>
    have hc := c.utf8Size_pos
    rw [List.cons_append, size_cons, dropBytes_cons (by omega), Nat.add_sub_cancel_left, ih]

lemma takeBytes_cons {n : ℕ} {c : Char} {t : Text} (h : 0 < n) :
    takeBytes n (c :: t) = c :: takeBytes (n - c.utf8Size) t := by
  cases n with
  | zero => omega
  | succ n => rfl

@[simp] lemma takeBytes_zero (t : Text) : takeBytes 0 t = [] := by
  cases t <;> rfl

lemma takeBytes_size_append (a b : Text) : takeBytes (size a) (a ++ b) = a := by
  induction a with
  | nil => simp
  | cons c a ih =>
    have hc := c.utf8Size_pos
    rw [List.cons_append, size_cons, takeBytes_cons (by omega), Nat.add_sub_cancel_left, ih]

/-- A slice between two divisions of a text is the text between them. -/
lemma slice_append (a m b : Text) : slice (a ++ (m ++ b)) (size a) (size a + size m) = m := by
  rw [slice, dropBytes_size_append, Nat.add_sub_cancel_left, takeBytes_size_append]

/-! ## What stands at an offset -/

/-- A text stands at a byte offset of the source text, and goes on to its end. -/
def Stands (source : Text) (here : ℕ) (t : Text) : Prop :=
  ∃ before, source = before ++ t ∧ size before = here

/-- A byte offset that lies between two characters of a text. -/
def Divides (t : Text) (n : ℕ) : Prop := ∃ before, Stands t n before

/-- A text stands in the source text from one byte offset up to another. -/
def Excerpt (source : Text) (start stop : ℕ) (t : Text) : Prop :=
  ∃ before after, source = before ++ (t ++ after) ∧ size before = start ∧
    size before + size t = stop

section Stands

variable {source t u : Text} {here : ℕ}

lemma Stands.eq_dropBytes (h : Stands source here t) : t = dropBytes here source := by
  obtain ⟨before, rfl, rfl⟩ := h
  rw [dropBytes_size_append]

lemma Stands.append (h : Stands source here (u ++ t)) : Stands source (here + size u) t := by
  obtain ⟨before, rfl, rfl⟩ := h
  exact ⟨before ++ u, by simp, by simp⟩

lemma Stands.cons {c : Char} (h : Stands source here (c :: t)) :
    Stands source (here + c.utf8Size) t :=
  h.append (u := [c])

end Stands

/-! ## Comparing divisions -/

/-- Of two divisions of a text, the one at the smaller offset comes first. -/
lemma append_split_of_size_le {a b a' b' : Text} (h : a ++ b = a' ++ b')
    (hle : size a ≤ size a') : ∃ m, a' = a ++ m ∧ b = m ++ b' := by
  rcases List.append_eq_append_iff.1 h with ⟨m, ha', hb⟩ | ⟨m, ha, hb'⟩
  · exact ⟨m, ha', hb⟩
  · have hm : m = [] := by
      rw [← size_eq_zero_iff]
      rw [ha, size_append] at hle
      omega
    subst hm
    exact ⟨[], by simpa using ha.symm, by simpa using hb'.symm⟩

/-- What stands between two divisions of a text is its slice there. -/
lemma excerpt_slice {a b a' b' : Text} (h : a ++ b = a' ++ b') (hle : size a ≤ size a') :
    Excerpt (a ++ b) (size a) (size a') (slice (a ++ b) (size a) (size a')) := by
  obtain ⟨m, rfl, rfl⟩ := append_split_of_size_le h hle
  rw [size_append, slice_append]
  exact ⟨a, b', rfl, rfl, rfl⟩

end TablePack.Text
