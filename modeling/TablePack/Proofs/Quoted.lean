import Mathlib.Tactic
import TablePack.Token.Quoting

/-!
# Quoted text

Where a literal ends depends on the characters up to its closing delimiter and on nothing after
them.

* `Quoting.literal_local` and `Quoting.regexp_local` say this for literals that end inside a text;
* `Quoting.mem_of_literal`: the closing delimiter is one of the characters read.
-/

namespace TablePack

namespace Quoting

/-- Whether a frame is left does not depend on the character after the one that leaves it. -/
lemma Frame.read_eq_leave {f : Frame} {here : ℕ} {c : Char} {next : Option Char}
    (h : f.read here c next = .leave) (next' : Option Char) : f.read here c next' = .leave := by
  cases f with
  | literal start opener closer interpolates depth =>
    simp only [read] at h ⊢
    split_ifs at h with h₁ h₂ h₃
    rw [if_neg h₁, if_pos h₂, if_pos h₃]
  | code start depth =>
    simpa only [read] using h
  | regexp start inClass =>
    simp only [read] at h ⊢
    split_ifs at h with h₁ h₂ h₃ h₄
    rw [if_neg h₁, if_neg h₂, if_neg h₃, if_pos h₄]

lemma close_cons (top : Frame) (below : List Frame) (here n : ℕ) (c : Char) (t : Text) :
    close top below here n (c :: t) =
      match top.read here c t.head? with
      | .stay frame => close frame below (here + c.utf8Size) (n + 1) t
      | .enter frame => close frame (top :: below) (here + c.utf8Size) (n + 1) t
      | .leave =>
        match below with
        | [] => .ok (n + 1)
        | frame :: outer => close frame outer (here + c.utf8Size) (n + 1) t
      | .escape =>
        match t with
        | [] => .error top.fault
        | d :: u => close top below (here + c.utf8Size + d.utf8Size) (n + 2) u
      | .interpolate frame =>
        match t with
        | [] => .error frame.fault
        | d :: u => close frame (top :: below) (here + c.utf8Size + d.utf8Size) (n + 2) u := by
  rw [close.eq_def]
  dsimp only
  cases top.read here c t.head? with
  | stay frame => rfl
  | enter frame => rfl
  | leave => cases below <;> rfl
  | escape => cases t <;> rfl
  | interpolate frame => cases t <;> rfl

lemma lt_of_close {top : Frame} {below : List Frame} {here n k : ℕ} {t : Text}
    (h : close top below here n t = .ok k) : n < k := by
  fun_induction close top below here n t with
  | case1 => cases h
  | case2 => rename_i ih; have := ih h; omega
  | case3 => rename_i ih; have := ih h; omega
  | case4 => cases h; omega
  | case5 => rename_i ih; have := ih h; omega
  | case6 => cases h
  | case7 => rename_i ih; have := ih h; omega
  | case8 => cases h
  | case9 => rename_i ih; have := ih h; omega

/-- The one character that closes the bottom frame. -/
lemma close_singleton {top : Frame} {below : List Frame} {here n k : ℕ} {c : Char} {v : Text}
    (v' : Text) (h : close top below here n (c :: v) = .ok k) (hk : k ≤ n + 1) :
    close top below here n (c :: v') = .ok k := by
  rw [close_cons] at h
  cases hr : top.read here c v.head? with
  | stay frame =>
    rw [hr] at h
    have := lt_of_close h
    omega
  | enter frame =>
    rw [hr] at h
    have := lt_of_close h
    omega
  | escape =>
    rw [hr] at h
    cases v with
    | nil => cases h
    | cons d u =>
      have := lt_of_close h
      omega
  | interpolate frame =>
    rw [hr] at h
    cases v with
    | nil => cases h
    | cons d u =>
      have := lt_of_close h
      omega
  | leave =>
    rw [hr] at h
    rw [close_cons, Frame.read_eq_leave hr v'.head?]
    cases below with
    | nil => exact h
    | cons frame outer =>
      have := lt_of_close h
      omega

/-- Closing a literal inside `t` does not depend on what follows `t`. -/
lemma close_local {v : Text} (v' t : Text) {top : Frame} {below : List Frame} {here n k : ℕ}
    (h : close top below here n (t ++ v) = .ok k) (hk : k ≤ n + t.length) :
    close top below here n (t ++ v') = .ok k := by
  match t with
  | [] =>
    have := lt_of_close h
    rw [List.length_nil] at hk
    omega
  | [c] => exact close_singleton v' h hk
  | c :: d :: u =>
    simp only [List.length_cons] at hk
    rw [List.cons_append, List.cons_append, close_cons, List.head?_cons] at h ⊢
    cases hr : top.read here c (some d) <;> rw [hr] at h <;> dsimp only at h ⊢
    case escape => exact close_local v' u h (by omega)
    case interpolate => exact close_local v' u h (by omega)
    case stay => exact close_local v' (d :: u) h (by rw [List.length_cons]; omega)
    case enter => exact close_local v' (d :: u) h (by rw [List.length_cons]; omega)
    case leave =>
      cases below with
      | nil => exact h
      | cons frame outer => exact close_local v' (d :: u) h (by rw [List.length_cons]; omega)

lemma literal_local {start : ℕ} {opener : Char} {interpolates : Bool} {t v : Text} {k : ℕ}
    (v' : Text) (h : literal start opener interpolates (t ++ v) = .ok k) (hk : k ≤ t.length) :
    literal start opener interpolates (t ++ v') = .ok k :=
  close_local v' t h (by omega)

lemma regexp_local {start : ℕ} {t v : Text} {k : ℕ} (v' : Text)
    (h : regexp start (t ++ v) = .ok k) (hk : k ≤ t.length) : regexp start (t ++ v') = .ok k :=
  close_local v' t h (by omega)

/-! ## The closing delimiter -/

/-- A frame that the character `q` closes. -/
def Frame.ClosedBy (q : Char) : Frame → Prop
  | literal _ _ closer _ _ => closer = q
  | code .. => q = '}'
  | regexp .. => q = '/'

lemma Frame.ClosedBy.stay {q : Char} {f f' : Frame} {here : ℕ} {c : Char} {next : Option Char}
    (h : f.ClosedBy q) (hr : f.read here c next = .stay f') : f'.ClosedBy q := by
  cases f <;> (simp only [read] at hr; split_ifs at hr <;> cases hr <;> exact h)

lemma Frame.ClosedBy.leave {q : Char} {f : Frame} {here : ℕ} {c : Char} {next : Option Char}
    (h : f.ClosedBy q) (hr : f.read here c next = .leave) : delimits q c := by
  cases f with
  | literal start opener closer interpolates depth =>
    simp only [read] at hr
    split_ifs at hr with _ hc
    exact (show closer = q from h) ▸ hc
  | code start depth =>
    simp only [read] at hr
    split_ifs at hr with _ hc
    simp [delimits, hc, show q = '}' from h]
  | regexp start inClass =>
    simp only [read] at hr
    split_ifs at hr with _ _ _ hc
    simp only [Bool.and_eq_true, decide_eq_true_eq] at hc
    simp [delimits, hc.1, show q = '/' from h]

/-- Where frames are closed, the last character read is the delimiter of the bottom one. -/
lemma exists_delimiter_of_close {q : Char} {top : Frame} {below : List Frame} {here n k : ℕ}
    {t : Text}
    (h : close top below here n t = .ok k) (hbottom : (below.getLastD top).ClosedBy q) :
    ∃ i c, k = n + (i + 1) ∧ t[i]? = some c ∧ delimits q c := by
  fun_induction close top below here n t with
  | case1 => cases h
  | case2 top below here n c t frame hr ih =>
    obtain ⟨i, d, hk, hd, hdel⟩ := ih h (by
      cases below with
      | nil => exact Frame.ClosedBy.stay hbottom hr
      | cons => exact hbottom)
    exact ⟨i + 1, d, by omega, hd, hdel⟩
  | case3 top below here n c t frame hr ih =>
    obtain ⟨i, d, hk, hd, hdel⟩ := ih h (by rwa [List.getLastD_cons])
    exact ⟨i + 1, d, by omega, hd, hdel⟩
  | case4 top here n c t hr =>
    cases h
    exact ⟨0, c, rfl, rfl, Frame.ClosedBy.leave hbottom hr⟩
  | case5 top here n c t hr frame outer ih =>
    obtain ⟨i, d, hk, hd, hdel⟩ := ih h (by rwa [List.getLastD_cons] at hbottom)
    exact ⟨i + 1, d, by omega, hd, hdel⟩
  | case6 => cases h
  | case7 top below here n c d u hr ih =>
    obtain ⟨i, e, hk, he, hdel⟩ := ih h hbottom
    exact ⟨i + 2, e, by omega, he, hdel⟩
  | case8 => cases h
  | case9 top below here n c frame d u hr ih =>
    obtain ⟨i, e, hk, he, hdel⟩ := ih h (by rwa [List.getLastD_cons])
    exact ⟨i + 2, e, by omega, he, hdel⟩

/-- A frame that is closed by a character in ASCII ends with it. -/
lemma getElem?_of_close {q : Char} {f : Frame} {here k : ℕ} {t : Text}
    (h : close f [] here 0 t = .ok k) (hq : f.ClosedBy q) (hwide : Text.isWide q = false) :
    ∃ i, k = i + 1 ∧ t[i]? = some q := by
  obtain ⟨i, c, hk, hc, hdel⟩ := exists_delimiter_of_close h hq
  have hcq : c = q := by simpa [delimits, hwide] using hdel
  exact ⟨i, by omega, hcq ▸ hc⟩

/-- A literal in ASCII quotes ends with its quote. -/
lemma mem_of_literal {start : ℕ} {q : Char} {interpolates : Bool} {t : Text} {k : ℕ}
    (hclosing : closing q = q) (hwide : Text.isWide q = false)
    (h : literal start q interpolates t = .ok k) : q ∈ t.take k := by
  obtain ⟨i, rfl, hi⟩ := getElem?_of_close h (q := q) hclosing hwide
  rw [List.take_add_one, hi]
  simp

end Quoting

end TablePack
