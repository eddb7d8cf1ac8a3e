import Mathlib.Tactic
import TablePack.Proofs.Crlf.Text
import TablePack.Proofs.Quoted

/-!
# Quoted text with carriage returns

The machine that finds the end of a literal does the same over a text and over the text with a
carriage return before each newline. No delimiter is a line end, so line ends change nothing in a
frame; and where a newline is escaped, the carriage return is escaped in its place and the newline
is read as an ordinary character.

* `Agree`: faults at corresponding places, or values in a relation;
* `Quoting.Frame.read_crlf`: one character;
* `Quoting.literal_crlf`, `Quoting.regexp_crlf`: whole literals.
-/

namespace TablePack

open Text (crlf crlfOffset Reads Stands)

/-- Two results, over a text and over the text with carriage returns: faults that correspond, or
values in the relation `R`. -/
inductive Agree (source : Text) {α β : Type} (R : α → β → Prop) :
    Except Fault α → Except Fault β → Prop
  | ok {a : α} {b : β} : R a b → Agree source R (.ok a) (.ok b)
  | error (f : Fault) : Agree source R (.error f) (.error (f.crlf source))

namespace Agree

variable {source : Text} {α β γ δ : Type} {R : α → β → Prop} {r : Except Fault α}
  {r' : Except Fault β}

lemma map {S : γ → δ → Prop} {f : α → γ} {g : β → δ} (h : Agree source R r r')
    (hfg : ∀ a b, R a b → S (f a) (g b)) : Agree source S (r.map f) (r'.map g) := by
  cases h with
  | ok hab => exact .ok (hfg _ _ hab)
  | error f => exact .error f

lemma mono {S : α → β → Prop} (h : Agree source R r r') (hRS : ∀ a b, R a b → S a b) :
    Agree source S r r' := by
  cases h with
  | ok hab => exact .ok (hRS _ _ hab)
  | error f => exact .error f

lemma bind {S : γ → δ → Prop} {f : α → Except Fault γ} {g : β → Except Fault δ}
    (h : Agree source R r r') (hfg : ∀ a b, r = .ok a → R a b → Agree source S (f a) (g b)) :
    Agree source S (r.bind f) (r'.bind g) := by
  cases h with
  | ok hab => exact hfg _ _ rfl hab
  | error f => exact .error f

lemma ite {p : Prop} [Decidable p] {a b : Except Fault α} {a' b' : Except Fault β}
    (hpos : p → Agree source R a a') (hneg : ¬ p → Agree source R b b') :
    Agree source R (if p then a else b) (if p then a' else b') := by
  split
  · exact hpos ‹p›
  · exact hneg ‹¬ p›

end Agree

namespace Text

lemma head?_crlf_eq_some {t : Text} {c : Char} (hn : c ≠ '\n') (hr : c ≠ '\r') :
    (crlf t).head? = some c ↔ t.head? = some c := by
  cases t with
  | nil => rfl
  | cons d t =>
    by_cases hd : d = '\n'
    · subst hd
      simp [hn.symm, hr.symm]
    · rw [crlf_cons hd]
      rfl

/-- Numbers of characters that are read, added to those that were read before. -/
def Counts (t : Text) (n n' k k' : ℕ) : Prop :=
  ∃ m m', k = n + m ∧ k' = n' + m' ∧ Reads t m m'

section Counts

variable {t : Text} {n n' k k' : ℕ}

lemma Counts.cons {c : Char} (hc : c ≠ '\n') (h : Counts t (n + 1) (n' + 1) k k') :
    Counts (c :: t) n n' k k' := by
  obtain ⟨m, m', rfl, rfl, hm⟩ := h
  exact ⟨m + 1, m' + 1, by omega, by omega, hm.cons hc⟩

lemma Counts.newline (h : Counts t (n + 1) (n' + 2) k k') : Counts ('\n' :: t) n n' k k' := by
  obtain ⟨m, m', rfl, rfl, hm⟩ := h
  exact ⟨m + 1, m' + 2, by omega, by omega, hm.newline⟩

end Counts

end Text

namespace Quoting

open Text (Counts)

/-! ## Frames -/

/-- A frame, with its offset where it is in the text with carriage returns. -/
def Frame.crlf (source : Text) : Frame → Frame
  | literal start opener closer interpolates depth =>
    literal (crlfOffset source start) opener closer interpolates depth
  | code start depth => code (crlfOffset source start) depth
  | regexp start inClass => regexp (crlfOffset source start) inClass

/-- A reading, with its offsets where they are in the text with carriage returns. -/
def Reading.crlf (source : Text) : Reading → Reading
  | escape => escape
  | stay frame => stay (frame.crlf source)
  | enter frame => enter (frame.crlf source)
  | interpolate frame => interpolate (frame.crlf source)
  | leave => leave

/-- A delimiter that line ends are not taken for. -/
def IsPlain (delimiter : Char) : Prop :=
  delimits delimiter '\n' = false ∧ delimits delimiter '\r' = false

/-- A frame that does not end or nest at line ends. -/
def Frame.Plain : Frame → Prop
  | literal _ opener closer _ _ => IsPlain opener ∧ IsPlain closer
  | code .. | regexp .. => True

/-- A reading that leads to plain frames only. -/
def Reading.Plain : Reading → Prop
  | escape | leave => True
  | stay frame | enter frame | interpolate frame => frame.Plain

variable {source : Text} {top : Frame} {below : List Frame} {here : ℕ} {t : Text}

lemma Frame.fault_crlf (source : Text) (f : Frame) :
    (f.crlf source).fault = f.fault.crlf source := by
  cases f <;> rfl

lemma Frame.Plain.crlf {f : Frame} (h : f.Plain) (source : Text) : (f.crlf source).Plain := by
  cases f <;> exact h

/-- A character does the same in both texts. -/
lemma Frame.read_crlf (source : Text) (f : Frame) (here : ℕ) (c : Char) {next next' : Option Char}
    (h : next' = some '{' ↔ next = some '{') :
    (f.crlf source).read (crlfOffset source here) c next' = (f.read here c next).crlf source := by
  cases f <;> simp only [Frame.crlf, read, h] <;> split_ifs <;> rfl

lemma Frame.Plain.read_eq_stay {f : Frame} (hf : f.Plain) {c : Char} (hc : c = '\n' ∨ c = '\r')
    (here : ℕ) (next : Option Char) : f.read here c next = .stay f := by
  cases f with
  | literal start opener closer interpolates depth =>
    obtain ⟨⟨hon, hor⟩, hcn, hcr⟩ := hf
    rcases hc with rfl | rfl
    · simp [read, hon, hcn]
    · simp [read, hor, hcr]
  | code start depth => rcases hc with rfl | rfl <;> rfl
  | regexp start inClass => rcases hc with rfl | rfl <;> simp [read]

lemma Frame.Plain.read {f : Frame} (hf : f.Plain) (here : ℕ) (c : Char) (next : Option Char) :
    (f.read here c next).Plain := by
  cases f with
  | literal start opener closer interpolates depth =>
    simp only [Frame.read]
    split_ifs <;> first | exact hf | exact trivial
  | code start depth =>
    simp only [Frame.read]
    split_ifs with h₁ h₂ h₃ h₄ h₅
    · exact hf
    · trivial
    · exact hf
    · rw [Bool.or_eq_true, decide_eq_true_eq, decide_eq_true_eq] at h₄
      rcases h₄ with rfl | rfl <;> exact ⟨⟨rfl, rfl⟩, rfl, rfl⟩
    · subst h₅
      exact ⟨⟨rfl, rfl⟩, rfl, rfl⟩
    · trivial
    · exact hf
  | regexp start inClass =>
    simp only [Frame.read]
    split_ifs <;> trivial

lemma Frame.head?_of_interpolate {f g : Frame} {c : Char} {next : Option Char}
    (h : f.read here c next = .interpolate g) : next = some '{' := by
  cases f with
  | literal start opener closer interpolates depth =>
    simp only [Frame.read] at h
    split_ifs at h with h₁ h₂ h₃ h₄ h₅
    rw [Bool.and_eq_true, decide_eq_true_eq] at h₅
    exact h₅.2
  | code start depth =>
    simp only [Frame.read] at h
    split_ifs at h
  | regexp start inClass =>
    simp only [Frame.read] at h
    split_ifs at h with h₁ h₂ h₃ h₄ h₅
    rw [Bool.and_eq_true, decide_eq_true_eq, decide_eq_true_eq] at h₅
    exact h₅.2

/-! ## Closing -/

lemma close_newline (htop : top.Plain) (below : List Frame) (here n : ℕ) (t : Text) :
    close top below here n ('\n' :: t) = close top below (here + 1) (n + 1) t := by
  rw [close_cons, htop.read_eq_stay (.inl rfl)]
  rfl

lemma close_return (htop : top.Plain) (below : List Frame) (here n : ℕ) (t : Text) :
    close top below here n ('\r' :: '\n' :: t) = close top below (here + 2) (n + 2) t := by
  rw [close_cons, htop.read_eq_stay (.inr rfl)]
  exact close_newline htop below (here + 1) (n + 1) t

/-- The frames are closed at corresponding places, or stay open in both texts. -/
lemma close_crlf (htop : top.Plain) (hbelow : ∀ f ∈ below, f.Plain) (hs : Stands source here t)
    (n n' : ℕ) :
    Agree source (Counts t n n') (close top below here n t)
      (close (top.crlf source) (below.map (Frame.crlf source)) (crlfOffset source here) n'
        (crlf t)) := by
  induction hlen : t.length using Nat.strong_induction_on generalizing top below here t n n' with
  | _ len ih =>
    subst hlen
    cases t with
    | nil =>
      rw [Text.crlf_nil, close, close, Frame.fault_crlf]
      exact .error _
    | cons c t =>
      by_cases hc : c = '\n'
      · subst hc
        rw [Text.crlf_newline, close_newline htop, close_return (htop.crlf source),
          ← hs.crlfOffset_newline]
        exact (ih _ (by simp) htop hbelow hs.cons _ _ rfl).mono fun _ _ => .newline
      have hhead : (crlf t).head? = some '{' ↔ t.head? = some '{' :=
        Text.head?_crlf_eq_some (by decide) (by decide)
      have hplain := htop.read here c t.head?
      have hoffset := hs.crlfOffset_cons hc
      have htbelow : ∀ f ∈ top :: below, f.Plain := List.forall_mem_cons.2 ⟨htop, hbelow⟩
      rw [Text.crlf_cons hc, close_cons, close_cons, Frame.read_crlf source top here c hhead,
        ← hoffset]
      cases hread : top.read here c t.head? with
      | stay frame =>
        rw [hread] at hplain
        exact (ih _ (by simp) hplain hbelow hs.cons _ _ rfl).mono fun _ _ => .cons hc
      | enter frame =>
        rw [hread] at hplain
        exact (ih _ (by simp) hplain htbelow hs.cons _ _ rfl).mono fun _ _ => .cons hc
      | leave =>
        cases below with
        | nil => exact .ok ⟨1, 1, rfl, rfl, (Reads.zero t).cons hc⟩
        | cons frame outer =>
          obtain ⟨hframe, houter⟩ := List.forall_mem_cons.1 hbelow
          exact (ih _ (by simp) hframe houter hs.cons _ _ rfl).mono fun _ _ => .cons hc
      | escape =>
        cases t with
        | nil =>
          simp only [Reading.crlf, Text.crlf_nil, Frame.fault_crlf]
          exact .error _
        | cons d u =>
          by_cases hd : d = '\n'
          · -- the carriage return is what is escaped
            subst hd
            have hreturn : '\r'.utf8Size = 1 := rfl
            simp only [Reading.crlf, Text.crlf_newline]
            rw [close_newline (htop.crlf source), hreturn, Nat.add_assoc,
              ← hs.cons.crlfOffset_newline]
            exact (ih _ (by simp) htop hbelow hs.cons.cons _ _ rfl).mono
              fun _ _ h => .cons hc (.newline h)
          · simp only [Reading.crlf, Text.crlf_cons hd]
            rw [← hs.cons.crlfOffset_cons hd]
            exact (ih _ (by simp) htop hbelow hs.cons.cons _ _ rfl).mono
              fun _ _ h => .cons hc (.cons hd h)
      | interpolate frame =>
        rw [hread] at hplain
        obtain ⟨u, rfl⟩ := List.head?_eq_some_iff.1 (Frame.head?_of_interpolate hread)
        have hd : '{' ≠ '\n' := by decide
        simp only [Reading.crlf, Text.crlf_cons hd]
        rw [← hs.cons.crlfOffset_cons hd]
        exact (ih _ (by simp) hplain htbelow hs.cons.cons _ _ rfl).mono
          fun _ _ h => .cons hc (.cons hd h)

/-! ## Literals -/

lemma isPlain_of_not_isSpace {c : Char} (h : Text.isSpace c = false) : IsPlain c := by
  have hn : '\n' ≠ c := by
    rintro rfl
    exact absurd h (by decide)
  have hr : '\r' ≠ c := by
    rintro rfl
    exact absurd h (by decide)
  -- a first byte of several is none of ASCII
  have hlead : ∀ d : Char, d.toNat < 0x80 → (Text.isWide c && Text.leadByte d == Text.leadByte c)
      = false := by
    intro d hd
    rw [Bool.and_eq_false_iff, or_iff_not_imp_left, Bool.not_eq_false]
    intro hwide
    simp only [Text.isWide, decide_eq_true_eq] at hwide
    rw [beq_eq_false_iff_ne]
    simp only [Text.leadByte, if_pos hd, if_neg (not_lt.2 hwide)]
    split_ifs <;> omega
  constructor
  · rw [delimits, hlead _ (by decide), Bool.or_false, beq_eq_false_iff_ne]
    exact hn
  · rw [delimits, hlead _ (by decide), Bool.or_false, beq_eq_false_iff_ne]
    exact hr

lemma isSpace_closing {c : Char} (h : Text.isSpace c = false) :
    Text.isSpace (closing c) = false := by
  unfold closing
  split <;> first | rfl | exact h

/-- A literal ends at corresponding places in both texts. -/
lemma literal_crlf {start : ℕ} {opener : Char} (interpolates : Bool)
    (hopener : Text.isSpace opener = false) (hs : Stands source start (opener :: t)) :
    Agree source (Reads t) (literal start opener interpolates t)
      (literal (crlfOffset source start) opener interpolates (crlf t)) := by
  have hne : opener ≠ '\n' := by
    rintro rfl
    exact absurd hopener (by decide)
  have htop : (Frame.literal start opener (closing opener) interpolates 0).Plain :=
    ⟨isPlain_of_not_isSpace hopener, isPlain_of_not_isSpace (isSpace_closing hopener)⟩
  have h := close_crlf htop (List.forall_mem_nil _) hs.cons 0 0
  rw [hs.crlfOffset_cons hne] at h
  refine h.mono ?_
  rintro _ _ ⟨m, m', rfl, rfl, hm⟩
  simpa using hm

/-- A regular expression ends at corresponding places in both texts. -/
lemma regexp_crlf {start : ℕ} (hs : Stands source start ('/' :: t)) :
    Agree source (Reads t) (regexp start t) (regexp (crlfOffset source start) (crlf t)) := by
  have htop : (Frame.regexp start false).Plain := trivial
  have h := close_crlf htop (List.forall_mem_nil _) hs.cons 0 0
  rw [hs.crlfOffset_cons (by decide)] at h
  refine h.mono ?_
  rintro _ _ ⟨m, m', rfl, rfl, hm⟩
  simpa using hm

end Quoting

end TablePack
