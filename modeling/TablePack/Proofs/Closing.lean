import Mathlib.Tactic
import TablePack.Proofs.Literal
import TablePack.Proofs.Moves
import TablePack.Proofs.Quoted

/-!
# Byte literals end at their last quote

What is written for a list of bytes is a literal also for the scanner, and it ends where it was
meant to end, whatever bytes it holds and whatever follows it. The two have their own rules for
escapes and for hashes. What they have in common is `Plain` text: characters one by one or in pairs
after a backslash, with no quote before the last one and no hash before a brace.

That a literal interpolates nothing on the way to its end cannot be told from its length, so the
machine that finds the end is also followed character by character (`State.next?`, `Leads`).

* `Quoting.close_eq_ok_iff`: the end of a literal is where the machine has no frame open;
* `Quoting.Plain.leads`, `Quoting.Plain.frames_eq`: the machine on plain text;
* `ByteLiteral.plain_writeTail`: what is written is plain;
* `ByteLiteral.write_closed`: byte literals and the scanner.
-/

namespace TablePack

open Token (Lexeme)
open Text (size)

namespace Quoting

/-! ## The machine, character by character -/

/-- The machine between two characters. -/
structure State where
  /-- The frames that are open, innermost first. -/
  frames : List Frame
  /-- The byte offset of the rest. -/
  here : ℕ
  /-- The number of characters that are read. -/
  count : ℕ
  rest : Text

/-- The machine after it has read the next character, together with the following one where the two
belong together. There is none if no frame is open, or if the text ends. -/
def State.next? : State → Option State
  | ⟨top :: below, here, n, c :: t⟩ =>
    match top.read here c t.head?, t with
    | .stay frame, t => some ⟨frame :: below, here + c.utf8Size, n + 1, t⟩
    | .enter frame, t => some ⟨frame :: top :: below, here + c.utf8Size, n + 1, t⟩
    | .leave, t => some ⟨below, here + c.utf8Size, n + 1, t⟩
    | .escape, d :: u => some ⟨top :: below, here + c.utf8Size + d.utf8Size, n + 2, u⟩
    | .interpolate frame, d :: u =>
      some ⟨frame :: top :: below, here + c.utf8Size + d.utf8Size, n + 2, u⟩
    | _, [] => none
  | _ => none

/-- The states that the machine comes to. -/
def Leads : State → State → Prop := Relation.ReflTransGen fun x y => x.next? = some y

/-- The machine after the opening delimiter of a literal at byte `start`. -/
def opened (start : ℕ) (opener : Char) (interpolates : Bool) (t : Text) : State :=
  ⟨[.literal start opener (closing opener) interpolates 0], start + opener.utf8Size, 0, t⟩

/-- What is found from a state on. -/
def State.outcome (x : State) : Except Fault ℕ :=
  match x.frames with
  | [] => .ok x.count
  | top :: below => close top below x.here x.count x.rest

lemma State.outcome_of_next? {x y : State} (h : x.next? = some y) : x.outcome = y.outcome := by
  obtain ⟨frames, here, n, rest⟩ := x
  cases frames with
  | nil => cases h
  | cons top below =>
    cases rest with
    | nil => cases h
    | cons c t =>
      simp only [outcome, close_cons]
      simp only [next?] at h
      cases hread : top.read here c t.head? with
      | stay frame =>
        rw [hread] at h
        cases h
        rfl
      | enter frame =>
        rw [hread] at h
        cases h
        rfl
      | leave =>
        rw [hread] at h
        cases h
        cases below <;> rfl
      | escape =>
        rw [hread] at h
        cases t <;> cases h
        rfl
      | interpolate frame =>
        rw [hread] at h
        cases t <;> cases h
        rfl

/-- A machine with an open frame goes on to a shorter text, or fails. -/
lemma State.exists_next? {x : State} {m : ℕ} (hframes : x.frames ≠ []) (h : x.outcome = .ok m) :
    ∃ y, x.next? = some y ∧ y.rest.length < x.rest.length := by
  obtain ⟨frames, here, n, rest⟩ := x
  cases frames with
  | nil => exact absurd rfl hframes
  | cons top below =>
    cases rest with
    | nil => cases h
    | cons c t =>
      simp only [outcome, close_cons] at h
      simp only [next?]
      cases hread : top.read here c t.head? with
      | stay frame => exact ⟨_, rfl, by simp⟩
      | enter frame => exact ⟨_, rfl, by simp⟩
      | leave => exact ⟨_, rfl, by simp⟩
      | escape =>
        rw [hread] at h
        cases t with
        | nil => cases h
        | cons d u => exact ⟨_, rfl, by simp⟩
      | interpolate frame =>
        rw [hread] at h
        cases t with
        | nil => cases h
        | cons d u => exact ⟨_, rfl, by simp⟩

lemma State.outcome_of_leads {x y : State} (h : Leads x y) : x.outcome = y.outcome := by
  induction h with
  | refl => rfl
  | tail _ hnext ih => rw [ih, outcome_of_next? hnext]

lemma State.leads_of_outcome {x : State} {m : ℕ} (h : x.outcome = .ok m) :
    ∃ y, Leads x y ∧ y.frames = [] ∧ y.count = m := by
  induction hn : x.rest.length using Nat.strong_induction_on generalizing x with
  | _ n ih =>
    by_cases hframes : x.frames = []
    · rw [outcome, hframes] at h
      exact ⟨x, .refl, hframes, Except.ok.inj h⟩
    · obtain ⟨y, hnext, hlt⟩ := exists_next? hframes h
      obtain ⟨z, hleads, hz⟩ := ih _ (hn ▸ hlt) (outcome_of_next? hnext ▸ h) rfl
      exact ⟨z, .head hnext hleads, hz⟩

/-- The end of a literal is where the machine has no frame open any more. -/
lemma close_eq_ok_iff {top : Frame} {below : List Frame} {here n m : ℕ} {t : Text} :
    close top below here n t = .ok m ↔
      ∃ x, Leads ⟨top :: below, here, n, t⟩ x ∧ x.frames = [] ∧ x.count = m := by
  constructor
  · intro h
    exact State.leads_of_outcome (x := ⟨top :: below, here, n, t⟩) h
  · rintro ⟨x, hleads, hframes, rfl⟩
    have houtcome := State.outcome_of_leads hleads
    rw [State.outcome, State.outcome, hframes] at houtcome
    exact houtcome

/-! ## Plain text -/

/-- The rest of a literal between double quotes that interpolates nothing, up to its closing
quote. -/
inductive Plain : Text → Prop
  | close : Plain ['"']
  | escape {d : Char} {t : Text} : Plain t → Plain ('\\' :: d :: t)
  | char {c : Char} {t : Text} : c ≠ '\\' → c ≠ '"' → (c = '#' → t.head? ≠ some '{') → Plain t →
      Plain (c :: t)

/-- The frame of a literal between double quotes. -/
def quotes (start : ℕ) : Frame := .literal start '"' '"' true 0

lemma Plain.ne_nil {t : Text} (h : Plain t) : t ≠ [] := by
  cases h <;> simp

lemma read_quotes_of_char {start here : ℕ} {c : Char} {next : Option Char} (hslash : c ≠ '\\')
    (hquote : c ≠ '"') (hhash : c = '#' → next ≠ some '{') :
    (quotes start).read here c next = .stay (quotes start) := by
  have hdelimits : delimits '"' c = false := by
    have hwide : Text.isWide '"' = false := by decide
    simp [delimits, hquote, hwide]
  rw [quotes, Frame.read, if_neg hslash, if_neg (by simp [hdelimits]), if_neg (by simp [hdelimits]),
    if_neg]
  simpa using hhash

lemma next?_close (start here n : ℕ) (after : Text) :
    State.next? ⟨[quotes start], here, n, '"' :: after⟩ = some ⟨[], here + 1, n + 1, after⟩ := rfl

lemma next?_escape (start here n : ℕ) (d : Char) (t : Text) :
    State.next? ⟨[quotes start], here, n, '\\' :: d :: t⟩
      = some ⟨[quotes start], here + 1 + d.utf8Size, n + 2, t⟩ := by
  have hread : (quotes start).read here '\\' (some d) = .escape := by
    rw [quotes, Frame.read, if_pos rfl]
  simp only [State.next?, List.head?_cons, hread]
  rfl

lemma next?_char {start here n : ℕ} {c : Char} {t : Text} (hslash : c ≠ '\\') (hquote : c ≠ '"')
    (hhash : c = '#' → t.head? ≠ some '{') :
    State.next? ⟨[quotes start], here, n, c :: t⟩
      = some ⟨[quotes start], here + c.utf8Size, n + 1, t⟩ := by
  simp only [State.next?, read_quotes_of_char hslash hquote hhash]

/-- Plain text is read up to its closing quote. -/
lemma Plain.leads {t : Text} (h : Plain t) (start here n : ℕ) (after : Text) :
    Leads ⟨[quotes start], here, n, t ++ after⟩ ⟨[], here + size t, n + t.length, after⟩ := by
  induction h generalizing here n with
  | close => exact .single (next?_close start here n after)
  | @escape d t ht ih =>
    have hhere : here + 1 + d.utf8Size + size t = here + size ('\\' :: d :: t) := by
      rw [Text.size_cons, Text.size_cons, show '\\'.utf8Size = 1 from rfl]
      omega
    have hrest := ih (here + 1 + d.utf8Size) (n + 2)
    rw [hhere, Nat.add_assoc n, Nat.add_comm 2] at hrest
    exact .head (next?_escape start here n d (t ++ after)) hrest
  | @char c t hslash hquote hhash ht ih =>
    have hhash' : c = '#' → (t ++ after).head? ≠ some '{' := by
      rwa [List.head?_append_of_ne_nil _ ht.ne_nil]
    have hrest := ih (here + c.utf8Size) (n + 1)
    rw [Nat.add_assoc here, Nat.add_assoc n, Nat.add_comm 1] at hrest
    exact .head (next?_char hslash hquote hhash') hrest

/-- On plain text no frame is opened in the literal. -/
lemma Plain.frames_eq {t : Text} (h : Plain t) {start here n : ℕ} {after : Text} {x : State}
    (hleads : Leads ⟨[quotes start], here, n, t ++ after⟩ x) :
    x.frames = [] ∨ x.frames = [quotes start] := by
  -- as long as the literal is open, plain text is left
  have hinv : x.frames = [] ∨ x.frames = [quotes start] ∧ ∃ u, Plain u ∧ x.rest = u ++ after := by
    induction hleads with
    | refl => exact .inr ⟨rfl, t, h, rfl⟩
    | @tail y z _ hnext ih =>
      obtain ⟨frames, here, n, rest⟩ := y
      rcases ih with hnil | ⟨hframes, u, hu, hrest⟩
      · cases hnil
        cases hnext
      · dsimp only at hframes hrest
        subst hframes hrest
        cases hu with
        | close =>
          cases hnext
          exact .inl rfl
        | @escape d u hu =>
          rw [List.cons_append, List.cons_append, next?_escape] at hnext
          cases hnext
          exact .inr ⟨rfl, u, hu, rfl⟩
        | @char c u hslash hquote hhash hu =>
          rw [List.cons_append, next?_char hslash hquote
            (by rwa [List.head?_append_of_ne_nil _ hu.ne_nil])] at hnext
          cases hnext
          exact .inr ⟨rfl, u, hu, rfl⟩
  exact hinv.imp_right And.left

lemma Plain.literal_eq {t : Text} (h : Plain t) (start : ℕ) (after : Text) :
    literal start '"' true (t ++ after) = .ok t.length := by
  have hleads := h.leads start (start + 1) 0 after
  rw [Nat.zero_add] at hleads
  exact close_eq_ok_iff.2 ⟨_, hleads, rfl, rfl⟩

end Quoting

/-! ## Byte literals -/

namespace ByteLiteral

open Quoting (Plain)

/-- A spelled byte is plain before plain text. -/
lemma plain_spell (b : UInt8) {t : Text} (ht : Plain t) : Plain (spell b t ++ t) := by
  unfold spell
  split
  · exact .escape ht
  · rename_i hlookup
    split_ifs with hhash hprinted
    · exact .escape ht
    · simp only [Bool.and_eq_true, decide_eq_true_eq] at hhash hprinted
      obtain ⟨hquote, hslash, h23, -⟩ := printed_of_lookup hlookup hprinted.1 hprinted.2
      refine .char hslash hquote ?_ ht
      -- a hash that would interpolate is escaped
      intro hc hnext
      apply hhash
      rw [show t.head? = some '{' from hnext]
      exact ⟨h23 hc, rfl⟩
    · have hdigit : ∀ k < 16, hexDigit k ≠ '\\' ∧ hexDigit k ≠ '"' ∧ hexDigit k ≠ '#' := by decide
      have hlt := b.toNat_lt
      obtain ⟨h₁, h₂, h₃⟩ := hdigit (b.toNat / 16) (by omega)
      obtain ⟨l₁, l₂, l₃⟩ := hdigit (b.toNat % 16) (Nat.mod_lt _ (by norm_num))
      exact .escape (.char h₁ h₂ (fun h => absurd h h₃) (.char l₁ l₂ (fun h => absurd h l₃) ht))

/-- What is written after the opening quote is plain. -/
lemma plain_writeTail (bytes : List UInt8) : Plain (writeTail bytes) := by
  induction bytes with
  | nil => exact .close
  | cons b bytes ih =>
    rw [writeTail_cons]
    exact plain_spell b ih

/-- A byte literal is read as a string, whatever bytes it holds. -/
lemma quoted_writeTail (start : ℕ) (bytes : List UInt8) (t : Text) :
    Lexeme.quoted start '"' true (writeTail bytes ++ t)
      = .ok ⟨.string, (writeTail bytes).length⟩ := by
  rw [Lexeme.quoted, (plain_writeTail bytes).literal_eq]
  rfl

end ByteLiteral

namespace Scanner

lemma choose_literal {view : View} (pos : ℕ) (hdef : view.defining = false) (bytes : List UInt8)
    (t : Text) :
    choose view pos '"' (ByteLiteral.writeTail bytes ++ t)
      = .ok (.lexeme ⟨.string, (ByteLiteral.writeTail bytes).length⟩) := by
  rw [choose, if_neg (by decide), if_neg (by decide), if_neg (by decide), if_neg (by decide),
    if_neg (by simp), if_neg (by simp), if_neg (by decide), if_neg (by decide), if_neg (by decide),
    hdef]
  change chooseLiteral view pos '"' (ByteLiteral.writeTail bytes ++ t) = _
  rw [chooseLiteral, if_pos (by decide), ByteLiteral.quoted_writeTail]
  rfl

end Scanner

namespace ByteLiteral

/-- A literal alone is one token. -/
lemma scan_write (bytes : List UInt8) :
    Token.scan (write bytes) = .ok [⟨.string, 0, write bytes⟩] := by
  have hchoose := @Scanner.choose_literal (Scanner.view { rest := write bytes }) 0 rfl bytes []
  rw [List.append_nil] at hchoose
  have hnext := Scanner.next_of_move (s := { rest := write bytes }) rfl hchoose rfl
  have htake : (write bytes).take ((writeTail bytes).length + 1) = write bytes :=
    List.take_of_length_le (by simp [write])
  have hdrop : (write bytes).drop ((writeTail bytes).length + 1) = [] :=
    List.drop_of_length_le (by simp [write])
  rw [Token.scan, Scanner.run_eq_ok_iff.2 ⟨.single hnext, hdrop, rfl⟩]
  change Except.ok [(⟨.string, 0, (write bytes).take ((writeTail bytes).length + 1)⟩ : Token)] = _
  rw [htake]

/-- A byte literal consists of printed characters. Whatever follows it, the scanner finds its end
right after its last quote, and on the way there no frame is open but that of the literal itself; so
the literal alone is read as one string. -/
theorem write_closed (bytes : List UInt8) :
    (∀ c ∈ write bytes, ' ' ≤ c ∧ c ≤ '~') ∧
    (∀ start after,
      Quoting.literal start '"' true ((write bytes).tail ++ after)
        = .ok ((write bytes).length - 1) ∧
      Quoting.Leads (Quoting.opened start '"' true ((write bytes).tail ++ after))
        ⟨[], start + size (write bytes), (write bytes).length - 1, after⟩ ∧
      ∀ x, Quoting.Leads (Quoting.opened start '"' true ((write bytes).tail ++ after)) x →
        ∀ frame ∈ x.frames, frame = .literal start '"' '"' true 0) ∧
    Token.scan (write bytes) = .ok [⟨.string, 0, write bytes⟩] := by
  have hplain := plain_writeTail bytes
  refine ⟨fun c hc => printed_of_mem_write hc, fun start after => ⟨?_, ?_, ?_⟩, scan_write bytes⟩
  · exact hplain.literal_eq start after
  · have hleads := hplain.leads start (start + 1) 0 after
    rw [Nat.zero_add, Nat.add_assoc] at hleads
    exact hleads
  · intro x hx frame hframe
    rcases hplain.frames_eq hx with hnil | hquotes
    · rw [hnil] at hframe
      cases hframe
    · rw [hquotes] at hframe
      exact List.mem_singleton.1 hframe

end ByteLiteral

end TablePack
