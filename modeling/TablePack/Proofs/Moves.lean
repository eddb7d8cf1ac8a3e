import Mathlib.Tactic
import TablePack.Token.Scanner

/-!
# Moves of the scanner

A step of the scanner is taken in two parts. First a move is chosen; the choice looks at the text
ahead, and of the memory of the scanner only at its `View`. Then the move is made, which changes the
memory. `step_eq` says that this is what a step does.

A run is a chain of moves: `Reaches` is the relation between the states along a run,
`run_eq_ok_iff` says which state a run ends in, and `run_eq_error_iff` at which state it fails.
-/

namespace TablePack

open Token (Kind Lexeme)
open Text (isBlank isSpace isNameStart startsWord)

namespace Scanner

/-! ## Choosing a move -/

/-- What the choice of a move looks at in the memory of the scanner. -/
structure View where
  /-- Whether the rest starts a line. -/
  lineStart : Bool
  /-- Whether the next word names the method of a definition. -/
  defining : Bool
  /-- Whether a value comes next. -/
  value : Bool
  /-- Whether the argument of a call may come next. -/
  argument : Bool
deriving DecidableEq

/-- The view of a state. -/
def view (s : Scanner) : View where
  lineStart := s.atLineStart
  defining := Token.inDefName s.recent
  value := Token.valueExpected s.recent
  argument :=
    match s.recent with
    | [] => false
    | t :: _ => t.kind == .ident && t.stop < s.pos && !s.afterLocal

/-- Whether a sign that the character `next` follows may start a literal. -/
def View.allows (v : View) (next : Option Char) : Bool :=
  v.value || v.argument && next.any fun c => !isSpace c && c != '='

/-- The ways in which the scanner goes on. -/
inductive Move where
  /-- It passes over text that is no token. -/
  | skip (n : ℕ)
  /-- It reads a newline, and the bodies of heredocs after it. -/
  | lineBreak
  /-- It reads a token that changes nothing else. -/
  | lexeme (l : Lexeme)
  /-- It reads a word. -/
  | word
  /-- It reads the announcement of a heredoc. -/
  | announce (doc : Heredoc) (n : ℕ)
  /-- It reads an operator or a punctuation sign. -/
  | sign (sign : Sign)

/-- The sign at the start of a text. -/
def chooseSign (pos : ℕ) (c : Char) (t : Text) : Except Fault Move :=
  match Sign.find? (c :: t) with
  | none => .error ⟨pos, .unexpectedCharacter c⟩
  | some sign => .ok (.sign sign)

/-- The percent literal at the start of a text, or a sign where there is none. -/
def choosePercent (pos : ℕ) (c : Char) (t : Text) : Except Fault Move :=
  match Lexeme.percent? pos t with
  | .error fault => .error fault
  | .ok (some l) => .ok (.lexeme l)
  | .ok none => chooseSign pos c t

/-- The literal or the sign at the start of a text. -/
def chooseLiteral (v : View) (pos : ℕ) (c : Char) (t : Text) : Except Fault Move :=
  if c = '"' || c = '`' then (Lexeme.quoted pos c true t).map .lexeme
  else if c = '\'' then (Lexeme.quoted pos c false t).map .lexeme
  else if c = ':' then (Lexeme.colon pos t).map .lexeme
  else if !v.allows t.head? then chooseSign pos c t
  else if c = '?' then
    match Lexeme.character? t with
    | some l => .ok (.lexeme l)
    | none => chooseSign pos c t
  else if c = '%' then choosePercent pos c t
  else if c = '/' then (Lexeme.regexp pos t).map .lexeme
  else if c = '<' then
    match Heredoc.announced? pos t with
    | some (doc, n) => .ok (.announce doc n)
    | none => chooseSign pos c t
  else chooseSign pos c t

/-- The move at a backslash. -/
def chooseJoin (pos : ℕ) (t : Text) : Except Fault Move :=
  match t with
  | '\n' :: _ => .ok (.skip 2)
  | '\r' :: '\n' :: _ => .ok (.skip 3)
  | _ => .error ⟨pos, .unexpectedBackslash⟩

/-- The move at the text `c :: t`. -/
def choose (v : View) (pos : ℕ) (c : Char) (t : Text) : Except Fault Move :=
  if isBlank c then .ok (.skip 1)
  else if c = '\\' then chooseJoin pos t
  else if c = '\n' then .ok .lineBreak
  else if c = '#' then .ok (.lexeme (Lexeme.comment t))
  else if c = '=' && v.lineStart && startsWord "=begin".toList (c :: t) then
    (Lexeme.document pos t).map .lexeme
  else if c = '_' && v.lineStart
      && Text.withoutReturn (Text.line (c :: t)) == "__END__".toList then
    .ok (.skip (t.length + 1))
  else if c.isDigit then (Numeral.read pos (c :: t)).map .lexeme
  else if isNameStart c then .ok .word
  else if c = '@' || c = '$' then (Lexeme.var pos c t).map .lexeme
  else
    match if v.defining then Sign.findMethod? (c :: t) else none with
    | some name => .ok (.lexeme ⟨.ident, name.length - 1⟩)
    | none => chooseLiteral v pos c t

/-! ## Making a move -/

/-- Reads a sign: the names that it assigns to become locals, and it may open a list of
parameters. -/
def readSign (s : Scanner) (sign : Sign) : Scanner :=
  ((s.bindNames (if sign.assigns then Token.targets s.recent else [])).emit
    ⟨sign.kind, sign.text.length - 1⟩).openParams

/-- The state after a move at the text `c :: t`. -/
def perform (s : Scanner) (c : Char) (t : Text) : Move → Except Fault Scanner
  | .skip n => .ok (s.advance n)
  | .lineBreak => s.newline
  | .lexeme l => .ok (s.emit l)
  | .word => .ok (s.word c t)
  | .announce doc n => .ok { s.emit ⟨.string, n⟩ with pending := s.pending ++ [doc] }
  | .sign sign => .ok (s.readSign sign)

lemma literalAllowed_eq (s : Scanner) (next : Option Char) :
    s.literalAllowed next = s.view.allows next := by
  simp only [literalAllowed, startsArgument, View.allows, view]
  congr 1
  cases s.recent with
  | nil => simp
  | cons t older =>
    simp only
    rw [Bool.and_right_comm]

lemma sign_eq (s : Scanner) (c : Char) (t : Text) :
    s.sign c t = (chooseSign s.pos c t).bind (s.perform c t) := by
  simp only [sign, chooseSign]
  cases Sign.find? (c :: t) <;> rfl

lemma percent_eq (s : Scanner) (c : Char) (t : Text) :
    s.percent c t = (choosePercent s.pos c t).bind (s.perform c t) := by
  simp only [percent, choosePercent]
  rcases Lexeme.percent? s.pos t with fault | _ | l
  · rfl
  · exact sign_eq s c t
  · rfl

lemma map_lexeme_bind (s : Scanner) (c : Char) (t : Text) (r : Except Fault Lexeme) :
    r.map s.emit = (r.map Move.lexeme).bind (s.perform c t) := by
  cases r <;> rfl

lemma literalOrSign_eq (s : Scanner) (c : Char) (t : Text) :
    s.literalOrSign c t = (chooseLiteral s.view s.pos c t).bind (s.perform c t) := by
  simp only [literalOrSign, chooseLiteral, literalAllowed_eq]
  split_ifs
  · exact map_lexeme_bind s c t _
  · exact map_lexeme_bind s c t _
  · exact map_lexeme_bind s c t _
  · exact sign_eq s c t
  · cases Lexeme.character? t with
    | none => exact sign_eq s c t
    | some l => rfl
  · exact percent_eq s c t
  · exact map_lexeme_bind s c t _
  · rcases Heredoc.announced? s.pos t with _ | ⟨doc, n⟩
    · exact sign_eq s c t
    · rfl
  · exact sign_eq s c t

lemma continuation_eq (s : Scanner) (c : Char) (t : Text) :
    s.continuation t = (chooseJoin s.pos t).bind (s.perform c t) := by
  unfold continuation
  split
  · rfl
  · rfl
  · rename_i hline hreturn
    rw [chooseJoin]
    · rfl
    · exact hline
    · exact hreturn

lemma ite_bind {α β : Type} (p : Prop) [Decidable p] (a b : Except Fault α)
    (f : α → Except Fault β) : (if p then a else b).bind f = if p then a.bind f else b.bind f := by
  split <;> rfl

lemma methodOrSign_eq (s : Scanner) (c : Char) (t : Text) :
    s.methodOrSign c t
      = (match if s.view.defining then Sign.findMethod? (c :: t) else none with
          | some name => .ok (.lexeme ⟨.ident, name.length - 1⟩)
          | none => chooseLiteral s.view s.pos c t : Except Fault Move).bind (s.perform c t) := by
  have hdef : Token.inDefName s.recent = s.view.defining := rfl
  rw [methodOrSign, hdef]
  rcases if s.view.defining then Sign.findMethod? (c :: t) else none with _ | name
  · exact literalOrSign_eq s c t
  · rfl

/-- A step is the choice of a move, which is then made. -/
lemma step_eq (s : Scanner) (c : Char) (t : Text) :
    s.step c t = (choose s.view s.pos c t).bind (s.perform c t) := by
  have hline : s.atLineStart = s.view.lineStart := rfl
  rw [step, choose, hline, continuation_eq s c t, map_lexeme_bind s c t, map_lexeme_bind s c t,
    map_lexeme_bind s c t, methodOrSign_eq]
  simp only [ite_bind]
  rfl

/-! ## Runs -/

/-- One step from a state to another. -/
def Next (s s' : Scanner) : Prop := ∃ c t, s.rest = c :: t ∧ s.step c t = .ok s'

/-- A state that the scanner comes to from another one. -/
def Reaches : Scanner → Scanner → Prop := Relation.ReflTransGen Next

/-- A step makes a move. -/
lemma Next.exists_move {s s' : Scanner} (h : Next s s') :
    ∃ c t m, s.rest = c :: t ∧ choose s.view s.pos c t = .ok m ∧ s.perform c t m = .ok s' := by
  obtain ⟨c, t, hrest, hstep⟩ := h
  rw [step_eq] at hstep
  rcases hm : choose s.view s.pos c t with fault | m
  · simp [hm, Except.bind] at hstep
  · rw [hm] at hstep
    exact ⟨c, t, m, hrest, hm, hstep⟩

lemma next_of_move {s s' : Scanner} {c : Char} {t : Text} {m : Move} (hrest : s.rest = c :: t)
    (hm : choose s.view s.pos c t = .ok m) (hs : s.perform c t m = .ok s') : Next s s' := by
  refine ⟨c, t, hrest, ?_⟩
  rw [step_eq, hm]
  exact hs

lemma Next.length_lt {s s' : Scanner} (h : Next s s') : s'.rest.length < s.rest.length := by
  obtain ⟨c, t, hrest, hstep⟩ := h
  exact length_step_lt hrest hstep

lemma run_of_next {s s' : Scanner} (h : Next s s') : run s = run s' := by
  obtain ⟨c, t, hrest, hstep⟩ := h
  rw [run]
  split
  · rename_i hnil
    rw [hrest] at hnil
    exact absurd hnil (by simp)
  · rename_i c' t' hcons
    rw [hrest] at hcons
    obtain ⟨rfl, rfl⟩ := List.cons.inj hcons
    split
    · rename_i fault herr
      rw [hstep] at herr
      exact absurd herr (by simp)
    · rename_i s₁ hs₁
      rw [hstep] at hs₁
      rw [Except.ok.inj hs₁]

lemma run_of_reaches {s s' : Scanner} (h : Reaches s s') : run s = run s' := by
  induction h with
  | refl => rfl
  | tail _ hnext ih => rw [ih, run_of_next hnext]

lemma reaches_of_run {s s' : Scanner} (h : run s = .ok s') :
    Reaches s s' ∧ s'.rest = [] ∧ s'.pending = [] := by
  induction hn : s.rest.length using Nat.strong_induction_on generalizing s with
  | _ n ih =>
    rw [run] at h
    split at h
    · rename_i hrest
      split at h
      · rename_i hpending
        cases h
        exact ⟨.refl, hrest, hpending⟩
      · cases h
    · rename_i c t hrest
      split at h
      · cases h
      · rename_i s₁ hstep
        have hnext : Next s s₁ := ⟨c, t, hrest, hstep⟩
        obtain ⟨hreach, hend⟩ := ih _ (hn ▸ hnext.length_lt) h rfl
        exact ⟨Relation.ReflTransGen.head hnext hreach, hend⟩

/-- A run ends in the state that is reached when the text is used up and no heredoc is open. -/
lemma run_eq_ok_iff {s s' : Scanner} :
    run s = .ok s' ↔ Reaches s s' ∧ s'.rest = [] ∧ s'.pending = [] := by
  constructor
  · exact reaches_of_run
  · rintro ⟨hreach, hrest, hpending⟩
    rw [run_of_reaches hreach, run]
    split
    · simp [hpending]
    · rename_i c t hcons
      rw [hrest] at hcons
      exact absurd hcons (by simp)

/-- A state at which a run stops with a fault: the step fails, or the text ends before the body of a
heredoc. -/
inductive Fails (s : Scanner) : Fault → Prop
  | step {c : Char} {t : Text} {fault : Fault} : s.rest = c :: t → s.step c t = .error fault →
      Fails s fault
  | heredoc {doc : Heredoc} {docs : List Heredoc} : s.rest = [] → s.pending = doc :: docs →
      Fails s ⟨doc.start, .unterminatedHeredoc⟩

lemma Fails.run_eq {s : Scanner} {fault : Fault} (h : s.Fails fault) : run s = .error fault := by
  rw [run]
  cases h with
  | step hrest hstep =>
    split
    · rename_i hnil
      rw [hrest] at hnil
      cases hnil
    · rename_i c' t' hcons
      rw [hrest] at hcons
      obtain ⟨rfl, rfl⟩ := List.cons.inj hcons
      split
      · rename_i herr
        exact herr ▸ hstep
      · rename_i hok
        rw [hok] at hstep
        cases hstep
  | heredoc hrest hpending =>
    split
    · simp [hpending]
    · rename_i c' t' hcons
      rw [hrest] at hcons
      cases hcons

lemma fails_of_run {s : Scanner} {fault : Fault} (h : run s = .error fault) :
    ∃ s', Reaches s s' ∧ s'.Fails fault := by
  induction hn : s.rest.length using Nat.strong_induction_on generalizing s with
  | _ n ih =>
    rw [run] at h
    split at h
    · rename_i hrest
      split at h
      · cases h
      · rename_i doc docs hpending
        cases h
        exact ⟨s, .refl, .heredoc hrest hpending⟩
    · rename_i c t hrest
      split at h
      · rename_i fault' hstep
        cases h
        exact ⟨s, .refl, .step hrest hstep⟩
      · rename_i s₁ hstep
        have hnext : Next s s₁ := ⟨c, t, hrest, hstep⟩
        obtain ⟨s', hreach, hfails⟩ := ih _ (hn ▸ hnext.length_lt) h rfl
        exact ⟨s', Relation.ReflTransGen.head hnext hreach, hfails⟩

lemma run_cons {s : Scanner} {c : Char} {t : Text} (hrest : s.rest = c :: t) :
    s.run = (s.step c t).bind run := by
  cases hstep : s.step c t with
  | ok s₁ => exact run_of_next ⟨c, t, hrest, hstep⟩
  | error fault => exact (Fails.step hrest hstep).run_eq

lemma run_nil {s : Scanner} (hrest : s.rest = []) :
    s.run = match s.pending with
      | [] => .ok s
      | doc :: _ => .error ⟨doc.start, .unterminatedHeredoc⟩ := by
  rw [run]
  split
  · rfl
  · rename_i hcons
    rw [hrest] at hcons
    cases hcons

/-- A run ends with a fault where it comes to a state that has it. -/
lemma run_eq_error_iff {s : Scanner} {fault : Fault} :
    run s = .error fault ↔ ∃ s', Reaches s s' ∧ s'.Fails fault := by
  constructor
  · exact fails_of_run
  · rintro ⟨s', hreach, hfails⟩
    rw [run_of_reaches hreach, hfails.run_eq]

end Scanner

end TablePack
