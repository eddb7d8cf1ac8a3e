import Mathlib.Tactic
import TablePack.Proofs.Buffer.Scan
import TablePack.Proofs.Faults

/-!
# Trees from a buffer and from a text

The parser goes through the tokens by position. Its positions stay in the array, and its count of
open parentheses stays above zero, so it builds the tree of the text (`Parser.parse_ofText`).

Reading bytes thus panics at one place only: where a token is cut out of the buffer and its end lies
inside a character (`Parser.parse_eq_panic_iff`). Without percent literals that a character outside
ASCII delimits this does not happen, and the bytes of every text have a tree or an error at one of
its characters (`Parser.parse_total`).
-/

namespace TablePack

open Token (Kind)

namespace Parser

/-- The tokens from a position on. -/
def Ahead (tokens : Array Token) (pos : ℕ) (after : List Token) : Prop :=
  ∃ before, tokens = (before ++ after).toArray ∧ before.length = pos

section

variable {tokens : Array Token} {pos : ℕ} {t : Token} {after : List Token}

lemma Ahead.size_eq (h : Ahead tokens pos after) : tokens.size = pos + after.length := by
  obtain ⟨before, rfl, rfl⟩ := h
  simp

lemma Ahead.cons (h : Ahead tokens pos (t :: after)) : Ahead tokens (pos + 1) after := by
  obtain ⟨before, rfl, rfl⟩ := h
  exact ⟨before ++ [t], by simp, by simp⟩

lemma Ahead.getElem? (h : Ahead tokens pos after) : tokens[pos]? = after.head? := by
  obtain ⟨before, rfl, rfl⟩ := h
  rw [List.getElem?_toArray, List.getElem?_append_right le_rfl, Nat.sub_self,
    List.head?_eq_getElem?]

lemma Ahead.item (h : Ahead tokens pos (t :: after)) : Checked.item tokens pos = .ok t := by
  rw [Checked.item, h.getElem?]
  rfl

lemma Ahead.tail (h : Ahead tokens pos after) : Checked.tail tokens pos = .ok after.toArray := by
  have hsize := h.size_eq
  obtain ⟨before, rfl, rfl⟩ := h
  rw [Checked.tail, Checked.part, if_pos ⟨by omega, le_rfl⟩]
  simp

/-! ## Looking ahead -/

lemma dotFollows_eq (h : Ahead tokens pos after) :
    dotFollows tokens pos = .ok (Tree.dotFollows after) := by
  rw [dotFollows, h.tail]
  rfl

lemma ahead_skipWhile (p : Token → Bool) (h : Ahead tokens pos after) :
    Ahead tokens (skipWhile tokens p pos) (after.dropWhile p) := by
  induction after generalizing pos with
  | nil =>
    have hsize := h.size_eq
    rw [skipWhile, if_neg (by simp [hsize])]
    exact h
  | cons t after ih =>
    have hsize := h.size_eq
    rw [List.length_cons] at hsize
    rw [skipWhile, if_pos (by omega), h.getElem?, List.dropWhile_cons]
    cases hp : p t with
    | true =>
      rw [if_pos (by simp [hp]), if_pos rfl]
      exact ih h.cons
    | false =>
      rw [if_neg (by simp [hp]), if_neg Bool.false_ne_true]
      exact h

/-- The count of open parentheses stays above zero until the last of them is closed. -/
lemma afterParens_eq (depth : ℕ) (h : Ahead tokens pos after)
    (hdepth : 0 < depth ∨ after.head?.any fun t => t.kind == .lparen) :
    ∃ i, afterParens tokens depth pos = .ok i ∧
      Ahead tokens i (Tree.afterParens depth after) := by
  induction after generalizing pos depth with
  | nil =>
    have hsize := h.size_eq
    rw [afterParens, if_neg (by simp [hsize])]
    exact ⟨pos, rfl, h⟩
  | cons t after ih =>
    have hsize := h.size_eq
    rw [List.length_cons] at hsize
    rw [afterParens, if_pos (by omega), h.item, Checked.ok_bind, Tree.afterParens]
    cases hkind : t.kind with
    | lparen => exact ih _ h.cons (.inl (Nat.succ_pos depth))
    | rparen =>
      have hpos : 0 < depth := by simpa [hkind] using hdepth
      rw [Checked.minus, if_pos (Nat.succ_le_of_lt hpos), Checked.ok_bind]
      dsimp only
      by_cases hlast : depth ≤ 1
      · rw [if_pos (by omega), if_pos hlast]
        exact ⟨pos + 1, rfl, h.cons⟩
      · rw [if_neg (by omega), if_neg hlast]
        exact ih _ h.cons (.inl (by omega))
    | _ =>
      have hpos : 0 < depth := by simpa [hkind] using hdepth
      exact ih _ h.cons (.inl hpos)

lemma isEndless_eq (h : Ahead tokens pos after) :
    isEndless tokens pos = .ok (Tree.isEndless after) := by
  have hnamed := ahead_skipWhile (fun t =>
    t.kind == .ident || t.kind == .const || t.kind == .var || t.kind == .dot) h
  rw [isEndless, Tree.isEndless, afterList, hnamed.getElem?]
  split
  · rename_i hparen
    obtain ⟨i, hi, hahead⟩ := afterParens_eq 0 hnamed (.inr hparen)
    rw [hi, Checked.ok_bind, hahead.getElem?]
    rfl
  · rw [Checked.ok_bind, hnamed.getElem?]
    rfl

lemma opensBlock_eq (k : Keyword) (before : List Node) (h : Ahead tokens pos after) :
    opensBlock tokens k before pos = .ok (Tree.opensBlock k before after) := by
  cases k <;> first | rfl | (rw [opensBlock, isEndless_eq h]; rfl)

/-! ## Building -/

variable {f : Tree.Frame} {stack : Tree.Stack} {source : Text}

lemma place_eq (h : Ahead tokens pos after) :
    place tokens f stack t pos = .ok (Tree.place f stack t after) := by
  unfold place Tree.place
  by_cases hbracket : Tree.isBracket t.kind
  · rw [if_pos hbracket, if_pos hbracket]
  rw [if_neg hbracket, if_neg hbracket]
  cases t.kind with
  | keyword k =>
    dsimp only
    rw [opensBlock_eq k f.current h, Checked.ok_bind]
    split
    · rfl
    · cases Tree.opensBlock k f.current after <;> rfl
  | _ => rfl

lemma step_ofText (h : Ahead tokens pos after) :
    step tokens (.ofText source) f stack t pos
      = .ofResult source id (Tree.step f stack t after) := by
  unfold step Tree.step
  by_cases hnewline : t.kind = .newline
  · rw [if_pos hnewline, if_pos hnewline, dotFollows_eq h, Checked.ok_bind]
    cases Tree.newlineEnds stack && !f.continues <;> cases Tree.dotFollows after <;> rfl
  rw [if_neg hnewline, if_neg hnewline]
  by_cases hsemi : t.kind = .semi
  · rw [if_pos hsemi, if_pos hsemi]
    rfl
  rw [if_neg hsemi, if_neg hsemi]
  by_cases hcloser : Tree.isCloser t.kind
  · rw [if_pos hcloser, if_pos hcloser]
    have hfail : (Buffer.ofText source).fail t.start (.unexpectedCloser t.text)
        = .ofResult source (id : Tree.Frame × Tree.Stack → _) _ :=
      Buffer.fail_eq_ofResult _ (by simp) _
    cases stack with
    | nil => exact hfail
    | cons level levels =>
      dsimp only
      split
      · rfl
      · exact hfail
  rw [if_neg hcloser, if_neg hcloser, place_eq h]
  rfl

lemma build_ofText (h : Ahead tokens pos after) :
    build tokens (.ofText source) f stack pos = .ofResult source id (Tree.build f stack after) := by
  induction after generalizing pos f stack with
  | nil =>
    have hsize := h.size_eq
    unfold build Tree.build
    rw [if_neg (by simp [hsize])]
    cases stack with
    | nil => rfl
    | cons level levels =>
      exact Buffer.fail_eq_ofResult (.unclosedOpener level.1.text) (by simp) id
  | cons t after ih =>
    have hsize := h.size_eq
    rw [List.length_cons] at hsize
    unfold build
    rw [if_pos (by omega), h.item, Checked.ok_bind, step_ofText h.cons, Tree.build]
    cases Tree.step f stack t after with
    | error fault => rfl
    | ok placed => exact ih h.cons

/-- The buffer of a text has the tree of the text, and where it has none it fails as the text does.
-/
lemma parse_ofText (source : Text) :
    parse (.ofText source) = .ofResult source id (Tree.ofText source) := by
  rw [parse, lex_ofText, Tree.ofText]
  cases Token.lex source with
  | error fault => rfl
  | ok tokens => exact build_ofText ⟨[], rfl, rfl⟩

end

/-! ## Panics -/

/-- The bytes of a text lead to a panic exactly if a literal of the text ends inside a character. -/
theorem parse_eq_panic_iff (source : Text) (kind : Panic) :
    parse (.ofText source) = .error (.panic kind) ↔
      kind = .boundary ∧ ∃ offset, Tree.ofText source = .error ⟨offset, .splitCharacter⟩ := by
  rw [parse_ofText]
  cases Tree.ofText source with
  | ok body => simp [Checked.ofResult]
  | error fault =>
    obtain ⟨offset, problem⟩ := fault
    by_cases hproblem : problem = .splitCharacter
    · simp [Checked.ofResult, Stop.ofFault, hproblem, eq_comm]
    · simp [Checked.ofResult, Stop.ofFault, hproblem]

example : lex (.ofText "%é é".toList) = .error (.panic .boundary) :=
  (lex_ofText _).trans (by decide +kernel)

/-- Where no percent sign stands before a delimiter outside ASCII, reading the bytes of a text by
their positions ends without a panic. Either they have the tokens and the tree of the text, and
every token lies in the text between two characters; or there is an error, whose line and column are
those of an offset inside the text, at which a character starts. -/
theorem parse_total {source : Text} (hnarrow : source.narrowPercents) :
    (∃ scanned body, scan (.ofText source) = .ok scanned ∧ Token.scan source = .ok scanned ∧
        Token.Stream source scanned ∧ parse (.ofText source) = .ok body ∧
        Tree.ofText source = .ok body ∧ ∀ t ∈ Node.bodyTokens body, t.Placed source) ∨
      ∃ fault position,
        parse (.ofText source) = .error (.error (.invalidSource position fault.problem)) ∧
        Tree.ofText source = .error fault ∧ position = Text.position source fault.offset ∧
        Text.offset? source position = some fault.offset ∧ source.Starts fault.offset ∧
        fault.offset < (Buffer.ofText source).size := by
  rcases Tree.ofText_total hnarrow with
    ⟨scanned, body, hscan, hstream, hbody, hplaced⟩ |
      ⟨fault, position, hfault, hwhole, herror, hposition, hoffset, hstarts, hlt⟩
  · refine .inl ⟨scanned, body, ?_, hscan, hstream, ?_, hbody, hplaced⟩
    · rw [scan_ofText, hscan]
      rfl
    · rw [parse_ofText, hbody]
      rfl
  · refine .inr ⟨fault, position, ?_, hfault, hposition, hoffset, hstarts, ?_⟩
    · rw [parse_ofText, hfault, Checked.ofResult, Stop.ofFault, if_neg hwhole, herror]
    · rwa [Buffer.size_ofText]

/-- Characters of several bytes after backslashes and in a literal, and then a string inside
interpolated code that nothing closes. -/
theorem parse_total_interpolation :
    (∃ body, parse (.ofText "%w(é) = \"\\ü\"".toList) = .ok body) ∧
      ∃ position, parse (.ofText "%w(é) = \"ü\\\n#\x7b\"ö".toList)
          = .error (.error (.invalidSource position .unterminatedLiteral)) ∧
        Text.offset? "%w(é) = \"ü\\\n#\x7b\"ö".toList position = some 16 := by
  constructor
  · rcases @parse_total "%w(é) = \"\\ü\"".toList (by decide) with
      ⟨-, body, -, -, -, hbody, -⟩ | ⟨fault, -, -, hfault, -⟩
    · exact ⟨body, hbody⟩
    · have hok : (Tree.ofText "%w(é) = \"\\ü\"".toList).isOk := by decide +kernel
      rw [hfault] at hok
      cases hok
  · have hfault : Tree.ofText "%w(é) = \"ü\\\n#\x7b\"ö".toList
        = .error ⟨16, .unterminatedLiteral⟩ := by
      have hlex : Token.lex "%w(é) = \"ü\\\n#\x7b\"ö".toList
          = .error ⟨16, .unterminatedLiteral⟩ := by decide +kernel
      rw [Tree.ofText, hlex]
    rcases @parse_total "%w(é) = \"ü\\\n#\x7b\"ö".toList (by decide) with
      ⟨-, body, -, -, -, -, hbody, -⟩ | ⟨fault, position, hparse, hfault', -, hoffset, -⟩
    · rw [hfault] at hbody
      cases hbody
    · rw [hfault] at hfault'
      cases hfault'
      exact ⟨position, hparse, hoffset⟩

end Parser

end TablePack
