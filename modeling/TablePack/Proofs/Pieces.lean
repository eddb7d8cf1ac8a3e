import Mathlib.Tactic
import TablePack.Proofs.Closing
import TablePack.Proofs.Layout
import TablePack.Proofs.Lookahead

/-!
# Reading a text piece by piece

A text that is written token by token, with blanks between some of them, is read back token by
token. `Fits` says when a piece is read as the token it is meant to be. This depends on the text
that follows it, on the kind of the token before it and on the character before it; of all else that
the scanner remembers it only matters that no method is being defined. So `Fitting` can be checked
along a list of pieces, and the scanner need not be mentioned again.

* `Scanner.exists_took`: the scanner takes one piece;
* `Scanner.exists_reaches`: it takes all pieces of a fitting list;
* `Token.lex_textOf`: the tokens of a text that consists of fitting pieces.
-/

namespace TablePack

open Token (Kind Lexeme)
open Text (size isNameStart isNameChar)

/-! ## Numerals -/

namespace Numeral

/-- Decimal digits that a comma or a bracket follows. -/
lemma read_digits (pos : ℕ) {c : Char} {w after : Text} (hc : c.isDigit)
    (hw : ∀ d ∈ w, d.isDigit) (hzero : c = '0' → w = [])
    (hafter : ∀ d ∈ after.head?, d = ',' ∨ d = ']') :
    read pos (c :: (w ++ after)) = .ok ⟨.int, w.length⟩ := by
  have hradix : radix? (c :: (w ++ after)) = none := by
    by_cases h0 : c = '0'
    · subst h0
      rw [hzero rfl, List.nil_append]
      cases after with
      | nil => rfl
      | cons d u =>
        rcases hafter d rfl with rfl | rfl <;> rfl
    · unfold radix?
      split
      · rename_i heq
        exact absurd (List.cons.inj heq).1 h0
      · rfl
  have hspan : Text.span Text.isDigitOrScore (c :: (w ++ after)) = w.length + 1 := by
    have hrun : ∀ d ∈ c :: w, Text.isDigitOrScore d := by
      intro d hd
      have hdigit : d.isDigit := (List.mem_cons.1 hd).elim (fun h => h ▸ hc) (hw d)
      simp [Text.isDigitOrScore, hdigit]
    have hrest : ∀ d ∈ after.head?, Text.isDigitOrScore d = false := by
      intro d hd
      rcases hafter d hd with rfl | rfl <;> rfl
    rw [Text.span, ← List.cons_append, Text.takeWhile_exact hrun hrest]
    rfl
  have hdrop : (c :: (w ++ after)).drop (w.length + 1) = after := by
    rw [List.drop_succ_cons, List.drop_left]
  -- nothing of what follows belongs to the numeral
  have hfraction : fraction after = 0 := by
    apply fraction_of_head?_ne
    intro hdot
    rcases hafter '.' hdot with h | h <;> cases h
  have hexponent : exponent after = 0 := by
    cases after with
    | nil => rfl
    | cons d u => rcases hafter d rfl with rfl | rfl <;> rfl
  have hsuffix : suffix after = 0 := by
    cases after with
    | nil => rfl
    | cons d u => rcases hafter d rfl with rfl | rfl <;> rfl
  have hname : Text.continuesName after = false := by
    cases after with
    | nil => rfl
    | cons d u => rcases hafter d rfl with rfl | rfl <;> rfl
  have hbody : body (c :: (w ++ after)) = .ok (.int, w.length + 1) := by
    rw [body, hradix]
    simp only [unmarked, hspan, hdrop, hfraction, hexponent, Nat.add_zero, ne_eq, not_true,
      if_false]
    rw [if_neg]
    simp only [List.head?_cons, Bool.and_eq_true, decide_eq_true_eq, beq_iff_eq, Option.some.injEq,
      not_and]
    intro hlen
    rw [hzero hlen.2] at hlen
    exact absurd hlen.1 (by simp)
  rw [read, hbody]
  simp only [hdrop, hsuffix, Nat.add_zero, hname, if_true, Nat.add_sub_cancel]
  rfl

lemma head_toDigits {n : ℕ} {c : Char} {w : Text} (h : Nat.toDigits 10 n = c :: w) :
    c = '0' → w = [] := by
  rintro rfl
  induction n using Nat.strong_induction_on generalizing w with
  | _ n ih =>
    rcases Nat.lt_or_ge n 10 with hlt | hge
    · rw [Nat.toDigits_of_lt_base hlt] at h
      exact (List.cons.inj h).2.symm
    · rw [Nat.toDigits_of_base_le (by norm_num) hge] at h
      -- the leading digit of the number without its last digit is not zero
      obtain ⟨d, u, hdu⟩ := List.exists_cons_of_ne_nil
        (List.length_pos_iff.1 (Nat.length_toDigits_pos (b := 10) (n := n / 10)))
      rw [hdu, List.cons_append] at h
      obtain ⟨rfl, -⟩ := List.cons.inj h
      have hnil := ih (n / 10) (by omega) hdu
      rw [hnil] at hdu
      have hvalue := Nat.ofDigitChars_toDigits (b := 10) (n := n / 10) (by norm_num) le_rfl
      rw [hdu] at hvalue
      have : n / 10 = 0 := hvalue.symm
      omega

end Numeral

/-! ## Pieces -/

/-- A piece of a text: a token of some kind, or blanks between tokens. -/
structure Piece where
  kind? : Option Kind
  text : Text

namespace Piece

/-- The text of a list of pieces. -/
def textOf (pieces : List Piece) : Text := pieces.flatMap text

/-- The tokens of a list of pieces that starts at byte `pos`. -/
def tokensAt (pos : ℕ) : List Piece → List Token
  | [] => []
  | p :: ps =>
    (p.kind?.map fun kind => ⟨kind, pos, p.text⟩).toList ++ tokensAt (pos + size p.text) ps

@[simp] lemma textOf_nil : textOf [] = [] := rfl

@[simp] lemma textOf_cons (p : Piece) (ps : List Piece) :
    textOf (p :: ps) = p.text ++ textOf ps := rfl

@[simp] lemma textOf_append (ps qs : List Piece) : textOf (ps ++ qs) = textOf ps ++ textOf qs :=
  List.flatMap_append

lemma tokensAt_append (pos : ℕ) (ps qs : List Piece) :
    tokensAt pos (ps ++ qs) = tokensAt pos ps ++ tokensAt (pos + size (textOf ps)) qs := by
  induction ps generalizing pos with
  | nil => simp [tokensAt]
  | cons p ps ih =>
    rw [List.cons_append, tokensAt, tokensAt, ih, textOf_cons, Text.size_append, List.append_assoc,
      Nat.add_assoc]

lemma exists_piece_of_mem {pos : ℕ} {ps : List Piece} {t : Token} (ht : t ∈ tokensAt pos ps) :
    ∃ p ∈ ps, p.kind? = some t.kind ∧ p.text = t.text := by
  induction ps generalizing pos with
  | nil => cases ht
  | cons p ps ih =>
    rw [tokensAt, List.mem_append] at ht
    rcases ht with ht | ht
    · obtain ⟨kind, hkind, rfl⟩ := Option.map_eq_some_iff.1 (Option.mem_toList.1 ht)
      exact ⟨p, List.mem_cons_self, hkind, rfl⟩
    · obtain ⟨q, hq, hread⟩ := ih ht
      exact ⟨q, List.mem_cons_of_mem _ hq, hread⟩

/-- A number of spaces. -/
def blanks (n : ℕ) : Piece := ⟨none, List.replicate n ' '⟩

def newline : Piece := ⟨some .newline, ['\n']⟩

/-- The kind of a word, after a token of kind `last`. -/
def wordKind (last : Option Kind) (word : Text) : Kind :=
  if word.head?.any Char.isUpper then .const
  else if last = some .dot then .ident
  else (Keyword.ofText? word).elim .ident .keyword

def ident (text : Text) : Piece := ⟨some .ident, text⟩

def const (text : Text) : Piece := ⟨some .const, text⟩

/-- A decimal number. -/
def decimal (n : ℕ) : Piece := ⟨some .int, Nat.toDigits 10 n⟩

/-- A byte literal. -/
def literal (bytes : List UInt8) : Piece := ⟨some .string, ByteLiteral.write bytes⟩

def dot : Piece := ⟨some .dot, ['.']⟩

def comma : Piece := ⟨some .comma, [',']⟩

def assign : Piece := ⟨some .assign, ['=']⟩

def colons : Piece := ⟨some .colons, [':', ':']⟩

def lparen : Piece := ⟨some .lparen, ['(']⟩

def rparen : Piece := ⟨some .rparen, [')']⟩

/-- An opening bracket that builds an array. -/
def lbracket : Piece := ⟨some .arrayBracket, ['[']⟩

def rbracket : Piece := ⟨some .rbracket, [']']⟩

/-- Pieces with a comma and a space between them. -/
def joined : List Piece → List Piece
  | [] => []
  | [p] => [p]
  | p :: ps => p :: comma :: blanks 1 :: joined ps

lemma textOf_joined (ps : List Piece) :
    textOf (joined ps) = [',', ' '].intercalate (ps.map text) := by
  induction ps with
  | nil => rfl
  | cons p ps ih =>
    cases ps with
    | nil => simp [joined]
    | cons q ps =>
      have hcons : [',', ' '].intercalate ((p :: q :: ps).map text)
          = p.text ++ ([',', ' '] ++ [',', ' '].intercalate ((q :: ps).map text)) := rfl
      rw [hcons, ← ih]
      rfl

lemma mem_joined {p : Piece} {ps : List Piece} (h : p ∈ joined ps) :
    p ∈ ps ∨ p = comma ∨ p = blanks 1 := by
  induction ps with
  | nil => cases h
  | cons q ps ih =>
    cases ps with
    | nil => exact .inl h
    | cons r ps =>
      rw [joined] at h
      · simp only [List.mem_cons] at h ih ⊢
        tauto
      · simp

/-- A piece that is read as such before the text `after`, where the token before it has the kind
`last`, and `previous` is the character before it. -/
inductive Fits (last : Option Kind) (previous : Char) (after : Text) : Piece → Prop
  | blanks (n : ℕ) : Fits last previous after (blanks n)
  | newline : Fits last previous after newline
  | word {c : Char} {w : Text} {kind : Kind} : isNameStart c → (∀ d ∈ w, isNameChar d) →
      (c = '_' → previous ≠ '\n') →
      (∀ d ∈ after.head?, isNameChar d = false ∧ d ≠ '?' ∧ d ≠ '!') →
      Scanner.startsLabel after = false → wordKind last (c :: w) = kind → kind ≠ .keyword .def_ →
      Fits last previous after ⟨some kind, c :: w⟩
  | decimal (n : ℕ) : (∀ d ∈ after.head?, d = ',' ∨ d = ']') → Fits last previous after (decimal n)
  | literal (bytes : List UInt8) : Fits last previous after (literal bytes)
  | dot : after.head? ≠ some '.' → Fits last previous after dot
  | comma : Fits last previous after comma
  | assign : after.head? = some ' ' → Fits last previous after assign
  | colons : Fits last previous after colons
  | lparen : Fits last previous after lparen
  | rparen : Fits last previous after rparen
  | lbracket : (∀ kind ∈ last, kind.endsPrimary = false) → Fits last previous after lbracket
  | rbracket : Fits last previous after rbracket

/-- Pieces that are read one after another, before the text `after`. -/
def Fitting (after : Text) : Option Kind → Char → List Piece → Prop
  | _, _, [] => True
  | last, previous, p :: ps =>
    Fits last previous (textOf ps ++ after) p ∧
      Fitting after (p.kind?.or last) (p.text.getLast?.getD previous) ps

/-- The kind of the newest token after some pieces. -/
def lastKind (last : Option Kind) (ps : List Piece) : Option Kind :=
  ps.foldl (fun last p => p.kind?.or last) last

/-- The character before what follows some pieces. -/
def lastChar (previous : Char) (ps : List Piece) : Char :=
  ps.foldl (fun previous p => p.text.getLast?.getD previous) previous

lemma fitting_append {after : Text} {last : Option Kind} {previous : Char} {ps qs : List Piece} :
    Fitting after last previous (ps ++ qs) ↔
      Fitting (textOf qs ++ after) last previous ps ∧
        Fitting after (lastKind last ps) (lastChar previous ps) qs := by
  induction ps generalizing last previous with
  | nil => simp [Fitting, lastKind, lastChar]
  | cons p ps ih =>
    rw [List.cons_append, Fitting, Fitting, ih, textOf_append, List.append_assoc, and_assoc]
    rfl

end Piece

/-! ## Taking a piece -/

namespace Scanner

/-- The kind under which a token is read at first, before the brackets are told apart. -/
def scanned : Kind → Kind
  | .arrayBracket => .lbracket
  | kind => kind

/-- The state of the scanner before a piece, as far as it matters. -/
structure Ready (s : Scanner) (last : Option Kind) (previous : Char) : Prop where
  kind_eq : Token.kindAt? s.recent 0 = last.map scanned
  previous_eq : s.previous = previous
  not_def : ∀ t ∈ s.recent.take 3, t.kind ≠ .keyword .def_

/-- The scanner comes from one state to another by reading a piece. -/
structure Took (s : Scanner) (p : Piece) (after : Text) (s' : Scanner) : Prop where
  reaches : Reaches s s'
  rest_eq : s'.rest = after
  pos_eq : s'.pos = s.pos + size p.text
  previous_eq : s'.previous = p.text.getLast?.getD s.previous
  recent_eq : s'.recent
    = (p.kind?.map fun kind => (⟨scanned kind, s.pos, p.text⟩ : Token)).toList ++ s.recent
  pending_eq : s'.pending = s.pending

variable {s : Scanner} {last : Option Kind} {previous : Char} {after : Text}

lemma Ready.inDefName_eq (h : Ready s last previous) : Token.inDefName s.recent = false := by
  have hkind : ∀ n < 3, (Token.kindAt? s.recent n == some (.keyword .def_)) = false := by
    intro n hn
    rw [beq_eq_false_iff_ne, Token.kindAt?]
    intro hsome
    obtain ⟨t, ht, hdef⟩ := Option.map_eq_some_iff.1 hsome
    rw [← List.getElem?_take_of_lt hn] at ht
    exact h.not_def t (List.mem_of_getElem? ht) hdef
  rw [Token.inDefName, hkind 0 (by decide), hkind 2 (by decide), Bool.and_false, Bool.or_false]

lemma Ready.defining_eq (h : Ready s last previous) : s.view.defining = false := h.inDefName_eq

lemma Ready.dot_iff (h : Ready s last previous) :
    Token.kindAt? s.recent 0 = some .dot ↔ last = some .dot := by
  rw [h.kind_eq]
  cases last with
  | none => simp
  | some kind => cases kind <;> simp [scanned]

/-- A move that reads a token, whatever it does to the local variables. -/
lemma took_emit {c : Char} {w : Text} {m : Move} {kind : Kind} {locals : List Text}
    {params : Option Parameters} (hrest : s.rest = c :: (w ++ after))
    (hm : choose s.view s.pos c (w ++ after) = .ok m)
    (hs : s.perform c (w ++ after) m
      = .ok { s.emit ⟨scanned kind, w.length⟩ with locals := locals, params := params })
    (hkind : scanned kind ≠ .comment) :
    ∃ s', Took s ⟨some kind, c :: w⟩ after s' := by
  have htake : s.rest.take (w.length + 1) = c :: w := by
    rw [hrest, List.take_succ_cons, List.take_left]
  refine ⟨_, .single (next_of_move hrest hm hs), ?_, ?_, ?_, ?_, ?_⟩
  · change s.rest.drop (w.length + 1) = after
    rw [hrest, List.drop_succ_cons, List.drop_left]
  · change s.pos + size (s.rest.take (w.length + 1)) = _
    rw [htake]
  · change (s.rest.take (w.length + 1)).getLast?.getD s.previous = _
    rw [htake]
  · change (if scanned kind = .comment then s.recent
      else ⟨scanned kind, s.pos, s.rest.take (w.length + 1)⟩ :: s.recent) = _
    rw [if_neg hkind, htake]
    rfl
  · rfl

lemma took_blanks (n : ℕ) (h : Ready s last previous)
    (hrest : s.rest = List.replicate n ' ' ++ after) : ∃ s', Took s (Piece.blanks n) after s' := by
  induction n generalizing s previous with
  | zero =>
    exact ⟨s, .refl, hrest, by simp [Piece.blanks], by simp [Piece.blanks], rfl, rfl⟩
  | succ n ih =>
    -- a space is passed over, and the rest of them after it
    rw [List.replicate_succ, List.cons_append] at hrest
    have hnext : Next s (s.advance 1) := next_of_move hrest (m := .skip 1) rfl rfl
    have hready : Ready (s.advance 1) last ' ' := by
      refine ⟨h.kind_eq, ?_, h.not_def⟩
      simp [advance, hrest]
    obtain ⟨s', htook⟩ := ih hready (by rw [rest_advance, hrest]; rfl)
    refine ⟨s', .head hnext htook.reaches, htook.rest_eq, ?_, ?_, htook.recent_eq,
      htook.pending_eq⟩
    · rw [htook.pos_eq]
      simp [advance, hrest, Piece.blanks, List.replicate_succ]
      omega
    · rw [htook.previous_eq]
      simp [advance, hrest, Piece.blanks, List.replicate_succ, List.getLast?_cons]

lemma took_newline (hpending : s.pending = []) (hrest : s.rest = '\n' :: after) :
    ∃ s', Took s Piece.newline after s' := by
  have hbodies : Heredoc.bodiesLength s.pending (s.rest.drop 1) = .ok 0 := by
    rw [hpending]
    rfl
  have hnext : Next s { (s.emit ⟨.newline, 0⟩).advance 0 with pending := [] } :=
    next_of_move hrest (m := .lineBreak) rfl (newline_of_bodies hbodies)
  refine ⟨_, .single hnext, ?_, ?_, ?_, ?_, hpending.symm⟩
  · simp [advance, emit, hrest]
  · simp [advance, emit, hrest, Piece.newline]
  · simp [advance, emit, hrest, Piece.newline]
  · simp [advance, emit, hrest, Piece.newline, scanned]

/-! ## Words and numbers -/

lemma choose_digit {view : View} (pos : ℕ) {c : Char} (hc : c.isDigit) (t : Text) :
    choose view pos c t = (Numeral.read pos (c :: t)).map .lexeme := by
  have hne : ∀ d : Char, d.isDigit = false → c ≠ d := by
    rintro d hd rfl
    rw [hc] at hd
    cases hd
  have hblank : Text.isBlank c = false := by
    simp [Text.isBlank, hne]
  rw [choose, if_neg (by simp [hblank]), if_neg (hne _ rfl), if_neg (hne _ rfl), if_neg (hne _ rfl),
    if_neg (by simp [hne]), if_neg (by simp [hne]), if_pos hc]

lemma took_decimal (n : ℕ) (hafter : ∀ d ∈ after.head?, d = ',' ∨ d = ']')
    (hrest : s.rest = Nat.toDigits 10 n ++ after) : ∃ s', Took s (Piece.decimal n) after s' := by
  have hdigits : ∀ c ∈ Nat.toDigits 10 n, c.isDigit := by
    intro c hc
    exact Nat.isDigit_of_mem_toDigits (by norm_num) le_rfl hc
  obtain ⟨c, w, hcw⟩ := List.exists_cons_of_ne_nil
    (List.length_pos_iff.1 (Nat.length_toDigits_pos (b := 10) (n := n)))
  rw [hcw] at hdigits hrest
  rw [Piece.decimal, hcw]
  have hc := hdigits c List.mem_cons_self
  have hread := Numeral.read_digits s.pos hc (fun d hd => hdigits d (List.mem_cons_of_mem _ hd))
    (Numeral.head_toDigits hcw) hafter
  refine took_emit (m := .lexeme ⟨.int, w.length⟩) hrest ?_ rfl (by decide)
  rw [choose_digit _ hc, hread]
  rfl

lemma isDigit_of_isNameStart {c : Char} (hc : isNameStart c) : c.isDigit = false := by
  rw [Bool.eq_false_iff]
  intro hdigit
  rw [Text.isDigit_iff] at hdigit
  simp only [isNameStart, Text.isWide, Bool.or_eq_true, Text.isAlpha_iff, Text.isUpper_iff,
    Text.isLower_iff, beq_iff_eq, decide_eq_true_eq] at hc
  rcases hc with ((hc | hc) | rfl) | hc
  · omega
  · omega
  · exact absurd hdigit (by decide)
  · omega

/-- A word is read where a name starts, unless the line is the marker that ends a program. -/
lemma choose_nameStart {view : View} (pos : ℕ) {c : Char} (hc : isNameStart c) {t : Text}
    (hline : c = '_' → view.lineStart →
      Text.withoutReturn (Text.line (c :: t)) ≠ "__END__".toList) :
    choose view pos c t = .ok .word := by
  have hne : ∀ d : Char, isNameStart d = false → c ≠ d := by
    rintro d hd rfl
    rw [hc] at hd
    cases hd
  have hblank : Text.isBlank c = false := by
    simp [Text.isBlank, hne _ (by decide : isNameStart ' ' = false),
      hne _ (by decide : isNameStart '\t' = false), hne _ (by decide : isNameStart '\r' = false),
      hne _ (by decide : isNameStart '\x0b' = false),
      hne _ (by decide : isNameStart '\x0c' = false)]
  -- an underscore may start the marker that ends a program, but only at the start of a line
  have hend : ¬ ((c = '_' && view.lineStart
      && Text.withoutReturn (Text.line (c :: t)) == "__END__".toList) = true) := by
    simp only [Bool.and_eq_true, decide_eq_true_eq, beq_iff_eq]
    rintro ⟨⟨hscore, hstart⟩, hmarker⟩
    exact hline hscore hstart hmarker
  rw [choose, if_neg (by simp [hblank]), if_neg (hne _ (by decide)), if_neg (hne _ (by decide)),
    if_neg (hne _ (by decide)), if_neg (by simp [hne _ (by decide : isNameStart '=' = false)]),
    if_neg hend, if_neg (by simp [isDigit_of_isNameStart hc]), if_pos hc]

/-- A word whose end is seen is read in full. -/
lemma wordLength_eq {w after : Text} (hw : ∀ d ∈ w, isNameChar d)
    (hafter : ∀ d ∈ after.head?, isNameChar d = false ∧ d ≠ '?' ∧ d ≠ '!') :
    wordLength (w ++ after) = w.length := by
  have hspan : Text.span isNameChar (w ++ after) = w.length := by
    rw [Text.span, Text.takeWhile_exact hw fun d hd => (hafter d hd).1]
  rw [wordLength]
  simp only [hspan, List.drop_left]
  cases after with
  | nil => rfl
  | cons d u =>
    have hd := (hafter d rfl).2
    simp [hd.1, hd.2]

lemma scanned_of_isWord {kind : Kind} (h : isWord kind) :
    scanned kind = kind ∧ kind ≠ .comment ∧ kind ≠ .lbracket := by
  cases kind with
  | ident => exact ⟨rfl, by decide, by decide⟩
  | const => exact ⟨rfl, by decide, by decide⟩
  | keyword k => exact ⟨rfl, by simp, by simp⟩
  | _ => cases h

lemma isWord_pieceKind (last : Option Kind) (word : Text) : isWord (Piece.wordKind last word) := by
  unfold Piece.wordKind
  split_ifs
  · rfl
  · rfl
  · cases Keyword.ofText? word <;> rfl

lemma took_word {c : Char} {w : Text} (h : Ready s last previous) (hc : isNameStart c)
    (hw : ∀ d ∈ w, isNameChar d) (hline : c = '_' → previous ≠ '\n')
    (hafter : ∀ d ∈ after.head?, isNameChar d = false ∧ d ≠ '?' ∧ d ≠ '!')
    (hlabel : startsLabel after = false) (hrest : s.rest = c :: (w ++ after)) :
    ∃ s', Took s ⟨some (Piece.wordKind last (c :: w)), c :: w⟩ after s' := by
  have hchoose : choose s.view s.pos c (w ++ after) = .ok .word := by
    apply choose_nameStart s.pos hc
    intro hscore hstart
    have hprevious : s.previous = '\n' := beq_iff_eq.1 hstart
    rw [h.previous_eq] at hprevious
    exact absurd hprevious (hline hscore)
  have hextent : s.wordExtent (w ++ after) = w.length := by
    rw [wordExtent, namesMethod, h.inDefName_eq, Bool.false_and, Bool.false_and,
      if_neg (by simp), wordLength_eq hw hafter]
  -- no method is being defined and no label starts, so only a dot makes a difference
  have hkind : s.wordKind (c :: w) after = Piece.wordKind last (c :: w) := by
    have hdot : (Token.kindAt? s.recent 0 == some .dot) = decide (last = some .dot) := by
      rw [Bool.eq_iff_iff, beq_iff_eq, decide_eq_true_eq, h.dot_iff]
    rw [wordKind, Piece.wordKind, h.inDefName_eq, hdot, hlabel, Bool.false_or, Bool.or_false]
    simp only [decide_eq_true_eq]
    cases Keyword.ofText? (c :: w) <;> rfl
  obtain ⟨hscanned, hcomment, -⟩ := scanned_of_isWord (isWord_pieceKind last (c :: w))
  have hperform : s.perform c (w ++ after) .word
      = .ok { s.emit ⟨scanned (Piece.wordKind last (c :: w)), w.length⟩ with
          locals := (s.word c (w ++ after)).locals, params := (s.word c (w ++ after)).params } := by
    rw [perform, word]
    simp only [hextent, List.take_left, List.drop_left, hkind, hscanned]
    rfl
  exact took_emit hrest hchoose hperform (by rwa [hscanned])

/-! ## Signs and literals -/

/-- The characters that are read as signs, or as the start of one, wherever they stand. -/
def signChars : List Char := ['.', ',', '=', '(', ')', '[', ']', '|', '*', '&']

lemma choose_sign {view : View} (pos : ℕ) {c : Char} {t : Text} {sign : Sign} (hc : c ∈ signChars)
    (hdef : view.defining = false) (hassign : c = '=' → t.head? = some ' ')
    (hfind : Sign.find? (c :: t) = some sign) : choose view pos c t = .ok (.sign sign) := by
  have hplain : ∀ c ∈ signChars, Text.isBlank c = false ∧ c ∉ "\\\n#_@$".toList ∧
      c.isDigit = false ∧ isNameStart c = false ∧ c ∉ openers :=
    Text.forall_mem_of_all (by decide)
  obtain ⟨hblank, hother, hdigit, hname, hopener⟩ := hplain c hc
  simp only [String.reduceToList, List.mem_cons, List.not_mem_nil, or_false, not_or] at hother
  obtain ⟨hslash, hline, hhash, hscore, hat, hdollar⟩ := hother
  have hbegin : ¬ ((c = '=' && view.lineStart && Text.startsWord "=begin".toList (c :: t))
      = true) := by
    simp only [Bool.and_eq_true, decide_eq_true_eq]
    rintro ⟨⟨rfl, -⟩, hword⟩
    obtain ⟨u, rfl⟩ := List.head?_eq_some_iff.1 (hassign rfl)
    cases hword
  rw [choose, if_neg (by simp [hblank]), if_neg hslash, if_neg hline, if_neg hhash, if_neg hbegin,
    if_neg (by simp [hscore]), if_neg (by simp [hdigit]), if_neg (by simp [hname]),
    if_neg (by simp [hat, hdollar]), hdef]
  change chooseLiteral view pos c t = _
  rw [chooseLiteral_eq_chooseSign view pos hopener, chooseSign, hfind]

lemma took_sign {c : Char} {kind : Kind} {assigns : Bool} (h : Ready s last previous)
    (hc : c ∈ signChars) (hassign : c = '=' → after.head? = some ' ')
    (hfind : Sign.find? (c :: after) = some ⟨[c], scanned kind, assigns⟩)
    (hkind : scanned kind ≠ .comment) (hrest : s.rest = c :: after) :
    ∃ s', Took s ⟨some kind, [c]⟩ after s' := by
  have hchoose := choose_sign s.pos hc h.defining_eq hassign hfind
  have hperform : s.perform c after (.sign ⟨[c], scanned kind, assigns⟩)
      = .ok { s.emit ⟨scanned kind, 0⟩ with
          locals := (s.readSign ⟨[c], scanned kind, assigns⟩).locals
          params := (s.readSign ⟨[c], scanned kind, assigns⟩).params } := rfl
  exact took_emit (w := []) hrest hchoose hperform hkind

lemma took_dot (h : Ready s last previous) (hafter : after.head? ≠ some '.')
    (hrest : s.rest = '.' :: after) : ∃ s', Took s Piece.dot after s' := by
  have hfind : Sign.find? ('.' :: after) = some ⟨['.'], .dot, false⟩ := by
    cases after with
    | nil => rfl
    | cons d u =>
      have hd : '.' ≠ d := by
        rintro rfl
        exact hafter rfl
      simp [Sign.find?, Sign.table, hd]
  exact took_sign h (by decide) (by simp) hfind (by decide) hrest

lemma took_assign (h : Ready s last previous) (hafter : after.head? = some ' ')
    (hrest : s.rest = '=' :: after) : ∃ s', Took s Piece.assign after s' := by
  have hfind : Sign.find? ('=' :: after) = some ⟨['='], .assign, true⟩ := by
    obtain ⟨u, rfl⟩ := List.head?_eq_some_iff.1 hafter
    rfl
  exact took_sign h (by decide) (fun _ => hafter) hfind (by decide) hrest

lemma choose_colons {view : View} (pos : ℕ) (hdef : view.defining = false) (t : Text) :
    choose view pos ':' (':' :: t) = .ok (.lexeme ⟨.colons, 1⟩) := by
  rw [choose, if_neg (by decide), if_neg (by decide), if_neg (by decide), if_neg (by decide),
    if_neg (by simp), if_neg (by simp), if_neg (by decide), if_neg (by decide), if_neg (by decide),
    hdef]
  rfl

/-- The scanner takes a piece that fits; a newline only where no heredoc is announced. -/
lemma exists_took {p : Piece} (hfits : Piece.Fits last previous after p)
    (h : Ready s last previous) (hpending : p = Piece.newline → s.pending = [])
    (hrest : s.rest = p.text ++ after) : ∃ s', Took s p after s' := by
  cases hfits with
  | blanks n => exact took_blanks n h hrest
  | newline => exact took_newline (hpending rfl) hrest
  | word hc hw hline hafter hlabel hkind _ =>
    subst hkind
    exact took_word h hc hw hline hafter hlabel hrest
  | decimal n hafter => exact took_decimal n hafter hrest
  | literal bytes =>
    exact took_emit hrest (choose_literal s.pos h.defining_eq bytes after) rfl (by decide)
  | dot hafter => exact took_dot h hafter hrest
  | comma => exact took_sign h (by decide) (by simp) rfl (by decide) hrest
  | assign hafter => exact took_assign h hafter hrest
  | colons =>
    exact took_emit (w := [':']) hrest (choose_colons s.pos h.defining_eq after) rfl (by decide)
  | lparen => exact took_sign h (by decide) (by simp) rfl (by decide) hrest
  | rparen => exact took_sign h (by decide) (by simp) rfl (by decide) hrest
  | lbracket _ => exact took_sign h (by decide) (by simp) rfl (by decide) hrest
  | rbracket => exact took_sign h (by decide) (by simp) rfl (by decide) hrest

/-- No piece starts the definition of a method. -/
lemma kind_ne_def {p : Piece} (hfits : Piece.Fits last previous after p) :
    ∀ kind ∈ p.kind?, scanned kind ≠ .keyword .def_ := by
  intro kind hkind
  cases hfits with
  | blanks n => cases hkind
  | @word c w _ _ _ _ _ _ hword hdef =>
    cases hkind
    rwa [(scanned_of_isWord (hword ▸ isWord_pieceKind last (c :: w))).1]
  | _ =>
    cases hkind
    decide

lemma Took.ready {p : Piece} {s' : Scanner} (htook : Took s p after s')
    (hfits : Piece.Fits last previous after p) (h : Ready s last previous) :
    Ready s' (p.kind?.or last) (p.text.getLast?.getD previous) := by
  refine ⟨?_, ?_, ?_⟩
  · rw [htook.recent_eq]
    cases hkind : p.kind? with
    | none => exact h.kind_eq
    | some kind => rfl
  · rw [htook.previous_eq, h.previous_eq]
  · intro t ht
    rw [htook.recent_eq, List.take_append, List.mem_append] at ht
    rcases ht with ht | ht
    · obtain ⟨kind, hkind, rfl⟩ :=
        Option.map_eq_some_iff.1 (Option.mem_toList.1 (List.mem_of_mem_take ht))
      exact kind_ne_def hfits kind hkind
    · exact h.not_def t ((List.take_prefix_take_left (Nat.sub_le _ _)).subset ht)

/-- The tokens of pieces, as they are read at first. -/
def scannedAt (pos : ℕ) (ps : List Piece) : List Token :=
  (Piece.tokensAt pos ps).map fun t => { t with kind := scanned t.kind }

/-- The scanner takes all pieces of a fitting list. -/
lemma exists_reaches {ps : List Piece} (hfitting : Piece.Fitting after last previous ps)
    (h : Ready s last previous) (hpending : Piece.newline ∈ ps → s.pending = [])
    (hrest : s.rest = Piece.textOf ps ++ after) :
    ∃ s', Reaches s s' ∧ s'.rest = after ∧ s'.pos = s.pos + size (Piece.textOf ps) ∧
      s'.pending = s.pending ∧ s'.recent = (scannedAt s.pos ps).reverse ++ s.recent := by
  induction ps generalizing s last previous with
  | nil => exact ⟨s, .refl, hrest, rfl, rfl, rfl⟩
  | cons p ps ih =>
    obtain ⟨hfits, hrestFit⟩ := hfitting
    rw [Piece.textOf_cons, List.append_assoc] at hrest
    obtain ⟨s₁, htook⟩ := exists_took hfits h (fun hp => hpending (by simp [hp])) hrest
    obtain ⟨s', hreaches, hend, hpos, hpending', hrecent⟩ :=
      ih hrestFit (htook.ready hfits h)
        (fun hps => htook.pending_eq.trans (hpending (List.mem_cons_of_mem _ hps))) htook.rest_eq
    refine ⟨s', htook.reaches.trans hreaches, hend, ?_, hpending'.trans htook.pending_eq, ?_⟩
    · rw [hpos, htook.pos_eq, Piece.textOf_cons, Text.size_append, Nat.add_assoc]
    rw [hrecent, htook.pos_eq, htook.recent_eq, scannedAt, scannedAt, Piece.tokensAt]
    cases p.kind? <;> simp

end Scanner

/-! ## Lexing -/

namespace Token

open Scanner (scanned scannedAt)

/-- The brackets of pieces come after no value. -/
lemma scanned_cases {p : Piece} {after : Text} {last : Option Kind} {previous : Char}
    (hfits : Piece.Fits last previous after p) {kind : Kind} (hkind : p.kind? = some kind) :
    (kind = .arrayBracket ∧ ∀ k ∈ last, k.endsPrimary = false) ∨
      scanned kind = kind ∧ kind ≠ .lbracket := by
  cases hfits with
  | blanks n => cases hkind
  | @word c w _ _ _ _ _ _ hword _ =>
    cases hkind
    obtain ⟨hscanned, -, hne⟩ :=
      Scanner.scanned_of_isWord (hword ▸ Scanner.isWord_pieceKind last (c :: w))
    exact .inr ⟨hscanned, hne⟩
  | lbracket hlast =>
    cases hkind
    exact .inl ⟨rfl, hlast⟩
  | _ =>
    cases hkind
    exact .inr ⟨rfl, by decide⟩

/-- The brackets of fitting pieces build arrays. -/
lemma zipWith_tellBracket {ps : List Piece} {after : Text} {last : Option Kind} {previous : Char}
    (hfitting : Piece.Fitting after last previous ps) (pos : ℕ) (t? : Option Token)
    (ht : t?.map kind = last.map scanned) :
    List.zipWith tellBracket (t? :: (scannedAt pos ps).map some) (scannedAt pos ps)
      = Piece.tokensAt pos ps := by
  induction ps generalizing last previous pos t? with
  | nil => rfl
  | cons p ps ih =>
    obtain ⟨hfits, hrest⟩ := hfitting
    rw [scannedAt, Piece.tokensAt]
    cases hkind : p.kind? with
    | none =>
      rw [hkind] at hrest
      exact ih hrest _ t? ht
    | some kind =>
      rw [hkind] at hrest
      have htail := ih hrest (pos + size p.text) (some ⟨scanned kind, pos, p.text⟩) rfl
      simp only [Option.map_some, Option.toList_some, List.singleton_append, List.map_cons,
        List.zipWith_cons_cons]
      refine List.cons_eq_cons.2 ⟨?_, htail⟩
      rcases scanned_cases hfits hkind with ⟨rfl, hlast⟩ | ⟨hsame, hne⟩
      · -- no value ends before the bracket
        have hany : (t?.any fun u => u.kind.endsPrimary && u.stop == pos) = false := by
          cases t? with
          | none => rfl
          | some u =>
            obtain ⟨k, hk, hscanned⟩ := Option.map_eq_some_iff.1 ht.symm
            have hprimary : u.kind.endsPrimary = false := by
              have := hlast k hk
              rw [← hscanned]
              cases k <;> simp_all [scanned, Kind.endsPrimary]
            simp [hprimary]
        simp [tellBracket, scanned, hany]
      · rw [tellBracket, if_neg (by rwa [hsame]), hsame]

/-- The tokens of a text that consists of fitting pieces. -/
lemma lex_textOf {ps : List Piece} (h : Piece.Fitting [] none '\n' ps) :
    lex (Piece.textOf ps) = .ok (Piece.tokensAt 0 ps) := by
  have hready : Scanner.Ready { rest := Piece.textOf ps } none '\n' := ⟨rfl, rfl, by simp⟩
  obtain ⟨s, hreaches, hend, -, hpending, hrecent⟩ :=
    Scanner.exists_reaches h hready (fun _ => rfl) (List.append_nil _).symm
  have hrun := Scanner.run_eq_ok_iff.2 ⟨hreaches, hend, hpending⟩
  rw [lex_eq, hrun]
  change Except.ok (tellBrackets s.recent.reverse) = _
  rw [hrecent, List.append_nil, List.reverse_reverse, tellBrackets,
    zipWith_tellBracket h 0 none rfl]

end Token

end TablePack
