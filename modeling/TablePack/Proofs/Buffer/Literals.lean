import Mathlib.Tactic
import TablePack.Proofs.Buffer.Quoting
import TablePack.Proofs.Buffer.Words
import TablePack.Proofs.Quoted

/-!
# Literals and signs in a buffer

The end of a literal is the position after the first byte of its closing delimiter. For a delimiter
in ASCII this is the end of a character, and the lexer reads the token that the scanner reads. For a
delimiter outside ASCII it lies inside a character, and the token cannot be cut out of the buffer:
this is the only panic of the lexer.
-/

namespace TablePack

open Token (Kind)
open Text (Stands lead span Narrow)

namespace Lexer

section

variable {source t u : Text} {s : Scanner} {c : Char} {pos : ℕ}

/-! ## Delimited literals -/

/-- The end of a literal that is closed by a character in ASCII. -/
lemma endOf_eq {q : Char} {f : Quoting.Frame} {here k : ℕ}
    (h : Quoting.close f [] here 0 t = .ok k) (hq : f.ClosedBy q) (hwide : Text.isWide q = false) :
    Buffer.endOf pos t 0 k = pos + Text.size (t.take k) := by
  obtain ⟨i, rfl, hi⟩ := Quoting.getElem?_of_close h hq hwide
  have hhead : (t.drop i).head? = some q := by rw [List.head?_drop, hi]
  rw [Buffer.endOf, size_take_succ hhead (Text.utf8Size_of_narrow (by simp [hwide]))]
  rfl

lemma isWide_closing (c : Char) : Text.isWide (Quoting.closing c) = Text.isWide c := by
  unfold Quoting.closing
  split <;> rfl

lemma literal_narrow {opener : Char} (h : Stands source pos (opener :: t))
    (hnarrow : Text.isWide opener = false) (interpolates : Bool) :
    (Buffer.ofText source).literal pos (lead opener) (Buffer.closing (lead opener)) interpolates
      = .ofResult source (fun n => pos + 1 + Text.size (t.take n))
        (Quoting.literal pos opener interpolates t) := by
  rw [Buffer.literal_ofText h]
  refine Buffer.ofResult_congr fun n hn => ?_
  rw [Text.utf8Size_of_narrow (by simp [hnarrow])]
  exact endOf_eq (q := Quoting.closing opener) hn rfl (by rw [isWide_closing, hnarrow])

lemma literal_quote {q : Char} (h : Stands source pos (q :: t)) (hclosing : Quoting.closing q = q)
    (hnarrow : Text.isWide q = false) (interpolates : Bool) :
    (Buffer.ofText source).literal pos (lead q) (lead q) interpolates
      = .ofResult source (fun n => pos + 1 + Text.size (t.take n))
        (Quoting.literal pos q interpolates t) := by
  rw [← literal_narrow h hnarrow, Buffer.closing_lead, hclosing]

lemma bind_ofResult {α β γ : Type} {r : Except Fault α} {f : α → β} {g : β → Checked γ}
    {k : α → γ} (h : ∀ a, r = .ok a → g (f a) = .ok (k a)) :
    (Checked.ofResult source f r >>= g) = .ofResult source k r := by
  cases r with
  | error fault => rfl
  | ok a => exact h a rfl

lemma ofResult_map {α β γ : Type} (r : Except Fault α) (f : α → β) (g : β → γ) :
    Checked.ofResult source g (r.map f) = .ofResult source (fun a => g (f a)) r := by
  cases r <;> rfl

/-- A string between two quotes. -/
lemma quoted_ofScanner (hs : s.Sound source) (hrest : s.rest = c :: t)
    (hclosing : Quoting.closing c = c) (hnarrow : Text.isWide c = false) (interpolates : Bool) :
    (ofScanner s).quoted (.ofText source) (lead c) interpolates
      = .ofResult source ofScanner
        ((Token.Lexeme.quoted s.pos c interpolates t).map s.emit) := by
  have hstands : Stands source s.pos (c :: t) := hrest ▸ stands_of_sound hs
  rw [quoted, show (ofScanner s).pos = s.pos from rfl, literal_quote hstands hclosing hnarrow,
    Token.Lexeme.quoted, ofResult_map, ofResult_map]
  refine bind_ofResult fun n _ => ?_
  exact emit_cons hs hrest (Text.utf8Size_of_narrow (by simp [hnarrow])) .string n

lemma flagsEnd_ofText (h : Stands source pos t) (kind : Kind) :
    flagsEnd (.ofText source) kind pos
      = .ok (pos + Text.size (t.take (Token.Lexeme.flags kind t))) := by
  rw [flagsEnd, Token.Lexeme.flags]
  split
  · rw [Buffer.eatWhile_ofText Text.sees_isLower h, Text.take_span]
  · rfl

/-- A regular expression between slashes. -/
lemma regexp_ofScanner (hs : s.Sound source) (hrest : s.rest = '/' :: t) :
    (ofScanner s).regexp (.ofText source)
      = .ofResult source ofScanner ((Token.Lexeme.regexp s.pos t).map s.emit) := by
  have hstands : Stands source s.pos ('/' :: t) := hrest ▸ stands_of_sound hs
  have hnext : Stands source (s.pos + 1) t := hstands.cons
  rw [regexp, show (ofScanner s).pos = s.pos from rfl, Buffer.regexp_ofText hstands,
    Token.Lexeme.regexp, ofResult_map, ofResult_map]
  refine bind_ofResult fun n hn => ?_
  rw [endOf_eq (q := '/') hn rfl rfl, flagsEnd_ofText (stands_take hnext n), Checked.ok_bind,
    Nat.add_assoc, ← Text.size_append, ← List.take_add]
  exact emit_cons hs hrest rfl .regexp _

/-! ## Names of operators -/

/-- The names of methods that are operators, and all signs, are in ASCII. -/
lemma narrow_methods : ∀ name ∈ Sign.methods, ∀ c ∈ name, c.toNat < 0x80 := by
  have hnarrow : ∀ name ∈ Sign.methods, name.all fun c => c.toNat < 0x80 := by decide
  exact fun name hname c hc => of_decide_eq_true (List.all_eq_true.1 (hnarrow name hname) c hc)

lemma narrow_table : ∀ sign ∈ Sign.table, ∀ c ∈ sign.text, c.toNat < 0x80 := by
  have hnarrow : ∀ sign ∈ Sign.table, sign.text.all fun c => c.toNat < 0x80 := by decide
  exact fun sign hsign c hc => of_decide_eq_true (List.all_eq_true.1 (hnarrow sign hsign) c hc)

lemma findMethod?_ofText (t : Text) : findMethod? (.ofText t) = Sign.findMethod? t :=
  List.find?_congr fun name hname => Buffer.startsWith_ofText (narrow_methods name hname) t

lemma findSign?_ofText (t : Text) :
    Sign.table.find? (fun sign => (Buffer.ofText t).startsWith sign.text) = Sign.find? t :=
  List.find?_congr fun sign hsign => Buffer.startsWith_ofText (narrow_table sign hsign) t

/-- A word that the text starts with, as the first characters of the text. -/
lemma take_of_isPrefixOf {word : Text} (h : word.isPrefixOf t) : t.take word.length = word := by
  rw [List.isPrefixOf_iff_prefix] at h
  exact (List.prefix_iff_eq_take.mp h).symm

lemma isPrefixOf_of_findMethod? {name : Text} (h : Sign.findMethod? t = some name) :
    name.isPrefixOf t :=
  List.find?_some (p := fun name : Text => name.isPrefixOf t) h

/-! ## Symbols -/

lemma symbolEnd_ofText (h : Stands source pos (c :: t)) (hc : Text.isNameChar c) :
    symbolEnd (.ofText source) pos
      = .ok (pos + Text.size ((c :: t).take (span Text.isNameChar t
        + Token.Lexeme.symbolMark (t.drop (span Text.isNameChar t)) + 1))) := by
  have hstop := stands_take h (span Text.isNameChar t + 1)
  rw [List.drop_succ_cons] at hstop
  rw [symbolEnd, eatWhile_name h hc, Checked.ok_bind, any_beq_ofText hstop (by decide) (by decide),
    setterAt_ofText hstop, Token.Lexeme.symbolMark]
  cases hmark : (t.drop (span Text.isNameChar t)).head?.any (fun c => c == '?' || c == '!')
      || Token.Lexeme.startsSetter (t.drop (span Text.isNameChar t)) with
  | false => rfl
  | true =>
    obtain ⟨d, hd, hsize⟩ : ∃ d, (t.drop (span Text.isNameChar t)).head? = some d
        ∧ d.utf8Size = 1 := by
      rcases Bool.or_eq_true _ _ ▸ hmark with hmark | hsetter
      · exact exists_mark rfl rfl hmark
      · exact ⟨'=', head?_of_startsSetter hsetter, rfl⟩
    rw [if_pos rfl, if_pos rfl, size_take_succ (t := c :: t) (n := span Text.isNameChar t + 1) hd
      hsize]
    rfl

lemma emit_variable (hs : s.Sound source) (hrest : s.rest = ':' :: c :: t) (hc : c.utf8Size = 1)
    (n : ℕ) :
    (do
      let read ← { ofScanner s with pos := s.pos + 1 }.emit (.ofText source) .symbol
        (s.pos + 1 + 1 + Text.size (t.take n))
      return read.extendBack s.pos)
      = .ok (ofScanner (s.emit ⟨.symbol, 1 + n⟩)) := by
  have hstands : Stands source s.pos (':' :: c :: t) := hrest ▸ stands_of_sound hs
  have hname : Stands source (s.pos + 1) ((c :: t).take (n + 1) ++ (c :: t).drop (n + 1)) := by
    rw [List.take_append_drop]
    exact hstands.cons
  have hsize : Text.size ((c :: t).take (n + 1)) = 1 + Text.size (t.take n) := by
    rw [List.take_succ_cons, Text.size_cons, hc]
  have htext := Buffer.text_ofText hname
  have hwhole : Text.size (s.rest.take (1 + n + 1)) = Text.size ((c :: t).take (n + 1)) + 1 := by
    rw [hrest, List.take_succ_cons, Text.size_cons, Nat.add_comm 1 n, Nat.add_comm]
    rfl
  rw [emit, Checked.minus, if_pos (by dsimp only; omega), Checked.ok_bind,
    Nat.add_assoc (s.pos + 1), ← hsize, Nat.add_sub_cancel_left, htext]
  change Except.ok (Lexer.mk (s.pos + 1 + Text.size ((c :: t).take (n + 1)))
    (⟨.symbol, s.pos, Text.size ((c :: t).take (n + 1)) + 1⟩ :: (ofScanner s).out)
    (ofScanner s).heredocs s.locals _) = _
  rw [← hwhole, Nat.add_assoc, Nat.add_comm 1, ← hwhole]
  rfl

/-! The cases of what a colon starts. -/

lemma colon_quote {start : ℕ} (hc : c = '"' ∨ c = '\'') :
    Token.Lexeme.colon start (c :: u)
      = (Quoting.literal (start + 1) c (c = '"') u).map fun n => ⟨.symbol, 1 + n⟩ := by
  rcases hc with rfl | rfl <;> rfl

lemma colon_sigil {start : ℕ} (hc : c = '@' ∨ c = '$') :
    Token.Lexeme.colon start (c :: u)
      = (Token.Lexeme.variableLength? c u).elim (.error ⟨start + 1, .invalidVariable⟩)
        fun n => .ok ⟨.symbol, 1 + n⟩ := by
  have hcolon : c ≠ ':' := by rcases hc with rfl | rfl <;> decide
  have hquote : ¬ (c = '"' ∨ c = '\'') := by rcases hc with rfl | rfl <;> decide
  rw [Token.Lexeme.colon, if_neg (by simpa using hquote), if_pos (by simpa using hc)]
  · cases Token.Lexeme.variableLength? c u <;> rfl
  · exact hcolon

lemma colon_name {start : ℕ} (hc : Text.isNameStart c) :
    Token.Lexeme.colon start (c :: u)
      = .ok ⟨.symbol, 1 + (span Text.isNameChar u
        + Token.Lexeme.symbolMark (u.drop (span Text.isNameChar u)))⟩ := by
  have hne {d : Char} (hd : Text.isNameStart d = false) : c ≠ d := by
    rintro rfl
    exact Bool.false_ne_true (hd.symm.trans hc)
  rw [Token.Lexeme.colon, if_neg (by simp [hne (d := '"') rfl, hne (d := '\'') rfl]),
    if_neg (by simp [hne (d := '@') rfl, hne (d := '$') rfl]), if_pos hc, ← Nat.add_assoc]
  exact hne rfl

lemma colon_method {start : ℕ} (hcolon : c ≠ ':') (hquote : ¬ (c = '"' ∨ c = '\''))
    (hsigil : ¬ (c = '@' ∨ c = '$')) (hname : ¬ Text.isNameStart c) :
    Token.Lexeme.colon start (c :: u)
      = .ok ((Sign.findMethod? (c :: u)).elim ⟨.op, 0⟩
        fun name => if name = ['`'] then ⟨.op, 0⟩ else ⟨.symbol, name.length⟩) := by
  rw [Token.Lexeme.colon, if_neg (by simpa using hquote), if_neg (by simpa using hsigil),
    if_neg hname]
  · cases Sign.findMethod? (c :: u) <;> rfl
  · exact hcolon

lemma colon_ofScanner (hs : s.Sound source) (hrest : s.rest = ':' :: t) :
    (ofScanner s).colon (.ofText source)
      = .ofResult source ofScanner ((Token.Lexeme.colon s.pos t).map s.emit) := by
  have hstands : Stands source s.pos (':' :: t) := hrest ▸ stands_of_sound hs
  have hnext : Stands source (s.pos + 1) t := hstands.cons
  have hemit := emit_cons hs hrest rfl
  have hbeq {d : Char} (hd : d.toNat < 0x80) := Buffer.get?_beq_ofText (d := d) hnext hd
  rw [colon, show (ofScanner s).pos = s.pos from rfl, hbeq (by decide), hbeq (by decide),
    hbeq (by decide), hbeq (by decide), hbeq (by decide), Buffer.get?_ofText hnext,
    Text.sees_isNameStart.any_map_lead, Buffer.tail_ofText hnext, Checked.ok_bind,
    findMethod?_ofText]
  cases t with
  | nil => exact hemit .op 0
  | cons c u =>
    by_cases hcolon : c = ':'
    · subst hcolon
      exact hemit .colons 1
    by_cases hquote : c = '"' ∨ c = '\''
    · have hclosing : Quoting.closing c = c := by rcases hquote with rfl | rfl <;> rfl
      have hnarrow : Text.isWide c = false := by rcases hquote with rfl | rfl <;> rfl
      have hsize := Text.utf8Size_of_narrow (c := c) (by simp [hnarrow])
      rw [if_neg (by simp [hcolon]), if_pos (by simpa using hquote), Buffer.byte_ofText hnext,
        Checked.ok_bind, Text.lead_beq_ascii (by decide), literal_quote hnext hclosing hnarrow,
        colon_quote hquote, ofResult_map, ofResult_map]
      refine bind_ofResult fun n _ => ?_
      have hsymbol := hemit .symbol (1 + n)
      rw [Nat.add_comm 1 n, List.take_succ_cons, Text.size_cons, hsize, ← Nat.add_assoc,
        Nat.add_comm n 1] at hsymbol
      exact hsymbol
    by_cases hsigil : c = '@' ∨ c = '$'
    · have hsize : c.utf8Size = 1 := by rcases hsigil with rfl | rfl <;> rfl
      rw [if_neg (by simp [hcolon]), if_neg (by simpa using hquote),
        if_pos (by simpa using hsigil), var, varEnd_ofText hnext hsigil, colon_sigil hsigil]
      cases Token.Lexeme.variableLength? c u with
      | none =>
        rw [variableAt, Buffer.fail_eq_ofResult _ (by simp) id]
        rfl
      | some n =>
        rw [variableAt, Checked.ok_bind]
        exact emit_variable hs hrest hsize n
    rw [if_neg (by simp [hcolon]), if_neg (by simpa using hquote), if_neg (by simpa using hsigil)]
    by_cases hname : Text.isNameStart c
    · rw [if_pos (by simpa using hname),
        symbolEnd_ofText hnext (by simp [Text.isNameChar, hname]), Checked.ok_bind, hemit,
        colon_name hname, Nat.add_comm 1]
      rfl
    rw [if_neg (by simpa using hname), colon_method hcolon hquote hsigil hname]
    cases hmethod : Sign.findMethod? (c :: u) with
    | none => exact hemit .op 0
    | some name =>
      have htake := take_of_isPrefixOf (isPrefixOf_of_findMethod? hmethod)
      change (if name = ['`'] then _ else _) = Except.ok (ofScanner (s.emit (if _ then _ else _)))
      split
      · exact hemit .op 0
      · rw [Text.length_bytes, ← Nat.add_assoc, ← hemit, htake]

/-! ## Character literals -/

/-- The bytes of a character after its first one. -/
lemma eatWhile_trail (h : Stands source pos (c :: t)) :
    (Buffer.ofText source).eatWhile Byte.isContinuation (pos + 1) = .ok (pos + c.utf8Size) := by
  have hreads := Buffer.reads_ofText h
  have hpos := c.utf8Size_pos
  rw [Text.bytes_cons_eq] at hreads
  have htrail : (Text.trail c ++ Text.bytes t).takeWhile Byte.isContinuation = Text.trail c := by
    rw [List.takeWhile_append_of_pos fun b => Text.isContinuation_of_mem_trail]
    cases t with
    | nil => exact List.append_nil _
    | cons d t =>
      rw [Text.bytes_cons_eq, List.takeWhile_cons_of_neg (by simp [Text.not_isContinuation_lead]),
        List.append_nil]
  rw [hreads.cons.eatWhile, htrail, Text.length_trail, Nat.add_assoc, Nat.add_sub_cancel' hpos]

/-- After the first byte of a character outside ASCII another byte of it follows. -/
lemma reads_of_isWide (h : Stands source pos (c :: t)) (hc : Text.isWide c) :
    ∃ b ∈ Text.trail c, ∃ bs, (Buffer.ofText source).Reads (pos + 1) (b :: bs) := by
  have hreads := Buffer.reads_ofText h
  rw [Text.bytes_cons_eq] at hreads
  obtain ⟨b, bs, hb⟩ := List.exists_cons_of_ne_nil (Text.trail_ne_nil_of_wide hc)
  have hnext := hreads.cons
  rw [hb] at hnext
  exact ⟨b, hb ▸ List.mem_cons_self, _, hnext⟩

lemma isNameChar_of_isWide (hc : Text.isWide c) : Text.isNameChar c := by
  simp [Text.isNameChar, Text.isNameStart, hc]

/-- The byte after the first one of a character. -/
lemma get?_succ_ofText {p : UInt8 → Bool} {P : Char → Bool} (hp : Text.Sees p P)
    (h : Stands source pos (c :: t)) :
    ((Buffer.ofText source).get? (pos + 1)).any p
      = if Text.isWide c then P c else t.head?.any P := by
  split
  · rename_i hc
    obtain ⟨b, hb, bs, hreads⟩ := reads_of_isWide h hc
    have hget := hreads.get? 0
    rw [Nat.add_zero] at hget
    rw [hget, ← hp.trail_eq c b hb]
    rfl
  · rename_i hc
    have hnext := h.cons
    rw [Text.utf8Size_of_narrow hc] at hnext
    rw [Buffer.get?_ofText hnext, hp.any_map_lead]

lemma characterLength?_ofText (h : Stands source pos ('?' :: t)) :
    characterLength? (.ofText source) pos = (Token.Lexeme.character? t).map (·.more + 1) := by
  have hnext : Stands source (pos + 1) t := h.cons
  rw [characterLength?, Buffer.get?_ofText hnext]
  cases t with
  | nil => rfl
  | cons c u =>
    have hname := get?_succ_ofText Text.sees_isNameChar hnext
    rw [Nat.add_assoc] at hname
    simp only [List.head?_cons, Option.map_some]
    rw [Text.lead_beq_ascii (by decide), Text.sees_isSpace.lead_eq, Text.sees_isNameChar.lead_eq,
      hname]
    by_cases hc : c = '\\'
    · subst hc
      have hlast : Stands source (pos + 2) u := hnext.cons
      rw [Buffer.get?_ofText hlast]
      cases u <;> rfl
    · have hlexeme : Token.Lexeme.character? (c :: u)
          = if Text.isSpace c || Text.isNameChar c && (Text.isWide c || Text.continuesName u) then
              none
            else some ⟨.string, 1⟩ := by
        unfold Token.Lexeme.character?
        split <;> simp_all
      rw [if_neg (by simp [hc]), hlexeme]
      cases hspace : Text.isSpace c with
      | true => rfl
      | false =>
        cases hwide : Text.isWide c with
        | true => simp [isNameChar_of_isWide hwide]
        | false =>
          rw [Text.continuesName]
          cases Text.isNameChar c <;> cases u.head?.any Text.isNameChar <;> rfl

lemma eq_of_character? {lexeme : Token.Lexeme} (h : Token.Lexeme.character? t = some lexeme) :
    (∃ d u, t = '\\' :: d :: u ∧ lexeme = ⟨.string, 2⟩) ∨
      ∃ d u, t = d :: u ∧ lexeme = ⟨.string, 1⟩ := by
  unfold Token.Lexeme.character? at h
  split at h
  · cases h
    exact .inl ⟨_, _, rfl, rfl⟩
  · split at h <;> cases h
    exact .inr ⟨_, _, rfl, rfl⟩
  · cases h

/-- A character literal. -/
lemma character?_ofScanner (hs : s.Sound source) (hrest : s.rest = '?' :: t) :
    (ofScanner s).character? (.ofText source)
      = .ok ((Token.Lexeme.character? t).map fun lexeme => ofScanner (s.emit lexeme)) := by
  have hstands : Stands source s.pos ('?' :: t) := hrest ▸ stands_of_sound hs
  have hnext : Stands source (s.pos + 1) t := hstands.cons
  have hemit := emit_cons hs hrest rfl .string
  rw [character?, show (ofScanner s).pos = s.pos from rfl, characterLength?_ofText hstands]
  cases hlexeme : Token.Lexeme.character? t with
  | none => rfl
  | some lexeme =>
    rcases eq_of_character? hlexeme with ⟨d, u, rfl, rfl⟩ | ⟨d, u, rfl, rfl⟩
    · have hlast : Stands source (s.pos + 1 + 1) (d :: u) := hnext.cons
      have hescape := hemit 2
      rw [List.take_succ_cons, List.take_succ_cons, List.take_zero, Text.size_cons, Text.size_cons,
        ← Nat.add_assoc] at hescape
      change ((Buffer.ofText source).eatWhile _ (s.pos + 1 + 1 + 1) >>= _) = _
      rw [eatWhile_trail hlast, Checked.ok_bind]
      exact congrArg (· >>= fun read => .ok (some read)) hescape
    · have hplain := hemit 1
      rw [List.take_succ_cons, List.take_zero, Text.size_cons] at hplain
      change ((Buffer.ofText source).eatWhile _ (s.pos + 1 + 1) >>= _) = _
      rw [eatWhile_trail hnext, Checked.ok_bind]
      exact congrArg (· >>= fun read => .ok (some read)) hplain

/-! ## Percent literals -/

lemma percentForm?_ofText (h : Stands source pos ('%' :: t)) :
    percentForm? (.ofText source) pos
      = (Token.Lexeme.percentForm? t).map fun form => (form.1, form.2.1, form.2.2 + 1) := by
  have hnext : Stands source (pos + 1) t := h.cons
  rw [percentForm?, Buffer.get?_ofText hnext]
  cases t with
  | nil => rfl
  | cons c u =>
    have hdelimited := get?_succ_ofText Text.sees_isAlphanum.not hnext
    simp only [List.head?_cons, Option.map_some]
    rw [show pos + 2 = pos + 1 + 1 from rfl, hdelimited]
    simp (disch := decide) only [bne, Text.lead_beq_ascii, Text.sees_isAlphanum.lead_eq,
      Token.Lexeme.percentForm?]
    have hqwi : "qwi".toList.contains c = (c == 'q' || c == 'w' || c == 'i') := by
      change ['q', 'w', 'i'].contains c = _
      simp only [List.contains_cons, List.contains_nil, Bool.or_false, Bool.or_assoc]
    have hqwix : "QWIx".toList.contains c = (c == 'Q' || c == 'W' || c == 'I' || c == 'x') := by
      change ['Q', 'W', 'I', 'x'].contains c = _
      simp only [List.contains_cons, List.contains_nil, Bool.or_false, Bool.or_assoc]
    rw [hqwi, hqwix]
    by_cases hc : Text.isWide c
    · have hne {d : Char} (hd : d.toNat < 0x80) : c ≠ d := by
        simpa using Text.ne_of_isWide hc hd
      simp [hne, Text.isAlphanum_of_isWide hc, hc]
    · rw [if_neg hc]
      simp only [beq_eq_decide, ne_eq, decide_not]
      split_ifs <;> rfl

/-- Before the delimiter there is at most a letter. -/
lemma exists_delimiter {kind : Kind} {interpolates : Bool} {letters : ℕ}
    (h : Token.Lexeme.percentForm? t = some (kind, interpolates, letters)) :
    (∃ d u, t.drop letters = d :: u) ∧ Narrow t letters := by
  unfold Token.Lexeme.percentForm? at h
  split at h
  · rename_i c u
    have hletter (hletter : c.isAlphanum) (hany : u.head?.any (!·.isAlphanum)) :
        (∃ d v, (c :: u).drop 1 = d :: v) ∧ Narrow (c :: u) 1 := by
      refine ⟨?_, (Text.narrow_zero u).cons (Text.utf8Size_of_isAlphanum hletter)⟩
      cases u with
      | nil => cases hany
      | cons d v => exact ⟨d, v, rfl⟩
    split_ifs at h with hraw hsymbol hstring hregexp hplain <;> cases h
    · rw [Bool.and_eq_true] at hraw
      obtain rfl | rfl | rfl : c = 'q' ∨ c = 'w' ∨ c = 'i' := by simpa using hraw.2
      all_goals exact hletter rfl hraw.1
    · rw [Bool.and_eq_true, decide_eq_true_eq] at hsymbol
      exact hletter (hsymbol.2 ▸ rfl) hsymbol.1
    · rw [Bool.and_eq_true] at hstring
      obtain rfl | rfl | rfl | rfl : c = 'Q' ∨ c = 'W' ∨ c = 'I' ∨ c = 'x' := by
        simpa using hstring.2
      all_goals exact hletter rfl hstring.1
    · rw [Bool.and_eq_true, decide_eq_true_eq] at hregexp
      exact hletter (hregexp.2 ▸ rfl) hregexp.1
    · exact ⟨⟨c, u, rfl⟩, Text.narrow_zero _⟩
  · cases h

lemma isWide_of_delimits {d : Char} (hd : Text.isWide d) (h : Quoting.delimits d c) :
    Text.isWide c := by
  by_contra hc
  rw [← Text.lead_beq_lead, beq_iff_eq] at h
  have hle := Text.le_toNat_lead_of_wide hd
  rw [← h, Text.lead_of_narrow hc, ascii, UInt8.toNat_ofNat'] at hle
  rw [Text.isWide_iff] at hc
  omega

lemma closing_of_isWide (hc : Text.isWide c) : Quoting.closing c = c := by
  unfold Quoting.closing
  split <;> first | rfl | exact absurd hc (by decide)

/-- A literal that a character outside ASCII delimits ends inside a character. -/
lemma emit_split {d : Char} {n : ℕ} (h : Stands source pos t)
    (hwide : Text.isWide d) {f : Quoting.Frame} {here : ℕ} (hle : s.pos ≤ pos)
    (hn : Quoting.close f [] here 0 t = .ok n) (hd : f.ClosedBy d) (kind : Kind) :
    (do
      let stop ← flagsEnd (.ofText source) kind (Buffer.endOf pos t 0 n)
      let read ← (ofScanner s).emit (.ofText source) kind stop
      return some read)
      = .error (.panic .boundary) := by
  obtain ⟨i, c, hi, hc, hdel⟩ := Quoting.exists_delimiter_of_close hn hd
  have hlast := stands_take h i
  obtain ⟨u, hu⟩ : ∃ u, t.drop i = c :: u := by
    rw [← List.head?_eq_some_iff, List.head?_drop, hc]
  rw [hu] at hlast
  obtain ⟨b, hb, bs, hreads⟩ := reads_of_isWide hlast (isWide_of_delimits hwide hdel)
  have hend : Buffer.endOf pos t 0 n = pos + Text.size (t.take i) + 1 := by
    rw [Buffer.endOf, hi, Nat.zero_add, Nat.sub_zero, Nat.add_sub_cancel]
  have hflags : flagsEnd (.ofText source) kind (pos + Text.size (t.take i) + 1)
      = .ok (pos + Text.size (t.take i) + 1) := by
    have hlower : Byte.isLower b = false := by
      rw [Text.sees_isLower.trail_eq c b hb,
        Text.isLower_of_isWide (isWide_of_delimits hwide hdel)]
    rw [flagsEnd]
    split
    · rw [hreads.eatWhile, List.takeWhile_cons_of_neg (by simp [hlower])]
      rfl
    · rfl
  rw [hend, hflags, Checked.ok_bind, emit, show (ofScanner s).pos = s.pos from rfl, Checked.minus,
    if_pos (by omega), Checked.ok_bind, Buffer.text_of_isContinuation hreads
      (Text.isContinuation_of_mem_trail hb) (by omega)]
  rfl

/-- A percent literal. One that a character outside ASCII delimits cannot be cut out. -/
lemma percent?_ofScanner (hs : s.Sound source) (hrest : s.rest = '%' :: t) :
    (ofScanner s).percent? (.ofText source)
      = .ofResult source (Option.map ofScanner)
        ((Token.Lexeme.percent? s.pos t).map (Option.map s.emit)) := by
  have hstands : Stands source s.pos ('%' :: t) := hrest ▸ stands_of_sound hs
  have hnext : Stands source (s.pos + 1) t := hstands.cons
  rw [percent?, show (ofScanner s).pos = s.pos from rfl, percentForm?_ofText hstands,
    Token.Lexeme.percent?]
  cases hform : Token.Lexeme.percentForm? t with
  | none => rfl
  | some form =>
    obtain ⟨kind, interpolates, letters⟩ := form
    obtain ⟨⟨d, u, hdrop⟩, hletters⟩ := exists_delimiter hform
    have hopener := hnext.drop hletters
    rw [hdrop] at hopener
    simp only [Option.map_some, hdrop]
    rw [Nat.add_comm letters 1, ← Nat.add_assoc, Buffer.byte_ofText hopener, Checked.ok_bind,
      Text.sees_isSpace.lead_eq]
    cases Text.isSpace d with
    | true => rfl
    | false =>
      rw [if_neg Bool.false_ne_true, if_neg Bool.false_ne_true, Buffer.literal_ofText hopener]
      cases hn : Quoting.literal (s.pos + 1 + letters) d interpolates u with
      | error fault => rfl
      | ok n =>
        by_cases hwide : Text.isWide d
        · rw [Checked.ofResult, Checked.ok_bind,
            emit_split hopener.cons hwide (by omega) hn (closing_of_isWide hwide)]
          simp [hwide, Except.map, Checked.ofResult, Stop.ofFault]
        · have hsize := Text.utf8Size_of_narrow hwide
          have hclose := hopener.cons
          rw [hsize] at hclose
          have hmore := emit_cons hs hrest rfl kind
            (letters + (1 + (n + Token.Lexeme.flags kind (u.drop n))))
          rw [List.take_add, Text.size_append,
            show Text.size (t.take letters) = letters from hletters, hdrop, Nat.add_comm 1,
            List.take_succ_cons, Text.size_cons, hsize, List.take_add, Text.size_append,
            show ∀ a b, s.pos + 1 + (letters + (1 + (a + b)))
              = s.pos + 1 + letters + 1 + a + b from fun a b => by omega,
            show ∀ a, letters + (n + a + 1) = 1 + letters + n + a from fun a => by omega] at hmore
          rw [Checked.ofResult, Checked.ok_bind, hsize,
            endOf_eq (q := Quoting.closing d) hn rfl (by simpa [isWide_closing] using hwide),
            flagsEnd_ofText (stands_take hclose n), Checked.ok_bind, hmore, Checked.ok_bind]
          dsimp only
          rw [if_neg hwide]
          rfl

end

end Lexer

end TablePack
