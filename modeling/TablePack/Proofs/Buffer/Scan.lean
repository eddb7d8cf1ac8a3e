import Mathlib.Tactic
import TablePack.Buffer.Parser
import TablePack.Proofs.Buffer.Literals

/-!
# Steps of the lexer and the scanner

One step of the lexer is one step of the scanner (`Lexer.step_ofScanner`), and so is a whole run
(`Lexer.run_ofScanner`): both read the same tokens, or stop at the same fault.
-/

namespace TablePack

open Token (Kind)
open Text (Stands lead span Narrow)

namespace Lexer

section

variable {source t u : Text} {s : Scanner} {c : Char} {pos : ℕ}

/-! ## Heredocs -/

/-- The name of a heredoc as bytes, and the position after it. -/
def nameAt (pos : ℕ) (t : Text) (found : Text × ℕ) : Buffer × ℕ :=
  (.ofText found.1, pos + Text.size (t.take found.2))

lemma quotedName?_ofText {q : Char} {name rest : Text} (hq : q.toNat < 0x80)
    (h : Stands source pos (q :: (name ++ rest)))
    (hname : (name ++ rest).takeWhile (fun c => c != q && c != '\n') = name) :
    quotedName? (.ofText source) (ascii q) pos
      = .ok (if !name.isEmpty && rest.head? == some q then
          some (nameAt pos (q :: (name ++ rest)) (name, name.length + 2))
        else none) := by
  have hsize : q.utf8Size = 1 := Text.utf8Size_of_narrow (by rw [Text.isWide_iff]; omega)
  have hnext := h.cons
  have hbody : Stands (name ++ rest) (Text.size name) rest := ⟨name, rfl, rfl⟩
  have hpart := Buffer.part_ofText (Buffer.stands_zero (name ++ rest))
  rw [Nat.zero_add] at hpart
  have hcount : (Buffer.ofText (name ++ rest)).count (fun b => b != ascii q && b != ascii '\n')
      = Text.size name := by
    rw [Buffer.count_ofText ((Text.sees_ne hq).and (Text.sees_ne (by decide))), hname]
  rw [hsize] at hnext
  rw [quotedName?, Buffer.tail_ofText hnext, Checked.ok_bind, hcount, Buffer.size_ofText,
    Text.size_append]
  cases rest with
  | nil => simp; rfl
  | cons d rest =>
    have hpos := d.utf8Size_pos
    have hend : Text.size ((q :: (name ++ d :: rest)).take (name.length + 2))
        = 1 + (Text.size name + d.utf8Size) := by
      rw [List.take_succ_cons, Text.size_cons, hsize, List.take_length_add_append,
        Text.size_append]
      rfl
    rw [if_pos (by rw [Text.size_cons]; omega), Buffer.byte_ofText hbody, Checked.ok_bind, bne,
      Text.lead_beq_ascii hq, hpart, Checked.ok_bind]
    by_cases hd : d = q
    · subst hd
      cases name with
      | nil => simp; rfl
      | cons c name =>
        rw [if_neg (by simp [Text.size_cons, c.utf8Size_pos.ne']), if_pos (by simp), nameAt, hend,
          hsize, Nat.add_comm 1]
        rfl
    · rw [if_pos (by simp [hd]), if_neg (by simp [hd])]
      rfl

lemma name?_of_quote {q : Char} (hq : q = '\'' ∨ q = '"' ∨ q = '`') (t : Text) :
    Heredoc.name? (q :: t)
      = if !(t.takeWhile fun c => c != q && c != '\n').isEmpty
          && (t.dropWhile fun c => c != q && c != '\n').head? == some q then
        some (t.takeWhile fun c => c != q && c != '\n',
          (t.takeWhile fun c => c != q && c != '\n').length + 2)
      else none := by
  have hdrop : t.drop (t.takeWhile fun c => c != q && c != '\n').length
      = t.dropWhile fun c => c != q && c != '\n' := by
    conv_lhs =>
      arg 2
      rw [← List.takeWhile_append_dropWhile (p := fun c => c != q && c != '\n') (l := t)]
    exact List.drop_left
  rw [Heredoc.name?, if_pos (by simpa [or_assoc] using hq), ← hdrop]

lemma name?_of_not_quote {q : Char} (hq : ¬ (q = '\'' ∨ q = '"' ∨ q = '`')) (t : Text) :
    Heredoc.name? (q :: t)
      = if Text.isNameStart q then
        some ((q :: t).takeWhile Text.isNameChar, ((q :: t).takeWhile Text.isNameChar).length)
      else none := by
  rw [Heredoc.name?, if_neg (show ¬ (decide (q = '\'') || decide (q = '"') || decide (q = '`')) by
    simpa [or_assoc] using hq)]

lemma heredocName?_ofText (h : Stands source pos t) :
    heredocName? (.ofText source) pos = .ok ((Heredoc.name? t).map (nameAt pos t)) := by
  rw [heredocName?, Buffer.get?_ofText h]
  cases t with
  | nil => rfl
  | cons q u =>
    simp only [List.head?_cons, Option.map_some]
    simp (disch := decide) only [Text.lead_beq_ascii]
    by_cases hq : q = '\'' ∨ q = '"' ∨ q = '`'
    · have hnarrow : q.toNat < 0x80 := by rcases hq with rfl | rfl | rfl <;> decide
      have hlead : lead q = ascii q := Text.lead_of_narrow (by rw [Text.isWide_iff]; omega)
      rw [if_pos (show (q == '\'' || q == '"' || q == '`') by simpa [or_assoc] using hq), hlead,
        name?_of_quote hq]
      have hname : (u.takeWhile (fun c => c != q && c != '\n')
          ++ u.dropWhile (fun c => c != q && c != '\n')).takeWhile (fun c => c != q && c != '\n')
            = u.takeWhile fun c => c != q && c != '\n' := by
        rw [List.takeWhile_append_dropWhile]
      rw [← List.takeWhile_append_dropWhile (p := fun c => c != q && c != '\n') (l := u)] at h
      rw [quotedName?_ofText hnarrow h hname, List.takeWhile_append_dropWhile]
      split <;> rfl
    · rw [if_neg (show ¬ (q == '\'' || q == '"' || q == '`') by simpa [or_assoc] using hq),
        Text.sees_isNameStart.lead_eq, name?_of_not_quote hq]
      by_cases hname : Text.isNameStart q
      · rw [if_pos hname, if_pos hname, plainName?, Buffer.tail_ofText h, Checked.ok_bind,
          Buffer.count_ofText Text.sees_isNameChar]
        have htake := List.takeWhile_append_dropWhile (p := Text.isNameChar) (l := q :: u)
        have hlength : (q :: u).take ((q :: u).takeWhile Text.isNameChar).length
            = (q :: u).takeWhile Text.isNameChar :=
          Text.take_span Text.isNameChar (q :: u)
        rw [Buffer.part_ofText (htake.symm ▸ h), Checked.ok_bind, Option.map_some, nameAt, hlength]
        rfl
      · rw [if_neg hname, if_neg hname]
        rfl

/-- The mark of a heredoc that may be indented. -/
lemma narrow_mark (u : Text) :
    Narrow u (if u.head?.any (fun c => c == '~' || c == '-') then 1 else 0) := by
  split
  · rename_i h
    obtain ⟨c, hc, hsize⟩ := exists_mark rfl rfl h
    obtain ⟨v, rfl⟩ := List.head?_eq_some_iff.mp hc
    exact (Text.narrow_zero v).cons hsize
  · exact Text.narrow_zero u

/-- The announcement of a heredoc. -/
lemma announced?_ofScanner (hs : s.Sound source) (hrest : s.rest = '<' :: t) :
    (ofScanner s).announced? (.ofText source)
      = .ok ((Heredoc.announced? s.pos t).map fun found =>
        ofScanner { s.emit ⟨.string, found.2⟩ with pending := s.pending ++ [found.1] }) := by
  have hstands : Stands source s.pos ('<' :: t) := hrest ▸ stands_of_sound hs
  have hnext : Stands source (s.pos + 1) t := hstands.cons
  rw [announced?, show (ofScanner s).pos = s.pos from rfl, Buffer.get?_beq_ofText hnext (by decide)]
  by_cases ht : t.head? = some '<'
  · obtain ⟨u, rfl⟩ := List.head?_eq_some_iff.mp ht
    have hmark : Stands source (s.pos + 2) u := hnext.cons
    have hany := any_beq_ofText (d := '~') (e := '-') hmark (by decide) (by decide)
    have hnarrow := narrow_mark u
    have hdrop := hmark.drop hnarrow
    rw [if_pos (by simp), Heredoc.announced?]
    dsimp only
    rw [hany, heredocName?_ofText hdrop, Checked.ok_bind]
    generalize u.head?.any (fun c => c == '~' || c == '-') = indented at hnarrow ⊢
    cases hname : Heredoc.name? (u.drop (if indented then 1 else 0)) with
    | none => rfl
    | some found =>
      dsimp only [Option.map_some, nameAt]
      generalize (if indented then 1 else 0) = mark at hnarrow hname ⊢
      have hemit := emit_cons hs hrest rfl .string (1 + mark + found.2)
      rw [Nat.add_assoc 1, Nat.add_comm 1, List.take_succ_cons, Text.size_cons, List.take_add,
        Text.size_append, hnarrow, show ∀ n, s.pos + 1 + ('<'.utf8Size + (mark + n))
          = s.pos + 2 + mark + n from fun n => by rw [show '<'.utf8Size = 1 from rfl]; omega,
        Nat.add_comm (mark + found.2) 1, ← Nat.add_assoc] at hemit
      rw [hemit, Checked.ok_bind]
      simp only [ofScanner, List.map_append]
      rfl
  · have hnone : Heredoc.announced? s.pos t = none := by
      unfold Heredoc.announced?
      split
      · exact absurd rfl ht
      · rfl
    rw [if_neg (by simp [ht]), hnone]
    rfl

/-! ## Signs -/

/-- The name of a method that is an operator. -/
lemma method?_ofScanner (hs : s.Sound source) (hrest : s.rest = c :: t) :
    (ofScanner s).method? (.ofText source)
      = .ok ((if Token.inDefName s.recent then Sign.findMethod? (c :: t) else none).map
        fun name => ofScanner (s.emit ⟨.ident, name.length - 1⟩)) := by
  have hstands : Stands source s.pos (c :: t) := hrest ▸ stands_of_sound hs
  rw [method?, inDefName_ofScanner hs.recalls]
  cases Token.inDefName s.recent with
  | false => rfl
  | true =>
    rw [if_pos rfl, if_pos rfl, show (ofScanner s).pos = s.pos from rfl, Buffer.tail_ofText hstands,
      Checked.ok_bind, findMethod?_ofText]
    cases hmethod : Sign.findMethod? (c :: t) with
    | none => rfl
    | some name =>
      have htake := take_of_isPrefixOf (isPrefixOf_of_findMethod? hmethod)
      have hlength : 0 < name.length := List.length_pos_iff.2 <|
        ne_nil_of_findMethod? ((findMethod?_ofText (c :: t)).trans hmethod)
      have hemit := emit_ofScanner hs .ident (name.length - 1)
      rw [Nat.sub_add_cancel hlength, hrest, htake] at hemit
      dsimp only
      rw [Text.length_bytes, hemit]
      rfl

lemma bindFor_ofScanner (hs : s.Sound source) (sign : Sign) :
    (ofScanner s).bindFor (.ofText source) sign
      = .ok (ofScanner (s.bindNames (if sign.assigns then Token.targets s.recent else []))) := by
  rw [bindFor]
  cases sign.assigns with
  | false => rfl
  | true =>
    rw [if_pos rfl, if_pos rfl, bindTargets, recent_ofScanner hs.recalls,
      collectTargets_ofScanner (placed_of_mem_recent hs.recalls)]
    rfl

lemma sound_bindNames (hs : s.Sound source) (names : List Text) :
    (s.bindNames names).Sound source :=
  ⟨hs.split, hs.placed, hs.spelled, hs.stop_le, hs.ordered, hs.recent_eq⟩

lemma recalls_emit (hs : s.Sound source) (lexeme : Token.Lexeme) :
    (s.emit lexeme).Recalls source := by
  constructor
  · intro t ht
    rcases List.mem_cons.1 ht with rfl | ht
    · obtain ⟨before, hsource, hpos⟩ := hs.split
      refine ⟨before, s.rest.drop (lexeme.more + 1), ?_, hpos⟩
      rw [List.take_append_drop]
      exact hsource
    · exact hs.placed t ht
  · change (if lexeme.kind = .comment then s.recent else _) = List.filter _ (_ :: s.tokens)
    rw [hs.recent_eq, List.filter_cons]
    by_cases hkind : lexeme.kind = .comment <;> simp [hkind]

lemma isPrefixOf_of_find? {sign : Sign} (h : Sign.find? t = some sign) : sign.text.isPrefixOf t :=
  List.find?_some (p := fun sign : Sign => sign.text.isPrefixOf t) h

lemma ne_nil_of_find? {sign : Sign} (h : Sign.find? t = some sign) : sign.text ≠ [] := by
  have hall : ∀ sign ∈ Sign.table, sign.text ≠ [] := by decide
  exact hall sign (List.mem_of_find?_eq_some h)

/-- An operator or a punctuation sign. -/
lemma sign_ofScanner (hs : s.Sound source) (hrest : s.rest = c :: t) :
    (ofScanner s).sign (.ofText source) = .ofResult source ofScanner (s.sign c t) := by
  have hstands : Stands source s.pos (c :: t) := hrest ▸ stands_of_sound hs
  rw [sign, show (ofScanner s).pos = s.pos from rfl, Buffer.tail_ofText hstands, Checked.ok_bind,
    findSign?_ofText, Scanner.sign]
  cases hsign : Sign.find? (c :: t) with
  | none =>
    have htext : (Buffer.ofText source).text s.pos (Buffer.ofText source).size = .ok (c :: t) := by
      have hsize := (Buffer.reads_ofText hstands).size_eq
      rw [Text.length_bytes] at hsize
      rw [hsize]
      exact Buffer.text_ofText (t := []) (by rwa [List.append_nil])
    dsimp only
    rw [htext, Checked.ok_bind]
    exact Buffer.fail_eq_ofResult (.unexpectedCharacter c) (by simp) ofScanner
  | some sign =>
    have htake := take_of_isPrefixOf (isPrefixOf_of_find? hsign)
    have hlength : 0 < sign.text.length := List.length_pos_iff.2 (ne_nil_of_find? hsign)
    have hbound := sound_bindNames hs (if sign.assigns then Token.targets s.recent else [])
    have hemit := emit_ofScanner hbound sign.kind (sign.text.length - 1)
    rw [Nat.sub_add_cancel hlength, Scanner.rest_bindNames, hrest, htake,
      ← Text.length_bytes] at hemit
    change emit _ _ _ (s.pos + sign.text.bytes.length) = _ at hemit
    dsimp only
    rw [bindFor_ofScanner hs, Checked.ok_bind]
    rw [hemit, Checked.ok_bind, openParams_ofScanner (recalls_emit hbound _)]
    rfl

/-! ## One step -/

/-- What a reading of a literal leads to, or a sign where there is no literal. -/
def orSign (s : Scanner) (c : Char) (t : Text) (found : Except Fault (Option Scanner)) :
    Except Fault Scanner :=
  found.bind fun read => read.elim (s.sign c t) .ok

lemma literalOrSign_eq (hs : s.Sound source) (hrest : s.rest = c :: t)
    (hc : c = '?' ∨ c = '%' ∨ c = '/' ∨ c = '<') (found : Except Fault (Option Scanner))
    (hfound : (ofScanner s).literal? (.ofText source) (lead c)
      = .ofResult source (Option.map ofScanner) found) :
    (ofScanner s).literalOrSign (.ofText source) (lead c)
      = .ofResult source ofScanner
        (if !s.literalAllowed t.head? then s.sign c t else orSign s c t found) := by
  have hsize : c.utf8Size = 1 := by rcases hc with rfl | rfl | rfl | rfl <;> rfl
  have hnext := stands_cons hs hrest hsize
  have hquote : (lead c == ascii '"' || lead c == ascii '`') = false := by
    rcases hc with rfl | rfl | rfl | rfl <;> rfl
  have hsingle : (lead c == ascii '\'') = false := by rcases hc with rfl | rfl | rfl | rfl <;> rfl
  have hcolon : (lead c == ascii ':') = false := by rcases hc with rfl | rfl | rfl | rfl <;> rfl
  have hliteral : (lead c == ascii '?' || lead c == ascii '%' || lead c == ascii '/'
      || lead c == ascii '<') = true := by rcases hc with rfl | rfl | rfl | rfl <;> rfl
  rw [literalOrSign, hquote, hsingle, hcolon, hliteral,
    literalAllowed_ofScanner hs.recalls (Buffer.get?_ofText hnext), hfound, sign_ofScanner hs hrest]
  cases s.literalAllowed t.head? with
  | false => rfl
  | true => rcases found with fault | _ | read <;> rfl

lemma literalOrSign_question (hs : s.Sound source) (hrest : s.rest = '?' :: t) :
    (ofScanner s).literalOrSign (.ofText source) (lead '?')
      = .ofResult source ofScanner (s.literalOrSign '?' t) := by
  refine (literalOrSign_eq hs hrest (by simp)
    (.ok ((Token.Lexeme.character? t).map s.emit)) ?_).trans (congrArg _ ?_)
  · change (ofScanner s).character? (.ofText source) = _
    rw [character?_ofScanner hs hrest]
    cases Token.Lexeme.character? t <;> rfl
  · change _ = if !s.literalAllowed t.head? then _ else _
    cases Token.Lexeme.character? t <;> rfl

lemma literalOrSign_percent (hs : s.Sound source) (hrest : s.rest = '%' :: t) :
    (ofScanner s).literalOrSign (.ofText source) (lead '%')
      = .ofResult source ofScanner (s.literalOrSign '%' t) := by
  refine (literalOrSign_eq hs hrest (by simp) _ (percent?_ofScanner hs hrest)).trans (congrArg _ ?_)
  change _ = if !s.literalAllowed t.head? then _ else s.percent '%' t
  rw [Scanner.percent]
  rcases Token.Lexeme.percent? s.pos t with fault | _ | lexeme <;> rfl

lemma literalOrSign_slash (hs : s.Sound source) (hrest : s.rest = '/' :: t) :
    (ofScanner s).literalOrSign (.ofText source) (lead '/')
      = .ofResult source ofScanner (s.literalOrSign '/' t) := by
  refine (literalOrSign_eq hs hrest (by simp)
    (((Token.Lexeme.regexp s.pos t).map s.emit).map some) ?_).trans (congrArg _ ?_)
  · change ((ofScanner s).regexp (.ofText source)).map some = _
    rw [regexp_ofScanner hs hrest]
    cases Token.Lexeme.regexp s.pos t <;> rfl
  · change _ = if !s.literalAllowed t.head? then _ else (Token.Lexeme.regexp s.pos t).map s.emit
    cases Token.Lexeme.regexp s.pos t <;> rfl

lemma literalOrSign_angle (hs : s.Sound source) (hrest : s.rest = '<' :: t) :
    (ofScanner s).literalOrSign (.ofText source) (lead '<')
      = .ofResult source ofScanner (s.literalOrSign '<' t) := by
  refine (literalOrSign_eq hs hrest (by simp)
    (.ok ((Heredoc.announced? s.pos t).map fun found =>
      { s.emit ⟨.string, found.2⟩ with pending := s.pending ++ [found.1] })) ?_).trans
    (congrArg _ ?_)
  · change (ofScanner s).announced? (.ofText source) = _
    rw [announced?_ofScanner hs hrest]
    cases Heredoc.announced? s.pos t <;> rfl
  · change _ = if !s.literalAllowed t.head? then _ else _
    cases Heredoc.announced? s.pos t <;> rfl

/-- A sign that may also start a literal. -/
lemma literalOrSign_ofScanner (hs : s.Sound source) (hrest : s.rest = c :: t) :
    (ofScanner s).literalOrSign (.ofText source) (lead c)
      = .ofResult source ofScanner (s.literalOrSign c t) := by
  by_cases hdouble : c = '"'
  · subst hdouble
    exact quoted_ofScanner hs hrest rfl rfl true
  by_cases hback : c = '`'
  · subst hback
    exact quoted_ofScanner hs hrest rfl rfl true
  by_cases hsingle : c = '\''
  · subst hsingle
    exact quoted_ofScanner hs hrest rfl rfl false
  by_cases hcolon : c = ':'
  · subst hcolon
    exact colon_ofScanner hs hrest
  by_cases hquestion : c = '?'
  · subst hquestion
    exact literalOrSign_question hs hrest
  by_cases hpercent : c = '%'
  · subst hpercent
    exact literalOrSign_percent hs hrest
  by_cases hslash : c = '/'
  · subst hslash
    exact literalOrSign_slash hs hrest
  by_cases hangle : c = '<'
  · subst hangle
    exact literalOrSign_angle hs hrest
  have hbyte : (ofScanner s).literalOrSign (.ofText source) (lead c)
      = (ofScanner s).sign (.ofText source) := by
    rw [literalOrSign]
    simp (disch := decide) only [Text.lead_beq_ascii]
    simp [hdouble, hback, hsingle, hcolon, hquestion, hpercent, hslash, hangle]
  have hchar : s.literalOrSign c t = s.sign c t := by
    simp [Scanner.literalOrSign, hdouble, hback, hsingle, hcolon, hquestion, hpercent, hslash,
      hangle]
  rw [hbyte, hchar, sign_ofScanner hs hrest]

/-- A state of reading a text, of which the part `before` is read. -/
structure Within (source before : Text) (s : Scanner) : Prop where
  sound : s.Sound source
  source_eq : source = before ++ s.rest
  follows : s.Follows before

lemma Within.next {before : Text} {s' : Scanner} (h : Within source before s)
    (hnext : s.Next s') : ∃ eaten, Within source (before ++ eaten) s' := by
  obtain ⟨eaten, hstride⟩ := hnext.stride
  refine ⟨eaten, h.sound.next hnext, ?_, h.follows.stride hstride⟩
  rw [List.append_assoc, ← hstride.rest_eq]
  exact h.source_eq

lemma opensDocument_ofScanner {before : Text} (hs : Within source before s)
    (hrest : s.rest = c :: t) :
    (ofScanner s).opensDocument (.ofText source) (lead c)
      = .ok (c = '=' && s.atLineStart && Text.startsWord "=begin".toList (c :: t)) := by
  have hstands : Stands source s.pos (c :: t) := hrest ▸ stands_of_sound hs.sound
  rw [opensDocument, Text.lead_beq_ascii (by decide)]
  by_cases hc : c = '='
  · subst hc
    rw [if_pos (beq_self_eq_true _), atLineStart_ofScanner hs.source_eq hs.follows, Checked.ok_bind,
      show (ofScanner s).pos = s.pos from rfl, wordAt_ofText hstands (by simp)]
    cases s.atLineStart <;> rfl
  · rw [if_neg (by simpa using hc), decide_eq_false hc]
    rfl

lemma endsProgram_ofScanner {before : Text} (hs : Within source before s)
    (hrest : s.rest = c :: t) :
    (ofScanner s).endsProgram (.ofText source) (lead c)
      = .ok (c = '_' && s.atLineStart
        && Text.withoutReturn (Text.line (c :: t)) == "__END__".toList) := by
  rw [endsProgram, Text.lead_beq_ascii (by decide)]
  by_cases hc : c = '_'
  · subst hc
    rw [if_pos (beq_self_eq_true _), atLineStart_ofScanner hs.source_eq hs.follows,
      Checked.ok_bind, lineIs_ofScanner hs.sound, hrest]
    cases s.atLineStart <;> rfl
  · rw [if_neg (by simpa using hc), decide_eq_false hc]
    rfl

lemma blank_ofScanner (hrest : s.rest = c :: t) (hc : Text.isBlank c) :
    { ofScanner s with pos := s.pos + 1 } = ofScanner (s.advance 1) := by
  have hnarrow : ¬ Text.isWide c := fun hwide => by
    simp [Text.isBlank, Text.ne_of_isWide hwide] at hc
  rw [ofScanner_advance, hrest, List.take_succ_cons, List.take_zero, Text.size_cons,
    Text.utf8Size_of_narrow hnarrow]
  rfl

lemma size_of_sound (hs : s.Sound source) :
    (Buffer.ofText source).size = s.pos + Text.size s.rest := by
  have hsize := (Buffer.reads_ofText (stands_of_sound hs)).size_eq
  rwa [Text.length_bytes] at hsize

lemma size_ofScanner (hs : s.Sound source) (hrest : s.rest = c :: t) :
    { ofScanner s with pos := (Buffer.ofText source).size }
      = ofScanner (s.advance (t.length + 1)) := by
  rw [ofScanner_advance, List.take_of_length_le (by rw [hrest, List.length_cons]),
    size_of_sound hs]

/-- One step of the lexer is one step of the scanner. -/
lemma step_ofScanner {before : Text} (hw : Within source before s) (hrest : s.rest = c :: t) :
    (ofScanner s).step (.ofText source) = .ofResult source ofScanner (s.step c t) := by
  have hs := hw.sound
  have hstands : Stands source s.pos (c :: t) := hrest ▸ stands_of_sound hs
  have hbeq (d : Char) (hd : d.toNat < 0x80) : (lead c == ascii d) = (c == d) :=
    Text.lead_beq_ascii hd
  rw [step, show (ofScanner s).pos = s.pos from rfl, Buffer.byte_ofText hstands, Checked.ok_bind,
    opensDocument_ofScanner hw hrest, endsProgram_ofScanner hw hrest,
    Text.sees_isBlank.lead_eq, Text.sees_isDigit.lead_eq, Text.sees_isNameStart.lead_eq,
    method?_ofScanner hs hrest, literalOrSign_ofScanner hs hrest, hbeq '\\' (by decide),
    hbeq '\n' (by decide), hbeq '#' (by decide), hbeq '@' (by decide), hbeq '$' (by decide),
    Scanner.step]
  by_cases hblank : Text.isBlank c
  · rw [if_pos hblank, if_pos hblank, blank_ofScanner hrest hblank]
    rfl
  rw [if_neg hblank, if_neg hblank]
  by_cases hslash : c = '\\'
  · subst hslash
    exact continuation_ofScanner hs hrest
  rw [if_neg (show ¬ (c == '\\') by simpa using hslash), if_neg hslash]
  by_cases hnewline : c = '\n'
  · subst hnewline
    exact newline_ofScanner hs hrest
  rw [if_neg (show ¬ (c == '\n') by simpa using hnewline), if_neg hnewline]
  by_cases hsharp : c = '#'
  · subst hsharp
    exact lineComment_ofScanner hs hrest
  rw [if_neg (show ¬ (c == '#') by simpa using hsharp), if_neg hsharp, Checked.ok_bind]
  by_cases hdocument : c = '=' && s.atLineStart && Text.startsWord "=begin".toList (c :: t)
  · obtain rfl : c = '=' := by
      rw [Bool.and_eq_true, Bool.and_eq_true, decide_eq_true_eq] at hdocument
      exact hdocument.1.1
    rw [if_pos hdocument, if_pos hdocument]
    exact document_ofScanner hs hrest
  rw [if_neg hdocument, if_neg hdocument, Checked.ok_bind]
  by_cases hend : c = '_' && s.atLineStart
      && Text.withoutReturn (Text.line (c :: t)) == "__END__".toList
  · rw [if_pos hend, if_pos hend, size_ofScanner hs hrest]
    rfl
  rw [if_neg hend, if_neg hend]
  by_cases hdigit : c.isDigit
  · rw [if_pos hdigit, if_pos hdigit]
    exact number_ofScanner hs hrest hdigit
  rw [if_neg hdigit, if_neg hdigit]
  by_cases hname : Text.isNameStart c
  · rw [if_pos hname, if_pos hname]
    exact ident_ofScanner hs hrest (by simp [Text.isNameChar, hname])
  rw [if_neg hname, if_neg hname]
  by_cases hsigil : c = '@' ∨ c = '$'
  · rw [if_pos (show (c == '@' || c == '$') by simpa using hsigil),
      if_pos (show (decide (c = '@') || decide (c = '$')) by simpa using hsigil)]
    exact var_ofScanner hs hrest hsigil
  rw [if_neg (show ¬ (c == '@' || c == '$') by simpa using hsigil),
    if_neg (show ¬ (decide (c = '@') || decide (c = '$')) by simpa using hsigil), Checked.ok_bind,
    Scanner.methodOrSign]
  cases (if Token.inDefName s.recent then Sign.findMethod? (c :: t) else none) <;> rfl

/-! ## Whole runs -/

lemma run_of_lt {src : Buffer} {l : Lexer} (h : l.pos < src.size) :
    run src l = l.step src >>= run src := by
  rw [run, dif_pos h]
  split
  · rename_i stop hstep
    rw [hstep]
    rfl
  · rename_i l' hstep
    rw [hstep]
    rfl

/-- The lexer reads a buffer as the scanner reads the text. -/
lemma run_ofScanner {s : Scanner} {before : Text} (hw : Within source before s) :
    run (.ofText source) (ofScanner s) = .ofResult source ofScanner s.run := by
  have hsize := size_of_sound hw.sound
  cases hrest : s.rest with
  | nil =>
    rw [hrest] at hsize
    rw [run, dif_neg (by rw [hsize]; exact lt_irrefl s.pos), Scanner.run_nil hrest,
      show (ofScanner s).heredocs = s.pending.map .ofHeredoc from rfl]
    cases s.pending with
    | nil => rfl
    | cons doc docs =>
      exact Buffer.fail_eq_ofResult .unterminatedHeredoc (by simp) ofScanner
  | cons c t =>
    have hpos := c.utf8Size_pos
    rw [hrest, Text.size_cons] at hsize
    rw [run_of_lt (show s.pos < (Buffer.ofText source).size by omega), step_ofScanner hw hrest,
      Scanner.run_cons hrest]
    cases hstep : s.step c t with
    | error fault => rfl
    | ok s' =>
      obtain ⟨eaten, hw'⟩ := hw.next ⟨c, t, hrest, hstep⟩
      exact run_ofScanner hw'
termination_by s.rest.length
decreasing_by exact Scanner.length_step_lt hrest hstep

lemma within_start (source : Text) : Within source [] { rest := source } :=
  ⟨Scanner.sound_start source, rfl, rfl, rfl⟩

lemma token_ofToken {u : Token} (h : u.Placed source) :
    (Extent.ofToken u).token (.ofText source) = .ok u := by
  rw [Extent.token, Extent.text_ofToken h]
  rfl

lemma mapM_token {tokens : List Token} (h : ∀ u ∈ tokens, u.Placed source) :
    (tokens.map Extent.ofToken).mapM (Extent.token (.ofText source)) = .ok tokens := by
  induction tokens with
  | nil => rfl
  | cons u tokens ih =>
    obtain ⟨hu, htokens⟩ := List.forall_mem_cons.1 h
    rw [List.map_cons, List.mapM_cons, token_ofToken hu, Checked.ok_bind, ih htokens]
    rfl

end

end Lexer

namespace Parser

/-- A buffer has the tokens that its text has. -/
lemma scan_ofText (source : Text) :
    scan (.ofText source) = .ofResult source id (Token.scan source) := by
  rw [scan, show ({} : Lexer) = .ofScanner { rest := source } from rfl,
    Lexer.run_ofScanner (Lexer.within_start source), Token.scan]
  cases hrun : Scanner.run { rest := source } with
  | error fault => rfl
  | ok s =>
    have hsound := (Scanner.sound_start source).reaches (Scanner.run_eq_ok_iff.1 hrun).1
    change (s.tokens.map Extent.ofToken).reverse.mapM _ = Except.ok s.tokens.reverse
    rw [← List.map_reverse, Lexer.mapM_token]
    simpa using hsound.placed

lemma lex_ofText (source : Text) :
    lex (.ofText source) = .ofResult source id (Token.lex source) := by
  rw [lex, scan_ofText, Token.lex]
  cases Token.scan source <;> rfl

end Parser

end TablePack
