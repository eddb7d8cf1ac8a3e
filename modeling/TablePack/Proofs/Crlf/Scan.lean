import Mathlib.Tactic
import TablePack.Proofs.Crlf.Lexeme
import TablePack.Proofs.Relabel.Tokens

/-!
# Scanning with carriage returns

The scanner is run over a text and over the text with a carriage return before each newline, and the
two runs are kept in step. The states are `Level` where the second rest is the first one with
carriage returns. Where the first rest starts with a newline, the second run has to pass over the
carriage return first, as a blank or at the end of a comment; then it is `Midway` through the line
break. The tokens are the same ones, at the offsets where they are in the second text
(`Token.crlf`); only a newline starts after its carriage return.

* `Scanner.choose_crlf`: the choice of a move;
* `Scanner.Level.perform`, `Scanner.Midway.newline`: one step;
* `Scanner.run_crlf`: a run;
* `Token.lex_crlf`: the tokens of both texts.
-/

namespace TablePack

open Token (Kind Lexeme Spelled Placed)
open Text (crlfOffset Reads Sheds Stands size)

lemma Numeral.Literal.newline_not_mem {text digits : Text} {radix : ℕ}
    (h : Numeral.Literal text radix digits) : '\n' ∉ text := by
  have hdigit : ∀ radix, ¬ Numeral.IsDigitOf radix '\n' := by
    rintro radix (hc | hc)
    · cases hc
    · simp [Numeral.digit?] at hc
  cases h with
  | marked hmark hne hdigits =>
    simp only [List.mem_cons, not_or]
    refine ⟨by decide, ?_, fun hmem => hdigit _ (hdigits _ hmem)⟩
    rintro rfl
    cases hmark
  | octal hdigits =>
    simp only [List.mem_cons, not_or]
    exact ⟨by decide, fun hmem => hdigit _ (hdigits _ hmem)⟩
  | decimal hfirst hzero hdigits =>
    simp only [List.mem_cons, not_or]
    refine ⟨?_, fun hmem => hdigit _ (hdigits _ hmem)⟩
    rintro rfl
    cases hfirst

/-! ## Tokens -/

namespace Token

/-- A token where it is in the text with carriage returns. -/
def crlf (source : Text) (t : Token) : Token :=
  if t.kind = .newline then { t with start := crlfOffset source t.start + 1 }
  else { t with start := crlfOffset source t.start, text := t.text.crlf }

/-- Tokens that stand in a text and are spelled as their kinds say. -/
def Known (source : Text) (tokens : List Token) : Prop :=
  ∀ t ∈ tokens, t.Placed source ∧ Spelled t.kind t.text

section Crlf

variable {source : Text} {t : Token} {recent : List Token}

@[simp] lemma kind_crlf (source : Text) (t : Token) : (t.crlf source).kind = t.kind := by
  unfold crlf
  split <;> rfl

lemma crlf_of_ne (source : Text) (h : t.kind ≠ .newline) :
    t.crlf source = ⟨t.kind, crlfOffset source t.start, t.text.crlf⟩ := by
  rw [crlf, if_neg h]

lemma text_crlf_eq_iff {w : Text} (hw : '\n' ∉ w) : (t.crlf source).text = w ↔ t.text = w := by
  unfold crlf
  split
  · rfl
  · exact Text.crlf_eq_iff hw

lemma text_crlf_of_not_mem (h : '\n' ∉ t.text) : (t.crlf source).text = t.text :=
  (text_crlf_eq_iff h).2 rfl

lemma start_crlf (h : t.kind ≠ .newline) : (t.crlf source).start = crlfOffset source t.start := by
  rw [crlf_of_ne source h]

lemma stop_crlf (hplaced : t.Placed source) (hnl : t.kind = .newline → t.text = ['\n']) :
    (t.crlf source).stop = crlfOffset source t.stop := by
  obtain ⟨before, after, hsource, hstart⟩ := hplaced
  have hstands : Stands source t.start (t.text ++ after) := ⟨before, hsource, hstart⟩
  have hadd := hstands.crlfOffset_add
  by_cases hkind : t.kind = .newline
  · rw [hnl hkind] at hadd
    simp only [crlf, if_pos hkind, stop, hnl hkind]
    rw [hadd]
    rfl
  · rw [crlf_of_ne source hkind, stop, stop, hadd]

/-- The texts that are read off a token lie within a line. -/
lemma Spelled.newline_not_mem {kind : Kind} {text : Text} (h : Spelled kind text)
    (hfixed : isFixed kind) : '\n' ∉ text := by
  have hpunctuation : ∀ w : Text, spellings? kind = some [w] → '\n' ∉ w → '\n' ∉ text := by
    intro w hw hnot
    rwa [List.mem_singleton.1 (h.punctuation [w] hw)]
  cases kind with
  | ident => exact h.name rfl
  | const => exact h.name rfl
  | var => exact h.name rfl
  | keyword k => exact h.name rfl
  | int =>
    obtain ⟨radix, digits, hliteral⟩ := h.integer rfl
    exact hliteral.newline_not_mem
  | lparen => exact hpunctuation _ rfl (by decide)
  | rparen => exact hpunctuation _ rfl (by decide)
  | lbracket => exact hpunctuation _ rfl (by decide)
  | rbracket => exact hpunctuation _ rfl (by decide)
  | lbrace => exact hpunctuation _ rfl (by decide)
  | rbrace => exact hpunctuation _ rfl (by decide)
  | indexBracket => exact absurd (h.punctuation [] rfl) (List.not_mem_nil)
  | arrayBracket => exact absurd (h.punctuation [] rfl) (List.not_mem_nil)
  | _ => cases hfixed

/-- Putting carriage returns before newlines relabels the tokens. -/
abbrev relabelCrlf (source : Text) : Relabeling where
  token := crlf source
  offset := crlfOffset source
  domain := Set.univ
  kind_token := kind_crlf source
  token_with := by
    intro t k ht hk
    rw [crlf_of_ne source ht, crlf_of_ne source hk]
  word_token := fun _ _ => text_crlf_eq_iff
  strictMonoOn := (Text.strictMono_crlfOffset source).strictMonoOn _

lemma Known.keeps (h : Known source recent) : ∀ t ∈ recent, (relabelCrlf source).Keeps t := by
  intro t ht
  obtain ⟨hplaced, hspelled⟩ := h t ht
  exact ⟨fun hfixed => text_crlf_of_not_mem (hspelled.newline_not_mem hfixed), fun _ => trivial,
    start_crlf, fun _ => trivial, fun hne => stop_crlf hplaced fun hnl => absurd hnl hne⟩

end Crlf

end Token

namespace Scanner

variable {source : Text} {s s' : Scanner} {c : Char} {t : Text}

/-! ## Choosing a move -/

/-- A move at a text, and the move at the text with carriage returns. -/
inductive Move.Twin (source x : Text) : Move → Move → Prop
  | skip {n n' : ℕ} : Reads x n n' → Twin source x (.skip n) (.skip n')
  | lexeme {l l' : Lexeme} : Lexeme.Twin x l l' → Twin source x (.lexeme l) (.lexeme l')
  | comment {l l' : Lexeme} : l.kind = .comment → l'.kind = .comment →
      Sheds x (l.more + 1) (l'.more + 1) → Twin source x (.lexeme l) (.lexeme l')
  | word : Twin source x .word .word
  | announce (doc : Heredoc) {n : ℕ} : Reads x (n + 1) (n + 1) →
      Twin source x (.announce doc n) (.announce (doc.crlf source) n)
  | sign {sg : Sign} : Sign.find? x = some sg → Twin source x (.sign sg) (.sign sg)

section Choose

variable {v : View} {pos : ℕ}

lemma chooseSign_crlf (source : Text) (pos : ℕ) (c : Char) (t : Text) :
    Agree source (Move.Twin source (c :: t)) (chooseSign pos c t)
      (chooseSign (crlfOffset source pos) c t.crlf) := by
  rw [chooseSign, chooseSign, Sign.find?_crlf]
  cases hfind : Sign.find? (c :: t) with
  | none => exact .error ⟨pos, _⟩
  | some sg => exact .ok (.sign hfind)

lemma choosePercent_crlf (hs : Stands source pos ('%' :: t)) :
    Agree source (Move.Twin source ('%' :: t)) (choosePercent pos '%' t)
      (choosePercent (crlfOffset source pos) '%' t.crlf) := by
  have hpercent := Lexeme.percent?_crlf hs
  rw [choosePercent, choosePercent]
  generalize Lexeme.percent? pos t = r at hpercent
  generalize Lexeme.percent? _ t.crlf = r' at hpercent
  cases hpercent with
  | error fault => exact .error fault
  | ok hrel =>
    cases hrel with
    | none => exact chooseSign_crlf source pos '%' t
    | some htwin => exact .ok (.lexeme htwin)

lemma allows_crlf (v : View) (t : Text) : v.allows t.crlf.head? = v.allows t.head? := by
  rw [View.allows, View.allows, Text.head?_any_crlf rfl]

lemma chooseLiteral_crlf (hs : Stands source pos (c :: t))
    (hescape : ¬ "?\\\n".toList <+: c :: t) :
    Agree source (Move.Twin source (c :: t)) (chooseLiteral v pos c t)
      (chooseLiteral v (crlfOffset source pos) c t.crlf) := by
  have hsign := chooseSign_crlf source pos c t
  rw [chooseLiteral, chooseLiteral, allows_crlf]
  refine .ite (fun hc => ?_) fun _ => .ite (fun hc => ?_) fun _ => .ite (fun hc => ?_)
    fun _ => .ite (fun _ => hsign) fun _ => .ite (fun hc => ?_) fun _ => .ite (fun hc => ?_)
    fun _ => .ite (fun hc => ?_) fun _ => .ite (fun hc => ?_) fun _ => hsign
  · have hspace : Text.isSpace c = false := by
      rw [Bool.or_eq_true, decide_eq_true_eq, decide_eq_true_eq] at hc
      rcases hc with rfl | rfl <;> rfl
    exact (Lexeme.quoted_crlf hspace _ hs).map fun _ _ => .lexeme
  · subst hc
    exact (Lexeme.quoted_crlf rfl _ hs).map fun _ _ => .lexeme
  · subst hc
    exact (Lexeme.colon_crlf hs).map fun _ _ => .lexeme
  · subst hc
    have hslash : ¬ ['\\', '\n'] <+: t := by
      intro h
      exact hescape (List.cons_prefix_cons.2 ⟨rfl, h⟩)
    rw [Lexeme.character?_crlf hslash]
    cases hl : Lexeme.character? t with
    | none => exact hsign
    | some l => exact .ok (.lexeme (Lexeme.twin_self (Lexeme.not_mem_take_character? hslash hl)))
  · subst hc
    exact choosePercent_crlf hs
  · subst hc
    exact (Lexeme.regexp_crlf hs).map fun _ _ => .lexeme
  · subst hc
    rw [Heredoc.announced?_crlf]
    cases hdoc : Heredoc.announced? pos t with
    | none => exact hsign
    | some found =>
      obtain ⟨doc, n⟩ := found
      refine .ok (.announce doc (.of_not_mem ?_))
      rw [List.take_succ_cons, List.mem_cons, not_or]
      exact ⟨by decide, Heredoc.not_mem_take_announced? hdoc⟩

/-- A backslash joins lines with and without a carriage return. -/
lemma chooseJoin_crlf (hr : '\r' ∉ t) :
    Agree source (Move.Twin source ('\\' :: t)) (chooseJoin pos t)
      (chooseJoin (crlfOffset source pos) t.crlf) := by
  have herror : ∀ start (u : Text), u.head? ≠ some '\n' → u.head? ≠ some '\r' →
      chooseJoin start u = .error ⟨start, .unexpectedBackslash⟩ := by
    intro start u hn hr
    rw [chooseJoin.eq_def]
    split
    · exact absurd rfl hn
    · exact absurd rfl hr
    · rfl
  by_cases hhead : t.head? = some '\n'
  · obtain ⟨u, rfl⟩ := List.head?_eq_some_iff.1 hhead
    exact .ok (.skip ((Reads.zero u).newline.cons (by decide)))
  · have hcr : t.head? ≠ some '\r' := fun h => hr (List.mem_of_mem_head? h)
    have hcrlf : t.crlf.head? = t.head? := by
      cases t with
      | nil => rfl
      | cons d u =>
        rw [Text.crlf_cons (by simpa using hhead)]
        rfl
    rw [herror pos t hhead hcr, herror _ _ (hcrlf ▸ hhead) (hcrlf ▸ hcr)]
    exact .error ⟨pos, _⟩

/-- Apart from a newline, every text leads to the same move with and without carriage returns. -/
lemma choose_crlf (hs : Stands source pos (c :: t)) (hc : c ≠ '\n') (hr : '\r' ∉ c :: t)
    (hescape : ¬ "?\\\n".toList <+: c :: t) :
    Agree source (Move.Twin source (c :: t)) (choose v pos c t)
      (choose v (crlfOffset source pos) c t.crlf) := by
  have hcrlf := Text.crlf_cons hc t
  have hbegin : Text.startsWord "=begin".toList (c :: t.crlf)
      = Text.startsWord "=begin".toList (c :: t) := by
    rw [← hcrlf]
    exact Text.startsWord_crlf (by decide) (by decide) _
  have hline : Text.withoutReturn (Text.line (c :: t.crlf))
      = Text.withoutReturn (Text.line (c :: t)) := by
    rw [← hcrlf]
    exact Text.withoutReturn_line_crlf hr
  have hmethod : Sign.findMethod? (c :: t.crlf) = Sign.findMethod? (c :: t) := by
    rw [← hcrlf]
    exact Sign.findMethod?_crlf _
  rw [choose, choose, hbegin, hline, hmethod]
  refine .ite (fun _ => ?_) fun _ => .ite (fun hslash => ?_) fun _ => .ite (fun hnl => ?_)
    fun _ => .ite (fun _ => ?_) fun _ => .ite (fun _ => ?_) fun _ => .ite (fun _ => ?_)
    fun _ => .ite (fun _ => ?_) fun _ => .ite (fun _ => ?_) fun _ => .ite (fun hsigil => ?_)
    fun _ => ?_
  · exact .ok (.skip ((Reads.zero t).cons hc))
  · subst hslash
    exact chooseJoin_crlf fun h => hr (List.mem_cons_of_mem _ h)
  · exact absurd hnl hc
  · exact .ok (.comment rfl rfl ((Text.sheds_span t).cons hc))
  · exact (Lexeme.document_crlf hc t).map fun _ _ h => .comment h.1 h.2.1 h.2.2
  · refine .ok (.skip (.all (by simp) ?_))
    rw [hcrlf, List.length_cons]
  · exact (Numeral.read_crlf hc hs).map fun _ _ => .lexeme
  · exact .ok .word
  · rw [Bool.or_eq_true, decide_eq_true_eq, decide_eq_true_eq] at hsigil
    exact (Lexeme.var_crlf hsigil t).map fun _ _ => .lexeme
  · cases hfound : (if v.defining then Sign.findMethod? (c :: t) else none) with
    | none => exact chooseLiteral_crlf hs hescape
    | some name =>
      have hname : Sign.findMethod? (c :: t) = some name := by
        split at hfound
        · exact hfound
        · cases hfound
      obtain ⟨hne, hnot⟩ := Sign.not_mem_of_findMethod? hname
      refine .ok (.lexeme (Lexeme.twin_self ?_))
      dsimp only
      rwa [Nat.sub_add_cancel (List.length_pos_of_ne_nil hne)]

end Choose

/-! ## States -/

/-- What the scanner remembers over both texts. -/
structure Memory (source : Text) (s s' : Scanner) : Prop where
  recent_eq : s'.recent = s.recent.map (Token.crlf source)
  pending_eq : s'.pending = s.pending.map (Heredoc.crlf source)
  locals_eq : s'.locals = s.locals
  params_eq : s'.params = s.params

/-- States before corresponding rests. -/
structure Level (source : Text) (s s' : Scanner) : Prop extends Memory source s s' where
  rest_eq : s'.rest = s.rest.crlf
  pos_eq : s'.pos = crlfOffset source s.pos
  previous_eq : s'.previous = s.previous

/-- States before a newline, where the carriage return before it is passed already. -/
structure Midway (source : Text) (s s' : Scanner) : Prop extends Memory source s s' where
  rest_eq : ∃ t : Text, s.rest = '\n' :: t ∧ s'.rest = '\n' :: t.crlf
  pos_eq : s'.pos = crlfOffset source s.pos + 1

lemma Sound.stands (h : Sound source s) : Stands source s.pos s.rest := h.split

lemma Sound.known (h : Sound source s) : Token.Known source s.recent := by
  intro t ht
  rw [h.recent_eq] at ht
  exact ⟨h.placed t (List.mem_of_mem_filter ht), h.spelled t (List.mem_of_mem_filter ht)⟩

namespace Level

lemma argument_eq (h : Level source s s') (hsound : Sound source s) :
    s'.view.argument = s.view.argument := by
  have hknown := hsound.known
  simp only [view, afterLocal, h.locals_eq, h.recent_eq, h.pos_eq]
  cases hrecent : s.recent with
  | nil => rfl
  | cons t older =>
    rw [hrecent] at hknown
    simp only [List.map_cons, Token.kind_crlf, (Token.relabelCrlf source).followsAccess_map]
    by_cases hkind : t.kind = .ident
    · have hkeeps := hknown.keeps t List.mem_cons_self
      have hstop : (t.crlf source).stop < crlfOffset source s.pos ↔ t.stop < s.pos := by
        rw [hkeeps.stop_eq (by rw [hkind]; simp)]
        exact (Text.strictMono_crlfOffset source).lt_iff_lt
      rw [hkeeps.text_eq (by rw [hkind]; rfl), decide_eq_decide.2 hstop]
    · simp only [beq_eq_false_iff_ne.2 hkind, Bool.false_and]

lemma view_eq (h : Level source s s') (hsound : Sound source s) : s'.view = s.view := by
  have hargument := h.argument_eq hsound
  have hline : s'.view.lineStart = s.view.lineStart := by
    simp only [view, atLineStart, h.previous_eq]
  have hdef : s'.view.defining = s.view.defining := by
    simp only [view, h.recent_eq, (Token.relabelCrlf source).inDefName_map]
  have hvalue : s'.view.value = s.view.value := by
    simp only [view, h.recent_eq, (Token.relabelCrlf source).valueExpected_map]
  calc s'.view = ⟨s'.view.lineStart, s'.view.defining, s'.view.value, s'.view.argument⟩ := rfl
    _ = s.view := by rw [hline, hdef, hvalue, hargument]

lemma pos_advance (h : Level source s s') (hs : Stands source s.pos s.rest) {n n' : ℕ}
    (hread : Reads s.rest n n') : (s'.advance n').pos = crlfOffset source (s.advance n).pos := by
  rw [← List.take_append_drop n s.rest] at hs
  simp only [Scanner.advance]
  rw [h.rest_eq, h.pos_eq, hread.take_eq, hs.crlfOffset_add]

lemma advance (h : Level source s s') (hs : Stands source s.pos s.rest) {n n' : ℕ}
    (hread : Reads s.rest n n') : Level source (s.advance n) (s'.advance n') where
  recent_eq := h.recent_eq
  pending_eq := h.pending_eq
  locals_eq := h.locals_eq
  params_eq := h.params_eq
  rest_eq := by rw [rest_advance, rest_advance, h.rest_eq, hread.drop_eq]
  pos_eq := h.pos_advance hs hread
  previous_eq := by
    simp only [Scanner.advance]
    rw [h.rest_eq, hread.take_eq, Text.getLast?_crlf, h.previous_eq]

lemma emit (h : Level source s s') (hs : Stands source s.pos s.rest) {l l' : Lexeme}
    (htwin : Lexeme.Twin s.rest l l') (hkind : l.kind ≠ .newline) :
    Level source (s.emit l) (s'.emit l') := by
  obtain ⟨hsame, hread⟩ := htwin
  have hadvance := h.advance hs hread
  have htoken : (⟨l'.kind, s'.pos, s'.rest.take (l'.more + 1)⟩ : Token)
      = Token.crlf source ⟨l.kind, s.pos, s.rest.take (l.more + 1)⟩ := by
    rw [Token.crlf_of_ne source hkind, h.rest_eq, hread.take_eq, h.pos_eq, hsame]
  refine ⟨⟨?_, h.pending_eq, h.locals_eq, ?_⟩, hadvance.rest_eq, hadvance.pos_eq,
    hadvance.previous_eq⟩
  · simp only [Scanner.emit]
    rw [htoken, h.recent_eq, hsame]
    split <;> rfl
  · simp only [Scanner.emit, htoken, h.params_eq, (Token.relabelCrlf source).track_token]

/-- After a comment, the second state is before the same text or before the bare newline. -/
lemma emit_comment (h : Level source s s') (hs : Stands source s.pos s.rest) {l l' : Lexeme}
    (hl : l.kind = .comment) (hl' : l'.kind = .comment)
    (hsheds : Sheds s.rest (l.more + 1) (l'.more + 1)) :
    Level source (s.emit l) (s'.emit l') ∨ Midway source (s.emit l) (s'.emit l') := by
  generalize hn : l.more + 1 = n at hsheds
  generalize hn' : l'.more + 1 = n' at hsheds
  generalize hrest : s.rest = x at hsheds
  cases hsheds with
  | whole hread =>
    subst hrest hn hn'
    exact .inl (h.emit hs ⟨hl'.trans hl.symm, hread⟩ (by rw [hl]; simp))
  | line u v =>
    have hrest' : s'.rest = u.crlf ++ '\r' :: '\n' :: v.crlf := by
      rw [h.rest_eq, hrest, Text.crlf_append, Text.crlf_newline]
    have htake : s'.rest.take (u.crlf.length + 1) = u.crlf ++ ['\r'] := by
      rw [hrest', List.take_length_add_append]
      rfl
    refine .inr ⟨⟨?_, h.pending_eq, h.locals_eq, ?_⟩, ⟨v, ?_, ?_⟩, ?_⟩
    · simp only [Scanner.emit, hl, hl', if_true, h.recent_eq]
    · simp only [Scanner.emit, h.params_eq, Parameters.track, hl, hl']
    · rw [rest_emit, hn, hrest, List.drop_left]
    · rw [rest_emit, hn', hrest', List.drop_append, List.drop_of_length_le (by omega),
        Nat.add_sub_cancel_left]
      rfl
    · rw [hrest] at hs
      have hpos : (s.emit l).pos = s.pos + size u := by
        simp only [Scanner.emit, Scanner.advance, hn, hrest, List.take_left]
      have hpos' : (s'.emit l').pos = s'.pos + size (u.crlf ++ ['\r']) := by
        simp only [Scanner.emit, Scanner.advance, hn', htake]
      rw [hpos, hpos', hs.crlfOffset_add, h.pos_eq, Text.size_append, ← Nat.add_assoc]
      rfl

lemma bindNames (h : Level source s s') (names : List Text) :
    Level source (s.bindNames names) (s'.bindNames names) :=
  ⟨⟨h.recent_eq, h.pending_eq, by simp only [Scanner.bindNames, h.locals_eq], h.params_eq⟩,
    h.rest_eq, h.pos_eq, h.previous_eq⟩

lemma openParams (h : Level source s s') : Level source s.openParams s'.openParams :=
  ⟨⟨h.recent_eq, h.pending_eq, h.locals_eq, by
    simp only [Scanner.openParams, h.recent_eq, (Token.relabelCrlf source).opened?_map,
      h.params_eq]⟩,
    h.rest_eq, h.pos_eq, h.previous_eq⟩

lemma readSign (h : Level source s s') (hsound : Sound source s) {sg : Sign}
    (hfind : Sign.find? s.rest = some sg) : Level source (s.readSign sg) (s'.readSign sg) := by
  have htargets : Token.targets s'.recent = Token.targets s.recent := by
    rw [h.recent_eq]
    exact Relabeling.targets_map hsound.known.keeps
  obtain ⟨hmem, -⟩ := Sign.mem_and_prefix_of_find? hfind
  have hall := (by decide : ∀ sg ∈ Sign.table, '\n' ∉ sg.text ∧ sg.kind ≠ .newline) sg hmem
  rw [Scanner.readSign, Scanner.readSign, htargets]
  refine ((h.bindNames _).emit hsound.stands (Lexeme.twin_self ?_) hall.2).openParams
  have htake := Sign.take_eq_text hfind
  dsimp only [Scanner.bindNames]
  rw [htake]
  exact hall.1

/-! ## Words -/

lemma wordLength_crlf (t : Text) : wordLength t.crlf = wordLength t :=
  Text.congr_crlf (fun l _ hv _ => wordLength_append_dull l hv) t

lemma startsLabel_crlf (t : Text) : startsLabel t.crlf = startsLabel t :=
  Text.congr_crlf (fun l _ hv _ => startsLabel_append_dull l hv) t

lemma startsLineParams_crlf (t : Text) : startsLineParams t.crlf = startsLineParams t := by
  have hspan : Text.span Text.isIndent t.crlf = Text.span Text.isIndent t := by
    obtain ⟨l, -, ⟨ht, hcrlf⟩ | ⟨u, ht, hcrlf⟩⟩ := Text.exists_line t
    · rw [hcrlf, ht]
    · rw [hcrlf, ht, Text.span, Text.span, List.takeWhile_append, List.takeWhile_append]
      split <;> rfl
  have hread := Text.reads_span (p := Text.isIndent) rfl t
  rw [startsLineParams, startsLineParams, hspan, hread.drop_eq, Text.head?_any_crlf rfl]

lemma namesMethod_crlf (h : Level source s s') (t : Text) :
    s'.namesMethod t.crlf = s.namesMethod t := by
  have hread := Reads.of_not_mem (not_mem_take_wordLength t)
  have hdot : ((Text.crlf (t.drop (wordLength t))).head? == some '.')
      = ((t.drop (wordLength t)).head? == some '.') := by
    rw [Bool.eq_iff_iff, beq_iff_eq, beq_iff_eq, Text.head?_crlf_eq_some (by decide) (by decide)]
  rw [namesMethod, namesMethod, namesReceiver, namesReceiver, wordLength_crlf, hread.drop_eq, hdot,
    h.recent_eq, (Token.relabelCrlf source).inDefName_map]

lemma wordExtent_crlf (h : Level source s s') (t : Text) :
    s'.wordExtent t.crlf = s.wordExtent t := by
  have hread := Reads.of_not_mem (not_mem_take_wordLength t)
  rw [wordExtent, wordExtent, h.namesMethod_crlf, wordLength_crlf, hread.drop_eq,
    Lexeme.startsSetter_crlf]

lemma word (h : Level source s s') (hsound : Sound source s) (hrest : s.rest = c :: t)
    (hc : Text.isNameStart c) : Level source (s.word c t) (s'.word c t.crlf) := by
  set n := s.wordExtent t with hn
  have hread := Reads.of_not_mem (not_mem_take_wordExtent s t)
  have hcn : c ≠ '\n' := by
    rintro rfl
    exact absurd hc (by decide)
  have hnot : '\n' ∉ c :: t.take n := by
    rw [List.mem_cons, not_or]
    exact ⟨hcn.symm, not_mem_take_wordExtent s t⟩
  have htake : t.crlf.take n = t.take n := by
    rw [hread.take_eq, Text.crlf_of_not_mem (not_mem_take_wordExtent s t)]
  have hkind : s'.wordKind (c :: t.take n) (t.crlf.drop n)
      = s.wordKind (c :: t.take n) (t.drop n) := by
    rw [wordKind, wordKind, h.recent_eq, (Token.relabelCrlf source).inDefName_map,
      (Token.relabelCrlf source).kindAt?_map, hread.drop_eq, startsLabel_crlf]
  have hbinds : ∀ kind, s'.bindsWord kind = s.bindsWord kind := by
    intro kind
    rw [bindsWord, bindsWord, h.recent_eq, (Token.relabelCrlf source).inDefName_map,
      (Token.relabelCrlf source).kindAt?_map, (Token.relabelCrlf source).inRescue_map, h.params_eq]
  have hword := isWord_wordKind s (c :: t.take n) (t.drop n)
  have hemit := (h.emit hsound.stands (l := ⟨s.wordKind (c :: t.take n) (t.drop n), n⟩)
    (Lexeme.twin_self (by rw [hrest]; exact hnot))
    (by intro hnl; dsimp only at hnl; rw [hnl] at hword; cases hword)).bindNames
      (if s.bindsWord (s.wordKind (c :: t.take n) (t.drop n)) then [c :: t.take n] else [])
  simp only [Scanner.word, h.wordExtent_crlf, ← hn, htake, hkind, hbinds, h.namesMethod_crlf]
  rw [hread.drop_eq, startsLineParams_crlf]
  refine ⟨⟨hemit.recent_eq, hemit.pending_eq, hemit.locals_eq, ?_⟩, hemit.rest_eq, hemit.pos_eq,
    hemit.previous_eq⟩
  dsimp only
  split
  · rfl
  · exact hemit.params_eq

/-! ## One step -/

/-- A move that is no line break keeps the two runs in step. -/
lemma perform (h : Level source s s') (hsound : Sound source s) (hrest : s.rest = c :: t)
    {m m' : Move} (htwin : Move.Twin source (c :: t) m m') (hfits : m.Fits s.view s.pos c t) :
    Agree source (fun a b => Level source a b ∨ Midway source a b) (s.perform c t m)
      (s'.perform c t.crlf m') := by
  have hs := hsound.stands
  cases htwin with
  | skip hread => exact .ok (.inl (h.advance hs (hrest ▸ hread)))
  | lexeme htwin => exact .ok (.inl (h.emit hs (hrest ▸ htwin) hfits.kind_ne))
  | comment hl hl' hsheds => exact .ok (h.emit_comment hs hl hl' (hrest ▸ hsheds))
  | word => exact .ok (.inl (h.word hsound hrest hfits))
  | @announce doc n hread =>
    have htwin : Lexeme.Twin s.rest ⟨.string, n⟩ ⟨.string, n⟩ := ⟨rfl, hrest ▸ hread⟩
    have hemit := h.emit hs htwin (by simp)
    refine .ok (.inl ⟨⟨hemit.recent_eq, ?_, hemit.locals_eq, hemit.params_eq⟩, hemit.rest_eq,
      hemit.pos_eq, hemit.previous_eq⟩)
    rw [h.pending_eq, List.map_append]
    rfl
  | sign hfind => exact .ok (.inl (h.readSign hsound (hrest ▸ hfind)))

/-- The carriage return before a newline is passed over. -/
lemma midway (h : Level source s s') (hrest : s.rest = '\n' :: t) :
    Next s' (s'.advance 1) ∧ Midway source s (s'.advance 1) := by
  have hrest' : s'.rest = '\r' :: '\n' :: t.crlf := by rw [h.rest_eq, hrest, Text.crlf_newline]
  refine ⟨⟨'\r', _, hrest', rfl⟩, ⟨h.recent_eq, h.pending_eq, h.locals_eq, h.params_eq⟩,
    ⟨t, hrest, ?_⟩, ?_⟩
  · rw [rest_advance, hrest']
    rfl
  · simp only [Scanner.advance]
    rw [hrest', h.pos_eq]
    rfl

end Level

/-- A newline, with the bodies of heredocs after it, brings the two runs in step again. -/
lemma Midway.newline (h : Midway source s s') (hsound : Sound source s) (hr : '\r' ∉ s.rest) :
    Agree source (Level source) s.newline s'.newline := by
  obtain ⟨t, hrest, hrest'⟩ := h.rest_eq
  have hs := hsound.stands
  rw [hrest] at hs hr
  have hlevel : Level source (s.emit ⟨.newline, 0⟩) (s'.emit ⟨.newline, 0⟩) := by
    have htoken : (⟨.newline, s'.pos, s'.rest.take 1⟩ : Token)
        = Token.crlf source ⟨.newline, s.pos, s.rest.take 1⟩ := by
      rw [Token.crlf, if_pos rfl, hrest, hrest', h.pos_eq]
      rfl
    refine ⟨⟨?_, h.pending_eq, h.locals_eq, ?_⟩, ?_, ?_, ?_⟩
    · simp only [Scanner.emit, htoken, h.recent_eq, reduceCtorEq, if_false, List.map_cons]
    · simp only [Scanner.emit, htoken, h.params_eq, (Token.relabelCrlf source).track_token]
    · rw [rest_emit, rest_emit, hrest, hrest']
      rfl
    · simp only [Scanner.emit, Scanner.advance, hrest, hrest', h.pos_eq]
      exact hs.crlfOffset_newline.symm
    · simp only [Scanner.emit, Scanner.advance, hrest, hrest']
      rfl
  have hread : (s.emit ⟨.newline, 0⟩).rest = t := by rw [rest_emit, hrest]; rfl
  have hread' : (s'.emit ⟨.newline, 0⟩).rest = t.crlf := by rw [rest_emit, hrest']; rfl
  have hstands : Stands source (s.emit ⟨.newline, 0⟩).pos (s.emit ⟨.newline, 0⟩).rest := by
    rw [hread]
    simp only [Scanner.emit, Scanner.advance, hrest]
    exact hs.cons
  rw [Scanner.newline, Scanner.newline]
  dsimp only
  rw [h.pending_eq, hread, hread']
  rcases Heredoc.bodiesLength_crlf source s.pending
    (fun h => hr (List.mem_cons_of_mem _ h)) with ⟨doc, hdoc, hdoc'⟩ | ⟨n, n', hn, hn', hreads⟩
  · rw [hdoc, hdoc']
    exact .error ⟨doc.start, _⟩
  · rw [hn, hn']
    have hadvance := hlevel.advance hstands (hread ▸ hreads)
    exact .ok ⟨⟨hadvance.recent_eq, rfl, hadvance.locals_eq, hadvance.params_eq⟩,
      hadvance.rest_eq, hadvance.pos_eq, hadvance.previous_eq⟩

/-! ## A whole run -/

/-- The two runs stay in step to the end. -/
lemma run_crlf (hr : '\r' ∉ source) (hescape : ¬ "?\\\n".toList <:+: source)
    (hsound : Sound source s) (h : Level source s s' ∨ Midway source s s') :
    Agree source (Memory source) s.run s'.run := by
  induction hlen : s.rest.length using Nat.strong_induction_on generalizing s s' with
  | _ len ih =>
    subst hlen
    obtain ⟨before, hsource, -⟩ := hsound.split
    have hreturn : '\r' ∉ s.rest := fun h => hr (by rw [hsource]; exact List.mem_append_right _ h)
    have hmidway : ∀ {s'}, Midway source s s' → Agree source (Memory source) s.run s'.run := by
      intro s' h
      obtain ⟨t, hrest, hrest'⟩ := h.rest_eq
      have hstep : ∀ (s : Scanner) (t : Text), s.step '\n' t = s.newline := fun _ _ => rfl
      rw [run_cons hrest, run_cons hrest', hstep, hstep]
      refine (h.newline hsound hreturn).bind fun a b ha hab => ?_
      have hnext : Next s a := ⟨_, _, hrest, ha⟩
      exact ih _ hnext.length_lt (hsound.next hnext) (.inl hab) rfl
    rcases h with h | h
    · cases hrest : s.rest with
      | nil =>
        rw [run_nil hrest, run_nil (by rw [h.rest_eq, hrest]; rfl), h.pending_eq]
        cases s.pending with
        | nil => exact .ok h.toMemory
        | cons doc docs => exact .error ⟨doc.start, _⟩
      | cons c t =>
        by_cases hc : c = '\n'
        · subst hc
          obtain ⟨hnext, hmid⟩ := h.midway hrest
          rw [run_of_next hnext]
          exact hmidway hmid
        · have hrest' : s'.rest = c :: Text.crlf t := by rw [h.rest_eq, hrest, Text.crlf_cons hc]
          have hprefix : ¬ "?\\\n".toList <+: c :: t := by
            rintro ⟨after, hafter⟩
            refine hescape ⟨before, after, ?_⟩
            rw [hsource, hrest, ← hafter, List.append_assoc]
          have hchoose := choose_crlf (v := s.view) (hrest ▸ hsound.stands) hc (hrest ▸ hreturn)
            hprefix
          rw [run_cons hrest, run_cons hrest', step_eq, step_eq, h.view_eq hsound, h.pos_eq]
          refine (hchoose.bind fun m m' hm htwin =>
            h.perform hsound hrest htwin (fits_of_choose hm)).bind fun a b ha hab => ?_
          have hnext : Next s a := ⟨c, t, hrest, by rw [step_eq]; exact ha⟩
          exact ih _ (hrest ▸ hnext.length_lt) (hsound.next hnext) hab rfl
    · exact hmidway h

end Scanner

/-! ## Lexing -/

namespace Token

/-- The tokens of a text with carriage returns are those of the text itself, each where it is by
then. -/
lemma lex_crlf {source : Text} (hr : '\r' ∉ source) (hescape : ¬ "?\\\n".toList <:+: source) :
    Agree source (fun tokens tokens' => tokens' = tokens.map (crlf source) ∧
        ∀ t ∈ tokens, (relabelCrlf source).Keeps t) (lex source) (lex source.crlf) := by
  have hlevel : Scanner.Level source { rest := source } { rest := source.crlf } :=
    ⟨⟨rfl, rfl, rfl, rfl⟩, rfl, (Text.crlfOffset_zero source).symm, rfl⟩
  have hrun := Scanner.run_crlf hr hescape (Scanner.sound_start source) (.inl hlevel)
  rw [lex_eq, lex_eq]
  refine hrun.bind fun s s' hfirst hmemory => .ok ?_
  have hsound := (Scanner.sound_start source).reaches (Scanner.run_eq_ok_iff.1 hfirst).1
  have hkeeps : ∀ t ∈ s.recent.reverse, (relabelCrlf source).Keeps t := fun t ht =>
    hsound.known.keeps t (List.mem_reverse.1 ht)
  dsimp only
  rw [hmemory.recent_eq, ← List.map_reverse]
  exact Relabeling.tellBrackets_map hkeeps

end Token

end TablePack
