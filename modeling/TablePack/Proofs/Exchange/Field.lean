import Mathlib.Tactic
import TablePack.Proofs.CommonStart
import TablePack.Proofs.Exchange.Value

/-!
# Reading the field of a table

Between the receiver of a table and its array there are a dot, the name of the field and the sign of
the assignment, with blanks around them or none. The scanner reads the three tokens and remembers
nothing else, so that the blanks leave no trace but in the offsets. A name that is read up to the
sign, or up to any blank, is read up to a space as well.

* `Scanner.Passes`: passing over a text and reading quiet tokens from it;
* `Scanner.exists_blanks`, `Scanner.exists_dot`, `Scanner.exists_assign`: the single steps;
* `Scanner.Next.exists_name`: the name, up to a space;
* `Scanner.exists_spaced`: the whole field, with a space on each side of the sign.
-/

namespace TablePack

open Token (Kind Lexeme)
open Text (span size)

lemma Sign.take_eq_method {x name : Text} (h : Sign.findMethod? x = some name) :
    x.take (name.length - 1 + 1) = name := by
  have hmem := List.mem_of_find?_eq_some h
  have hpre : name <+: x := by simpa using List.find?_some h
  have hne : ∀ name ∈ Sign.methods, name ≠ [] := by decide
  rw [Nat.sub_add_cancel (List.length_pos_of_ne_nil (hne name hmem))]
  exact (List.prefix_iff_eq_take.1 hpre).symm

namespace Scanner

variable {s s₁ s' : Scanner} {t : Token} {ts us : List Token} {x y w : Text}

/-! ## Passing over a text -/

lemma KeepsAll.trans (h : KeepsAll s s₁ ts) (h' : KeepsAll s₁ s' us) :
    KeepsAll s s' (ts ++ us) := by
  refine ⟨h'.locals_eq.trans h.locals_eq, ?_, ?_⟩
  · rw [h'.params_eq, h.params_eq, tracked, tracked, tracked, List.foldl_append]
  · rcases h'.pending_eq with heq | ⟨hnil, u, hu, hkind⟩
    · rcases h.pending_eq with heq' | ⟨hnil, u, hu, hkind⟩
      · exact .inl (heq.trans heq')
      · exact .inr ⟨heq.trans hnil, u, List.mem_append_left _ hu, hkind⟩
    · exact .inr ⟨hnil, u, List.mem_append_right _ hu, hkind⟩

/-- The scanner passes over the text `x` and reads the tokens `ts` from it, which change nothing
that is remembered but the list of parameters. -/
structure Passes (s s' : Scanner) (x : Text) (ts : List Token) : Prop where
  coming : Coming s s' ts
  keeps : KeepsAll s s' ts
  rest_eq : s.rest = x ++ s'.rest
  pos_eq : s'.pos = s.pos + size x
  previous_eq : s'.previous = x.getLast?.getD s.previous

lemma Passes.refl (s : Scanner) : Passes s s [] [] :=
  ⟨.refl s, ⟨rfl, rfl, .inl rfl⟩, rfl, rfl, rfl⟩

lemma Passes.trans (h : Passes s s₁ x ts) (h' : Passes s₁ s' y us) :
    Passes s s' (x ++ y) (ts ++ us) where
  coming := h.coming.trans h'.coming
  keeps := h.keeps.trans h'.keeps
  rest_eq := by rw [h.rest_eq, h'.rest_eq, List.append_assoc]
  pos_eq := by rw [h'.pos_eq, h.pos_eq, Text.size_append, Nat.add_assoc]
  previous_eq := by
    rw [h'.previous_eq, h.previous_eq, List.getLast?_append]
    cases y.getLast? <;> rfl

lemma Passes.atLineStart_eq (h : Passes s s' x ts) (hne : x ≠ []) (hx : '\n' ∉ x) :
    s'.atLineStart = false := by
  rw [atLineStart, h.previous_eq, List.getLast?_eq_some_getLast hne, Option.getD_some,
    beq_eq_false_iff_ne]
  exact fun hlast => hx (hlast ▸ List.getLast_mem hne)

lemma Passes.pending_eq (h : Passes s s' x ts) (hts : ∀ t ∈ ts, t.kind ≠ .newline) :
    s'.pending = s.pending :=
  h.keeps.pending_eq.resolve_right fun ⟨_, t, ht, hkind⟩ => hts t ht hkind

/-- A step that reads a quiet token. -/
lemma Next.passes (h : Next s s') (hreads : ReadsToken s s' t) (hline : t.kind ≠ .newline)
    (hquiet : Quiet (startsLineParams s'.rest) s.recent t) : Passes s s' t.text [t] where
  coming := h.coming hreads.recent_eq
  keeps := KeepsAll.cons (h.quiet hreads.recent_eq hquiet) ⟨rfl, rfl, .inl rfl⟩
  rest_eq := hreads.rest_eq hline
  pos_eq := by
    rw [hreads.pos_eq hline, Token.stop, hreads.start_eq]
  previous_eq := hreads.previous_eq hline

/-- Which token a step reads is told by what is remembered. -/
lemma Next.reads (h : Next s s') (hrecent : s'.recent = t :: s.recent) : ReadsToken s s' t := by
  rcases h.recent_cases with hsame | ⟨u, hreads⟩
  · exact absurd (hrecent.symm.trans hsame) (cons_ne_recent t)
  · obtain ⟨rfl, -⟩ := List.cons.inj (hreads.recent_eq.symm.trans hrecent)
    exact hreads

/-! ## Blanks and signs -/

lemma next_blank {c : Char} (hc : Text.isBlank c) (hrest : s.rest = c :: w) :
    Next s (s.advance 1) :=
  next_of_move hrest (m := .skip 1) (by rw [choose, if_pos hc]) rfl

lemma exists_blanks (hx : ∀ c ∈ x, Text.isBlank c) (hrest : s.rest = x ++ w) :
    ∃ s', Passes s s' x [] ∧ s'.rest = w := by
  induction x generalizing s with
  | nil => exact ⟨s, .refl s, hrest⟩
  | cons c x ih =>
    obtain ⟨hc, hx⟩ := List.forall_mem_cons.1 hx
    have hnext := next_blank hc hrest
    have hfirst : Passes s (s.advance 1) [c] [] := by
      refine ⟨hnext.coming_nil rfl, ⟨rfl, rfl, .inl rfl⟩, ?_, ?_, ?_⟩ <;> simp [advance, hrest]
    have hrest₁ : (s.advance 1).rest = x ++ w := by
      rw [rest_advance, hrest]
      rfl
    obtain ⟨s', hpasses, hrest'⟩ := ih hx hrest₁
    exact ⟨s', hfirst.trans hpasses, hrest'⟩

/-- A dot is read as a sign, in the name of a method too. -/
lemma choose_dot (v : View) (pos : ℕ) (w : Text) : choose v pos '.' w = chooseSign pos '.' w := by
  rw [choose, if_neg (by decide), if_neg (by decide), if_neg (by decide), if_neg (by decide),
    if_neg (by simp), if_neg (by simp), if_neg (by decide), if_neg (by decide), if_neg (by decide)]
  cases v.defining with
  | false => exact chooseLiteral_eq_chooseSign _ _ (by decide) w
  | true => exact chooseLiteral_eq_chooseSign _ _ (by decide) w

lemma exists_dot (hrest : s.rest = '.' :: w) (hw : w.head? ≠ some '.') :
    ∃ s', Passes s s' ['.'] [⟨.dot, s.pos, ['.']⟩] ∧ s'.rest = w := by
  have hfind : Sign.find? ('.' :: w) = some ⟨['.'], .dot, false⟩ :=
    (Sign.find?_append_dot (t := []) hw).trans rfl
  have hnext : Next s (s.readSign ⟨['.'], .dot, false⟩) :=
    next_of_move hrest (by rw [choose_dot, chooseSign, hfind]) rfl
  have hreads : ReadsToken s _ ⟨.dot, s.pos, ['.']⟩ := hnext.reads (by
    simp [readSign, openParams, emit, bindNames, hrest])
  refine ⟨_, hnext.passes hreads Kind.noConfusion (quiet_of_isQuiet rfl _ |>.of_listed _), ?_⟩
  simp [readSign, hrest]

/-- The tokens after which a sign assigns to a field, newest first. -/
def FieldAccess (recent : List Token) : Prop :=
  ∃ name dot older, recent = name :: dot :: older ∧ name.kind = .ident ∧ dot.kind = .dot

/-- An assignment to a field binds no name. -/
lemma FieldAccess.targets_eq {recent : List Token} (h : FieldAccess recent) :
    Token.targets recent = [] := by
  obtain ⟨name, dot, older, rfl, hname, hdot⟩ := h
  simp [Token.targets, Token.collectTargets, Token.followsAccess, Token.keepTargets, hname, hdot]

lemma exists_assign (hrest : s.rest = '=' :: w) (hline : s.atLineStart = false)
    (hrecent : FieldAccess s.recent) (hw : ∀ c ∈ w.head?, c = '[' ∨ Text.isBlank c) :
    ∃ s', Passes s s' ['='] [⟨.assign, s.pos, ['=']⟩] ∧ s'.rest = w := by
  have hfind : Sign.find? ('=' :: w) = some ⟨['='], .assign, true⟩ := by
    cases w with
    | nil => rfl
    | cons c w =>
      have hc : c ≠ '=' ∧ c ≠ '~' ∧ c ≠ '>' := by
        refine ⟨?_, ?_, ?_⟩ <;> rintro rfl <;> simpa [Text.isBlank] using hw _ rfl
      simp [Sign.find?, Sign.table, hc.1.symm, hc.2.1.symm, hc.2.2.symm]
  have hdef : s.view.defining = false := by
    obtain ⟨name, dot, older, hrecent, hname, -⟩ := hrecent
    simp [view, hrecent, Token.inDefName, Token.kindAt?, hname]
  have hchoose : choose s.view s.pos '=' w = .ok (.sign ⟨['='], .assign, true⟩) := by
    have hstart : s.view.lineStart = false := hline
    rw [choose, if_neg (by decide), if_neg (by decide), if_neg (by decide), if_neg (by decide),
      if_neg (by simp [hstart]), if_neg (by simp), if_neg (by decide), if_neg (by decide),
      if_neg (by decide), hdef]
    change chooseLiteral s.view s.pos '=' w = _
    rw [chooseLiteral_eq_chooseSign _ _ (by decide), chooseSign, hfind]
  have hnext : Next s (s.readSign ⟨['='], .assign, true⟩) := next_of_move hrest hchoose rfl
  have hreads : ReadsToken s _ ⟨.assign, s.pos, ['=']⟩ := hnext.reads (by
    simp [readSign, openParams, emit, bindNames, hrest])
  have hquiet : Quiet (startsLineParams w) s.recent ⟨.assign, s.pos, ['=']⟩ := by
    refine ⟨Kind.noConfusion, fun hword => ?_, fun _ => hrecent.targets_eq,
      opened?_eq_none Kind.noConfusion Kind.noConfusion _, Kind.noConfusion⟩
    cases hword
  have hafter : (s.readSign ⟨['='], .assign, true⟩).rest = w := by simp [readSign, hrest]
  exact ⟨_, hnext.passes hreads Kind.noConfusion (hafter ▸ hquiet), hafter⟩

/-! ## The name -/

/-- What follows the name of a field: the sign of the assignment, perhaps after blanks. -/
def EndsField (w : Text) : Prop :=
  ∃ gap u, w = gap ++ '=' :: u ∧ ∀ c ∈ gap, Text.isBlank c

lemma EndsField.exists_cons (h : EndsField w) : ∃ c u, w = c :: u ∧ c ∈ '=' :: Text.blanks := by
  obtain ⟨gap, u, rfl, hgap⟩ := h
  cases gap with
  | nil => exact ⟨'=', u, rfl, List.mem_cons_self⟩
  | cons c gap =>
    have hc := Text.mem_blanks_iff.2 (hgap c List.mem_cons_self)
    exact ⟨c, gap ++ '=' :: u, rfl, List.mem_cons_of_mem _ hc⟩

lemma endsField_space (u : Text) : EndsField (' ' :: '=' :: u) :=
  ⟨[' '], u, rfl, by simp [Text.isBlank]⟩

/-- No list of parameters follows a field. -/
lemma EndsField.startsLineParams_eq (h : EndsField w) : startsLineParams w = false := by
  have hplain : ∀ c ∈ '=' :: Text.blanks, (Text.isNameStart c || c == '*' || c == '&') = false :=
    Text.forall_mem_of_all (by decide)
  have hdrop : w.drop (span Text.isIndent w) = w.dropWhile Text.isIndent := by
    conv_lhs =>
      arg 2
      rw [← List.takeWhile_append_dropWhile (p := Text.isIndent) (l := w)]
    exact List.drop_left
  obtain ⟨gap, u, rfl, hgap⟩ := h
  -- The blanks that are no indentation end a field too.
  have hend : EndsField ((gap ++ '=' :: u).dropWhile Text.isIndent) := by
    rw [List.dropWhile_append]
    split
    · exact ⟨[], u, rfl, List.forall_mem_nil _⟩
    · exact ⟨_, u, rfl, fun c hc => hgap c ((List.dropWhile_sublist _).subset hc)⟩
  obtain ⟨c, v, hcons, hc⟩ := hend.exists_cons
  rw [startsLineParams, hdrop, hcons]
  simp only [List.head?_cons, Option.any_some, hplain c hc, Bool.and_false]

/-- The characters that a word may end with are no part of what follows a field. -/
lemma EndsField.span_append (h : EndsField w) (v : Text) :
    span Text.isNameChar (v ++ w) = span Text.isNameChar v := by
  obtain ⟨c, u, rfl, hc⟩ := h.exists_cons
  have hname : ∀ c ∈ '=' :: Text.blanks, Text.isNameChar c = false :=
    Text.forall_mem_of_all (by decide)
  rw [span, span, List.takeWhile_append]
  split
  · rename_i hfull
    simp [hname c hc, hfull]
  · rfl

lemma EndsField.wordLength_of_nil {v : Text} (h : EndsField w)
    (hv : v.drop (span Text.isNameChar v) = []) : wordLength (v ++ w) = v.length := by
  have hspan := h.span_append v
  have hle := List.drop_eq_nil_iff.1 hv
  have hfull : span Text.isNameChar v = v.length := le_antisymm (Text.span_le _ v) hle
  obtain ⟨c, u, rfl, hc⟩ := h.exists_cons
  have hmark : ∀ c ∈ '=' :: Text.blanks, (c == '?' || c == '!') = false :=
    Text.forall_mem_of_all (by decide)
  simp only [wordLength, hspan, hfull, List.drop_left, hmark c hc, Bool.false_and, if_neg,
    Bool.false_eq_true, not_false_eq_true]

lemma EndsField.wordLength_of_cons {v y : Text} {q : Char} (h : EndsField w)
    (hv : v.drop (span Text.isNameChar v) = q :: y) :
    wordLength (v ++ w) = if (q == '?' || q == '!') && (y ++ w).head? != some '='
      then span Text.isNameChar v + 1 else span Text.isNameChar v := by
  have hspan := h.span_append v
  simp only [wordLength, hspan, List.drop_append_of_le_length (Text.span_le _ v), hv,
    List.cons_append]

lemma eq_of_startsSetter {c : Char} {u : Text} (h : Lexeme.startsSetter (c :: u)) : c = '=' := by
  by_contra hne
  rw [Lexeme.startsSetter] at h
  · cases h
  · rintro t ⟨⟩
    exact hne rfl

/-- A word that reaches up to the end of a field reaches up to a space as well. In the name of a
method it may end with the sign of a setter. -/
lemma wordExtent_space {v : Text} (s : Scanner) (h : EndsField w)
    (hextent : s.wordExtent (v ++ w) = v.length) (u : Text) :
    s.wordExtent (v ++ ' ' :: '=' :: u) = v.length := by
  have hspace := endsField_space u
  have hlen : v.length = span Text.isNameChar v + (v.drop (span Text.isNameChar v)).length := by
    have := Text.span_le Text.isNameChar v
    rw [List.length_drop]
    omega
  cases hv : v.drop (span Text.isNameChar v) with
  | nil =>
    rw [wordExtent, hspace.wordLength_of_nil hv, List.drop_left]
    simp [Lexeme.startsSetter]
  | cons q y =>
    have hlength := h.wordLength_of_cons hv
    have hlength' := hspace.wordLength_of_cons hv
    have hdrop : ∀ x : Text, (v ++ x).drop (span Text.isNameChar v) = q :: (y ++ x) := by
      intro x
      rw [List.drop_append_of_le_length (Text.span_le _ v), hv, List.cons_append]
    rw [hv, List.length_cons] at hlen
    cases y with
    | nil =>
      rw [List.length_nil] at hlen
      by_cases hq : (q == '?' || q == '!') = true
      · -- The word ends with a mark, which no sign of a setter follows.
        have hfull : wordLength (v ++ ' ' :: '=' :: u) = v.length := by
          rw [hlength', if_pos (by simp [hq]), hlen]
        rw [wordExtent, hfull, List.drop_left]
        simp [Lexeme.startsSetter]
      · -- The last character is the sign of a setter.
        rw [if_neg (by simp [hq])] at hlength hlength'
        rw [wordExtent, hlength, hdrop] at hextent
        split at hextent
        · rename_i hsetter
          rw [Bool.and_eq_true] at hsetter
          obtain rfl := eq_of_startsSetter hsetter.2
          have hmethod : s.namesMethod (v ++ ' ' :: '=' :: u) := by
            rw [namesMethod, namesReceiver, hlength', hdrop]
            simpa [namesMethod, namesReceiver, hlength, hdrop] using hsetter.1
          rw [wordExtent, hlength', hdrop, hmethod, hlen]
          rfl
        · omega
    | cons z y =>
      -- After the last name character a word has one character more at most.
      exfalso
      rw [List.length_cons] at hlen
      by_cases hmark : ((q == '?' || q == '!') && z != '=') = true
      · rw [if_pos (by simpa using hmark)] at hlength
        have hafter : (v ++ w).drop (span Text.isNameChar v + 1) = z :: (y ++ w) := by
          rw [← List.tail_drop, hdrop]
          rfl
        rw [wordExtent, hlength, hafter] at hextent
        split at hextent
        · rename_i hsetter
          rw [eq_of_startsSetter (Bool.and_eq_true_iff.1 hsetter).2] at hmark
          simp at hmark
        · omega
      · rw [if_neg (by simpa using hmark)] at hlength
        rw [wordExtent, hlength] at hextent
        split at hextent <;> omega

/-- An operator that names a method is read up to a space as well. -/
lemma findMethod?_space {name : Text} (h : Sign.findMethod? (name ++ w) = some name) (u : Text) :
    Sign.findMethod? (name ++ ' ' :: u) = some name := by
  have hdull : Text.Dull (' ' :: u) := Text.dull_cons.2 (by decide)
  rw [Sign.findMethod?_append_dull name hdull]
  obtain ⟨hname, before, after, hmethods, hbefore⟩ := List.find?_eq_some_iff_append.1 h
  -- No name that comes earlier in the table starts the text: it would start the longer one too.
  refine List.find?_eq_some_iff_append.2 ⟨by simp, before, after, hmethods, fun other hother => ?_⟩
  have hnot := hbefore other hother
  rw [Bool.not_eq_true', Bool.eq_false_iff, ne_eq, List.isPrefixOf_iff_prefix] at hnot ⊢
  exact fun hpre => hnot (hpre.trans (List.prefix_append name w))

/-- At an operator that names a method nothing else is read. -/
lemma choose_method {v : View} (pos : ℕ) {c : Char} {u name : Text} (hdef : v.defining)
    (hline : v.lineStart = false) (h : Sign.findMethod? (c :: u) = some name) :
    choose v pos c u = .ok (.lexeme ⟨.ident, name.length - 1⟩) := by
  have hheads : ∀ name ∈ Sign.methods, name.head?.any fun c =>
      !Text.isBlank c && !("\\\n#_@$".toList.contains c) && !c.isDigit && !Text.isNameStart c := by
    decide
  obtain ⟨d, hd, hclass⟩ :=
    (Option.any_eq_true _ _).1 (hheads name (List.mem_of_find?_eq_some h))
  simp only [Bool.and_eq_true, Bool.not_eq_true', and_assoc] at hclass
  obtain ⟨hblank, hother, hdigit, hname⟩ := hclass
  obtain rfl : d = c := by
    obtain ⟨name, rfl⟩ := List.head?_eq_some_iff.1 hd
    have hpre : d :: name <+: c :: u := by simpa using List.find?_some h
    exact (List.cons_prefix_cons.1 hpre).1
  simp only [String.reduceToList, List.contains_eq_mem, decide_eq_false_iff_not, List.mem_cons,
    List.not_mem_nil, or_false, not_or] at hother
  obtain ⟨hslash, hnewline, hhash, hscore, hat, hdollar⟩ := hother
  rw [choose, if_neg (by simp [hblank]), if_neg hslash, if_neg hnewline, if_neg hhash,
    if_neg (by simp [hline]), if_neg (by simp [hscore]), if_neg (by simp [hdigit]),
    if_neg (by simp [hname]), if_neg (by simp [hat, hdollar]), if_pos hdef, h]

lemma exists_method {name : Text} (hdef : s.view.defining) (hline : s.atLineStart = false)
    (h : Sign.findMethod? (name ++ w) = some name) (hrest : s.rest = name ++ w) :
    ∃ s', Next s s' ∧ ReadsToken s s' ⟨.ident, s.pos, name⟩ := by
  rw [← hrest] at h
  have htake := Sign.take_eq_method h
  cases hcons : s.rest with
  | nil =>
    rw [hcons] at h
    cases h
  | cons c u =>
    have hnext : Next s (s.emit ⟨.ident, name.length - 1⟩) :=
      next_of_move hcons (choose_method s.pos hdef hline (hcons ▸ h)) rfl
    refine ⟨_, hnext, hnext.reads ?_⟩
    simp only [emit, htake]
    rfl

lemma exists_word {c : Char} {v : Text} (hc : Text.isNameStart c) (hline : s.atLineStart = false)
    (hextent : s.wordExtent (v ++ w) = v.length) (hkind : s.wordKind (c :: v) w = .ident)
    (hrest : s.rest = c :: (v ++ w)) :
    ∃ s', Next s s' ∧ ReadsToken s s' ⟨.ident, s.pos, c :: v⟩ := by
  have hview : s.view.lineStart = false := hline
  have hnext : Next s (s.word c (v ++ w)) :=
    next_of_move hrest (choose_nameStart s.pos hc (by simp [hview])) rfl
  refine ⟨_, hnext, hnext.reads ?_⟩
  simp only [word, bindNames, emit, hextent, List.take_left, List.drop_left, hkind, hrest,
    List.take_succ_cons]
  rfl

lemma wordExtent_le (s : Scanner) (x : Text) : s.wordExtent x ≤ x.length := by
  have hle := wordLength_le x
  rw [wordExtent]
  split
  · rename_i hsetter
    refine not_lt.1 fun hlt => ?_
    rw [List.drop_eq_nil_of_le (Nat.lt_succ_iff.1 hlt)] at hsetter
    simp [Lexeme.startsSetter] at hsetter
  · exact hle

/-- A name is read as a word, or as the operator that a method is defined as. -/
lemma Next.ident_cases (h : Next s s') (hreads : ReadsToken s s' t) (hkind : t.kind = .ident) :
    (∃ c v, t.text = c :: v ∧ Text.isNameStart c ∧ s.wordExtent (v ++ s'.rest) = v.length ∧
      s.wordKind (c :: v) s'.rest = .ident) ∨
    s.view.defining ∧ Sign.findMethod? (t.text ++ s'.rest) = some t.text := by
  have hnewline : t.kind ≠ .newline := by simp [hkind]
  have hsplit := hreads.rest_eq hnewline
  obtain ⟨c, x, m, hcons, hm, hperform⟩ := h.exists_move
  have hfits := fits_of_choose hm
  have htoken := hreads.recent_eq
  cases m with
  | skip n =>
    cases hperform
    exact absurd htoken.symm (cons_ne_recent t)
  | lineBreak =>
    obtain ⟨n, -, rfl⟩ := exists_bodies_of_newline hperform
    obtain ⟨rfl, -⟩ := List.cons.inj htoken
    exact absurd rfl hnewline
  | lexeme l =>
    cases hperform
    simp only [emit] at htoken
    split at htoken
    · exact absurd htoken.symm (cons_ne_recent t)
    obtain ⟨rfl, -⟩ := List.cons.inj htoken
    obtain ⟨hdef, name, hfind, hmore⟩ := hfits.method hkind
    have hname : s.rest.take (l.more + 1) = name := by
      rw [hcons, hmore]
      exact Sign.take_eq_method hfind
    rw [← hcons, hsplit] at hfind
    exact .inr ⟨hdef, hfind.trans (congrArg some hname.symm)⟩
  | word =>
    cases hperform
    have hword := wordKind_ne_comment s (c :: x.take (s.wordExtent x)) (x.drop (s.wordExtent x))
    simp only [word, bindNames, emit, if_neg hword.1] at htoken
    obtain ⟨rfl, -⟩ := List.cons.inj htoken
    have hafter : (s.word c x).rest = x.drop (s.wordExtent x) := by
      change s.rest.drop (s.wordExtent x + 1) = _
      rw [hcons, List.drop_succ_cons]
    refine .inl ⟨c, x.take (s.wordExtent x), ?_, hfits, ?_, ?_⟩
    · simp only [hcons, List.take_succ_cons]
    · rw [hafter, List.take_append_drop, List.length_take_of_le (wordExtent_le s x)]
    · rw [hafter]
      exact hkind
  | announce doc n =>
    cases hperform
    obtain ⟨rfl, -⟩ := List.cons.inj htoken
    cases hkind
  | sign sign =>
    cases hperform
    have hkinds : ∀ sign ∈ Sign.table, sign.kind ≠ .ident := by decide
    simp only [readSign, openParams, emit, if_neg (kind_ne_comment hfits).1] at htoken
    obtain ⟨rfl, -⟩ := List.cons.inj htoken
    exact absurd hkind (hkinds sign (Sign.mem_and_prefix_of_find? hfits).1)

/-- A name starts with no dot and no digit. -/
lemma Next.head?_of_ident (h : Next s s') (hreads : ReadsToken s s' t) (hkind : t.kind = .ident) :
    ∀ c ∈ t.text.head?, c ≠ '.' ∧ c.isDigit = false := by
  rcases h.ident_cases hreads hkind with ⟨c, v, htext, hc, -⟩ | ⟨-, hfind⟩
  · rw [htext]
    rintro _ ⟨⟩
    refine ⟨?_, ?_⟩
    · rintro rfl
      exact absurd hc (by decide)
    · rw [Bool.eq_false_iff]
      intro hdigit
      rw [Text.isDigit_iff] at hdigit
      simp only [Text.isNameStart, Bool.or_eq_true, beq_iff_eq, Text.isWide, decide_eq_true_eq,
        Text.isAlpha_iff, Text.isUpper_iff, Text.isLower_iff] at hc
      rcases hc with (hc | rfl) | hc
      · omega
      · exact absurd hdigit.2 (by decide)
      · omega
  · have hheads : ∀ name ∈ Sign.methods, name.head?.all fun c => c != '.' && !c.isDigit := by
      decide
    intro c hc
    have hclass := hheads _ (List.mem_of_find?_eq_some hfind)
    rw [hc, Option.all_some, Bool.and_eq_true, bne_iff_ne, Bool.not_eq_true'] at hclass
    exact hclass

/-- The name of a field that is read up to the sign of the assignment, or up to any blank, is read
up to a space as well. -/
lemma Next.exists_name {p p' q : Scanner} {u : Text} (h : Next p p') (hreads : ReadsToken p p' t)
    (hkind : t.kind = .ident) (hdot : Token.kindAt? p.recent 0 = some .dot)
    (hend : EndsField p'.rest) (hrecent : q.recent = p.recent) (hline : q.atLineStart = false)
    (hrest : q.rest = t.text ++ ' ' :: '=' :: u) :
    ∃ q', Next q q' ∧ ReadsToken q q' ⟨.ident, q.pos, t.text⟩ := by
  rcases h.ident_cases hreads hkind with ⟨c, v, htext, hc, hextent, hword⟩ | ⟨hdef, hfind⟩
  · have hsame : ∀ y, q.wordExtent y = p.wordExtent y := fun y => by
      rw [wordExtent, wordExtent, namesMethod, namesMethod, namesReceiver, namesReceiver, hrecent]
    rw [htext] at hrest ⊢
    refine exists_word hc hline ((hsame _).trans (wordExtent_space p hend hextent u)) ?_ hrest
    rw [← hword]
    simp [wordKind, hrecent, hdot]
  · refine exists_method ?_ hline (findMethod?_space hfind _) hrest
    exact (congrArg Token.inDefName hrecent).trans hdef

/-- After the name of a field its sign is read, with the blanks around it. -/
lemma Passes.exists_sign {dot name : Token} {b c : Text} (h : Passes s s₁ x [dot, name])
    (hx : '\n' ∉ x) (hne : x ≠ []) (hdot : dot.kind = .dot) (hname : name.kind = .ident)
    (hb : ∀ d ∈ b, Text.isBlank d) (hc : ∀ d ∈ c, Text.isBlank d)
    (hw : ∀ d ∈ (c ++ w).head?, d = '[' ∨ Text.isBlank d)
    (hrest : s₁.rest = b ++ '=' :: (c ++ w)) :
    ∃ s', Passes s s' (x ++ (b ++ '=' :: c)) [dot, name, ⟨.assign, s₁.pos + size b, ['=']⟩] ∧
      s'.rest = w := by
  obtain ⟨s₂, hblanks, hrest₂⟩ := exists_blanks hb hrest
  have hpasses := h.trans hblanks
  have hline : s₂.atLineStart = false := by
    refine hpasses.atLineStart_eq (by simp [hne]) fun hmem => ?_
    rcases List.mem_append.1 hmem with hmem | hmem
    · exact hx hmem
    · exact absurd (hb _ hmem) (by decide)
  have hrecent : FieldAccess s₂.recent :=
    ⟨name, dot, s.recent, by rw [hpasses.coming.recent_eq]; rfl, hname, hdot⟩
  obtain ⟨s₃, hassign, hrest₃⟩ := exists_assign hrest₂ hline hrecent hw
  obtain ⟨s', hblanks', hrest'⟩ := exists_blanks hc hrest₃
  refine ⟨s', ?_, hrest'⟩
  have hall := (hpasses.trans hassign).trans hblanks'
  rw [hblanks.pos_eq] at hall
  simpa using hall

lemma quiet_name {older : List Token} (hkind : t.kind = .ident)
    (hdot : Token.kindAt? older 0 = some .dot) : Quiet false older t := by
  refine ⟨fun _ => hdot, fun _ h => absurd h (by simp), fun h => ?_,
    opened?_eq_none (by simp [hkind]) (by simp [hkind]) older, fun h => ?_⟩
  · simp [hkind] at h
  · simp [hkind] at h

/-- A field as it is written in a constructor, where another text shows that its name is read as
one. -/
lemma exists_spaced {p p' : Scanner} {name : Token} (hnext : Next p p')
    (hreads : ReadsToken p p' name) (hname : name.kind = .ident) (hend : EndsField p'.rest)
    (hrecent : p.recent = ⟨.dot, s.pos, ['.']⟩ :: s.recent)
    (hrest : s.rest = '.' :: (name.text ++ ' ' :: '=' :: ' ' :: w)) :
    ∃ s', Passes s s' ('.' :: (name.text ++ [' ', '=', ' '])) [⟨.dot, s.pos, ['.']⟩,
        ⟨.ident, s.pos + 1, name.text⟩, ⟨.assign, s.pos + 1 + size name.text + 1, ['=']⟩] ∧
      s'.rest = w := by
  have hne := hreads.spelled.ne_nil
  have hline : '\n' ∉ name.text := hreads.spelled.name (by rw [hname]; rfl)
  have hdot : Token.kindAt? p.recent 0 = some .dot := by
    rw [hrecent]
    rfl
  have hhead : (name.text ++ ' ' :: '=' :: ' ' :: w).head? ≠ some '.' := by
    rw [List.head?_append_of_ne_nil _ hne]
    exact fun h => (hnext.head?_of_ident hreads hname _ h).1 rfl
  obtain ⟨s₁, hpasses₁, hrest₁⟩ := exists_dot hrest hhead
  have hrecent₁ : s₁.recent = p.recent := by
    rw [hpasses₁.coming.recent_eq, hrecent]
    rfl
  have hpos₁ : s₁.pos = s.pos + 1 := hpasses₁.pos_eq
  obtain ⟨s₂, hnext₂, hreads₂⟩ := hnext.exists_name hreads hname hdot hend hrecent₁
    (hpasses₁.atLineStart_eq (by simp) (by simp)) hrest₁
  have hrest₂ : s₂.rest = ' ' :: '=' :: ' ' :: w :=
    (List.append_cancel_left (hrest₁.symm.trans (hreads₂.rest_eq Kind.noConfusion))).symm
  have hquiet : Quiet (startsLineParams s₂.rest) s₁.recent ⟨.ident, s₁.pos, name.text⟩ := by
    rw [hrest₂, (endsField_space _).startsLineParams_eq]
    exact quiet_name rfl (hrecent₁ ▸ hdot)
  have hpasses₂ := hpasses₁.trans (hnext₂.passes hreads₂ Kind.noConfusion hquiet)
  have hpos₂ : s₂.pos = s.pos + 1 + size name.text := by
    rw [hreads₂.pos_eq Kind.noConfusion, Token.stop, hpos₁]
  obtain ⟨s', hpasses, hrest'⟩ := hpasses₂.exists_sign (b := [' ']) (c := [' ']) (w := w)
    (by simp [hline]) (by simp) rfl rfl (by simp [Text.isBlank]) (by simp [Text.isBlank])
    (by simp [Text.isBlank]) hrest₂
  refine ⟨s', ?_, hrest'⟩
  have hsize : size [' '] = 1 := rfl
  rw [hpos₁, hpos₂, hsize] at hpasses
  simpa using hpasses

end Scanner

end TablePack
