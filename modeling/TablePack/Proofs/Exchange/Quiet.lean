import Mathlib.Tactic
import TablePack.Proofs.Stream

/-!
# Quiet tokens

Of what the scanner remembers, most tokens change the list of parameters that is open and nothing
else: they bind no name, open no list and announce no heredoc (`Quiet`). What the scanner remembers
after some quiet tokens is therefore told by these tokens, whatever the text around them is.

* `Scanner.Coming`: the tokens that a run is still to read;
* `Scanner.Next.quiet`: a step that reads a quiet token;
* `Scanner.Coming.exists_quiet`: a run that reads quiet tokens first.
-/

namespace TablePack

open Token (Kind Spelled)

namespace Scanner

variable {s s' e : Scanner} {t : Token} {ts us : List Token}

/-! ## One step -/

/-- A token that a step reads. Where it is no newline, it is all that the step passes over. -/
structure ReadsToken (s s' : Scanner) (t : Token) : Prop where
  recent_eq : s'.recent = t :: s.recent
  start_eq : t.start = s.pos
  spelled : Spelled t.kind t.text
  isPrefix : t.text <+: s.rest
  rest_eq : t.kind ≠ .newline → s.rest = t.text ++ s'.rest
  pos_eq : t.kind ≠ .newline → s'.pos = t.stop
  previous_eq : t.kind ≠ .newline → s'.previous = t.text.getLast?.getD s.previous

/-- A step reads a token, or the tokens that are remembered stay. -/
lemma Next.recent_cases (h : Next s s') : s'.recent = s.recent ∨ ∃ t, ReadsToken s s' t := by
  obtain ⟨eaten, hstride⟩ := h.stride
  rcases hstride.tokens_eq with ⟨-, hrecent⟩ |
    ⟨kind, text, skipped, heaten, hspelled, -, hrecent, hskipped⟩
  · exact .inl hrecent
  · by_cases hkind : kind = .comment
    · rw [if_pos hkind] at hrecent
      exact .inl hrecent
    · rw [if_neg hkind] at hrecent
      have htext : kind ≠ .newline → eaten = text := by
        intro hne
        rw [heaten, hskipped hne, List.append_nil]
      refine .inr ⟨⟨kind, s.pos, text⟩, hrecent, rfl, hspelled, ?_, fun hne => ?_, fun hne => ?_,
        fun hne => ?_⟩
      · rw [hstride.rest_eq, heaten, List.append_assoc]
        exact List.prefix_append _ _
      · rw [hstride.rest_eq, htext hne]
      · rw [hstride.pos_eq, htext hne]
        rfl
      · rw [hstride.previous_eq, htext hne]

lemma Next.pos_lt (h : Next s s') : s.pos < s'.pos := by
  obtain ⟨eaten, hstride⟩ := h.stride
  have := Text.size_pos hstride.ne_nil
  rw [hstride.pos_eq]
  omega

lemma Next.unique {s₁ s₂ : Scanner} (h₁ : Next s s₁) (h₂ : Next s s₂) : s₁ = s₂ := by
  obtain ⟨c, t, hrest, hstep⟩ := h₁
  obtain ⟨c', t', hrest', hstep'⟩ := h₂
  rw [hrest] at hrest'
  obtain ⟨rfl, rfl⟩ := List.cons.inj hrest'
  exact Except.ok.inj (hstep.symm.trans hstep')

lemma cons_ne_recent (t : Token) : t :: s.recent ≠ s.recent := by
  intro h
  have := congrArg List.length h
  simp at this

/-- A token that changes of what is remembered only the list of parameters that is open, when it
comes after the tokens `older`. Where a list of parameters may follow, as `listed` says, it does not
name a method. -/
structure Quiet (listed : Bool) (older : List Token) (t : Token) : Prop where
  name : t.kind = .ident → Token.kindAt? older 0 = some .dot
  word : isWord t.kind → listed → Token.inDefName older = false
  sign : t.kind = .assign ∨ t.kind = .op → Token.targets older = []
  list : Parameters.opened? (t :: older) = none
  string : t.kind = .string → t.text.head? ≠ some '<'

lemma Quiet.of_listed {older : List Token} (h : Quiet true older t) (listed : Bool) :
    Quiet listed older t :=
  ⟨h.name, fun hword _ => h.word hword rfl, h.sign, h.list, h.string⟩

/-- What is remembered after a quiet token, besides the token itself. -/
structure Keeps (s s' : Scanner) (t : Token) : Prop where
  locals_eq : s'.locals = s.locals
  params_eq : s'.params = s.params.bind (·.track t)
  pending_eq : s'.pending = if t.kind = .newline then [] else s.pending

/-- The signs that assign are those that are read as such, and some operators. -/
lemma kind_of_assigns {sign : Sign} {u : Text} (h : Sign.find? u = some sign)
    (hassigns : sign.assigns) : sign.kind = .assign ∨ sign.kind = .op := by
  have hall : ∀ sign ∈ Sign.table, sign.assigns → sign.kind = .assign ∨ sign.kind = .op := by
    decide
  exact hall sign (Sign.mem_and_prefix_of_find? h).1 hassigns

lemma kind_ne_comment {sign : Sign} {u : Text} (h : Sign.find? u = some sign) :
    sign.kind ≠ .comment ∧ sign.kind ≠ .newline := by
  have hall : ∀ sign ∈ Sign.table, sign.kind ≠ .comment ∧ sign.kind ≠ .newline := by decide
  exact hall sign (Sign.mem_and_prefix_of_find? h).1

lemma wordKind_ne_comment (s : Scanner) (word after : Text) :
    s.wordKind word after ≠ .comment ∧ s.wordKind word after ≠ .newline := by
  have hword := isWord_wordKind s word after
  constructor <;> intro hkind <;> rw [hkind] at hword <;> cases hword

/-- A step that reads a quiet token. -/
lemma Next.quiet (h : Next s s') (hrecent : s'.recent = t :: s.recent)
    (ht : Quiet (startsLineParams s'.rest) s.recent t) : Keeps s s' t := by
  obtain ⟨c, u, m, hrest, hm, hperform⟩ := h.exists_move
  have hfits := fits_of_choose hm
  cases m with
  | skip n =>
    cases hperform
    exact absurd hrecent.symm (cons_ne_recent t)
  | lineBreak =>
    obtain ⟨n, -, rfl⟩ := exists_bodies_of_newline hperform
    obtain ⟨rfl, -⟩ := List.cons.inj hrecent
    exact ⟨rfl, rfl, rfl⟩
  | lexeme l =>
    cases hperform
    have hkind : l.kind ≠ .newline := hfits.kind_ne
    simp only [emit] at hrecent
    split at hrecent
    · exact absurd hrecent.symm (cons_ne_recent t)
    · obtain ⟨rfl, -⟩ := List.cons.inj hrecent
      exact ⟨rfl, rfl, (if_neg hkind).symm⟩
  | word =>
    cases hperform
    have hword := isWord_wordKind s (c :: u.take (s.wordExtent u)) (u.drop (s.wordExtent u))
    have hkind :=
      wordKind_ne_comment s (c :: u.take (s.wordExtent u)) (u.drop (s.wordExtent u))
    simp only [Scanner.word, bindNames, emit, if_neg hkind.1] at hrecent
    obtain ⟨rfl, -⟩ := List.cons.inj hrecent
    have hafter : (s.word c u).rest = u.drop (s.wordExtent u) := by
      change s.rest.drop (s.wordExtent u + 1) = _
      rw [hrest, List.drop_succ_cons]
    have hbinds : s.bindsWord (s.wordKind (c :: u.take (s.wordExtent u))
        (u.drop (s.wordExtent u))) = false := by
      by_cases hident : s.wordKind (c :: u.take (s.wordExtent u)) (u.drop (s.wordExtent u)) = .ident
      · have hdot := ht.name hident
        simp [bindsWord, hdot]
      · simp [bindsWord, hident]
    have hmethod : (s.namesMethod u && startsLineParams (u.drop (s.wordExtent u))) = false := by
      rw [hafter] at ht
      cases hlisted : startsLineParams (u.drop (s.wordExtent u)) with
      | false => exact Bool.and_false _
      | true => rw [namesMethod, ht.word hword hlisted, Bool.false_and, Bool.false_and]
    refine ⟨?_, ?_, (if_neg hkind.2).symm⟩
    · simp only [Scanner.word, hbinds]
      rfl
    · simp only [Scanner.word, hmethod]
      rfl
  | announce doc n =>
    cases hperform
    obtain ⟨rfl, -⟩ := List.cons.inj hrecent
    have hhead := ht.string rfl
    rw [hrest, List.take_succ_cons, hfits.1] at hhead
    exact absurd rfl hhead
  | sign sign =>
    cases hperform
    obtain ⟨hcomment, hnewline⟩ := kind_ne_comment hfits
    simp only [readSign, openParams, emit, if_neg hcomment] at hrecent
    obtain ⟨rfl, -⟩ := List.cons.inj hrecent
    have hnames : (if sign.assigns then Token.targets s.recent else []) = [] := by
      split
      · rename_i hassigns
        exact ht.sign (kind_of_assigns hfits hassigns)
      · rfl
    have hlist := ht.list
    refine ⟨?_, ?_, (if_neg hnewline).symm⟩
    · simp only [readSign, hnames]
      rfl
    · simp only [readSign, openParams, emit, if_neg hcomment, hnames]
      exact (congrArg (· <|> _) hlist).trans rfl

/-- A step after which the same tokens are remembered passes over blank text or over a comment. -/
lemma Next.silent_cases (h : Next s s') (hrecent : s'.recent = s.recent) :
    ∃ c u m, s.rest = c :: u ∧ choose s.view s.pos c u = .ok m ∧
      ((∃ n, m = .skip n ∧ s' = s.advance n) ∨
        ∃ l, m = .lexeme l ∧ l.kind = .comment ∧ s' = s.emit l) := by
  obtain ⟨c, u, m, hrest, hm, hperform⟩ := h.exists_move
  refine ⟨c, u, m, hrest, hm, ?_⟩
  have hfits := fits_of_choose hm
  cases m with
  | skip n => exact .inl ⟨n, rfl, (Except.ok.inj hperform).symm⟩
  | lineBreak =>
    obtain ⟨n, -, rfl⟩ := exists_bodies_of_newline hperform
    exact absurd hrecent (cons_ne_recent _)
  | lexeme l =>
    cases hperform
    refine .inr ⟨l, rfl, ?_, rfl⟩
    by_contra hkind
    simp only [emit, if_neg hkind] at hrecent
    exact cons_ne_recent _ hrecent
  | word =>
    cases hperform
    have hkind :=
      wordKind_ne_comment s (c :: u.take (s.wordExtent u)) (u.drop (s.wordExtent u))
    simp only [Scanner.word, bindNames, emit, if_neg hkind.1] at hrecent
    exact absurd hrecent (cons_ne_recent _)
  | announce doc n =>
    cases hperform
    exact absurd hrecent (cons_ne_recent _)
  | sign sign =>
    cases hperform
    simp only [readSign, openParams, emit, if_neg (kind_ne_comment hfits).1] at hrecent
    exact absurd hrecent (cons_ne_recent _)

lemma Next.still (h : Next s s') (hrecent : s'.recent = s.recent) :
    s'.locals = s.locals ∧ s'.params = s.params ∧ s'.pending = s.pending := by
  obtain ⟨c, u, m, -, -, ⟨n, -, rfl⟩ | ⟨l, -, hkind, rfl⟩⟩ := h.silent_cases hrecent
  · exact ⟨rfl, rfl, rfl⟩
  · refine ⟨rfl, ?_, rfl⟩
    cases hp : s.params with
    | none => simp [emit, hp]
    | some p => simp [emit, hp, Parameters.track, hkind]

lemma Reaches.rest_eq {source : Text} (h : Reaches { rest := source } s) :
    s.rest = Text.dropBytes s.pos source := by
  obtain ⟨before, hsplit, hsize⟩ := ((sound_start source).reaches h).split
  rw [← hsize, hsplit, Text.dropBytes_size_append]

lemma Reaches.stream {source : Text} (h : Reaches { rest := source } s) :
    Token.Stream source s.recent.reverse := by
  have hsound := (sound_start source).reaches h
  have hmem : ∀ t ∈ s.recent.reverse, t ∈ s.tokens := by
    intro t ht
    rw [List.mem_reverse, hsound.recent_eq] at ht
    exact List.mem_of_mem_filter ht
  refine ⟨fun t ht => hsound.placed t (hmem t ht),
    fun t ht => (hsound.spelled t (hmem t ht)).ne_nil, List.pairwise_reverse.2 ?_⟩
  rw [hsound.recent_eq]
  exact hsound.ordered.sublist List.filter_sublist

/-! ## Tokens to come -/

/-- The run from `s` to `e` reads the tokens `ts`. -/
structure Coming (s e : Scanner) (ts : List Token) : Prop where
  reaches : Reaches s e
  recent_eq : e.recent = ts.reverse ++ s.recent

lemma Coming.refl (s : Scanner) : Coming s s [] := ⟨.refl, rfl⟩

lemma Coming.trans (h : Coming s s' ts) (h' : Coming s' e us) : Coming s e (ts ++ us) :=
  ⟨h.reaches.trans h'.reaches, by
    rw [h'.recent_eq, h.recent_eq, List.reverse_append, List.append_assoc]⟩

lemma Next.coming (h : Next s s') (hrecent : s'.recent = t :: s.recent) : Coming s s' [t] :=
  ⟨.single h, hrecent⟩

lemma Next.coming_nil (h : Next s s') (hrecent : s'.recent = s.recent) : Coming s s' [] :=
  ⟨.single h, hrecent⟩

lemma Reaches.exists_coming (h : Reaches s e) : ∃ ts, Coming s e ts := by
  induction h with
  | refl => exact ⟨[], .refl s⟩
  | tail _ hnext ih =>
    obtain ⟨ts, hcoming⟩ := ih
    rcases hnext.recent_cases with hrecent | ⟨t, hreads⟩
    · exact ⟨ts ++ [], hcoming.trans (hnext.coming_nil hrecent)⟩
    · exact ⟨ts ++ [t], hcoming.trans (hnext.coming hreads.recent_eq)⟩

lemma Coming.eq_of_reaches (us : List Token) (h : Coming s e ts) (hreach : Reaches s' e)
    (hrecent : s'.recent = us.reverse ++ s.recent) : ∃ vs, ts = us ++ vs ∧ Coming s' e vs := by
  obtain ⟨vs, hvs⟩ := hreach.exists_coming
  refine ⟨vs, ?_, hvs⟩
  have heq := hvs.recent_eq.symm.trans h.recent_eq
  rw [hrecent, ← List.append_assoc, ← List.reverse_append] at heq
  exact List.reverse_injective (List.append_cancel_right heq).symm

/-- The first step of a run that is to read tokens: it reads the first of them, or none. -/
lemma Coming.exists_next (h : Coming s e (t :: ts)) :
    ∃ s', Next s s' ∧
      (s'.recent = s.recent ∧ Coming s' e (t :: ts) ∨ ReadsToken s s' t ∧ Coming s' e ts) := by
  have hne : s ≠ e := by
    rintro rfl
    have := congrArg List.length h.recent_eq
    simp at this
    omega
  rcases Relation.ReflTransGen.cases_head h.reaches with heq | ⟨s', hnext, hreach⟩
  · exact absurd heq hne
  refine ⟨s', hnext, ?_⟩
  rcases hnext.recent_cases with hrecent | ⟨u, hreads⟩
  · obtain ⟨vs, hvs, hcoming⟩ := h.eq_of_reaches [] hreach hrecent
    rw [hvs]
    exact .inl ⟨hrecent, hcoming⟩
  · obtain ⟨vs, hvs, hcoming⟩ := h.eq_of_reaches [u] hreach hreads.recent_eq
    obtain ⟨rfl, rfl⟩ := List.cons.inj hvs
    exact .inr ⟨hreads, hcoming⟩

/-! ## A quiet run -/

/-- Tokens that are quiet one after another. -/
def QuietRun : List Token → List Token → Prop
  | _, [] => True
  | older, t :: ts => Quiet true older t ∧ QuietRun (t :: older) ts

/-- The list of parameters after some tokens. -/
def tracked (p : Option Parameters) (ts : List Token) : Option Parameters :=
  ts.foldl (fun p t => p.bind (·.track t)) p

/-- What is remembered after some quiet tokens, besides the tokens themselves. -/
structure KeepsAll (s s' : Scanner) (ts : List Token) : Prop where
  locals_eq : s'.locals = s.locals
  params_eq : s'.params = tracked s.params ts
  pending_eq : s'.pending = s.pending ∨ s'.pending = [] ∧ ∃ t ∈ ts, t.kind = .newline

lemma KeepsAll.cons {s₁ : Scanner} (h : Keeps s s₁ t) (h' : KeepsAll s₁ s' ts) :
    KeepsAll s s' (t :: ts) := by
  refine ⟨h'.locals_eq.trans h.locals_eq, ?_, ?_⟩
  · rw [h'.params_eq, h.params_eq]
    rfl
  · have hpending := h.pending_eq
    rcases h'.pending_eq with heq | ⟨hnil, u, hu, hkind⟩
    · split at hpending
      · rename_i hkind
        exact .inr ⟨heq.trans hpending, t, List.mem_cons_self, hkind⟩
      · exact .inl (heq.trans hpending)
    · exact .inr ⟨hnil, u, List.mem_cons_of_mem _ hu, hkind⟩

/-- A run that reads a token first: the state when it has just done so. -/
lemma Coming.exists_reads (h : Coming s e (t :: ts)) :
    ∃ s₁ s', Coming s s₁ [] ∧ Next s₁ s' ∧ ReadsToken s₁ s' t ∧ Coming s' e ts ∧
      s₁.locals = s.locals ∧ s₁.params = s.params ∧ s₁.pending = s.pending := by
  induction hn : s.rest.length using Nat.strong_induction_on generalizing s with
  | _ n ih =>
    obtain ⟨s', hnext, ⟨hrecent, hcoming⟩ | ⟨hreads, hcoming⟩⟩ := h.exists_next
    · obtain ⟨s₁, s₂, hstill, hnext', hreads, hcoming', hlocals, hparams, hpending⟩ :=
        ih _ (hn ▸ hnext.length_lt) hcoming rfl
      obtain ⟨hlocals', hparams', hpending'⟩ := hnext.still hrecent
      exact ⟨s₁, s₂, (hnext.coming_nil hrecent).trans hstill, hnext', hreads, hcoming',
        hlocals.trans hlocals', hparams.trans hparams', hpending.trans hpending'⟩
    · exact ⟨s, s', .refl s, hnext, hreads, hcoming, rfl, rfl, rfl⟩

/-- A run that reads some tokens: the state when it has just read one of them. -/
lemma Coming.exists_split (h : Coming s e (ts ++ t :: us)) :
    ∃ s₁ s', Coming s s₁ ts ∧ Next s₁ s' ∧ ReadsToken s₁ s' t ∧ Coming s' e us := by
  induction ts generalizing s with
  | nil =>
    obtain ⟨s₁, s', hstill, hnext, hreads, hcoming, -⟩ := h.exists_reads
    exact ⟨s₁, s', hstill, hnext, hreads, hcoming⟩
  | cons u ts ih =>
    obtain ⟨s₁, s₂, hstill, hnext, hreads, hcoming, -⟩ := h.exists_reads
    obtain ⟨s₃, s', hts, hrest⟩ := ih hcoming
    exact ⟨s₃, s', (hstill.trans (hnext.coming hreads.recent_eq)).trans hts, hrest⟩

/-- A run that reads quiet tokens first: the state when it has just read the last of them. -/
lemma Coming.exists_quiet (h : Coming s e (ts ++ t :: us))
    (hquiet : QuietRun s.recent (ts ++ [t])) :
    ∃ s₁ s', Coming s s₁ ts ∧ Next s₁ s' ∧ ReadsToken s₁ s' t ∧ Coming s' e us ∧
      KeepsAll s s' (ts ++ [t]) := by
  induction ts generalizing s with
  | nil =>
    obtain ⟨s₁, s', hstill, hnext, hreads, hcoming, hlocals, hparams, hpending⟩ := h.exists_reads
    have hrecent : s₁.recent = s.recent := hstill.recent_eq
    have hkeeps := hnext.quiet hreads.recent_eq (hrecent ▸ hquiet.1.of_listed _)
    refine ⟨s₁, s', hstill, hnext, hreads, hcoming, ?_⟩
    refine KeepsAll.cons ⟨hkeeps.locals_eq.trans hlocals, ?_, ?_⟩ ⟨rfl, rfl, .inl rfl⟩
    · rw [hkeeps.params_eq, hparams]
    · rw [hkeeps.pending_eq, hpending]
  | cons u ts ih =>
    obtain ⟨s₁, s₂, hstill, hnext, hreads, hcoming, hlocals, hparams, hpending⟩ := h.exists_reads
    have hrecent : s₁.recent = s.recent := hstill.recent_eq
    have hkeeps := hnext.quiet hreads.recent_eq (hrecent ▸ hquiet.1.of_listed _)
    have hrecent₂ : s₂.recent = u :: s.recent := by rw [hreads.recent_eq, hrecent]
    obtain ⟨s₃, s', hts, hnext', hreads', hus, hall⟩ := ih hcoming (hrecent₂ ▸ hquiet.2)
    refine ⟨s₃, s', (hstill.trans (hnext.coming hreads.recent_eq)).trans hts, hnext', hreads', hus,
      ?_⟩
    refine KeepsAll.cons ⟨hkeeps.locals_eq.trans hlocals, ?_, ?_⟩ hall
    · rw [hkeeps.params_eq, hparams]
    · rw [hkeeps.pending_eq, hpending]

end Scanner

end TablePack
