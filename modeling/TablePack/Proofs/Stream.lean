import Mathlib.Tactic
import TablePack.Proofs.Offset
import TablePack.Proofs.Spelling

/-!
# The tokens of a text, in order

A step of the scanner eats a part of the rest, and makes a token of it or of a first part of it
(`Next.stride`). Along a run the tokens therefore lie in the text one after another, each where it
says that it starts. `Token.Stream` is this property of a list of tokens, and the main statements
are that scanning (`stream_of_scan`) and lexing (`stream_of_lex`) give streams.
-/

namespace TablePack

open Token (Kind Lexeme Spelled)
open Text (size)

/-! ## Streams -/

namespace Token

/-- A token stands in a text where it says that it starts. -/
def Placed (source : Text) (t : Token) : Prop :=
  ∃ before after, source = before ++ (t.text ++ after) ∧ size before = t.start

/-- Tokens that stand in a text one after another. -/
structure Stream (source : Text) (tokens : List Token) : Prop where
  placed : ∀ t ∈ tokens, t.Placed source
  ne_nil : ∀ t ∈ tokens, t.text ≠ []
  ordered : tokens.Pairwise fun a b => a.stop ≤ b.start

lemma Stream.sublist {source : Text} {tokens some : List Token} (h : Stream source tokens)
    (hsub : some.Sublist tokens) : Stream source some :=
  ⟨fun t ht => h.placed t (hsub.subset ht), fun t ht => h.ne_nil t (hsub.subset ht),
    h.ordered.sublist hsub⟩

lemma Placed.stop_le {source : Text} {t : Token} (h : t.Placed source) : t.stop ≤ size source := by
  obtain ⟨before, after, rfl, hsize⟩ := h
  rw [stop, ← hsize]
  simp only [Text.size_append]
  omega

lemma start_lt_stop {t : Token} (h : t.text ≠ []) : t.start < t.stop := by
  have := Text.size_pos h
  rw [stop]
  omega

lemma Stream.start_le_stop {source : Text} {tokens : List Token} {first last : Token}
    (h : Stream source tokens) (hfirst : tokens.head? = some first)
    (hlast : tokens.getLast? = some last) : first.start ≤ last.stop := by
  obtain ⟨before, rfl⟩ := List.getLast?_eq_some_iff.1 hlast
  cases before with
  | nil =>
    cases hfirst
    exact Nat.le_add_right _ _
  | cons t before =>
    cases hfirst
    have hstop : first.stop ≤ last.start := (List.pairwise_cons.1 h.ordered).1 last (by simp)
    have hfirst := Nat.le_add_right first.start (size first.text)
    exact (hfirst.trans hstop).trans (Nat.le_add_right _ _)

/-- What stands from the first token through the last one is the slice of the text there. -/
lemma Stream.excerpt {source : Text} {tokens : List Token} {first last : Token}
    (h : Stream source tokens) (hfirst : tokens.head? = some first)
    (hlast : tokens.getLast? = some last) :
    Text.Excerpt source first.start last.stop (Text.slice source first.start last.stop) := by
  obtain ⟨before, rest, hsource, hstart⟩ := h.placed first (List.mem_of_mem_head? hfirst)
  obtain ⟨before', rest', hsource', hstart'⟩ := h.placed last (List.mem_of_mem_getLast? hlast)
  have hstop : size (before' ++ last.text) = last.stop := by rw [Text.size_append, hstart', stop]
  have hle : size before ≤ size (before' ++ last.text) := by
    rw [hstart, hstop]
    exact h.start_le_stop hfirst hlast
  rw [← List.append_assoc] at hsource'
  rw [← hstart, ← hstop, hsource]
  exact Text.excerpt_slice (hsource.symm.trans hsource') hle

end Token

/-! ## One step -/

namespace Scanner

/-- What one step does to the text and to the tokens: it eats a part of the rest, and where it
reads a token, the token is the first part of what it eats, or all of it unless it is a newline. -/
structure Stride (s s' : Scanner) (eaten : Text) : Prop where
  ne_nil : eaten ≠ []
  rest_eq : s.rest = eaten ++ s'.rest
  pos_eq : s'.pos = s.pos + size eaten
  previous_eq : s'.previous = eaten.getLast?.getD s.previous
  tokens_eq : (s'.tokens = s.tokens ∧ s'.recent = s.recent) ∨
    ∃ kind text skipped, eaten = text ++ skipped ∧ Spelled kind text ∧
      s'.tokens = ⟨kind, s.pos, text⟩ :: s.tokens ∧
      s'.recent = (if kind = .comment then s.recent else ⟨kind, s.pos, text⟩ :: s.recent) ∧
      (kind ≠ .newline → skipped = [])

lemma stride_skip {s : Scanner} {n : ℕ} (hne : s.rest.take n ≠ []) :
    Stride s (s.advance n) (s.rest.take n) :=
  ⟨hne, (List.take_append_drop n s.rest).symm, rfl, rfl, .inl ⟨rfl, rfl⟩⟩

/-- A token that is read, whatever else changes in the memory. -/
lemma stride_emit {s s' : Scanner} {l : Lexeme}
    (hspelled : Spelled l.kind (s.rest.take (l.more + 1)))
    (hrest : s'.rest = (s.emit l).rest) (hpos : s'.pos = (s.emit l).pos)
    (hprevious : s'.previous = (s.emit l).previous) (htokens : s'.tokens = (s.emit l).tokens)
    (hrecent : s'.recent = (s.emit l).recent) :
    Stride s s' (s.rest.take (l.more + 1)) := by
  refine ⟨hspelled.ne_nil, ?_, hpos, hprevious,
    .inr ⟨l.kind, _, [], ?_, hspelled, htokens, hrecent, ?_⟩⟩
  · rw [hrest]
    exact (List.take_append_drop _ s.rest).symm
  · rw [List.append_nil]
  · exact fun _ => rfl

lemma newline_of_bodies {s : Scanner} {n : ℕ}
    (h : Heredoc.bodiesLength s.pending (s.rest.drop 1) = .ok n) :
    s.newline = .ok { (s.emit ⟨.newline, 0⟩).advance n with pending := [] } := by
  rw [newline]
  dsimp only
  rw [rest_emit, h]

lemma mem_of_bodiesLength {docs : List Heredoc} {t : Text} {doc : Heredoc}
    (h : Heredoc.bodiesLength docs t = .error doc) : doc ∈ docs := by
  induction docs generalizing t with
  | nil => cases h
  | cons first docs ih =>
    rw [Heredoc.bodiesLength] at h
    split at h
    · cases h
      exact List.mem_cons_self
    · rename_i n hn
      cases hrest : Heredoc.bodiesLength docs (t.drop n) with
      | error doc' =>
        rw [hrest] at h
        cases h
        exact List.mem_cons_of_mem _ (ih hrest)
      | ok m =>
        rw [hrest] at h
        cases h

lemma newline_of_unterminated {s : Scanner} {doc : Heredoc}
    (h : Heredoc.bodiesLength s.pending (s.rest.drop 1) = .error doc) :
    s.newline = .error ⟨doc.start, .unterminatedHeredoc⟩ := by
  rw [newline]
  dsimp only
  rw [rest_emit, h]

lemma exists_bodies_of_newline {s s' : Scanner} (h : s.newline = .ok s') :
    ∃ n, Heredoc.bodiesLength s.pending (s.rest.drop 1) = .ok n ∧
      s' = { (s.emit ⟨.newline, 0⟩).advance n with pending := [] } := by
  rw [newline] at h
  dsimp only at h
  split at h
  · cases h
  · rename_i n hn
    cases h
    exact ⟨n, hn, rfl⟩

lemma stride_newline {s : Scanner} {t : Text} (hrest : s.rest = '\n' :: t) (n : ℕ) :
    Stride s { (s.emit ⟨.newline, 0⟩).advance n with pending := [] } ('\n' :: t.take n) := by
  refine ⟨by simp, ?_, ?_, ?_, .inr ⟨.newline, ['\n'], t.take n, rfl, ?_, ?_, ?_, ?_⟩⟩
  · simp [hrest]
  · simp [advance, emit, hrest]
    omega
  · simp only [advance, emit, hrest]
    rw [List.getLast?_cons]
    simp
  · exact ⟨by simp, by simp [Token.spellings?], by simp, by simp, by simp [Token.isName]⟩
  · simp [advance, emit, hrest]
  · simp [advance, emit, hrest]
  · exact fun hne => absurd rfl hne

/-- The kinds of words. -/
def isWord : Kind → Bool
  | .const | .ident | .keyword _ => true
  | _ => false

lemma isWord_wordKind (s : Scanner) (word after : Text) : isWord (s.wordKind word after) := by
  unfold wordKind
  split
  · rfl
  split
  · rfl
  split <;> rfl

lemma not_mem_take_wordLength (t : Text) : '\n' ∉ t.take (wordLength t) := by
  have hspan : '\n' ∉ t.take (Text.span Text.isNameChar t) := Text.not_mem_take_span (by decide) t
  rw [wordLength]
  split
  · rename_i c u hdrop
    split
    · rename_i hc
      rw [List.take_add_one, List.mem_append, not_or]
      refine ⟨hspan, ?_⟩
      have hget : t[Text.span Text.isNameChar t]? = some c := by
        rw [← List.head?_drop, hdrop]
        rfl
      rw [hget]
      rintro (_ | ⟨_, ⟨⟩⟩)
      simp at hc
    · exact hspan
  · exact hspan

lemma not_mem_take_wordExtent (s : Scanner) (t : Text) : '\n' ∉ t.take (s.wordExtent t) := by
  have hword := not_mem_take_wordLength t
  rw [wordExtent]
  split
  · rename_i hsetter
    rw [List.take_add_one, List.mem_append, not_or]
    refine ⟨hword, ?_⟩
    rw [← List.head?_drop]
    have hset := (Bool.and_eq_true_iff.1 hsetter).2
    unfold Lexeme.startsSetter at hset
    split at hset
    · rename_i u heq
      rw [heq]
      simp
    · cases hset
  · exact hword

lemma spelled_word (s : Scanner) {c : Char} (hc : Text.isNameStart c) (t : Text) :
    Spelled (s.wordKind (c :: t.take (s.wordExtent t)) (t.drop (s.wordExtent t)))
      (c :: t.take (s.wordExtent t)) := by
  have hkind := isWord_wordKind s (c :: t.take (s.wordExtent t)) (t.drop (s.wordExtent t))
  have hne : c :: t.take (s.wordExtent t) ≠ [] := List.cons_ne_nil _ _
  have hnot : '\n' ∉ c :: t.take (s.wordExtent t) := by
    rw [List.mem_cons, not_or]
    refine ⟨?_, not_mem_take_wordExtent s t⟩
    rintro rfl
    exact absurd hc (by decide)
  revert hkind
  generalize s.wordKind _ _ = kind
  intro hkind
  cases kind with
  | const => exact Token.spelled_of_isName rfl hne hnot
  | ident => exact Token.spelled_of_isName rfl hne hnot
  | keyword k => exact Token.spelled_of_isName rfl hne hnot
  | _ => cases hkind

lemma stride_word {s : Scanner} {c : Char} {t : Text} (hrest : s.rest = c :: t)
    (hc : Text.isNameStart c) : Stride s (s.word c t) (s.rest.take (s.wordExtent t + 1)) := by
  refine stride_emit (l := ⟨s.wordKind (c :: t.take (s.wordExtent t)) (t.drop (s.wordExtent t)),
    s.wordExtent t⟩) ?_ rfl rfl rfl rfl rfl
  rw [hrest]
  exact spelled_word s hc t

lemma stride_readSign {s : Scanner} {sign : Sign} (h : Sign.find? s.rest = some sign) :
    Stride s (s.readSign sign) (s.rest.take (sign.text.length - 1 + 1)) := by
  refine stride_emit (l := ⟨sign.kind, sign.text.length - 1⟩) ?_ rfl rfl rfl rfl rfl
  rw [Sign.take_eq_text h]
  exact Sign.spelled_of_mem (Sign.mem_and_prefix_of_find? h).1

/-- Every step is a stride. -/
lemma Next.stride {s s' : Scanner} (h : Next s s') : ∃ eaten, Stride s s' eaten := by
  obtain ⟨c, t, m, hrest, hm, hs⟩ := h.exists_move
  have hfits := fits_of_choose hm
  cases m with
  | skip n =>
    cases hs
    have hpos : 0 < n := Passage.length_pos hfits
    refine ⟨_, stride_skip ?_⟩
    rw [hrest]
    simp
    omega
  | lineBreak =>
    have hc : c = '\n' := hfits
    subst hc
    obtain ⟨n, -, rfl⟩ := exists_bodies_of_newline hs
    exact ⟨_, stride_newline hrest n⟩
  | lexeme l =>
    cases hs
    exact ⟨_, stride_emit (hrest ▸ hfits.spelled) rfl rfl rfl rfl rfl⟩
  | word =>
    cases hs
    exact ⟨_, stride_word hrest hfits⟩
  | announce doc n =>
    cases hs
    refine ⟨_, stride_emit (l := ⟨.string, n⟩) ?_ rfl rfl rfl rfl rfl⟩
    exact Token.spelled_of_isFree rfl (by simp [hrest])
  | sign sign =>
    cases hs
    exact ⟨_, stride_readSign (hrest ▸ hfits)⟩

/-- A heredoc that is open after a step was open before it, or is announced where the step
starts. -/
lemma Next.mem_pending {s s' : Scanner} (h : Next s s') {doc : Heredoc} (hdoc : doc ∈ s'.pending) :
    doc ∈ s.pending ∨ doc.start = s.pos := by
  obtain ⟨c, t, m, hrest, hm, hperform⟩ := h.exists_move
  have hfits := fits_of_choose hm
  cases m with
  | skip n =>
    cases hperform
    exact .inl hdoc
  | lineBreak =>
    obtain ⟨n, -, rfl⟩ := exists_bodies_of_newline hperform
    cases hdoc
  | lexeme l =>
    cases hperform
    exact .inl hdoc
  | word =>
    cases hperform
    exact .inl hdoc
  | announce new n =>
    cases hperform
    rcases List.mem_append.1 hdoc with hdoc | hdoc
    · exact .inl hdoc
    · rw [List.mem_singleton.1 hdoc]
      have hannounced := hfits.2
      unfold Heredoc.announced? at hannounced
      split at hannounced
      · obtain ⟨found, -, heq⟩ := Option.map_eq_some_iff.1 hannounced
        exact .inr (by rw [← (Prod.mk.inj heq).1])
      · cases hannounced
  | sign sign =>
    cases hperform
    exact .inl hdoc

/-! ## A whole run -/

/-- What holds of every state along a run over a text: the rest is what the tokens and the text
between them leave, and the tokens stand before it, the newest one first. -/
structure Sound (source : Text) (s : Scanner) : Prop where
  split : ∃ before, source = before ++ s.rest ∧ size before = s.pos
  placed : ∀ t ∈ s.tokens, t.Placed source
  spelled : ∀ t ∈ s.tokens, Spelled t.kind t.text
  stop_le : ∀ t ∈ s.tokens, t.stop ≤ s.pos
  ordered : s.tokens.Pairwise fun a b => b.stop ≤ a.start
  recent_eq : s.recent = s.tokens.filter fun t => t.kind != .comment

lemma Sound.recent_stop_le {source : Text} {s : Scanner} (h : Sound source s) :
    ∀ t ∈ s.recent, t.stop ≤ s.pos := by
  intro t ht
  rw [h.recent_eq] at ht
  exact h.stop_le t (List.mem_of_mem_filter ht)

lemma sound_start (source : Text) : Sound source { rest := source } where
  split := ⟨[], rfl, rfl⟩
  placed := by simp
  spelled := by simp
  stop_le := by simp
  ordered := .nil
  recent_eq := rfl

lemma Sound.next {source : Text} {s s' : Scanner} (h : Sound source s) (hnext : Next s s') :
    Sound source s' := by
  obtain ⟨eaten, hstride⟩ := hnext.stride
  obtain ⟨before, hsource, hpos⟩ := h.split
  have hsplit : source = (before ++ eaten) ++ s'.rest := by
    rw [hsource, hstride.rest_eq, List.append_assoc]
  have hpos' : size (before ++ eaten) = s'.pos := by
    rw [Text.size_append, hpos, hstride.pos_eq]
  have hle : s.pos ≤ s'.pos := by
    rw [hstride.pos_eq]
    omega
  rcases hstride.tokens_eq with ⟨htokens, hrecent⟩ |
    ⟨kind, text, skipped, heaten, hspelled, htokens, hrecent, -⟩
  · refine ⟨⟨_, hsplit, hpos'⟩, ?_, ?_, ?_, ?_, ?_⟩
    · rw [htokens]
      exact h.placed
    · rw [htokens]
      exact h.spelled
    · rw [htokens]
      exact fun t ht => (h.stop_le t ht).trans hle
    · rw [htokens]
      exact h.ordered
    · rw [htokens, hrecent]
      exact h.recent_eq
  · have hplaced : Token.Placed source ⟨kind, s.pos, text⟩ := by
      refine ⟨before, skipped ++ s'.rest, ?_, hpos⟩
      rw [hsplit, heaten]
      simp only [List.append_assoc]
    have hstop : Token.stop ⟨kind, s.pos, text⟩ ≤ s'.pos := by
      rw [Token.stop, hstride.pos_eq, heaten, Text.size_append]
      simp only
      omega
    refine ⟨⟨_, hsplit, hpos'⟩, ?_, ?_, ?_, ?_, ?_⟩
    · rw [htokens]
      exact List.forall_mem_cons.2 ⟨hplaced, h.placed⟩
    · rw [htokens]
      exact List.forall_mem_cons.2 ⟨hspelled, h.spelled⟩
    · rw [htokens]
      exact List.forall_mem_cons.2 ⟨hstop, fun t ht => (h.stop_le t ht).trans hle⟩
    · rw [htokens]
      exact List.pairwise_cons.2 ⟨h.stop_le, h.ordered⟩
    · rw [htokens, hrecent, h.recent_eq]
      by_cases hkind : kind = .comment
      · simp [hkind]
      · simp [hkind]

lemma Sound.reaches {source : Text} {s s' : Scanner} (h : Sound source s) (hreach : Reaches s s') :
    Sound source s' := by
  induction hreach with
  | refl => exact h
  | tail _ hnext ih => exact ih.next hnext

/-- A heredoc is announced before the text that is still to be read. -/
lemma pending_lt_pos {source : Text} {s : Scanner} (h : Reaches { rest := source } s) :
    ∀ doc ∈ s.pending, doc.start < s.pos := by
  induction h with
  | refl => exact List.forall_mem_nil _
  | @tail s s' _ hnext ih =>
    intro doc hdoc
    obtain ⟨eaten, hstride⟩ := hnext.stride
    have hpos := Text.size_pos hstride.ne_nil
    rw [hstride.pos_eq]
    rcases hnext.mem_pending hdoc with hdoc | hstart
    · have := ih doc hdoc
      omega
    · omega

end Scanner

/-! ## Scanning and lexing -/

namespace Token

/-- Scanning gives a stream of tokens that are spelled as their kinds say. -/
lemma stream_of_scan {source : Text} {tokens : List Token} (h : scan source = .ok tokens) :
    Stream source tokens ∧ ∀ t ∈ tokens, Spelled t.kind t.text := by
  obtain ⟨s, hrun, rfl⟩ := eq_ok_of_map_eq_ok h
  have hsound := (Scanner.sound_start source).reaches (Scanner.run_eq_ok_iff.1 hrun).1
  refine ⟨⟨?_, ?_, ?_⟩, ?_⟩
  · simpa using hsound.placed
  · simpa using fun t ht => (hsound.spelled t ht).ne_nil
  · exact List.pairwise_reverse.2 hsound.ordered
  · simpa using hsound.spelled

/-- A token before and after its opening bracket is told apart. -/
structure Told (a b : Token) : Prop where
  start_eq : b.start = a.start
  text_eq : b.text = a.text
  kind_eq : a.kind ≠ .lbracket ∧ b.kind = a.kind ∨
    a.kind = .lbracket ∧ (b.kind = .indexBracket ∨ b.kind = .arrayBracket)

lemma Told.stop_eq {a b : Token} (h : Told a b) : b.stop = a.stop := by
  rw [stop, stop, h.start_eq, h.text_eq]

lemma told_tellBracket (previous : Option Token) (t : Token) : Told t (tellBracket previous t) := by
  unfold tellBracket
  split
  · rename_i hkind
    split
    · exact ⟨rfl, rfl, .inr ⟨hkind, .inl rfl⟩⟩
    · exact ⟨rfl, rfl, .inr ⟨hkind, .inr rfl⟩⟩
  · rename_i hkind
    exact ⟨rfl, rfl, .inl ⟨hkind, rfl⟩⟩

/-- Tells the brackets of tokens apart that follow another token. -/
def tellFrom (previous : Option Token) (ts : List Token) : List Token :=
  List.zipWith tellBracket (previous :: ts.map some) ts

lemma tellFrom_cons (previous : Option Token) (t : Token) (ts : List Token) :
    tellFrom previous (t :: ts) = tellBracket previous t :: tellFrom (some t) ts := rfl

lemma tellFrom_append (previous : Option Token) (ts us : List Token) :
    tellFrom previous (ts ++ us)
      = tellFrom previous ts ++ tellFrom (ts.getLast?.or previous) us := by
  induction ts generalizing previous with
  | nil => rfl
  | cons t ts ih =>
    rw [List.cons_append, tellFrom_cons, tellFrom_cons, ih, List.cons_append, List.getLast?_cons]
    cases ts.getLast? <;> rfl

lemma length_tellFrom (previous : Option Token) (ts : List Token) :
    (tellFrom previous ts).length = ts.length := by simp [tellFrom]

lemma exists_of_tellFrom_eq_append {previous : Option Token} {ts a b : List Token}
    (h : tellFrom previous ts = a ++ b) :
    ∃ us vs, ts = us ++ vs ∧ tellFrom previous us = a ∧
      tellFrom (us.getLast?.or previous) vs = b := by
  refine ⟨ts.take a.length, ts.drop a.length, (List.take_append_drop _ _).symm, ?_⟩
  have hlength := congrArg List.length h
  rw [length_tellFrom, List.length_append] at hlength
  rw [← List.take_append_drop a.length ts, tellFrom_append] at h
  refine List.append_inj h ?_
  rw [length_tellFrom, List.length_take]
  omega

lemma exists_of_tellFrom_eq_cons {previous : Option Token} {ts b : List Token} {t : Token}
    (h : tellFrom previous ts = t :: b) :
    ∃ u us, ts = u :: us ∧ tellBracket previous u = t ∧ tellFrom (some u) us = b := by
  cases ts with
  | nil => cases h
  | cons u us => exact ⟨u, us, rfl, List.cons.inj h⟩

lemma tellBrackets_append (ts us : List Token) :
    tellBrackets (ts ++ us) = tellBrackets ts ++ tellFrom ts.getLast? us := by
  have h := tellFrom_append none ts us
  rwa [Option.or_none] at h

lemma told_tellFrom (previous : Option Token) (tokens : List Token) :
    List.Forall₂ Told tokens (tellFrom previous tokens) := by
  induction tokens generalizing previous with
  | nil => exact .nil
  | cons t tokens ih => exact .cons (told_tellBracket previous t) (ih (some t))

lemma told_tellBrackets (tokens : List Token) : List.Forall₂ Told tokens (tellBrackets tokens) :=
  told_tellFrom none tokens

lemma exists_told {as bs : List Token} (h : List.Forall₂ Told as bs) {b : Token} (hb : b ∈ bs) :
    ∃ a ∈ as, Told a b := by
  induction h with
  | nil => cases hb
  | cons hab _ ih =>
    rcases List.mem_cons.1 hb with rfl | hb
    · exact ⟨_, List.mem_cons_self, hab⟩
    · obtain ⟨a, ha, htold⟩ := ih hb
      exact ⟨a, List.mem_cons_of_mem _ ha, htold⟩

lemma Stream.told {source : Text} {as bs : List Token} (h : Stream source as)
    (htold : List.Forall₂ Told as bs) : Stream source bs := by
  refine ⟨fun b hb => ?_, fun b hb => ?_, ?_⟩
  · obtain ⟨a, ha, hab⟩ := exists_told htold hb
    rw [Placed, hab.start_eq, hab.text_eq]
    exact h.placed a ha
  · obtain ⟨a, ha, hab⟩ := exists_told htold hb
    rw [hab.text_eq]
    exact h.ne_nil a ha
  · have hordered := h.ordered
    clear h
    induction htold with
    | nil => exact .nil
    | @cons a b as bs hab htold ih =>
      obtain ⟨hhead, htail⟩ := List.pairwise_cons.1 hordered
      refine List.pairwise_cons.2 ⟨fun b' hb' => ?_, ih htail⟩
      obtain ⟨a', ha', hab'⟩ := exists_told htold hb'
      rw [hab.stop_eq, hab'.start_eq]
      exact hhead a' ha'

/-- The spelling of a token after the opening brackets are told apart. -/
def SpelledApart (t : Token) : Prop :=
  if t.kind = .indexBracket ∨ t.kind = .arrayBracket then t.text = ['['] else Spelled t.kind t.text

/-- An integer token is an integer literal. -/
lemma SpelledApart.exists_literal {t : Token} (h : t.SpelledApart) (hkind : t.kind = .int) :
    ∃ radix digits, Numeral.Literal t.text radix digits := by
  rw [SpelledApart, hkind, if_neg (by decide)] at h
  exact h.integer rfl

/-- Lexing keeps the tokens that the scanner looks back at. -/
lemma lex_eq (source : Text) :
    lex source
      = (Scanner.run { rest := source }).map fun s => tellBrackets s.recent.reverse := by
  rw [lex, scan]
  cases hrun : Scanner.run { rest := source } with
  | error fault => rfl
  | ok s =>
    have hsound := (Scanner.sound_start source).reaches (Scanner.run_eq_ok_iff.1 hrun).1
    simp only [Except.map, hsound.recent_eq, List.filter_reverse]

/-- Lexing gives a stream of tokens that are spelled as their kinds say. -/
lemma stream_of_lex {source : Text} {tokens : List Token} (h : lex source = .ok tokens) :
    Stream source tokens ∧ ∀ t ∈ tokens, t.SpelledApart := by
  obtain ⟨scanned, hscan, rfl⟩ := eq_ok_of_map_eq_ok h
  obtain ⟨hstream, hspelled⟩ := stream_of_scan hscan
  have htold := told_tellBrackets (scanned.filter fun t => t.kind != .comment)
  refine ⟨(hstream.sublist List.filter_sublist).told htold, fun b hb => ?_⟩
  obtain ⟨a, ha, hab⟩ := exists_told htold hb
  have hspell := hspelled a (List.mem_of_mem_filter ha)
  rw [SpelledApart, hab.text_eq]
  rcases hab.kind_eq with ⟨hne, hkind⟩ | ⟨hbracket, hkind⟩
  · have hapart : ¬ (b.kind = .indexBracket ∨ b.kind = .arrayBracket) := by
      rw [hkind]
      -- the scanner itself reads no bracket that is told apart
      rintro (hk | hk) <;> rw [hk] at hspell <;> exact absurd (hspell.punctuation [] rfl) (by simp)
    rw [if_neg hapart, hkind]
    exact hspell
  · rw [if_pos hkind]
    rw [hbracket] at hspell
    simpa using hspell.punctuation [['[']] rfl

end Token

end TablePack
