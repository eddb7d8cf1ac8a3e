import Mathlib.Tactic
import TablePack.Proofs.Exchange.Field
import TablePack.Proofs.Exchange.Run
import TablePack.Proofs.Exchange.Search
import TablePack.Proofs.Meaning

/-!
# Reading the header of a table

The header of a table is its receiver, a dot, the name of the field and the sign of the assignment.
The tree of a text tells which tokens the statement has. Where the scanner is when it comes to the
bracket is told from the text: from the end of the receiver on, each character of the header is a
blank, or belongs to one of the three tokens.

* `Scanner.Next.exists_reads`, `Scanner.Next.isSolid`: the characters at which a token is read;
* `Scanner.Ahead`: the tokens of the tree that a run is still to read;
* `Scanner.Ahead.exists_field`: the run over the header, from the end of the receiver on;
* `Scanner.Passes.beside`: the run over the header of another text;
* `Scanner.Ahead.exists_array`: the array after it.
-/

namespace TablePack

open Token (Kind Told IsArray Assigned)
open Text (size)
open TablePack.Tree (isSeparator)

namespace Scanner

variable {s s' e : Scanner} {t u : Token} {c : Char} {w : Text}

/-! ## Characters that start a token -/

/-- The characters that are no blank and start no comment, no separator and no joined line. -/
def isSolid (c : Char) : Bool :=
  !Text.isBlank c && c != '\\' && c != '\n' && c != '#' && c != ';'

lemma choose_semi {v : View} (pos : ℕ) (t : Text) :
    choose v pos ';' t = .ok (.sign ⟨[';'], .semi, false⟩) := by
  rw [choose, if_neg (by decide), if_neg (by decide), if_neg (by decide), if_neg (by decide),
    if_neg (by simp), if_neg (by simp), if_neg (by decide), if_neg (by decide), if_neg (by decide)]
  cases v.defining with
  | false => exact chooseLiteral_eq_chooseSign v pos (by decide) t
  | true => exact chooseLiteral_eq_chooseSign v pos (by decide) t

/-- The moves at other characters. -/
lemma choose_of_not_isSolid {v : View} {pos : ℕ} {m : Move} (hc : isSolid c = false)
    (h : choose v pos c w = .ok m) :
    (∃ n, m = .skip n) ∨ m = .lineBreak ∨ m = .lexeme (Token.Lexeme.comment w) ∨
      m = .sign ⟨[';'], .semi, false⟩ := by
  by_cases hblank : Text.isBlank c = true
  · rw [choose, if_pos hblank] at h
    exact .inl ⟨1, (Except.ok.inj h).symm⟩
  by_cases hslash : c = '\\'
  · rw [choose, if_neg hblank, if_pos hslash] at h
    unfold chooseJoin at h
    split at h
    · exact .inl ⟨2, (Except.ok.inj h).symm⟩
    · exact .inl ⟨3, (Except.ok.inj h).symm⟩
    · cases h
  by_cases hline : c = '\n'
  · rw [choose, if_neg hblank, if_neg hslash, if_pos hline] at h
    exact .inr (.inl (Except.ok.inj h).symm)
  by_cases hcomment : c = '#'
  · rw [choose, if_neg hblank, if_neg hslash, if_neg hline, if_pos hcomment] at h
    exact .inr (.inr (.inl (Except.ok.inj h).symm))
  · have hsemi : c = ';' := by
      simpa [isSolid, hblank, hslash, hline, hcomment] using hc
    rw [hsemi, choose_semi] at h
    exact .inr (.inr (.inr (Except.ok.inj h).symm))

/-- A token that is no separator is read at a solid character. -/
lemma Next.isSolid (h : Next s s') (hreads : ReadsToken s s' t) (hkind : isSeparator t.kind = false)
    (hrest : s.rest = c :: w) : isSolid c := by
  obtain ⟨d, v, m, hcons, hm, hperform⟩ := h.exists_move
  rw [hrest] at hcons
  obtain ⟨rfl, rfl⟩ := List.cons.inj hcons
  by_contra hsolid
  have hrecent := hreads.recent_eq
  rcases choose_of_not_isSolid (by simpa using hsolid) hm with ⟨n, rfl⟩ | rfl | rfl | rfl
  · cases hperform
    exact cons_ne_recent t hrecent.symm
  · obtain ⟨n, -, rfl⟩ := exists_bodies_of_newline hperform
    obtain ⟨rfl, -⟩ := List.cons.inj hrecent
    cases hkind
  · cases hperform
    exact cons_ne_recent t hrecent.symm
  · cases hperform
    obtain ⟨rfl, -⟩ := List.cons.inj hrecent
    cases hkind

/-- A comment is read at its sign, or at the start of a line. -/
lemma kind_ne_comment_of_choose {v : View} {pos : ℕ} {l : Token.Lexeme} (hc : isSolid c)
    (hline : c = '=' → v.lineStart = false) (h : choose v pos c w = .ok (.lexeme l)) :
    l.kind ≠ .comment := by
  intro hkind
  have hfits : LexemeFits v c w l := fits_of_choose h
  rcases hfits.spelled.comment hkind with hhead | hhead
  · obtain rfl : c = '#' := Option.some.inj hhead
    exact absurd hc (by decide)
  · obtain rfl : c = '=' := Option.some.inj hhead
    rw [choose, if_neg (by decide), if_neg (by decide), if_neg (by decide), if_neg (by decide),
      if_neg (by simp [hline rfl]), if_neg (by simp), if_neg (by decide), if_neg (by decide),
      if_neg (by decide), chooseLiteral_eq_chooseSign v pos (by decide), chooseSign] at h
    split at h
    · obtain rfl := Move.lexeme.inj (Except.ok.inj h)
      cases hkind
    · split at h
      · cases h
      · cases h

lemma not_passage_of_isSolid {lineStart : Bool} {n : ℕ} (hc : isSolid c)
    (hline : c = '_' → lineStart = false) : ¬ Passage lineStart (c :: w) n := by
  rintro (hblank | hending | ⟨hstart, hend⟩)
  · simp [isSolid, hblank] at hc
  · cases hc
  · have hprefix : "__END__".toList <+: c :: w := by
      rw [← hend, Text.withoutReturn]
      split
      · exact (List.dropLast_prefix _).trans (List.takeWhile_prefix _)
      · exact List.takeWhile_prefix _
    have hscore : c = '_' := by
      obtain ⟨v, hv⟩ := hprefix
      exact (List.cons.inj hv).1.symm
    rw [hline hscore] at hstart
    cases hstart

/-- At a solid character a token is read that is no separator. -/
lemma Next.exists_reads (h : Next s s') (hrest : s.rest = c :: w) (hc : Scanner.isSolid c)
    (hline : c = '=' ∨ c = '_' → s.atLineStart = false) :
    ∃ t, ReadsToken s s' t ∧ isSeparator t.kind = false := by
  rcases h.recent_cases with hsame | ⟨t, hreads⟩
  · exfalso
    obtain ⟨d, v, m, hcons, hm, hmove⟩ := h.silent_cases hsame
    rw [hrest] at hcons
    obtain ⟨rfl, rfl⟩ := List.cons.inj hcons
    rcases hmove with ⟨n, rfl, -⟩ | ⟨l, rfl, hkind, -⟩
    · exact not_passage_of_isSolid hc (fun hd => hline (.inr hd)) (fits_of_choose hm)
    · exact kind_ne_comment_of_choose hc (fun hd => hline (.inl hd)) hm hkind
  · refine ⟨t, hreads, ?_⟩
    have hprefix := hreads.isPrefix
    rw [hrest] at hprefix
    have hne : ∀ k d, Token.spellings? k = some [[d]] → Scanner.isSolid d = false → t.kind ≠ k := by
      rintro k d hk hd rfl
      rw [List.mem_singleton.1 (hreads.spelled.punctuation _ hk)] at hprefix
      obtain ⟨v, hv⟩ := hprefix
      obtain ⟨rfl, -⟩ := List.cons.inj hv
      rw [hc] at hd
      cases hd
    simp [isSeparator, hne .newline '\n' rfl rfl, hne .semi ';' rfl rfl]

/-! ## The tokens of a tree that are to come -/

/-- The run from `s` to `e` reads tokens of which those that stand in a tree are `us`. -/
def Ahead (s e : Scanner) (us : List Token) : Prop :=
  ∃ ts previous, Coming s e ts ∧
    (Token.tellFrom previous ts).filter (fun t => !isSeparator t.kind) = us

variable {us : List Token}

/-- Tokens that are read are the next ones of the tree. -/
lemma Ahead.passes {ts : List Token} (h : Ahead s e us) (hrun : s.run = .ok e)
    (hs : Coming s s' ts) (hts : ∀ t ∈ ts, isSeparator t.kind = false ∧ t.kind ≠ .lbracket) :
    ∃ vs, us = ts ++ vs ∧ Ahead s' e vs := by
  obtain ⟨all, previous, hcoming, rfl⟩ := h
  have hreach := (run_eq_ok_iff.1 ((run_of_reaches hs.reaches).symm.trans hrun)).1
  obtain ⟨vs, rfl, hvs⟩ := hcoming.eq_of_reaches ts hreach hs.recent_eq
  rw [Token.tellFrom_append, Token.tellFrom_of_ne fun t ht => (hts t ht).2, List.filter_append,
    List.filter_eq_self.2 fun t ht => by rw [(hts t ht).1]; rfl]
  exact ⟨_, rfl, vs, _, hvs, rfl⟩

/-- A token that is read is the next one of the tree. -/
lemma Ahead.reads (h : Ahead s e (u :: us)) (hrun : s.run = .ok e) (hs : Coming s s' [t])
    (hkind : isSeparator t.kind = false) : Told t u ∧ Ahead s' e us := by
  obtain ⟨ts, previous, hcoming, hfilter⟩ := h
  have hreach := (run_eq_ok_iff.1 ((run_of_reaches hs.reaches).symm.trans hrun)).1
  obtain ⟨vs, rfl, hvs⟩ := hcoming.eq_of_reaches [t] hreach hs.recent_eq
  have htold := Token.told_tellBracket previous t
  have hpos : (!isSeparator (Token.tellBracket previous t).kind) = true := by
    rcases htold.kind_eq with ⟨-, hk⟩ | ⟨-, hk | hk⟩
    · rw [hk, hkind]
      rfl
    · rw [hk]
      rfl
    · rw [hk]
      rfl
  rw [List.singleton_append, Token.tellFrom_cons,
    List.filter_cons_of_pos (p := fun t : Token => !isSeparator t.kind) hpos] at hfilter
  obtain ⟨rfl, rfl⟩ := List.cons.inj hfilter
  exact ⟨htold, vs, some t, hvs, rfl⟩

/-- At a solid character the next token of the tree is read. -/
lemma Ahead.exists_reads (h : Ahead s e (u :: us)) (hrun : s.run = .ok e) (hrest : s.rest = c :: w)
    (hc : Scanner.isSolid c) (hline : c = '=' ∨ c = '_' → s.atLineStart = false) :
    ∃ t s', Next s s' ∧ ReadsToken s s' t ∧ t.kind ≠ .newline ∧ Told t u ∧ Ahead s' e us := by
  obtain ⟨hreach, hend, -⟩ := run_eq_ok_iff.1 hrun
  obtain ⟨s', hnext, -⟩ := Reaches.exists_next hreach (by rw [hend, hrest]; simp)
  obtain ⟨t, hreads, hkind⟩ := hnext.exists_reads hrest hc hline
  obtain ⟨htold, hahead⟩ := h.reads hrun (hnext.coming hreads.recent_eq) hkind
  refine ⟨t, s', hnext, hreads, fun hk => ?_, htold, hahead⟩
  rw [hk] at hkind
  cases hkind

/-! ## The header -/

lemma eq_of_told (h : Told t u) (hkind : u.kind ≠ .indexBracket ∧ u.kind ≠ .arrayBracket) :
    t = u := by
  obtain ⟨kind, start, text⟩ := t
  rcases h.kind_eq with ⟨-, hk⟩ | ⟨-, hk | hk⟩
  · cases u
    simp only [Token.mk.injEq]
    exact ⟨hk.symm, h.start_eq.symm, h.text_eq.symm⟩
  · exact absurd hk hkind.1
  · exact absurd hk hkind.2

/-- Where a single dot is read, no other one follows. -/
lemma Next.head?_ne_dot (h : Next s s') (hreads : ReadsToken s s' t) (hrest : s.rest = '.' :: w)
    (htext : t.text = ['.']) : w.head? ≠ some '.' := by
  intro hw
  obtain ⟨v, rfl⟩ := List.head?_eq_some_iff.1 hw
  obtain ⟨c, u, m, hcons, hm, hperform⟩ := h.exists_move
  rw [hrest] at hcons
  obtain ⟨rfl, rfl⟩ := List.cons.inj hcons
  rw [choose_dot, chooseSign] at hm
  split at hm
  · cases hm
  rename_i sign hfind
  cases hm
  cases hperform
  have hrecent := hreads.recent_eq
  simp only [readSign, openParams, emit, if_neg (kind_ne_comment hfind).1] at hrecent
  obtain ⟨rfl, -⟩ := List.cons.inj hrecent
  have hsign : sign.text = ['.'] := by
    rw [← Sign.take_eq_text hfind, ← hrest]
    exact htext
  cases v with
  | nil =>
    cases hfind
    cases hsign
  | cons d v =>
    by_cases hd : d = '.'
    · subst hd
      cases hfind
      cases hsign
    · have htwo : Sign.find? ('.' :: '.' :: d :: v) = some ⟨"..".toList, .op, false⟩ := by
        simp [Sign.find?, Sign.table, List.isPrefixOf, Ne.symm hd]
      cases htwo.symm.trans hfind
      cases hsign

variable {dot name assign : Token} {x y z : Text}

/-- The run over the header, from the end of the receiver to the bracket, and the step of it that
reads the name. -/
lemma Ahead.exists_field (h : Ahead s e (dot :: name :: assign :: u :: us)) (hrun : s.run = .ok e)
    (hdot : dot.text = ['.']) (hname : name.kind = .ident)
    (hsolid : ∃ d v, name.text = d :: v ∧ Scanner.isSolid d) (hx : ∀ d ∈ x, Text.isBlank d)
    (hy : ∀ d ∈ y, Text.isBlank d) (hz : ∀ d ∈ z, Text.isBlank d)
    (hrest : s.rest = '.' :: (x ++ (name.text ++ (y ++ '=' :: (z ++ '[' :: w))))) :
    dot = ⟨.dot, s.pos, ['.']⟩ ∧ assign.text = ['='] ∧
      (∃ s', Passes s s' ('.' :: (x ++ (name.text ++ (y ++ '=' :: z)))) [dot, name, assign] ∧
        s'.rest = '[' :: w ∧ Ahead s' e (u :: us)) ∧
      ∃ p p', Next p p' ∧ ReadsToken p p' name ∧ EndsField p'.rest ∧
        p.recent = dot :: s.recent := by
  obtain ⟨t, s₀, hnext₀, hreads₀, -, htold₀, -⟩ := h.exists_reads hrun hrest rfl (by simp)
  have hsingle := hnext₀.head?_ne_dot hreads₀ hrest (htold₀.text_eq.symm.trans hdot)
  obtain ⟨s₁, hdot₁, hrest₁⟩ := exists_dot hrest hsingle
  obtain ⟨s₂, hblanks, hrest₂⟩ := exists_blanks hx hrest₁
  have hpasses₂ := hdot₁.trans hblanks
  obtain ⟨vs, hvs, hahead₂⟩ := h.passes hrun hpasses₂.coming (by simp [isSeparator])
  obtain ⟨rfl, rfl⟩ := List.cons.inj hvs
  -- The name comes after the dot, so it does not start a line.
  have hfront : '\n' ∉ ['.'] ++ x := by
    simp only [List.mem_append, List.mem_singleton, not_or]
    exact ⟨by decide, fun hmem => absurd (hx _ hmem) (by decide)⟩
  have hline₂ : s₂.atLineStart = false := hpasses₂.atLineStart_eq (by simp) hfront
  have hrun₂ : s₂.run = .ok e := (run_of_reaches hpasses₂.coming.reaches).symm.trans hrun
  obtain ⟨d, v, htext, hd⟩ := hsolid
  obtain ⟨t₃, s₃, hnext₃, hreads₃, hline₃, htold₃, -⟩ := hahead₂.exists_reads hrun₂
    (hrest₂.trans (by rw [htext]; rfl)) hd (fun _ => hline₂)
  obtain rfl := eq_of_told htold₃ (by simp [hname])
  have hrest₃ : s₃.rest = y ++ '=' :: (z ++ '[' :: w) :=
    (List.append_cancel_left (hrest₂.symm.trans (hreads₃.rest_eq hline₃))).symm
  have hend : EndsField s₃.rest := ⟨y, _, hrest₃, hy⟩
  have hrecent₂ : s₂.recent = ⟨.dot, s.pos, ['.']⟩ :: s.recent := hpasses₂.coming.recent_eq
  have hquiet : Quiet (startsLineParams s₃.rest) s₂.recent t₃ := by
    rw [hend.startsLineParams_eq, hrecent₂]
    exact quiet_name hname rfl
  have hpasses₃ := hpasses₂.trans (hnext₃.passes hreads₃ hline₃ hquiet)
  have hname₃ : '\n' ∉ t₃.text := hreads₃.spelled.name (by rw [hname]; rfl)
  have hvalue : ∀ d ∈ (z ++ '[' :: w).head?, d = '[' ∨ Text.isBlank d := by
    cases z with
    | nil =>
      rintro _ ⟨⟩
      exact .inl rfl
    | cons d z =>
      rintro _ ⟨⟩
      exact .inr (hz d List.mem_cons_self)
  obtain ⟨s', hpasses, hrest'⟩ := hpasses₃.exists_sign (by simpa [hname₃] using hfront) (by simp)
    rfl hname hy hz hvalue hrest₃
  obtain ⟨vs, hvs, hahead⟩ := h.passes hrun hpasses.coming (by simp [isSeparator, hname])
  simp only [List.cons_append, List.cons.injEq, List.nil_append] at hvs
  obtain ⟨-, -, rfl, rfl⟩ := hvs
  exact ⟨rfl, rfl, ⟨s', by simpa using hpasses, hrest', hahead⟩, s₂, s₃, hnext₃, hreads₃, hend,
    hrecent₂⟩

/-- The dot before a name is a border, with blanks after it or none. -/
lemma border_dot {v : Text} (hx : ∀ d ∈ x, Text.isBlank d) (hne : v ≠ [])
    (hv : ∀ d ∈ v.head?, d ≠ '.' ∧ d.isDigit = false) (w : Text) :
    Text.Border '.' (x ++ (v ++ w)) := by
  refine .inr (.inr ⟨rfl, ?_⟩)
  cases x with
  | nil => rwa [List.nil_append, List.head?_append_of_ne_nil _ hne]
  | cons d x =>
    rintro _ ⟨⟩
    have hblank : ∀ d ∈ Text.blanks, d ≠ '.' ∧ d.isDigit = false :=
      Text.forall_mem_of_all (by decide)
    exact hblank d (Text.mem_blanks_iff.2 (hx d List.mem_cons_self))

/-- The states after the field of two texts that are the same up to its dot. -/
lemma Passes.beside {source v : Text} {q : Scanner} (hreach : Reaches { rest := source } s)
    (hs : Passes s s' x [⟨.dot, s.pos, ['.']⟩, name, assign]) (hname : name.kind = .ident)
    (hassign : assign.kind = .assign) (htext : assign.text = ['='])
    (hq : Passes (s.onto v) q ('.' :: (name.text ++ [' ', '=', ' '])) [⟨.dot, s.pos, ['.']⟩,
      ⟨.ident, s.pos + 1, name.text⟩, ⟨.assign, s.pos + 1 + size name.text + 1, ['=']⟩]) :
    Beside s' q (⟨.dot, s.pos, ['.']⟩ :: s.recent) name assign (s.pos + 1) where
  recent_eq := by
    rw [hq.coming.recent_eq, hname, hassign, htext]
    rfl
  locals_eq := hq.keeps.locals_eq.trans hs.keeps.locals_eq.symm
  params_eq := by
    rw [hq.keeps.params_eq, hs.keeps.params_eq]
    simp only [tracked, List.foldl_cons, List.foldl_nil, Parameters.track, hname, hassign]
    rfl
  pending_eq := by
    rw [hq.pending_eq (by simp), hs.pending_eq (by simp [hname, hassign])]
    rfl
  ready := by
    have hrecent := hq.coming.recent_eq
    refine ⟨by rw [hrecent]; rfl, ?_, ?_⟩
    · rw [hq.previous_eq, List.getLast?_cons, List.getLast?_append]
      rfl
    · rw [hrecent]
      simp
  seam_pos := Nat.succ_pos _
  seam_le := by
    have hreach' : Reaches { rest := source } s' := hreach.trans hs.coming.reaches
    have hordered := hreach'.stream.ordered
    rw [hs.coming.recent_eq, List.reverse_append, List.reverse_reverse] at hordered
    have hpair := (List.pairwise_append.1 hordered).2.1
    exact (List.pairwise_cons.1 hpair).1 name (by simp)
  seam_le_pos := by
    rw [hq.pos_eq]
    exact Nat.add_le_add_left (Text.size_pos (List.cons_ne_nil _ _)) _
  older_le := by
    intro t ht
    rcases List.mem_cons.1 ht with rfl | ht
    · exact le_rfl
    · exact (((sound_start source).reaches hreach).recent_stop_le t ht).trans (Nat.le_succ _)
  pending_le := by
    intro doc hdoc
    rw [hs.pending_eq (by simp [hname, hassign])] at hdoc
    exact (pending_lt_pos hreach doc hdoc).le.trans (Nat.le_succ _)

/-! ## The array -/

lemma tellFrom_eq_self {previous : Option Token} {ts : List Token}
    (h : ∀ t ∈ Token.tellFrom previous ts, t.kind ≠ .indexBracket ∧ t.kind ≠ .arrayBracket) :
    Token.tellFrom previous ts = ts := by
  induction ts generalizing previous with
  | nil => rfl
  | cons t ts ih =>
    rw [Token.tellFrom_cons] at h ⊢
    obtain ⟨ht, hts⟩ := List.forall_mem_cons.1 h
    rw [ih hts, ← eq_of_told (Token.told_tellBracket previous t) ht]

variable {opener closer : Token} {elements later : List Token}

/-- The array that a run comes to, with the separators in it. -/
lemma Ahead.exists_array (h : Ahead s e (opener :: (elements ++ closer :: later)))
    (hrun : s.run = .ok e) (hrest : s.rest = '[' :: w) (hopener : opener.kind = .arrayBracket)
    (helements : ∀ t ∈ elements, t.kind = .int ∨ t.kind = .comma)
    (hcloser : closer.kind = .rbracket) (htext : closer.text = [']']) :
    ∃ inner rest, Coming s e ({ opener with kind := .lbracket } :: (inner ++ closer :: rest)) ∧
      IsArray { opener with kind := .lbracket } inner closer ∧ opener.start = s.pos ∧
      ∀ t ∈ elements, t ∈ inner := by
  obtain ⟨t, s', hnext, hreads, hline, htold, ts, previous, hcoming, hfilter⟩ :=
    h.exists_reads hrun hrest rfl (by simp)
  have hkind : t.kind = .lbracket := by
    rcases htold.kind_eq with ⟨-, hk⟩ | ⟨hk, -⟩
    · exact absurd (hk.symm.trans hopener) hreads.not_told.2
    · exact hk
  obtain rfl : t = { opener with kind := .lbracket } := by
    obtain ⟨kind, start, text⟩ := t
    simp only [Token.mk.injEq]
    exact ⟨hkind, htold.start_eq.symm, htold.text_eq.symm⟩
  -- The elements and the bracket that closes them, and the separators between them.
  obtain ⟨a, b, htell, ha, hb⟩ := List.filter_eq_append_iff.1 hfilter
  obtain ⟨gap, rest, rfl, hgap, -, -⟩ := List.filter_eq_cons_iff.1 hb
  have hkinds : ∀ u ∈ a ++ gap,
      u.kind = .int ∨ u.kind = .comma ∨ u.kind = .newline ∨ u.kind = .semi := by
    intro u hu
    cases hsep : isSeparator u.kind with
    | true =>
      rw [isSeparator, Bool.or_eq_true, beq_iff_eq, beq_iff_eq] at hsep
      exact .inr (.inr hsep)
    | false =>
      rcases List.mem_append.1 hu with hu | hu
      · have hmem : u ∈ elements := by
          rw [← ha]
          exact List.mem_filter.2 ⟨hu, by rw [hsep]; rfl⟩
        exact (helements u hmem).imp_right .inl
      · exact absurd (by rw [hsep]; rfl) (hgap u hu)
  rw [← List.append_assoc] at htell
  obtain ⟨us, vs, rfl, hus, hvs⟩ := Token.exists_of_tellFrom_eq_append htell
  obtain ⟨q, vs, rfl, hq, -⟩ := Token.exists_of_tellFrom_eq_cons hvs
  obtain rfl : q = closer :=
    eq_of_told (hq ▸ Token.told_tellBracket _ q) (by simp [hcloser])
  obtain rfl : us = a ++ gap := by
    rw [← hus]
    refine (tellFrom_eq_self fun u hu => ?_).symm
    rw [hus] at hu
    rcases hkinds u hu with hk | hk | hk | hk <;> rw [hk] <;> exact ⟨by decide, by decide⟩
  refine ⟨a ++ gap, vs, (hnext.coming hreads.recent_eq).trans hcoming, ?_, hreads.start_eq,
    fun u hu => ?_⟩
  · exact ⟨rfl, by simpa using hreads.spelled.punctuation [['[']] rfl, hkinds, hcloser, htext⟩
  · rw [← ha] at hu
    exact List.mem_append_left _ (List.mem_of_mem_filter hu)

/-! ## A run over a whole text -/

variable {source : Text}

lemma coming_of_run (h : run { rest := source } = .ok e) :
    Coming { rest := source } e e.recent.reverse := by
  refine ⟨(run_eq_ok_iff.1 h).1, ?_⟩
  rw [List.reverse_reverse]
  exact (List.append_nil _).symm

/-- Where a token of the tree has just been read, those after it are to come. -/
lemma exists_ahead {before : List Token} {last : Token} (hrun : run { rest := source } = .ok e)
    (h : (Token.tellBrackets e.recent.reverse).filter (fun t => !isSeparator t.kind)
      = before ++ last :: us) :
    ∃ s, Reaches { rest := source } s ∧ s.pos = last.stop ∧ Ahead s e us := by
  obtain ⟨a, b, htell, -, hb⟩ := List.filter_eq_append_iff.1 h
  obtain ⟨gap, rest, rfl, -, hlast, hrest⟩ := List.filter_eq_cons_iff.1 hb
  rw [← List.append_assoc] at htell
  obtain ⟨ts, vs, hraw, -, hvs⟩ := Token.exists_of_tellFrom_eq_append htell
  obtain ⟨q, vs, rfl, hq, hvs⟩ := Token.exists_of_tellFrom_eq_cons hvs
  have hcoming := coming_of_run hrun
  rw [hraw] at hcoming
  obtain ⟨s₁, s, hs₁, hnext, hreads, hcoming⟩ := hcoming.exists_split
  have htold : Told q last := hq ▸ Token.told_tellBracket _ q
  have hline : q.kind ≠ .newline := by
    intro hk
    rcases htold.kind_eq with ⟨-, hkind⟩ | ⟨hkind, -⟩
    · rw [hkind, hk] at hlast
      cases hlast
    · rw [hk] at hkind
      cases hkind
  exact ⟨s, hs₁.reaches.tail hnext, (hreads.pos_eq hline).trans htold.stop_eq.symm, vs, some q,
    hcoming, by rw [hvs, hrest]⟩

/-- A token that is no separator starts with a solid character. -/
lemma exists_isSolid (hrun : run { rest := source } = .ok e) (ht : t ∈ e.recent)
    (hkind : isSeparator t.kind = false) : ∃ d v, t.text = d :: v ∧ Scanner.isSolid d := by
  obtain ⟨before, after, hsplit⟩ := List.append_of_mem (List.mem_reverse.2 ht)
  have hcoming := coming_of_run hrun
  rw [hsplit] at hcoming
  obtain ⟨s₁, s, -, hnext, hreads, -⟩ := hcoming.exists_split
  obtain ⟨d, v, htext⟩ := List.exists_cons_of_ne_nil hreads.spelled.ne_nil
  obtain ⟨w, hw⟩ := hreads.isPrefix
  rw [htext, List.cons_append] at hw
  exact ⟨d, v, htext, hnext.isSolid hreads hkind hw.symm⟩

end Scanner

end TablePack
