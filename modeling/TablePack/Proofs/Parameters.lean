import Mathlib.Tactic
import TablePack.Proofs.Pieces

/-!
# Parameters and local variables

A list of parameters is read between the bars of a block, or between the parentheses of a method or
a lambda. Its items are names, names behind a splat, and groups in parentheses whose items are again
of these forms. Blanks, line breaks and comments may stand around every item.

Not every name of a list becomes a local variable. The names of the list itself do. Those of its
groups do in a block, but not those of the groups within its groups; in a method or a lambda, no
group counts. `reach` is the number of groups that a name may lie in.

* `Parameter`: an item of a list, its text, and its names with the number of groups around each;
* `Inside`: what the scanner remembers at a place in a list;
* `exists_item`, `exists_more`: the scanner reads an item, or all that follow one;
* `list_binds`: the local variables after a list, and how a slash after one of them is read.
-/

namespace TablePack

open Token (Kind Lexeme)
open Text (size isBlank isNameStart isNameChar)

/-! ## Lists of parameters -/

/-- Text that may stand around an item of a list: blanks, line breaks, plain or joined by a
backslash, and comments with the line breaks that end them. -/
inductive IsGap : Text → Prop
  | nil : IsGap []
  | blank {c : Char} {t : Text} : isBlank c → IsGap t → IsGap (c :: t)
  | newline {t : Text} : IsGap t → IsGap ('\n' :: t)
  | joined {b t : Text} : b = ['\n'] ∨ b = ['\r', '\n'] → IsGap t → IsGap ('\\' :: (b ++ t))
  | comment {l t : Text} : '\n' ∉ l → IsGap t → IsGap ('#' :: (l ++ '\n' :: t))

/-- A gap between two tokens. -/
structure Gap where
  text : Text := []
  isGap : IsGap text := by exact .nil

/-- A name that a local variable may have. -/
structure LocalName where
  first : Char
  more : Text := []
  starts : isNameStart first := by decide
  not_upper : first.isUpper = false := by decide
  continues : more.all isNameChar := by decide
  not_keyword : Keyword.ofText? (first :: more) = none := by decide
  /-- The marker that ends a program is no name. -/
  not_marker : first :: more ≠ "__END__".toList := by decide

/-- The text of a name. -/
def LocalName.text (n : LocalName) : Text := n.first :: n.more

/-- What may stand in front of a parameter. -/
inductive Mark where
  | plain
  | splat
  | doubleSplat
  | block
deriving DecidableEq

/-- The text of a mark. -/
def Mark.text : Mark → Text
  | plain => []
  | splat => ['*']
  | doubleSplat => ['*', '*']
  | block => ['&']

/-- An item of a list of parameters: a name, or a group of items in parentheses. -/
inductive Parameter where
  | name (before : Gap) (mark : Mark) (name : LocalName) (after : Gap)
  | group (before : Gap) (first : Parameter) (more : List Parameter) (after : Gap)

namespace Parameter

mutual

/-- The text of an item. -/
def text : Parameter → Text
  | name before mark n after => before.text ++ (mark.text ++ (n.text ++ after.text))
  | group before first more after =>
    before.text ++ '(' :: (first.text ++ (moreText more ++ ')' :: after.text))

/-- The text of the items that follow one, each behind a comma. -/
def moreText : List Parameter → Text
  | [] => []
  | item :: more => ',' :: (item.text ++ moreText more)

end

mutual

/-- The names of an item that lies in `level` groups, each with the number of groups around it. -/
def names (level : ℕ) : Parameter → List (ℕ × Text)
  | name _ _ n _ => [(level, n.text)]
  | group _ first more _ => first.names (level + 1) ++ moreNames (level + 1) more

/-- The names of some items that lie in `level` groups. -/
def moreNames (level : ℕ) : List Parameter → List (ℕ × Text)
  | [] => []
  | item :: more => item.names level ++ moreNames level more

end

/-- The text of a list, without its delimiters. -/
def listText (first : Parameter) (more : List Parameter) : Text := first.text ++ moreText more

/-- The names of a list, each with the number of groups around it. -/
def listNames (first : Parameter) (more : List Parameter) : List (ℕ × Text) :=
  first.names 0 ++ moreNames 0 more

end Parameter

namespace Parameters

/-- The number of groups that a name may lie in and still be found. -/
def reach : Ending → ℕ
  | .paren => 0
  | .pipe | .line => 1

/-- The names within reach. -/
def bound (ending : Ending) (names : List (ℕ × Text)) : List Text :=
  (names.filter fun n => n.1 ≤ reach ending).map Prod.snd

lemma mem_bound {ending : Ending} {names : List (ℕ × Text)} {x : Text} :
    x ∈ bound ending names ↔ ∃ level ≤ reach ending, (level, x) ∈ names := by
  simp [bound, and_comm]

lemma bound_append (ending : Ending) (names names' : List (ℕ × Text)) :
    bound ending (names ++ names') = bound ending names ++ bound ending names' := by
  simp [bound]

/-- An open list in which `level` groups are open. -/
def within (ending : Ending) (level : ℕ) (expecting : Bool) : Parameters :=
  ⟨ending, (start ending).depth + level, expecting⟩

/-- The names in `level` groups are parameters exactly if they are within reach. -/
lemma namesAt_eq (ending : Ending) (level : ℕ) :
    namesAt ending ((start ending).depth + level) = decide (level ≤ reach ending) := by
  rw [Bool.eq_iff_iff, decide_eq_true_eq]
  cases ending <;> simp [namesAt, start, reach]

lemma start_eq (ending : Ending) : start ending = within ending 0 (0 ≤ reach ending) := by
  cases ending <;> rfl

lemma track_lparen (ending : Ending) (level pos : ℕ) (expecting : Bool) (text : Text) :
    (within ending level expecting).track ⟨.lparen, pos, text⟩
      = some (within ending (level + 1) (level + 1 ≤ reach ending)) := by
  rw [← namesAt_eq]
  rfl

lemma track_comma (ending : Ending) (level pos : ℕ) (expecting : Bool) (text : Text) :
    (within ending level expecting).track ⟨.comma, pos, text⟩
      = some (within ending level (level ≤ reach ending)) := by
  rw [← namesAt_eq]
  rfl

/-- A parenthesis that closes a group does not close the list. -/
lemma track_rparen (ending : Ending) (level pos : ℕ) (expecting : Bool) (text : Text) :
    (within ending (level + 1) expecting).track ⟨.rparen, pos, text⟩
      = some (within ending level false) := by
  cases ending <;> simp [track, within, start, Nat.add_comm]

/-- The pairs of tokens, the newest first, that may open a list. -/
def openings : List (Kind × Kind) :=
  [(.lparen, .op), (.lparen, .ident), (.pipe, .lbrace), (.pipe, .keyword .do_)]

lemma opened?_eq_none {t u : Token} {older : List Token} (h : (t.kind, u.kind) ∉ openings) :
    opened? (t :: u :: older) = none := by
  unfold opened?
  split
  all_goals simp_all [openings]

end Parameters

/-! ## Names -/

namespace LocalName

/-- The characters that may follow a name in a list. -/
def stops : List Char := [' ', '\t', '\r', '\x0b', '\x0c', '\n', '\\', '#', ',', ')', '|']

/-- A text at which a name ends. -/
def Stops (t : Text) : Prop := ∃ d ∈ stops, t.head? = some d

lemma Stops.gap {g t : Text} (ht : Stops t) (hg : IsGap g) : Stops (g ++ t) := by
  cases hg with
  | nil => exact ht
  | @blank c g hc _ =>
    refine ⟨c, ?_, rfl⟩
    simp only [isBlank, Bool.or_eq_true, beq_iff_eq] at hc
    rcases hc with (((rfl | rfl) | rfl) | rfl) | rfl <;> decide
  | newline _ => exact ⟨'\n', by decide, rfl⟩
  | joined _ _ => exact ⟨'\\', by decide, rfl⟩
  | comment _ _ => exact ⟨'#', by decide, rfl⟩

lemma Stops.head {t : Text} (ht : Stops t) :
    ∀ d ∈ t.head?, isNameChar d = false ∧ d ≠ '?' ∧ d ≠ '!' ∧ d ≠ '=' := by
  have hstops : ∀ d ∈ stops, isNameChar d = false ∧ d ≠ '?' ∧ d ≠ '!' ∧ d ≠ '=' :=
    Text.forall_mem_of_all (by decide)
  obtain ⟨d, hd, hhead⟩ := ht
  intro d' hd'
  rw [hhead] at hd'
  cases hd'
  exact hstops d hd

lemma isNameChar_of_mem (n : LocalName) : ∀ c ∈ n.text, isNameChar c := by
  intro c hc
  rcases List.mem_cons.1 hc with rfl | hc
  · simp [isNameChar, n.starts]
  · exact List.all_eq_true.1 n.continues c hc

/-- A line that is the marker that ends a program holds nothing else but a carriage return. -/
lemma exists_of_marker {t : Text}
    (h : Text.withoutReturn (Text.line t) = "__END__".toList) :
    ∃ v, t = "__END__".toList ++ v ∧ ∀ d ∈ v.head?, isNameChar d = false := by
  obtain ⟨-, hcases⟩ := Text.line_cases t
  have hline : Text.line t = "__END__".toList ∨ Text.line t = "__END__".toList ++ ['\r'] := by
    rw [Text.withoutReturn] at h
    split_ifs at h with hlast
    · right
      rw [← h]
      exact (List.dropLast_append_getLast? _ hlast).symm
    · exact .inl h
  rcases hline with hline | hline <;> rw [hline] at hcases <;> rcases hcases with ⟨ht, -⟩ | ht
  · exact ⟨[], by simpa using ht, by simp⟩
  · exact ⟨_, ht, by simp; decide⟩
  · exact ⟨['\r'], ht, by simp; decide⟩
  · exact ⟨_, by rw [ht, List.append_assoc], by simp; decide⟩

/-- A line that starts with a name is not the marker that ends a program. -/
lemma line_ne (n : LocalName) {t : Text} (ht : Stops t) :
    Text.withoutReturn (Text.line (n.text ++ t)) ≠ "__END__".toList := by
  intro h
  obtain ⟨v, hv, hhead⟩ := exists_of_marker h
  -- the name and the marker are both the longest run of name characters at the start
  have hname : (n.text ++ t).takeWhile isNameChar = n.text :=
    Text.takeWhile_exact n.isNameChar_of_mem fun d hd => (ht.head d hd).1
  have hmarker : ("__END__".toList ++ v).takeWhile isNameChar = "__END__".toList :=
    Text.takeWhile_exact (Text.forall_mem_of_all (by decide)) hhead
  rw [← hv, hname] at hmarker
  exact n.not_marker hmarker

end LocalName

/-! ## Reading part of a list -/

namespace Scanner

open Parameters (Ending within reach bound)

/-- The places in a list of parameters. -/
inductive Place where
  /-- In front of an item. -/
  | item
  /-- Between a mark and its name. -/
  | marked
  /-- Behind an item. -/
  | done

/-- The kinds of the newest token at a place. -/
def Place.kinds : Place → List Kind
  | item => [.lparen, .pipe, .comma, .newline]
  | marked => [.op]
  | done => [.ident, .rparen, .newline]

/-- The scanner is at a place in an open list. -/
structure Inside (place : Place) (p : Parameters) (s : Scanner) : Prop where
  params_eq : s.params = some p
  exists_recent : ∃ t older, s.recent = t :: older ∧ t.kind ∈ place.kinds ∧ t.text ≠ "=>".toList

/-- The scanner comes from one state to another and binds the given names on its way. -/
structure Binds (s : Scanner) (names : List Text) (s' : Scanner) : Prop where
  reaches : Reaches s s'
  pending_eq : s'.pending = s.pending
  mem_locals : ∀ x, x ∈ s'.locals ↔ x ∈ s.locals ∨ x ∈ names

variable {s s₁ s₂ : Scanner} {names names' : List Text} {place : Place} {p : Parameters}

lemma Binds.trans (h : Binds s names s₁) (h' : Binds s₁ names' s₂) :
    Binds s (names ++ names') s₂ where
  reaches := h.reaches.trans h'.reaches
  pending_eq := h'.pending_eq.trans h.pending_eq
  mem_locals x := by rw [h'.mem_locals, h.mem_locals, List.mem_append, or_assoc]

lemma binds_of_next (hnext : Next s s₁) (hpending : s₁.pending = s.pending)
    (hlocals : s₁.locals = s.locals) : Binds s [] s₁ :=
  ⟨.single hnext, hpending, fun x => by simp [hlocals]⟩

lemma Place.kinds_ne (place : Place) :
    ∀ k ∈ place.kinds, k ≠ .dot ∧ k ≠ .keyword .def_ ∧ k ≠ .keyword .for_ := by
  cases place <;> decide

/-- Nothing but an expected parameter is bound inside a list. -/
lemma Inside.context (h : Inside place p s) :
    Token.inDefName s.recent = false ∧ s.bindsWord .ident = p.expecting := by
  obtain ⟨t, older, hrecent, hkind, htext⟩ := h.exists_recent
  obtain ⟨hdot, hdef, hfor⟩ := place.kinds_ne t.kind hkind
  have hname : Token.inDefName s.recent = false := by
    simp [Token.inDefName, Token.kindAt?, hrecent, hdot, hdef]
  refine ⟨hname, ?_⟩
  have hrescue : Token.inRescue (t :: older) = false := by
    simp only [Token.inRescue, Bool.and_eq_false_iff, beq_eq_false_iff_ne]
    exact .inl htext
  have hkindAt : Token.kindAt? s.recent 0 = some t.kind := by rw [hrecent]; rfl
  rw [bindsWord, hname, hkindAt, h.params_eq, hrecent, hrescue,
    bne_iff_ne.2 (Option.some_injective _ |>.ne hdot),
    beq_eq_false_iff_ne.2 (Option.some_injective _ |>.ne hfor)]
  simp

/-! ## Gaps -/

lemma Inside.advance (h : Inside place p s) (n : ℕ) : Inside place p (s.advance n) :=
  ⟨h.params_eq, h.exists_recent⟩

/-- A line break leaves the list open. -/
lemma Inside.newline (h : Inside place p s) (hplace : Kind.newline ∈ place.kinds)
    (hending : p.ending ≠ .line) {t : Text} (hpending : s.pending = [])
    (hrest : s.rest = '\n' :: t) : ∃ s', Binds s [] s' ∧ Inside place p s' ∧ s'.rest = t := by
  have hbodies : Heredoc.bodiesLength s.pending (s.rest.drop 1) = .ok 0 := by
    rw [hpending]
    rfl
  have hnext : Next s { (s.emit ⟨.newline, 0⟩).advance 0 with pending := [] } :=
    next_of_move hrest (m := .lineBreak) rfl (newline_of_bodies hbodies)
  refine ⟨_, binds_of_next hnext hpending.symm rfl, ⟨?_, ?_⟩, ?_⟩
  · change s.params.bind _ = _
    rw [h.params_eq]
    simp [Parameters.track, hending]
  · refine ⟨⟨.newline, s.pos, s.rest.take 1⟩, s.recent, rfl, hplace, ?_⟩
    simp [hrest]
  · simp [Scanner.advance, emit, hrest]

/-- A comment leaves the list as it is. -/
lemma Inside.comment (h : Inside place p s) {l t : Text} (hl : '\n' ∉ l)
    (hrest : s.rest = '#' :: (l ++ '\n' :: t)) :
    ∃ s', Binds s [] s' ∧ Inside place p s' ∧ s'.rest = '\n' :: t := by
  have hlexeme : Lexeme.comment (l ++ '\n' :: t) = ⟨.comment, l.length⟩ := by
    rw [Lexeme.comment, Text.span_line hl rfl]
  have hnext : Next s (s.emit ⟨.comment, l.length⟩) :=
    next_of_move hrest (m := .lexeme ⟨.comment, l.length⟩) (by rw [← hlexeme]; rfl) rfl
  refine ⟨_, binds_of_next hnext rfl rfl, ⟨?_, h.exists_recent⟩, ?_⟩
  · change s.params.bind _ = _
    rw [h.params_eq]
    rfl
  · rw [rest_emit, hrest, List.drop_succ_cons, List.drop_left]

/-- The scanner passes over a gap. -/
lemma Inside.gap (hplace : Kind.newline ∈ place.kinds) (hending : p.ending ≠ .line) {g t : Text}
    (hg : IsGap g) (h : Inside place p s) (hpending : '\n' ∈ g → s.pending = [])
    (hrest : s.rest = g ++ t) : ∃ s', Binds s [] s' ∧ Inside place p s' ∧ s'.rest = t := by
  induction hg generalizing s with
  | nil => exact ⟨s, ⟨.refl, rfl, by simp⟩, h, hrest⟩
  | @blank c g hc _ ih =>
    have hm : choose s.view s.pos c (g ++ t) = .ok (.skip 1) := by rw [choose, if_pos hc]
    have hread : Binds s [] (s.advance 1) := binds_of_next (next_of_move hrest hm rfl) rfl rfl
    obtain ⟨s', hbinds, hinside, hend⟩ := ih (h.advance 1)
      (fun hmem => hpending (List.mem_cons_of_mem _ hmem)) (by rw [rest_advance, hrest]; rfl)
    exact ⟨s', hread.trans hbinds, hinside, hend⟩
  | @newline g _ ih =>
    have hnone := hpending List.mem_cons_self
    obtain ⟨s₁, hread, hinside₁, hrest₁⟩ := h.newline hplace hending hnone hrest
    obtain ⟨s', hbinds, hinside, hend⟩ :=
      ih hinside₁ (fun _ => hread.pending_eq.trans hnone) hrest₁
    exact ⟨s', hread.trans hbinds, hinside, hend⟩
  | @joined b g hb _ ih =>
    have hm : choose s.view s.pos '\\' (b ++ (g ++ t)) = .ok (.skip (b.length + 1)) := by
      rcases hb with rfl | rfl <;> rfl
    rw [List.cons_append, List.append_assoc] at hrest
    have hread : Binds s [] (s.advance (b.length + 1)) :=
      binds_of_next (next_of_move hrest hm rfl) rfl rfl
    obtain ⟨s', hbinds, hinside, hend⟩ := ih (h.advance _)
      (fun hmem => hpending (by simp [hmem]))
      (by rw [rest_advance, hrest, List.drop_succ_cons, List.drop_left])
    exact ⟨s', hread.trans hbinds, hinside, hend⟩
  | @comment l g hl _ ih =>
    have hnone := hpending (by simp)
    obtain ⟨s₁, hread₁, hinside₁, hrest₁⟩ := h.comment hl (t := g ++ t) (by simpa using hrest)
    obtain ⟨s₂, hread₂, hinside₂, hrest₂⟩ :=
      hinside₁.newline hplace hending (hread₁.pending_eq.trans hnone) hrest₁
    have hread := hread₁.trans hread₂
    obtain ⟨s', hbinds, hinside, hend⟩ :=
      ih hinside₂ (fun _ => hread.pending_eq.trans hnone) hrest₂
    exact ⟨s', hread.trans hbinds, hinside, hend⟩

/-! ## Signs and names -/

/-- Reading a sign that assigns nothing. -/
lemma exists_sign {c : Char} {w t : Text} {kind : Kind} (hc : c ∈ signChars) (hne : c ≠ '=')
    (hname : Token.inDefName s.recent = false)
    (hfind : Sign.find? (c :: (w ++ t)) = some ⟨c :: w, kind, false⟩) (hkind : kind ≠ .comment)
    (hrest : s.rest = c :: (w ++ t)) :
    ∃ s', Binds s [] s' ∧ s'.rest = t ∧ s'.recent = ⟨kind, s.pos, c :: w⟩ :: s.recent ∧
      s'.params = (Parameters.opened? (⟨kind, s.pos, c :: w⟩ :: s.recent)
        <|> s.params.bind (·.track ⟨kind, s.pos, c :: w⟩)) := by
  have htake : s.rest.take (w.length + 1) = c :: w := by
    rw [hrest, List.take_succ_cons, List.take_left]
  have hnext : Next s (s.readSign ⟨c :: w, kind, false⟩) :=
    next_of_move hrest (choose_sign s.pos hc hname (fun h => absurd h hne) hfind) rfl
  have hrecent : (s.readSign ⟨c :: w, kind, false⟩).recent
      = ⟨kind, s.pos, c :: w⟩ :: s.recent := by
    change (if kind = .comment then s.recent
      else ⟨kind, s.pos, s.rest.take (w.length + 1)⟩ :: s.recent) = _
    rw [if_neg hkind, htake]
  refine ⟨_, binds_of_next hnext rfl rfl, ?_, hrecent, ?_⟩
  · change s.rest.drop (w.length + 1) = t
    rw [hrest, List.drop_succ_cons, List.drop_left]
  · change (Parameters.opened? (s.readSign ⟨c :: w, kind, false⟩).recent
      <|> s.params.bind (·.track ⟨kind, s.pos, s.rest.take (w.length + 1)⟩)) = _
    rw [hrecent, htake]

/-- A sign in a list that opens no other list. -/
lemma Inside.sign (h : Inside place p s) {c : Char} {w t : Text} {kind : Kind}
    (hc : c ∈ signChars) (hne : c ≠ '=')
    (hfind : Sign.find? (c :: (w ++ t)) = some ⟨c :: w, kind, false⟩) (hkind : kind ≠ .comment)
    (hopens : ∀ k ∈ place.kinds, (kind, k) ∉ Parameters.openings)
    (hrest : s.rest = c :: (w ++ t)) :
    ∃ s', Binds s [] s' ∧ s'.rest = t ∧ s'.recent = ⟨kind, s.pos, c :: w⟩ :: s.recent ∧
      s'.params = p.track ⟨kind, s.pos, c :: w⟩ := by
  obtain ⟨s', hbinds, hend, hrecent, hparams⟩ :=
    exists_sign hc hne h.context.1 hfind hkind hrest
  refine ⟨s', hbinds, hend, hrecent, ?_⟩
  obtain ⟨u, older, hu, hmem, -⟩ := h.exists_recent
  rw [hparams, hu, Parameters.opened?_eq_none (hopens u.kind hmem), h.params_eq]
  rfl

/-- A sign in a list after which the list is still open. -/
lemma Inside.moves (h : Inside place p s) (place' : Place) (p' : Parameters) {c : Char}
    {w t : Text} {kind : Kind} (hc : c ∈ signChars) (hne : c ≠ '=')
    (hfind : Sign.find? (c :: (w ++ t)) = some ⟨c :: w, kind, false⟩) (hkind : kind ≠ .comment)
    (hopens : ∀ k ∈ place.kinds, (kind, k) ∉ Parameters.openings) (hplace : kind ∈ place'.kinds)
    (htrack : ∀ pos, p.track ⟨kind, pos, c :: w⟩ = some p') (hrest : s.rest = c :: (w ++ t)) :
    ∃ s', Binds s [] s' ∧ Inside place' p' s' ∧ s'.rest = t := by
  obtain ⟨s', hbinds, hend, hrecent, hparams⟩ := h.sign hc hne hfind hkind hopens hrest
  refine ⟨s', hbinds, ⟨hparams.trans (htrack s.pos), _, _, hrecent, hplace, ?_⟩, hend⟩
  rintro htext
  exact hne (List.cons.inj htext).1

lemma mem_locals_bindNames (s : Scanner) (names : List Text) (x : Text) :
    x ∈ (s.bindNames names).locals ↔ x ∈ s.locals ∨ x ∈ names := by
  rw [bindNames]
  generalize s.locals = known
  induction names generalizing known with
  | nil => simp
  | cons name names ih =>
    rw [List.foldl_cons, ih, List.mem_insert_iff, List.mem_cons]
    tauto

/-- The state after a name, wherever it stands. -/
structure Named (n : LocalName) (s s' : Scanner) : Prop where
  next : Next s s'
  pos_eq : s'.pos = s.pos + size n.text
  tokens_eq : s'.tokens = ⟨.ident, s.pos, n.text⟩ :: s.tokens
  recent_eq : s'.recent = ⟨.ident, s.pos, n.text⟩ :: s.recent
  pending_eq : s'.pending = s.pending
  mem_locals : ∀ x, x ∈ s'.locals ↔ x ∈ s.locals ∨ x ∈ if s.bindsWord .ident then [n.text] else []
  params_eq : Token.inDefName s.recent = false →
    s'.params = s.params.bind (·.track ⟨.ident, s.pos, n.text⟩)

lemma wordExtent_name (s : Scanner) (n : LocalName) {t : Text} (ht : LocalName.Stops t) :
    s.wordExtent (n.more ++ t) = n.more.length := by
  have hlength : wordLength (n.more ++ t) = n.more.length :=
    wordLength_eq (List.all_eq_true.1 n.continues) fun d hd => by simp [ht.head d hd]
  have hsetter : Lexeme.startsSetter t = false := by
    unfold Lexeme.startsSetter
    split
    · exact absurd rfl (ht.head '=' rfl).2.2.2
    · rfl
  rw [wordExtent, hlength, List.drop_left, hsetter, Bool.and_false, if_neg (by simp)]

lemma wordKind_name (s : Scanner) (n : LocalName) (t : Text) : s.wordKind n.text t = .ident := by
  have hupper : n.text.head?.any Char.isUpper = false := n.not_upper
  have hkeyword : Keyword.ofText? n.text = none := n.not_keyword
  rw [wordKind, hupper, hkeyword]
  simp

lemma exists_named (n : LocalName) {t : Text} (ht : LocalName.Stops t)
    (hrest : s.rest = n.text ++ t) : ∃ s', Named n s s' ∧ s'.rest = t := by
  have hm : choose s.view s.pos n.first (n.more ++ t) = .ok .word :=
    choose_nameStart s.pos n.starts fun _ _ => n.line_ne ht
  have htake : s.rest.take (n.more.length + 1) = n.text := by
    rw [hrest]
    exact List.take_left' rfl
  have hextent := wordExtent_name s n ht
  have hkind : s.wordKind (n.first :: n.more) t = .ident := wordKind_name s n t
  have hword : s.word n.first (n.more ++ t)
      = { (s.emit ⟨.ident, n.more.length⟩).bindNames
            (if s.bindsWord .ident then [n.text] else []) with
          params := if s.namesMethod (n.more ++ t) && startsLineParams t then some (.start .line)
            else (s.emit ⟨.ident, n.more.length⟩).params } := by
    rw [word]
    simp only [hextent, List.take_left, List.drop_left, hkind]
    rfl
  have hnext : Next s (s.word n.first (n.more ++ t)) := next_of_move hrest hm rfl
  refine ⟨_, ⟨hnext, ?_, ?_, ?_, ?_, ?_, ?_⟩, ?_⟩ <;> rw [hword]
  · change s.pos + size (s.rest.take (n.more.length + 1)) = _
    rw [htake]
  · change ⟨.ident, s.pos, s.rest.take (n.more.length + 1)⟩ :: s.tokens = _
    rw [htake]
  · change ⟨.ident, s.pos, s.rest.take (n.more.length + 1)⟩ :: s.recent = _
    rw [htake]
  · rfl
  · exact mem_locals_bindNames (s.emit ⟨.ident, n.more.length⟩) _
  · intro hname
    have hmethod : s.namesMethod (n.more ++ t) = false := by
      rw [namesMethod, hname, Bool.false_and]
    simp only [hmethod, Bool.false_and, Bool.false_eq_true, if_false]
    change s.params.bind (·.track ⟨.ident, s.pos, s.rest.take (n.more.length + 1)⟩) = _
    rw [htake]
  · change s.rest.drop (n.more.length + 1) = t
    rw [hrest]
    exact List.drop_left' rfl

/-- A name in a list is bound if a parameter is expected. -/
lemma Inside.name (h : Inside place p s) (n : LocalName) {t : Text} (ht : LocalName.Stops t)
    (hrest : s.rest = n.text ++ t) :
    ∃ s', Binds s (if p.expecting then [n.text] else []) s' ∧
      Inside .done { p with expecting := false } s' ∧ s'.rest = t := by
  obtain ⟨s', hnamed, hend⟩ := exists_named n ht hrest
  obtain ⟨hname, hbinds⟩ := h.context
  refine ⟨s', ⟨.single hnamed.next, hnamed.pending_eq, ?_⟩, ⟨?_, ?_⟩, hend⟩
  · rw [← hbinds]
    exact hnamed.mem_locals
  · rw [hnamed.params_eq hname, h.params_eq]
    rfl
  · refine ⟨_, _, hnamed.recent_eq, List.mem_cons_self, ?_⟩
    intro htext
    have hfirst : n.first = '=' := (List.cons.inj htext).1
    have hstarts := n.starts
    rw [hfirst] at hstarts
    exact absurd hstarts (by decide)

/-- A mark keeps a parameter expected. -/
lemma Inside.mark (h : Inside .item p s) (mark : Mark) (n : LocalName) {t : Text}
    (hrest : s.rest = mark.text ++ (n.text ++ t)) :
    ∃ s' place', Binds s [] s' ∧ Inside place' p s' ∧ s'.rest = n.text ++ t := by
  have hne : ∀ d : Char, isNameStart d = false → d ≠ n.first := by
    rintro d hd rfl
    rw [n.starts] at hd
    cases hd
  have hstar := hne '*' (by decide)
  have hequals := hne '=' (by decide)
  have hamp := hne '&' (by decide)
  have hdot := hne '.' (by decide)
  have hopens : ∀ k ∈ Place.item.kinds, (Kind.op, k) ∉ Parameters.openings := by decide
  cases mark with
  | plain => exact ⟨s, .item, ⟨.refl, rfl, by simp⟩, h, hrest⟩
  | splat =>
    obtain ⟨s', hread⟩ := h.moves (w := []) .marked p (by decide) (by decide)
      (by simp [Sign.find?, Sign.table, LocalName.text, hstar, hequals]) (by decide) hopens
      (by decide) (fun _ => rfl) hrest
    exact ⟨s', .marked, hread⟩
  | doubleSplat =>
    obtain ⟨s', hread⟩ := h.moves (w := ['*']) .marked p (by decide)
      (by decide) (by simp [Sign.find?, Sign.table, LocalName.text, hequals]) (by decide) hopens
      (by decide) (fun _ => rfl) hrest
    exact ⟨s', .marked, hread⟩
  | block =>
    obtain ⟨s', hread⟩ := h.moves (w := []) .marked p (by decide) (by decide)
      (by simp [Sign.find?, Sign.table, LocalName.text, hamp, hequals, hdot]) (by decide) hopens
      (by decide) (fun _ => rfl) hrest
    exact ⟨s', .marked, hread⟩

/-! ## Items -/

lemma stops_moreText {more : List Parameter} {t : Text} (ht : LocalName.Stops t) :
    LocalName.Stops (Parameter.moreText more ++ t) := by
  cases more with
  | nil => exact ht
  | cons item more => exact ⟨',', by decide, rfl⟩

variable {ending : Ending}

/-- A name, with what stands around it. -/
lemma exists_name (hending : ending ≠ .line) (level : ℕ) (before after : Gap) (mark : Mark)
    (n : LocalName) {t : Text}
    (h : Inside .item (within ending level (level ≤ reach ending)) s) (ht : LocalName.Stops t)
    (hpending : '\n' ∈ (Parameter.name before mark n after).text → s.pending = [])
    (hrest : s.rest = (Parameter.name before mark n after).text ++ t) :
    ∃ s', Binds s (bound ending ((Parameter.name before mark n after).names level)) s' ∧
      Inside .done (within ending level false) s' ∧ s'.rest = t := by
  simp only [Parameter.text, List.append_assoc, List.mem_append] at hpending hrest
  obtain ⟨s₁, hread₁, hinside₁, hrest₁⟩ :=
    h.gap (by decide) hending before.isGap (fun hmem => hpending (.inl hmem)) hrest
  obtain ⟨s₂, place, hread₂, hinside₂, hrest₂⟩ := hinside₁.mark mark n hrest₁
  obtain ⟨s₃, hread₃, hinside₃, hrest₃⟩ := hinside₂.name n (ht.gap after.isGap) hrest₂
  have hread := (hread₁.trans hread₂).trans hread₃
  obtain ⟨s₄, hread₄, hinside₄, hrest₄⟩ :=
    hinside₃.gap (by decide) hending after.isGap
      (fun hmem => hread.pending_eq.trans (hpending (.inr (.inr (.inr hmem))))) hrest₃
  refine ⟨s₄, ?_, hinside₄, hrest₄⟩
  convert hread.trans hread₄ using 1
  by_cases hlevel : level ≤ reach ending <;> simp [bound, Parameter.names, within, hlevel]

mutual

/-- The scanner reads an item and binds its names within reach. -/
lemma exists_item (hending : ending ≠ .line) (level : ℕ) : ∀ (item : Parameter) {s : Scanner}
    {t : Text}, Inside .item (within ending level (level ≤ reach ending)) s → LocalName.Stops t →
    ('\n' ∈ item.text → s.pending = []) → s.rest = item.text ++ t →
    ∃ s', Binds s (bound ending (item.names level)) s' ∧
      Inside .done (within ending level false) s' ∧ s'.rest = t
  | .name before mark n after, s, t, h, ht, hpending, hrest =>
    exists_name hending level before after mark n h ht hpending hrest
  | .group before first more after, s, t, h, ht, hpending, hrest => by
    simp only [Parameter.text, List.append_assoc, List.cons_append, List.mem_append,
      List.mem_cons] at hpending hrest
    obtain ⟨s₁, hread₁, hinside₁, hrest₁⟩ :=
      h.gap (by decide) hending before.isGap (fun hmem => hpending (.inl hmem)) hrest
    obtain ⟨s₂, hread₂, hinside₂, hrest₂⟩ := hinside₁.moves (w := []) .item
      (within ending (level + 1) (level + 1 ≤ reach ending)) (by decide) (by decide) rfl
      (by decide) (by decide) (by decide) (fun _ => Parameters.track_lparen ..) hrest₁
    have hread := hread₁.trans hread₂
    have hclose : LocalName.Stops (')' :: (after.text ++ t)) := ⟨')', by decide, rfl⟩
    obtain ⟨s₃, hread₃, hinside₃, hrest₃⟩ := exists_item hending (level + 1) first hinside₂
      (stops_moreText hclose)
      (fun hmem => hread.pending_eq.trans (hpending (by simp [hmem]))) hrest₂
    have hread := hread.trans hread₃
    obtain ⟨s₄, hread₄, hinside₄, hrest₄⟩ := exists_more hending (level + 1) more hinside₃ hclose
      (fun hmem => hread.pending_eq.trans (hpending (by simp [hmem]))) hrest₃
    have hread := hread.trans hread₄
    -- the parenthesis closes the group and not the list, which has one more open
    obtain ⟨s₅, hread₅, hinside₅, hrest₅⟩ := hinside₄.moves (w := []) .done
      (within ending level false) (by decide) (by decide) rfl (by decide) (by decide) (by decide)
      (fun _ => Parameters.track_rparen ..) hrest₄
    have hread := hread.trans hread₅
    obtain ⟨s₆, hread₆, hinside₆, hrest₆⟩ :=
      hinside₅.gap (by decide) hending after.isGap
        (fun hmem => hread.pending_eq.trans (hpending (by simp [hmem]))) hrest₅
    refine ⟨s₆, ?_, hinside₆, hrest₆⟩
    convert hread.trans hread₆ using 1
    simp [Parameter.names, Parameters.bound_append]

/-- The scanner reads all items that follow one. -/
lemma exists_more (hending : ending ≠ .line) (level : ℕ) : ∀ (more : List Parameter) {s : Scanner}
    {t : Text}, Inside .done (within ending level false) s → LocalName.Stops t →
    ('\n' ∈ Parameter.moreText more → s.pending = []) → s.rest = Parameter.moreText more ++ t →
    ∃ s', Binds s (bound ending (Parameter.moreNames level more)) s' ∧
      Inside .done (within ending level false) s' ∧ s'.rest = t
  | [], s, t, h, _, _, hrest => ⟨s, ⟨.refl, rfl, by simp [Parameter.moreNames, bound]⟩, h, hrest⟩
  | item :: more, s, t, h, ht, hpending, hrest => by
    simp only [Parameter.moreText, List.append_assoc, List.cons_append, List.mem_append,
      List.mem_cons] at hpending hrest
    obtain ⟨s₁, hread₁, hinside₁, hrest₁⟩ := h.moves (w := []) .item
      (within ending level (level ≤ reach ending)) (by decide) (by decide) rfl (by decide)
      (by decide) (by decide) (fun _ => Parameters.track_comma ..) hrest
    obtain ⟨s₂, hread₂, hinside₂, hrest₂⟩ := exists_item hending level item hinside₁
      (stops_moreText ht) (fun hmem => hread₁.pending_eq.trans (hpending (by simp [hmem]))) hrest₁
    have hread := hread₁.trans hread₂
    obtain ⟨s₃, hread₃, hinside₃, hrest₃⟩ := exists_more hending level more hinside₂ ht
      (fun hmem => hread.pending_eq.trans (hpending (by simp [hmem]))) hrest₂
    refine ⟨s₃, ?_, hinside₃, hrest₃⟩
    convert hread.trans hread₃ using 1
    simp [Parameter.moreNames, Parameters.bound_append]

end

/-! ## Whole lists -/

/-- Where a character opens a list of parameters: a bar at the start of a block, a parenthesis
behind the name of a method that is being defined, or one behind an arrow. The name of the method
may not start with a capital letter, since such a word is a constant. -/
inductive Opens : List Token → Char → Ending → Prop
  | block {t : Token} {older : List Token} : t.kind = .lbrace ∨ t.kind = .keyword .do_ →
      Opens (t :: older) '|' .pipe
  | method {name word : Token} {older : List Token} : name.kind = .ident →
      word.kind = .keyword .def_ → Opens (name :: word :: older) '(' .paren
  | singleton {name dot receiver word : Token} {older : List Token} : name.kind = .ident →
      dot.kind = .dot → word.kind = .keyword .def_ →
      Opens (name :: dot :: receiver :: word :: older) '(' .paren
  | lambda {arrow : Token} {older : List Token} : arrow.kind = .op → arrow.text = "->".toList →
      Opens (arrow :: older) '(' .paren

/-- A bar that no other bar and no assignment sign follows is read alone. -/
lemma find?_bar {t : Text} (ht : t.head? ≠ some '|' ∧ t.head? ≠ some '=') :
    Sign.find? ('|' :: t) = some ⟨['|'], .pipe, false⟩ := by
  cases t with
  | nil => rfl
  | cons d t =>
    have hbar : '|' ≠ d := by
      rintro rfl
      exact ht.1 rfl
    have hequals : '=' ≠ d := by
      rintro rfl
      exact ht.2 rfl
    simp [Sign.find?, Sign.table, hbar, hequals]

lemma head?_gap {g t : Text} {d : Char} (hd : d = '|' ∨ d = '=') (hg : IsGap g)
    (ht : t.head? ≠ some d) : (g ++ t).head? ≠ some d := by
  cases hg with
  | nil => exact ht
  | @blank c g hc _ =>
    rintro ⟨⟩
    rcases hd with rfl | rfl <;> exact absurd hc (by decide)
  | newline _ => rcases hd with rfl | rfl <;> simp
  | joined _ _ => rcases hd with rfl | rfl <;> simp
  | comment _ _ => rcases hd with rfl | rfl <;> simp

/-- No item starts with a bar or an assignment sign. -/
lemma head?_item {d : Char} (hd : d = '|' ∨ d = '=') (item : Parameter) (t : Text) :
    (item.text ++ t).head? ≠ some d := by
  cases item with
  | name before mark n after =>
    rw [Parameter.text, List.append_assoc]
    apply head?_gap hd before.isGap
    cases mark with
    | plain =>
      rintro ⟨⟩
      have hstarts := n.starts
      rcases hd with hd | hd <;> rw [hd] at hstarts <;> exact absurd hstarts (by decide)
    | splat => rcases hd with rfl | rfl <;> simp [Mark.text]
    | doubleSplat => rcases hd with rfl | rfl <;> simp [Mark.text]
    | block => rcases hd with rfl | rfl <;> simp [Mark.text]
  | group before first more after =>
    rw [Parameter.text, List.append_assoc]
    apply head?_gap hd before.isGap
    rcases hd with rfl | rfl <;> simp

lemma Opens.delimiter {recent : List Token} {opener : Char} (h : Opens recent opener ending) :
    (opener = '|' ∧ ending = .pipe) ∨ (opener = '(' ∧ ending = .paren) := by
  cases h with
  | block _ => exact .inl ⟨rfl, rfl⟩
  | _ => exact .inr ⟨rfl, rfl⟩

lemma Opens.inDefName_eq {recent : List Token} {opener : Char} (h : Opens recent opener ending) :
    Token.inDefName recent = false := by
  cases h with
  | block hkind => rcases hkind with hkind | hkind <;> simp [Token.inDefName, Token.kindAt?, hkind]
  | method hname _ => simp [Token.inDefName, Token.kindAt?, hname]
  | singleton hname _ _ => simp [Token.inDefName, Token.kindAt?, hname]
  | lambda harrow _ => simp [Token.inDefName, Token.kindAt?, harrow]

lemma Opens.opened?_eq {recent : List Token} {opener : Char} (h : Opens recent opener ending)
    (pos : ℕ) :
    Parameters.opened? (⟨if opener = '|' then .pipe else .lparen, pos, [opener]⟩ :: recent)
      = some (.start ending) := by
  cases h with
  | block hkind => rcases hkind with hkind | hkind <;> simp [Parameters.opened?, hkind]
  | method hname hword =>
    simp [Parameters.opened?, hname, Token.namesDef, Token.kindAt?, hword]
  | singleton hname hdot hword =>
    simp [Parameters.opened?, hname, Token.namesDef, Token.kindAt?, hdot, hword]
  | lambda harrow htext => simp [Parameters.opened?, harrow, htext]

/-- The sign that opens a list. -/
lemma Opens.exists_inside {opener : Char} (hopens : Opens s.recent opener ending)
    (item : Parameter) {t : Text} (hrest : s.rest = opener :: (item.text ++ t)) :
    ∃ s', Binds s [] s' ∧ Inside .item (within ending 0 (0 ≤ reach ending)) s' ∧
      s'.rest = item.text ++ t := by
  have hopened := hopens.opened?_eq s.pos
  have hfind : Sign.find? (opener :: (item.text ++ t))
      = some ⟨[opener], if opener = '|' then .pipe else .lparen, false⟩ := by
    rcases hopens.delimiter with ⟨rfl, -⟩ | ⟨rfl, -⟩
    · exact find?_bar ⟨head?_item (.inl rfl) item t, head?_item (.inr rfl) item t⟩
    · rfl
  have hchar : opener ∈ signChars ∧ opener ≠ '=' := by
    rcases hopens.delimiter with ⟨rfl, -⟩ | ⟨rfl, -⟩ <;> decide
  have hkind : (if opener = '|' then Kind.pipe else .lparen) ∈ Place.item.kinds := by
    split_ifs <;> decide
  obtain ⟨s', hbinds, hend, hrecent, hparams⟩ := exists_sign (w := []) hchar.1 hchar.2
    hopens.inDefName_eq hfind (by split_ifs <;> decide) hrest
  rw [hopened] at hparams
  refine ⟨s', hbinds, ⟨?_, _, _, hrecent, hkind, ?_⟩, hend⟩
  · rw [hparams, ← Parameters.start_eq]
    rfl
  · intro htext
    exact hchar.2 (List.cons.inj htext).1

/-- The sign that closes a list. -/
lemma Opens.exists_closed {recent : List Token} {opener : Char}
    (hopens : Opens recent opener ending) (h : Inside .done (within ending 0 false) s)
    {after : Text} (hafter : opener = '|' → after.head? ≠ some '|' ∧ after.head? ≠ some '=')
    (hrest : s.rest = Quoting.closing opener :: after) :
    ∃ s', Binds s [] s' ∧ s'.params = none ∧ s'.rest = after := by
  rcases hopens.delimiter with ⟨rfl, rfl⟩ | ⟨rfl, rfl⟩
  · obtain ⟨s', hbinds, hend, -, hparams⟩ := h.sign (w := []) (by decide) (by decide)
      (find?_bar (hafter rfl)) (by decide) (by decide) hrest
    exact ⟨s', hbinds, hparams, hend⟩
  · obtain ⟨s', hbinds, hend, -, hparams⟩ := h.sign (c := ')') (w := []) (by decide) (by decide)
      rfl (by decide) (by decide) hrest
    exact ⟨s', hbinds, hparams, hend⟩

/-! ## Slashes after local variables -/

lemma locals_newline {s' : Scanner} (h : s.newline = .ok s') : s'.locals = s.locals := by
  simp only [Scanner.newline] at h
  split at h
  · cases h
  · cases h
    rfl

/-- No step forgets a local variable. -/
lemma Next.locals_subset {s' : Scanner} (h : Next s s') : s.locals ⊆ s'.locals := by
  obtain ⟨c, t, m, -, -, hs⟩ := h.exists_move
  intro x hx
  cases m with
  | lineBreak => rwa [locals_newline hs]
  | word =>
    cases hs
    exact (mem_locals_bindNames (s.emit _) _ x).2 (.inl hx)
  | sign sign =>
    cases hs
    exact (mem_locals_bindNames s _ x).2 (.inl hx)
  | _ =>
    cases hs
    exact hx

lemma Reaches.locals_subset {s' : Scanner} (h : Reaches s s') : s.locals ⊆ s'.locals := by
  induction h with
  | refl => exact List.Subset.refl _
  | tail _ hnext ih => exact List.Subset.trans ih hnext.locals_subset

/-- Where no literal may start, a slash is an operator. -/
lemma choose_slash {view : View} (pos : ℕ) {u : Text} (hdef : view.defining = false)
    (hvalue : view.value = false) (hargument : view.argument = false)
    (hu : u.head? ≠ some '=') : choose view pos '/' u = .ok (.sign ⟨['/'], .op, false⟩) := by
  have hfind : Sign.find? ('/' :: u) = some ⟨['/'], .op, false⟩ := by
    cases u with
    | nil => rfl
    | cons d u =>
      have hequals : '=' ≠ d := by
        rintro rfl
        exact hu rfl
      simp [Sign.find?, Sign.table, hequals]
  have hallows : view.allows u.head? = false := by
    rw [View.allows, hvalue, hargument, Bool.false_and, Bool.or_false]
  rw [choose, if_neg (by decide), if_neg (by decide), if_neg (by decide), if_neg (by decide),
    if_neg (by simp), if_neg (by simp), if_neg (by decide), if_neg (by decide), if_neg (by decide),
    hdef]
  change chooseLiteral view pos '/' u = _
  rw [chooseLiteral, if_neg (by decide), if_neg (by decide), if_neg (by decide), hallows,
    if_pos Bool.not_false, chooseSign, hfind]

/-- A slash that hugs what follows, after a local variable and a space, divides. -/
lemma exists_division (n : LocalName) {u : Text} (hlocal : n.text ∈ s.locals)
    (hbare : Token.followsAccess s.recent = false) (hu : u.head? ≠ some '=')
    (hrest : s.rest = n.text ++ ' ' :: '/' :: u) :
    ∃ s', Reaches s s' ∧ s'.rest = u ∧
      s'.tokens = ⟨.op, s.pos + size n.text + 1, ['/']⟩ :: ⟨.ident, s.pos, n.text⟩ :: s.tokens := by
  obtain ⟨s₁, hnamed, hrest₁⟩ := exists_named n ⟨' ', by decide, rfl⟩ hrest
  have hskip : Next s₁ (s₁.advance 1) := next_of_move hrest₁ (m := .skip 1) rfl rfl
  have hrest₂ : (s₁.advance 1).rest = '/' :: u := by rw [rest_advance, hrest₁]; rfl
  have hrecent : (s₁.advance 1).recent = ⟨.ident, s.pos, n.text⟩ :: s.recent := hnamed.recent_eq
  have hknown : n.text ∈ (s₁.advance 1).locals := (hnamed.mem_locals _).2 (.inl hlocal)
  have hargument : (s₁.advance 1).view.argument = false := by
    simp [view, afterLocal, hrecent, hbare, hknown]
  have hm : choose (s₁.advance 1).view (s₁.advance 1).pos '/' u
      = .ok (.sign ⟨['/'], .op, false⟩) := by
    refine choose_slash _ ?_ ?_ hargument hu
    · simp [view, hrecent, Token.inDefName, Token.kindAt?]
    · simp [view, hrecent, Token.valueExpected, Kind.endsPrimary]
  have hslash : Next (s₁.advance 1) ((s₁.advance 1).readSign ⟨['/'], .op, false⟩) :=
    next_of_move hrest₂ hm rfl
  refine ⟨_, .head hnamed.next (.head hskip (.single hslash)), ?_, ?_⟩
  · change (s₁.advance 1).rest.drop 1 = u
    rw [hrest₂]
    rfl
  · change ⟨.op, (s₁.advance 1).pos, (s₁.advance 1).rest.take 1⟩ :: s₁.tokens = _
    have hpos : (s₁.advance 1).pos = s.pos + size n.text + 1 := by
      have hspace : ' '.utf8Size = 1 := rfl
      simp [Scanner.advance, hnamed.pos_eq, hrest₁, hspace]
    rw [hpos, hrest₂, hnamed.tokens_eq]
    rfl

/-- The local variables after a list of parameters are those known before it and the names of the
list within reach, and from then on a slash after one of them divides. -/
theorem list_binds {s : Scanner} {opener : Char} {ending : Ending} {first : Parameter}
    {more : List Parameter} {after : Text} (hopens : Opens s.recent opener ending)
    (hrest : s.rest
      = opener :: (Parameter.listText first more ++ Quoting.closing opener :: after))
    (hafter : opener = '|' → after.head? ≠ some '|' ∧ after.head? ≠ some '=')
    (hpending : '\n' ∈ Parameter.listText first more → s.pending = []) :
    ∃ s', Reaches s s' ∧ s'.rest = after ∧ s'.params = none ∧
      (∀ x, x ∈ s'.locals ↔
        x ∈ s.locals ∨ ∃ level ≤ reach ending, (level, x) ∈ Parameter.listNames first more) ∧
      ∀ (n : LocalName) (later : Scanner) (u : Text), n.text ∈ s'.locals → Reaches s' later →
        Token.followsAccess later.recent = false → u.head? ≠ some '=' →
        later.rest = n.text ++ ' ' :: '/' :: u →
        ∃ last, Reaches later last ∧ last.rest = u ∧
          last.tokens = ⟨.op, later.pos + size n.text + 1, ['/']⟩
            :: ⟨.ident, later.pos, n.text⟩ :: later.tokens := by
  have hending : ending ≠ .line := by
    rcases hopens.delimiter with ⟨-, rfl⟩ | ⟨-, rfl⟩ <;> decide
  have hstops : LocalName.Stops (Quoting.closing opener :: after) := by
    rcases hopens.delimiter with ⟨rfl, -⟩ | ⟨rfl, -⟩
    · exact ⟨'|', by decide, rfl⟩
    · exact ⟨')', by decide, rfl⟩
  rw [Parameter.listText, List.append_assoc] at hrest
  simp only [Parameter.listText, List.mem_append] at hpending
  obtain ⟨s₁, hread₁, hinside₁, hrest₁⟩ := hopens.exists_inside first hrest
  obtain ⟨s₂, hread₂, hinside₂, hrest₂⟩ := exists_item hending 0 first hinside₁
    (stops_moreText hstops) (fun hmem => hread₁.pending_eq.trans (hpending (.inl hmem))) hrest₁
  have hread := hread₁.trans hread₂
  obtain ⟨s₃, hread₃, hinside₃, hrest₃⟩ := exists_more hending 0 more hinside₂ hstops
    (fun hmem => hread.pending_eq.trans (hpending (.inr hmem))) hrest₂
  obtain ⟨s₄, hread₄, hparams, hrest₄⟩ := hopens.exists_closed hinside₃ hafter hrest₃
  have hread := (hread.trans hread₃).trans hread₄
  refine ⟨s₄, hread.reaches, hrest₄, hparams, ?_, ?_⟩
  · intro x
    rw [hread.mem_locals, ← Parameters.mem_bound, Parameter.listNames, Parameters.bound_append,
      List.nil_append, List.append_nil]
  · intro n later u hlocal hlater hbare hu hlaterRest
    exact exists_division n (hlater.locals_subset hlocal) hbare hu hlaterRest

/-- In a block the names of the list and of its groups are bound, but not those one group deeper. -/
theorem list_binds_block :
    ∃ s', Reaches { rest := "|a, (*b, (c))| b /2".toList,
                    recent := [⟨.lbrace, 0, "\x7b".toList⟩] } s' ∧
      s'.rest = " b /2".toList ∧ ∀ x, x ∈ s'.locals ↔ x = ['a'] ∨ x = ['b'] := by
  have hend : ([' ', 'b', ' ', '/', '2'] : Text).head? ≠ some '|' ∧
      ([' ', 'b', ' ', '/', '2'] : Text).head? ≠ some '=' := by decide
  obtain ⟨s', hreaches, hrest, -, hlocals, -⟩ := @list_binds
    { rest := "|a, (*b, (c))| b /2".toList, recent := [⟨.lbrace, 0, "\x7b".toList⟩] } '|' .pipe
    (.name {} .plain { first := 'a' } {})
    [.group { text := [' '], isGap := .blank rfl .nil } (.name {} .splat { first := 'b' } {})
      [.group { text := [' '], isGap := .blank rfl .nil } (.name {} .plain { first := 'c' } {})
        [] {}] {}]
    [' ', 'b', ' ', '/', '2'] (.block (.inl rfl)) rfl (fun _ => hend) (fun _ => rfl)
  refine ⟨s', hreaches, hrest, ?_⟩
  intro x
  rw [hlocals, ← Parameters.mem_bound]
  change x ∈ [] ∨ x ∈ [['a'], ['b']] ↔ _
  simp

/-- In the list of a method no name of a group is bound, so that a slash after it is taken for the
start of a regular expression; in a block this happens one group deeper. -/
theorem group_unbound :
    (run { rest := "def f((a, b))".toList }).map (·.locals) = .ok [] ∧
      Token.scan "def f((a, b))\na /2\nend".toList = .error ⟨16, .unterminatedRegexp⟩ ∧
      (run { rest := "g do |a, (b, (c))|".toList }).map (·.locals) = .ok [['b'], ['a']] ∧
      Token.scan "g do |a, (b, (c))| c /2\nend".toList = .error ⟨21, .unterminatedRegexp⟩ := by
  decide +kernel

end Scanner

end TablePack
