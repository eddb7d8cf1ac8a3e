import Mathlib.Data.List.TakeWhile
import Mathlib.Tactic
import TablePack.Proofs.Stream

/-!
# What lies between the tokens

The scanner passes over blanks, over line breaks that a backslash joins, over the bodies of heredocs
and over what follows the marker that ends a program. All other text is part of a token.
`Token.Layout` says how the tokens of a text and these passages follow one another. It is a relation
on the text alone, and none of the tests that the scanner makes occurs in it: which heredocs are
open at a line break is told from the tokens before it (`Token.Announces`), and where their bodies
end from the lines after it (`Heredoc.Terminates`).

* `Heredoc.endsAt_iff`, `Heredoc.announced?_eq_some_iff`: the tests of the scanner decide this;
* `Heredoc.bodies_of_bodiesLength`: the bodies that the scanner passes over;
* `Scanner.Next.lays`: one step;
* `Token.scan_layout`: the tokens of a text and what lies between them.
-/

namespace TablePack

open Token (Kind Lexeme)
open Text (size line afterLine)

/-- A run of characters of a class ends where the class ends. -/
lemma Text.takeWhile_exact {p : Char → Bool} {run : Text} (hrun : ∀ c ∈ run, p c) {rest : Text}
    (hrest : ∀ c ∈ rest.head?, p c = false) : (run ++ rest).takeWhile p = run := by
  rw [List.takeWhile_append_of_pos hrun]
  cases rest with
  | nil => simp
  | cons c rest => simp [hrest c rfl]

lemma Text.span_line {l : Text} (hl : '\n' ∉ l) {v : Text} (hv : v.head?.all (· == '\n')) :
    span (· != '\n') (l ++ v) = l.length := by
  rw [span, takeWhile_exact]
  · intro c hc
    rw [bne_iff_ne]
    rintro rfl
    exact hl hc
  · intro c hc
    rw [Option.mem_def] at hc
    rw [hc] at hv
    simpa using hv

lemma Text.line_cases (t : Text) :
    '\n' ∉ line t ∧ (t = line t ∧ afterLine t = [] ∨ t = line t ++ '\n' :: afterLine t) := by
  have hline : '\n' ∉ line t := by
    intro hmem
    have := List.all_eq_true.1 (List.all_takeWhile (p := (· != '\n')) (l := t)) '\n' hmem
    simp at this
  have hsplit : t = line t ++ t.dropWhile (· != '\n') := List.takeWhile_append_dropWhile.symm
  refine ⟨hline, ?_⟩
  rw [afterLine]
  rcases hdrop : t.dropWhile (· != '\n') with _ | ⟨c, u⟩
  · rw [hdrop, List.append_nil] at hsplit
    exact .inl ⟨hsplit, rfl⟩
  · have hc : c = '\n' := by
      have := List.head_dropWhile_not (p := (· != '\n')) (l := t) (by simp [hdrop])
      simpa [hdrop] using this
    subst hc
    rw [hdrop] at hsplit
    exact .inr hsplit

/-! ## Blanks and ends of lines -/

namespace Text

/-- The characters that may stand between tokens. -/
def blanks : List Char := [' ', '\t', '\r', '\x0b', '\x0c']

lemma mem_blanks_iff {c : Char} : c ∈ blanks ↔ isBlank c := by
  simp [blanks, isBlank, or_assoc]

/-- The line `l` is `line` without a carriage return at its end. -/
def DropsReturn (line l : Text) : Prop :=
  line = l ++ ['\r'] ∨ line = l ∧ ∀ c ∈ l.getLast?, c ≠ '\r'

lemma dropsReturn_iff {line l : Text} : DropsReturn line l ↔ withoutReturn line = l := by
  rw [withoutReturn]
  constructor
  · rintro (rfl | ⟨rfl, hlast⟩)
    · rw [if_pos List.getLast?_concat, List.dropLast_concat]
    · exact if_neg fun h => hlast _ h rfl
  · split_ifs with h
    · rintro rfl
      exact .inl (List.dropLast_append_getLast? _ h).symm
    · rintro rfl
      refine .inr ⟨rfl, ?_⟩
      rintro c hc rfl
      exact h hc

/-- The line `l'` is `l` without the spaces and tabs at its start. -/
def DropsIndent (l l' : Text) : Prop :=
  ∃ indent, l = indent ++ l' ∧ (∀ c ∈ indent, c = ' ' ∨ c = '\t') ∧
    ∀ c ∈ l'.head?, ¬ (c = ' ' ∨ c = '\t')

lemma dropsIndent_iff {l l' : Text} : DropsIndent l l' ↔ l.dropWhile isIndent = l' := by
  have hindent (c : Char) : isIndent c ↔ c = ' ' ∨ c = '\t' := by simp [isIndent]
  constructor
  · rintro ⟨indent, rfl, hall, hhead⟩
    rw [List.dropWhile_append_of_pos fun c hc => (hindent c).2 (hall c hc)]
    cases l' with
    | nil => rfl
    | cons c l' => exact List.dropWhile_cons_of_neg (mt (hindent c).1 (hhead c rfl))
  · rintro rfl
    refine ⟨l.takeWhile isIndent, List.takeWhile_append_dropWhile.symm, fun c hc => ?_,
      fun c hc => ?_⟩
    · exact (hindent c).1 (List.all_eq_true.1 List.all_takeWhile c hc)
    · rw [← hindent, Bool.not_eq_true]
      obtain ⟨u, hu⟩ := List.head?_eq_some_iff.1 hc
      have hhead := List.head_dropWhile_not (p := isIndent) (l := l) (by simp [hu])
      simpa [hu] using hhead

end Text

/-! ## Bodies of heredocs -/

namespace Heredoc

/-- A line that ends the body of a heredoc: it is the name, but for a carriage return at its end and
for indentation where that is allowed. -/
def Terminates (doc : Heredoc) (line : Text) : Prop :=
  ∃ l, Text.DropsReturn line l ∧
    if doc.indented then Text.DropsIndent l doc.name else l = doc.name

lemma endsAt_iff {doc : Heredoc} {line : Text} : doc.endsAt line ↔ doc.Terminates line := by
  simp only [Terminates, Text.dropsReturn_iff, exists_eq_left', endsAt]
  cases doc.indented with
  | false => simp
  | true => simp [Text.dropsIndent_iff]

/-- The body of a heredoc before the text `after`: lines that do not end it, and the first line that
does. That line needs no newline where the text ends with it. -/
inductive Body (doc : Heredoc) (after : Text) : Text → Prop
  | last {line : Text} : '\n' ∉ line → doc.Terminates line → Body doc after (line ++ ['\n'])
  | lastOfText {line : Text} : '\n' ∉ line → doc.Terminates line → after = [] →
      Body doc after line
  | line {line body : Text} : '\n' ∉ line → ¬ doc.Terminates line → Body doc after body →
      Body doc after (line ++ '\n' :: body)

/-- The bodies of several heredocs, one after another. -/
inductive Bodies (after : Text) : List Heredoc → Text → Prop
  | nil : Bodies after [] []
  | cons {doc : Heredoc} {docs : List Heredoc} {body bodies : Text} :
      Body doc (bodies ++ after) body → Bodies after docs bodies →
      Bodies after (doc :: docs) (body ++ bodies)

lemma body_of_bodyLength? {doc : Heredoc} {t : Text} {n : ℕ} (h : doc.bodyLength? t = some n) :
    Body doc (t.drop n) (t.take n) := by
  induction t using bodyLength?.induct doc generalizing n with
  | case1 => simp [bodyLength?] at h
  | case2 c t hends =>
    rw [bodyLength?, if_pos hends] at h
    cases h
    obtain ⟨hline, ⟨ht, -⟩ | ht⟩ := Text.line_cases (c :: t)
    · have hlen : (c :: t).length ≤ (line (c :: t)).length + 1 := by
        rw [← ht]
        omega
      rw [List.take_of_length_le hlen, List.drop_of_length_le hlen]
      exact .lastOfText (ht ▸ hline) (endsAt_iff.1 (ht ▸ hends)) rfl
    · have htake : (c :: t).take ((line (c :: t)).length + 1) = line (c :: t) ++ ['\n'] := by
        nth_rewrite 2 [ht]
        simp [List.take_append]
      rw [htake]
      exact .last hline (endsAt_iff.1 hends)
  | case3 c t hends ih =>
    rw [bodyLength?, if_neg hends] at h
    obtain ⟨m, hm, rfl⟩ := Option.map_eq_some_iff.1 h
    obtain ⟨hline, ⟨-, hafter⟩ | ht⟩ := Text.line_cases (c :: t)
    · simp [hafter, bodyLength?] at hm
    · have hbody := ih hm
      have htake : (c :: t).take ((line (c :: t)).length + 1 + m)
          = line (c :: t) ++ '\n' :: (afterLine (c :: t)).take m := by
        nth_rewrite 2 [ht]
        rw [Nat.add_assoc, List.take_length_add_append, Nat.add_comm 1, List.take_succ_cons]
      have hdrop : (c :: t).drop ((line (c :: t)).length + 1 + m)
          = (afterLine (c :: t)).drop m := by
        nth_rewrite 2 [ht]
        rw [Nat.add_assoc, List.drop_length_add_append, Nat.add_comm 1, List.drop_succ_cons]
      rw [htake, hdrop]
      exact .line hline (mt endsAt_iff.2 hends) hbody

/-- What the scanner passes over after a newline are the bodies of the open heredocs. -/
lemma bodies_of_bodiesLength {docs : List Heredoc} {t : Text} {n : ℕ}
    (h : bodiesLength docs t = .ok n) : Bodies (t.drop n) docs (t.take n) := by
  induction docs generalizing t n with
  | nil =>
    cases h
    exact .nil
  | cons doc docs ih =>
    rw [bodiesLength] at h
    split at h
    · cases h
    · rename_i m hm
      obtain ⟨k, hk, rfl⟩ := eq_ok_of_map_eq_ok h
      have hrest := ih hk
      rw [List.drop_drop] at hrest
      rw [List.take_add]
      refine .cons ?_ hrest
      rw [← List.drop_drop, List.take_append_drop]
      exact body_of_bodyLength? hm

/-! ## Announcements -/

/-- The spelling of a name in an announcement: a word, or any text of one line in quotes. -/
inductive Names (name : Text) : Text → Prop
  | word {c : Char} {u : Text} : name = c :: u → c.isAlpha ∨ c = '_' ∨ 0x80 ≤ c.toNat →
      (∀ d ∈ u, d.isAlphanum ∨ d = '_' ∨ 0x80 ≤ d.toNat) → Names name name
  | quoted {q : Char} : q = '\'' ∨ q = '"' ∨ q = '`' → name ≠ [] → q ∉ name → '\n' ∉ name →
      Names name (q :: (name ++ [q]))

lemma isNameStart_iff {c : Char} :
    Text.isNameStart c ↔ c.isAlpha ∨ c = '_' ∨ 0x80 ≤ c.toNat := by
  simp [Text.isNameStart, Text.isWide, or_assoc]

lemma isNameChar_iff {c : Char} :
    Text.isNameChar c ↔ c.isAlphanum ∨ c = '_' ∨ 0x80 ≤ c.toNat := by
  rw [Text.isNameChar, Bool.or_eq_true, isNameStart_iff, Text.isAlphanum_iff]
  tauto

lemma Names.head?_eq {name spelled : Text} (h : Names name spelled) :
    (spelled.head?.any fun c => c == '~' || c == '-') = false := by
  cases h with
  | @word c u hname hc _ =>
    have hne (d : Char) (hd : Text.isNameStart d = false) : c ≠ d := by
      rintro rfl
      rw [← isNameStart_iff, hd] at hc
      cases hc
    simp [hname, hne '~' (by decide), hne '-' (by decide)]
  | quoted hq => rcases hq with rfl | rfl | rfl <;> rfl

/-- What is read of a name is a spelling of it. -/
lemma names_of_name? {t name : Text} {n : ℕ} (h : name? t = some (name, n)) :
    Names name (t.take n) := by
  cases t with
  | nil => cases h
  | cons q u =>
    rw [name?] at h
    split_ifs at h with hq hstart
    · set inside : Char → Bool := fun c => c != q && c != '\n' with hinside
      dsimp only at h
      split_ifs at h with hclosed
      cases h
      simp only [Bool.and_eq_true, beq_iff_eq, Bool.not_eq_true', List.isEmpty_eq_false_iff]
        at hclosed
      have hall : ∀ c ∈ u.takeWhile inside, c ≠ q ∧ c ≠ '\n' := by
        simpa [hinside] using List.all_eq_true.1 (List.all_takeWhile (p := inside) (l := u))
      obtain ⟨v, hv⟩ := List.head?_eq_some_iff.1 hclosed.2
      have hsplit := List.take_append_drop (u.takeWhile inside).length u
      have hinit : u.take (u.takeWhile inside).length = u.takeWhile inside :=
        Text.take_span inside u
      rw [hv, hinit] at hsplit
      have htake : (q :: u).take ((u.takeWhile inside).length + 2)
          = q :: (u.takeWhile inside ++ [q]) := by
        rw [List.take_succ_cons]
        nth_rewrite 2 [← hsplit]
        rw [List.take_length_add_append]
        rfl
      rw [htake]
      exact .quoted (by simpa [or_assoc] using hq) hclosed.1 (fun hmem => (hall q hmem).1 rfl)
        fun hmem => (hall '\n' hmem).2 rfl
    · cases h
      have hall := List.all_eq_true.1 (List.all_takeWhile (p := Text.isNameChar) (l := q :: u))
      have hrun : (q :: u).take ((q :: u).takeWhile Text.isNameChar).length
          = (q :: u).takeWhile Text.isNameChar := Text.take_span Text.isNameChar (q :: u)
      have hhead : Text.isNameChar q := by simp [Text.isNameChar, hstart]
      rw [List.takeWhile_cons_of_pos hhead] at hrun hall ⊢
      rw [hrun]
      exact .word rfl (isNameStart_iff.1 hstart)
        fun d hd => isNameChar_iff.1 (hall d (List.mem_cons_of_mem q hd))

lemma name?_of_names {t name : Text} (h : Names name t) : name? t = some (name, t.length) := by
  cases h with
  | @word c u hname hc hu =>
    have hstart := isNameStart_iff.2 hc
    have hquote : ¬ (c = '\'' || c = '"' || c = '`') = true := by
      intro hq
      simp only [Bool.or_eq_true, decide_eq_true_eq] at hq
      rcases hq with (rfl | rfl) | rfl <;> exact absurd hstart (by decide)
    have hall : ∀ d ∈ c :: u, Text.isNameChar d := by
      refine List.forall_mem_cons.2 ⟨by simp [Text.isNameChar, hstart], fun d hd => ?_⟩
      exact isNameChar_iff.2 (hu d hd)
    rw [hname, name?, if_neg hquote, if_pos hstart]
    dsimp only
    rw [List.takeWhile_eq_self_iff.2 hall]
  | @quoted q hq hne hnot hnewline =>
    have hinside : ∀ c ∈ name, (c != q && c != '\n') = true := by
      intro c hc
      rw [Bool.and_eq_true, bne_iff_ne, bne_iff_ne]
      exact ⟨fun h => hnot (h ▸ hc), fun h => hnewline (h ▸ hc)⟩
    rw [name?, if_pos (by simpa [or_assoc] using hq)]
    dsimp only
    rw [Text.takeWhile_exact hinside (by simp), if_pos (by simp [hne])]
    simp

/-- The names that the scanner reads to their end. -/
lemma name?_eq_some_iff {t name : Text} : name? t = some (name, t.length) ↔ Names name t := by
  refine ⟨fun h => ?_, name?_of_names⟩
  simpa using names_of_name? h

end Heredoc

/-- A token that announces a heredoc: two angles and a name, with a mark between them if its last
line may be indented. -/
inductive Token.Announces : Token → Heredoc → Prop
  | flush {start : ℕ} {name spelled : Text} : Heredoc.Names name spelled →
      Announces ⟨.string, start, '<' :: '<' :: spelled⟩ ⟨name, false, start⟩
  | indented {start : ℕ} {mark : Char} {name spelled : Text} : mark = '-' ∨ mark = '~' →
      Heredoc.Names name spelled →
      Announces ⟨.string, start, '<' :: '<' :: mark :: spelled⟩ ⟨name, true, start⟩

/-- What is read of an announcement is a token that makes it. -/
lemma Heredoc.announces_of_announced? {start n : ℕ} {t : Text} {doc : Heredoc}
    (h : announced? start t = some (doc, n)) :
    Token.Announces ⟨.string, start, '<' :: t.take n⟩ doc := by
  unfold announced? at h
  split at h
  · rename_i u
    obtain ⟨⟨name, k⟩, hname, heq⟩ := Option.map_eq_some_iff.1 h
    cases heq
    cases u with
    | nil => cases hname
    | cons mark u =>
      by_cases hmark : mark == '~' || mark == '-'
      · have hname' : name? u = some (name, k) := by simpa [hmark] using hname
        have hmark' : mark = '-' ∨ mark = '~' := by simpa [or_comm] using hmark
        simp only [List.head?_cons, Option.any_some, hmark, if_true]
        rw [Nat.add_comm, List.take_succ_cons, List.take_succ_cons]
        exact .indented hmark' (names_of_name? hname')
      · have hname' : name? (mark :: u) = some (name, k) := by simpa [hmark] using hname
        simp only [List.head?_cons, Option.any_some, hmark, Bool.false_eq_true, if_false]
        rw [Nat.add_zero, Nat.add_comm, List.take_succ_cons]
        exact .flush (names_of_name? hname')
  · cases h

/-- The announcements that the scanner reads to their end. -/
lemma Heredoc.announced?_eq_some_iff {start : ℕ} {t : Text} {doc : Heredoc} :
    announced? start t = some (doc, t.length) ↔ Token.Announces ⟨.string, start, '<' :: t⟩ doc := by
  constructor
  · intro h
    simpa using announces_of_announced? h
  · intro h
    cases h with
    | flush hname =>
      simp [announced?, hname.head?_eq, name?_eq_some_iff.2 hname, Nat.add_comm]
    | indented hmark hname =>
      rcases hmark with rfl | rfl <;>
        simp [announced?, name?_eq_some_iff.2 hname, Nat.add_comm, Nat.add_left_comm]

lemma Token.not_announces_of_ne {t : Token} (h : t.kind ≠ .string) (doc : Heredoc) :
    ¬ t.Announces doc := by
  rintro (_ | _)
  · exact h rfl
  · exact h rfl

lemma Token.not_announces_of_head? {t : Token} (h : t.text.head? ≠ some '<') (doc : Heredoc) :
    ¬ t.Announces doc := by
  rintro (_ | _)
  · exact h rfl
  · exact h rfl

/-! ## Layouts -/

namespace Token

/-- How tokens lie in the rest of a text: `before` is the text in front of it, and `pending` are the
heredocs announced there whose bodies are still to come. -/
inductive Layout : (before : Text) → (pending : List Heredoc) → (rest : Text) → List Token → Prop
  | done {before : Text} : Layout before [] [] []
  /-- A blank between tokens. -/
  | blank {before : Text} {pending : List Heredoc} {c : Char} {rest : Text} {tokens : List Token} :
      c ∈ Text.blanks → Layout (before ++ [c]) pending rest tokens →
      Layout before pending (c :: rest) tokens
  /-- A line break that a backslash joins. -/
  | join {before : Text} {pending : List Heredoc} {ending rest : Text} {tokens : List Token} :
      ending = ['\n'] ∨ ending = ['\r', '\n'] →
      Layout (before ++ '\\' :: ending) pending rest tokens →
      Layout before pending ('\\' :: ending ++ rest) tokens
  /-- A token that is no newline and announces nothing. -/
  | token {before : Text} {pending : List Heredoc} {t : Token} {rest : Text} {tokens : List Token} :
      t.kind ≠ .newline → (∀ doc, ¬ t.Announces doc) → t.start = size before → t.text ≠ [] →
      Layout (before ++ t.text) pending rest tokens →
      Layout before pending (t.text ++ rest) (t :: tokens)
  /-- A token that announces a heredoc. -/
  | announcement {before : Text} {pending : List Heredoc} {t : Token} {doc : Heredoc} {rest : Text}
      {tokens : List Token} : t.Announces doc → t.start = size before →
      Layout (before ++ t.text) (pending ++ [doc]) rest tokens →
      Layout before pending (t.text ++ rest) (t :: tokens)
  /-- A newline, and the bodies of all heredocs that are pending. -/
  | newline {before : Text} {pending : List Heredoc} {bodies rest : Text} {tokens : List Token} :
      Heredoc.Bodies rest pending bodies →
      Layout (before ++ '\n' :: bodies) [] rest tokens →
      Layout before pending ('\n' :: bodies ++ rest) (⟨.newline, size before, ['\n']⟩ :: tokens)
  /-- A line that is the marker for the end of a program, and all that follows it. -/
  | endMarker {before ending after : Text} : (∀ c ∈ before.getLast?, c = '\n') →
      ending = [] ∨ ending = ['\r'] → (∀ c ∈ after.head?, c = '\n') →
      Layout before [] ("__END__".toList ++ ending ++ after) []

/-- Nothing lies in the empty text. -/
lemma Layout.eq_nil {before : Text} {pending : List Heredoc} {rest : Text} {tokens : List Token}
    (h : Layout before pending rest tokens) (hrest : rest = []) : pending = [] ∧ tokens = [] := by
  cases h with
  | done => exact ⟨rfl, rfl⟩
  | blank => cases hrest
  | join => cases hrest
  | token _ _ _ hne => exact absurd (List.append_eq_nil_iff.1 hrest).1 hne
  | announcement hdoc => cases hdoc <;> cases hrest
  | newline => cases hrest
  | endMarker => cases hrest

end Token

/-! ## One step -/

namespace Scanner

open Token (Layout)

/-- The text in front of the rest of a state. -/
structure Follows (before : Text) (s : Scanner) : Prop where
  pos_eq : s.pos = size before
  previous_eq : s.previous = before.getLast?.getD '\n'

/-- From `s` to `s'` the scanner reads the tokens `new`, and passes over what a layout allows. -/
structure Lays (before : Text) (s s' : Scanner) (eaten : Text) (new : List Token) : Prop where
  follows : Follows (before ++ eaten) s'
  tokens_eq : s'.tokens = new.reverse ++ s.tokens
  layout : ∀ tokens, Layout (before ++ eaten) s'.pending s'.rest tokens →
    Layout before s.pending s.rest (new ++ tokens)

section Step

variable {before : Text} {s s' : Scanner} {c : Char} {t : Text}

lemma Follows.stride {eaten : Text} (h : Follows before s) (hstride : Stride s s' eaten) :
    Follows (before ++ eaten) s' := by
  refine ⟨?_, ?_⟩
  · rw [hstride.pos_eq, h.pos_eq, Text.size_append]
  · rw [hstride.previous_eq, List.getLast?_append_of_ne_nil _ hstride.ne_nil,
      List.getLast?_eq_some_getLast hstride.ne_nil]
    rfl

/-- A token that is no newline and announces nothing, whatever else changes in the memory. -/
lemma lays_emit {l : Lexeme} (h : Follows before s) (hkind : l.kind ≠ .newline)
    (hstride : Stride s s' (s.rest.take (l.more + 1))) (htokens : s'.tokens = (s.emit l).tokens)
    (hnone : ∀ doc, ¬ Token.Announces ⟨l.kind, s.pos, s.rest.take (l.more + 1)⟩ doc)
    (hpending : s'.pending = s.pending) :
    Lays before s s' (s.rest.take (l.more + 1)) [⟨l.kind, s.pos, s.rest.take (l.more + 1)⟩] := by
  refine ⟨h.stride hstride, htokens, fun tokens hlayout => ?_⟩
  rw [hpending] at hlayout
  nth_rewrite 1 [hstride.rest_eq]
  exact Layout.token (t := ⟨l.kind, s.pos, s.rest.take (l.more + 1)⟩) hkind hnone h.pos_eq
    hstride.ne_nil hlayout

/-- The line with the marker for the end of a program. -/
lemma exists_marker {rest : Text} (h : Text.withoutReturn (line rest) = "__END__".toList) :
    ∃ ending after, rest = "__END__".toList ++ ending ++ after ∧
      (ending = [] ∨ ending = ['\r']) ∧ ∀ c ∈ after.head?, c = '\n' := by
  have hline : ∃ ending, line rest = "__END__".toList ++ ending ∧
      (ending = [] ∨ ending = ['\r']) := by
    rcases Text.dropsReturn_iff.2 h with hline | ⟨hline, -⟩
    · exact ⟨_, hline, .inr rfl⟩
    · exact ⟨[], by rw [hline, List.append_nil], .inl rfl⟩
  obtain ⟨ending, hline, hending⟩ := hline
  obtain ⟨-, ⟨hrest, -⟩ | hrest⟩ := Text.line_cases rest
  · exact ⟨ending, [], by rwa [List.append_nil, ← hline], hending, by simp⟩
  · exact ⟨ending, '\n' :: afterLine rest, by rwa [← hline], hending, by simp⟩

lemma lays_passage {n : ℕ} (h : Follows before s) (hp : Passage s.atLineStart s.rest n) :
    Lays before s (s.advance n) (s.rest.take n) [] := by
  have hne : s.rest ≠ [] := by
    intro hnil
    rw [hnil] at hp
    cases hp with
    | endMarker _ hline => cases hline
  have htake : s.rest.take n ≠ [] := by
    have hn := hp.length_pos
    simp only [ne_eq, List.take_eq_nil_iff, not_or]
    exact ⟨by omega, hne⟩
  refine ⟨h.stride (stride_skip htake), rfl, fun tokens hlayout => ?_⟩
  rw [rest_advance] at hlayout
  change Layout (before ++ s.rest.take n) s.pending (s.rest.drop n) tokens at hlayout
  generalize s.rest = rest at hp hlayout ⊢
  cases hp with
  | blank hc => exact .blank (Text.mem_blanks_iff.2 hc) hlayout
  | @join ending t hending =>
    rw [List.take_left' (by simp), List.drop_left' (by simp)] at hlayout
    exact .join hending hlayout
  | endMarker hstart hline =>
    rw [List.drop_length] at hlayout
    obtain ⟨hpending, rfl⟩ := hlayout.eq_nil rfl
    obtain ⟨ending, after, hmarker, hending, hafter⟩ := exists_marker hline
    rw [hpending, hmarker]
    refine .endMarker (fun c hc => ?_) hending hafter
    have hprevious := h.previous_eq
    rw [Option.mem_def.1 hc] at hprevious
    simpa [atLineStart, hprevious] using hstart

lemma lays_newline (h : Follows before s) (hrest : s.rest = '\n' :: t) (hs : s.newline = .ok s') :
    ∃ eaten, Lays before s s' eaten [⟨.newline, s.pos, ['\n']⟩] := by
  obtain ⟨n, hn, rfl⟩ := exists_bodies_of_newline hs
  rw [hrest, List.drop_succ_cons, List.drop_zero] at hn
  have hstride := stride_newline hrest n
  refine ⟨_, h.stride hstride, ?_, fun tokens hlayout => ?_⟩
  · simp [advance, emit, hrest]
  · have hdrop : ((s.emit ⟨.newline, 0⟩).advance n).rest = t.drop n := by simp [hrest]
    change Layout _ [] ((s.emit ⟨.newline, 0⟩).advance n).rest tokens at hlayout
    rw [hdrop] at hlayout
    rw [hstride.rest_eq, h.pos_eq]
    change Layout before s.pending ('\n' :: t.take n ++ ((s.emit ⟨.newline, 0⟩).advance n).rest) _
    rw [hdrop]
    exact .newline (Heredoc.bodies_of_bodiesLength hn) hlayout

/-- A step reads a token, or passes over what a layout allows. -/
lemma Next.lays (hnext : Next s s') (h : Follows before s) :
    ∃ eaten new, Lays before s s' eaten new := by
  obtain ⟨c, t, m, hrest, hm, hs⟩ := hnext.exists_move
  have hfits := fits_of_choose hm
  cases m with
  | skip n =>
    cases hs
    have hp : Passage s.atLineStart (c :: t) n := hfits
    exact ⟨_, _, lays_passage h (hrest ▸ hp)⟩
  | lineBreak =>
    obtain rfl : c = '\n' := hfits
    obtain ⟨eaten, hlays⟩ := lays_newline h hrest hs
    exact ⟨eaten, _, hlays⟩
  | lexeme l =>
    cases hs
    have hl : LexemeFits _ c t l := hfits
    refine ⟨_, _,
      lays_emit h hl.kind_ne (stride_emit (hrest ▸ hl.spelled) rfl rfl rfl rfl rfl) rfl ?_ rfl⟩
    by_cases hkind : l.kind = .string
    · exact Token.not_announces_of_head? (by rw [hrest]; simpa using hl.no_angle hkind)
    · exact Token.not_announces_of_ne hkind
  | word =>
    cases hs
    have hkind := isWord_wordKind s (c :: t.take (s.wordExtent t)) (t.drop (s.wordExtent t))
    have hne : ∀ kind, isWord kind → kind ≠ .newline ∧ kind ≠ .string := by
      rintro kind hword
      constructor <;> rintro rfl <;> cases hword
    exact ⟨_, _, lays_emit h (hne _ hkind).1 (stride_word hrest hfits) rfl
      (Token.not_announces_of_ne (hne _ hkind).2) rfl⟩
  | announce doc n =>
    obtain ⟨rfl, hdoc⟩ := hfits
    have hspelled : Token.Spelled .string (s.rest.take (n + 1)) :=
      Token.spelled_of_isFree rfl (by simp [hrest])
    have hstride : Stride s s' (s.rest.take (n + 1)) := by
      cases hs
      exact stride_emit (l := ⟨.string, n⟩) hspelled rfl rfl rfl rfl rfl
    cases hs
    refine ⟨_, [⟨.string, s.pos, s.rest.take (n + 1)⟩], h.stride hstride, rfl,
      fun tokens hlayout => ?_⟩
    have hannounces : Token.Announces ⟨.string, s.pos, s.rest.take (n + 1)⟩ doc := by
      rw [hrest]
      exact Heredoc.announces_of_announced? hdoc
    nth_rewrite 1 [hstride.rest_eq]
    exact .announcement hannounces h.pos_eq hlayout
  | sign sg =>
    cases hs
    have hfind : Sign.find? s.rest = some sg := hrest ▸ hfits
    have hne := (by decide : ∀ sg ∈ Sign.table, sg.kind ≠ .newline ∧ sg.kind ≠ .string) sg
      (Sign.mem_and_prefix_of_find? hfind).1
    exact ⟨_, _, lays_emit (l := ⟨sg.kind, sg.text.length - 1⟩) h hne.1 (stride_readSign hfind) rfl
      (Token.not_announces_of_ne hne.2) rfl⟩

end Step

/-- A run reads tokens that lie in the text. -/
lemma Reaches.layout {s s' : Scanner} (h : Reaches s s') (hrest : s'.rest = [])
    (hpending : s'.pending = []) (before : Text) (hbefore : Follows before s) :
    ∃ new, s'.tokens = new.reverse ++ s.tokens ∧ Layout before s.pending s.rest new := by
  induction h using Relation.ReflTransGen.head_induction_on generalizing before with
  | refl =>
    rw [hrest, hpending]
    exact ⟨[], rfl, .done⟩
  | head hnext _ ih =>
    obtain ⟨eaten, new, hlays⟩ := hnext.lays hbefore
    obtain ⟨more, htokens, hlayout⟩ := ih _ hlays.follows
    refine ⟨new ++ more, ?_, hlays.layout more hlayout⟩
    rw [htokens, hlays.tokens_eq, List.reverse_append, List.append_assoc]

end Scanner

/-! ## The whole text -/

namespace Token

/-- Scanning loses and repeats nothing. The tokens of a text are pieces of it that are not empty and
stand in it one after another; and what lies between them are blanks, line breaks that a backslash
joins, the bodies of heredocs after the newline that they wait for, and perhaps a line with the
marker for the end of a program, up to the end of the text. -/
theorem scan_layout {source : Text} {tokens : List Token} (h : scan source = .ok tokens) :
    (∀ t ∈ tokens, t.start < t.stop ∧ t.stop ≤ size source ∧
      Text.slice source t.start t.stop = t.text) ∧
    (tokens.Pairwise fun a b => a.start < b.start ∧ a.stop ≤ b.start) ∧
    Layout [] [] source tokens := by
  obtain ⟨hstream, -⟩ := stream_of_scan h
  refine ⟨fun t ht => ?_, ?_, ?_⟩
  · have hplaced := hstream.placed t ht
    refine ⟨start_lt_stop (hstream.ne_nil t ht), hplaced.stop_le, ?_⟩
    obtain ⟨before, after, rfl, hsize⟩ := hplaced
    rw [stop, ← hsize, Text.slice_append]
  · refine hstream.ordered.imp_of_mem fun {a b} ha _ hab => ⟨?_, hab⟩
    exact (start_lt_stop (hstream.ne_nil a ha)).trans_le hab
  · obtain ⟨s, hrun, rfl⟩ := eq_ok_of_map_eq_ok h
    obtain ⟨hreach, hrest, hpending⟩ := Scanner.run_eq_ok_iff.1 hrun
    obtain ⟨new, htokens, hlayout⟩ := hreach.layout hrest hpending [] ⟨rfl, rfl⟩
    rw [htokens, List.append_nil, List.reverse_reverse]
    exact hlayout

/-- Two heredocs on a line that a backslash joins to the next one, and the end of a program. -/
theorem scan_layout_heredocs :
    Layout [] [] "[<<A, \\\n<<-B]\nx\nA\n B\n__END__\n]".toList
      [⟨.lbracket, 0, ['[']⟩, ⟨.string, 1, "<<A".toList⟩, ⟨.comma, 4, [',']⟩,
        ⟨.string, 8, "<<-B".toList⟩, ⟨.rbracket, 12, [']']⟩, ⟨.newline, 13, ['\n']⟩] := by
  have h : scan "[<<A, \\\n<<-B]\nx\nA\n B\n__END__\n]".toList
      = .ok [⟨.lbracket, 0, ['[']⟩, ⟨.string, 1, "<<A".toList⟩, ⟨.comma, 4, [',']⟩,
        ⟨.string, 8, "<<-B".toList⟩, ⟨.rbracket, 12, [']']⟩, ⟨.newline, 13, ['\n']⟩] := by
    decide +kernel
  exact (scan_layout h).2.2

end Token

end TablePack
