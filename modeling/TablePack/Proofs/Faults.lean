import Mathlib.Tactic
import TablePack.Error
import TablePack.Proofs.Flatten
import TablePack.Proofs.Lines
import TablePack.Proofs.Stream

/-!
# Faults and where they are

Reading a text ends with a tree or with a fault, and a fault is always at a character of the text:
at the token that is read, at an opening delimiter inside it, at the end of a numeral, or at the
announcement of a heredoc. `Answers` says this of a result, and there is one lemma for each function
that can fail.

The one fault that no text should have is that a literal ends inside a character. It takes a percent
literal whose delimiter is outside ASCII, so it does not occur where `Text.narrowPercents` holds.

* `Scanner.answers_choose`: the choice of a move;
* `Scanner.answers_run`: a whole run;
* `Tree.ofText_total`: the tree of a text.
-/

namespace TablePack

open Token (Kind Lexeme)
open Text (size span isWide isDigitOrScore Stands)

/-! ## Places -/

namespace Text

/-- A character of the text starts at the byte offset. -/
def Starts (source : Text) (n : ℕ) : Prop := ∃ c t, Stands source n (c :: t)

lemma Starts.lt_size {source : Text} {n : ℕ} (h : source.Starts n) : n < size source := by
  obtain ⟨c, t, before, rfl, rfl⟩ := h
  have hc := c.utf8Size_pos
  rw [size_append, size_cons]
  omega

lemma Starts.offset?_position {source : Text} {n : ℕ} (h : source.Starts n) :
    offset? source (position source n) = some n := by
  obtain ⟨c, t, before, rfl, rfl⟩ := h
  exact Text.offset?_position before (c :: t)

lemma Stands.starts {source t : Text} {here : ℕ} {c : Char} (h : Stands source here (c :: t)) :
    source.Starts here :=
  ⟨c, t, h⟩

/-- The first `n` characters of a text take one byte each. -/
def Narrow (t : Text) (n : ℕ) : Prop := size (t.take n) = n

section Narrow

variable {t : Text} {n m : ℕ}

lemma narrow_zero (t : Text) : Narrow t 0 := by
  simp [Narrow]

lemma Narrow.cons {c : Char} (hc : c.utf8Size = 1) (h : Narrow t n) : Narrow (c :: t) (n + 1) := by
  rw [Narrow, List.take_succ_cons, size_cons, hc, h, Nat.add_comm]

lemma Narrow.add (h : Narrow t n) (hdrop : Narrow (t.drop n) m) : Narrow t (n + m) := by
  rw [Narrow, List.take_add, size_append, h, hdrop]

lemma narrow_span {p : Char → Bool} (hp : ∀ c, p c → c.utf8Size = 1) (t : Text) :
    Narrow t (span p t) := by
  induction t with
  | nil => exact narrow_zero _
  | cons c t ih =>
    by_cases hc : p c
    · rw [span, List.takeWhile_cons_of_pos hc, List.length_cons]
      exact ih.cons (hp c hc)
    · rw [span, List.takeWhile_cons_of_neg hc]
      exact narrow_zero _

/-- After characters of one byte, the number of characters is the distance. -/
lemma Stands.drop {source : Text} {here : ℕ} (h : Stands source here t) (hn : Narrow t n) :
    Stands source (here + n) (t.drop n) := by
  rw [← List.take_append_drop n t] at h
  have happend := h.append
  rwa [hn] at happend

end Narrow

/-! ## Percent signs -/

/-- A character outside ASCII follows, or one of the letters of percent literals and then such a
character. -/
def startsWide : Text → Bool
  | [] => false
  | c :: t => isWide c || Lexeme.percentLetters.contains c && t.head?.any isWide

/-- No percent sign is followed by a character outside ASCII, neither directly nor after one of the
letters of percent literals. -/
def narrowPercents : Text → Bool
  | [] => true
  | c :: t => !(c == '%' && startsWide t) && narrowPercents t

lemma narrowPercents_cons {c : Char} {t : Text} (h : narrowPercents (c :: t)) :
    (c = '%' → startsWide t = false) ∧ narrowPercents t := by
  rw [narrowPercents, Bool.and_eq_true, Bool.not_eq_true', Bool.and_eq_false_iff,
    beq_eq_false_iff_ne] at h
  exact ⟨fun hc => h.1.resolve_left (not_not.2 hc), h.2⟩

lemma narrowPercents_append {a b : Text} (h : narrowPercents (a ++ b)) : narrowPercents b := by
  induction a with
  | nil => exact h
  | cons c a ih => exact ih (narrowPercents_cons h).2

end Text

/-- A fault at a character of a text, other than that a literal ends inside a character. -/
structure Fault.Placed (source : Text) (fault : Fault) : Prop where
  starts : source.Starts fault.offset
  whole : fault.problem ≠ .splitCharacter

/-- A value, or a fault that is placed in the text. -/
inductive Answers (source : Text) {α : Type} : Except Fault α → Prop
  | ok (a : α) : Answers source (.ok a)
  | error {fault : Fault} : fault.Placed source → Answers source (.error fault)

namespace Answers

variable {source : Text} {α β : Type} {r : Except Fault α}

lemma map (h : Answers source r) (f : α → β) : Answers source (r.map f) := by
  cases h with
  | ok a => exact .ok (f a)
  | error h => exact .error h

lemma bind {f : α → Except Fault β} (h : Answers source r)
    (hf : ∀ a, r = .ok a → Answers source (f a)) : Answers source (r.bind f) := by
  cases h with
  | ok a => exact hf a rfl
  | error h => exact .error h

lemma ite {p : Prop} [Decidable p] {a b : Except Fault α} (hpos : p → Answers source a)
    (hneg : ¬ p → Answers source b) : Answers source (if p then a else b) := by
  split
  · exact hpos ‹p›
  · exact hneg ‹¬ p›

end Answers

/-! ## Quoted text -/

namespace Quoting

variable {source : Text}

/-- Where a frame starts. -/
def Frame.start : Frame → ℕ
  | literal start .. => start
  | code start _ => start
  | regexp start _ => start

lemma Frame.placed_fault {f : Frame} (h : source.Starts f.start) : f.fault.Placed source := by
  cases f <;> exact ⟨h, by simp [Frame.fault]⟩

/-- The frame that a reading leads to starts at a character of the text. -/
def Reading.Starts (source : Text) : Reading → Prop
  | escape => True
  | leave => True
  | stay frame => source.Starts frame.start
  | enter frame => source.Starts frame.start
  | interpolate frame => source.Starts frame.start

lemma Frame.starts_read {f : Frame} {here : ℕ} (hf : source.Starts f.start)
    (hhere : source.Starts here) (c : Char) (next : Option Char) :
    (f.read here c next).Starts source := by
  cases f with
  | literal start opener closer interpolates depth =>
    simp only [read]
    split_ifs <;> first | exact hf | exact trivial
  | code start depth =>
    simp only [read]
    split_ifs <;> first | exact hf | exact hhere | exact trivial
  | regexp start inClass =>
    simp only [read]
    split_ifs <;> first | exact hf | exact trivial

/-- Frames that start at characters of the text are closed, or one of them is not terminated. -/
lemma answers_close {top : Frame} {below : List Frame} {here n : ℕ} {t : Text}
    (hs : Stands source here t) (htop : source.Starts top.start)
    (hbelow : ∀ f ∈ below, source.Starts f.start) :
    Answers source (close top below here n t) := by
  fun_induction close top below here n t with
  | case1 => exact .error (Frame.placed_fault htop)
  | case2 top below here n c t frame hread ih =>
    have hframe := Frame.starts_read htop hs.starts c t.head?
    rw [hread] at hframe
    exact ih hs.cons hframe hbelow
  | case3 top below here n c t frame hread ih =>
    have hframe := Frame.starts_read htop hs.starts c t.head?
    rw [hread] at hframe
    exact ih hs.cons hframe (List.forall_mem_cons.2 ⟨htop, hbelow⟩)
  | case4 => exact .ok _
  | case5 top here n c t hread frame outer ih =>
    obtain ⟨hframe, houter⟩ := List.forall_mem_cons.1 hbelow
    exact ih hs.cons hframe houter
  | case6 => exact .error (Frame.placed_fault htop)
  | case7 top below here n c d u hread ih => exact ih hs.cons.cons htop hbelow
  | case8 top below here n c frame hread =>
    have hframe := Frame.starts_read htop hs.starts c none
    rw [show ([] : Text).head? = none from rfl] at hread
    rw [hread] at hframe
    exact .error (Frame.placed_fault hframe)
  | case9 top below here n c frame d u hread ih =>
    have hframe := Frame.starts_read htop hs.starts c (some d)
    rw [List.head?_cons] at hread
    rw [hread] at hframe
    exact ih hs.cons.cons hframe (List.forall_mem_cons.2 ⟨htop, hbelow⟩)

lemma answers_literal {start : ℕ} {opener : Char} {t : Text} (interpolates : Bool)
    (hs : Stands source start (opener :: t)) :
    Answers source (literal start opener interpolates t) :=
  answers_close hs.cons hs.starts (List.forall_mem_nil _)

lemma answers_regexp {start : ℕ} {t : Text} (hs : Stands source start ('/' :: t)) :
    Answers source (regexp start t) :=
  answers_close hs.cons hs.starts (List.forall_mem_nil _)

end Quoting

/-! ## Numerals -/

namespace Numeral

open Text (Narrow narrow_zero narrow_span)

lemma utf8Size_of_isDigitOrScore {c : Char} (h : isDigitOrScore c) : c.utf8Size = 1 := by
  rw [isDigitOrScore, Bool.or_eq_true, beq_iff_eq] at h
  rcases h with h | rfl
  · exact Text.utf8Size_of_isAlphanum (by simp [Char.isAlphanum, h])
  · rfl

lemma narrow_fraction (t : Text) : Narrow t (fraction t) := by
  unfold fraction
  split
  · split
    · rw [Nat.add_comm]
      exact (narrow_span (fun _ => utf8Size_of_isDigitOrScore) _).cons rfl
    · exact narrow_zero _
  · exact narrow_zero _

lemma narrow_exponent (t : Text) : Narrow t (exponent t) := by
  cases t with
  | nil => exact narrow_zero _
  | cons e u =>
    rw [exponent]
    split
    · rename_i he
      dsimp only
      generalize hsign : (if u.head?.any (fun c => c == '+' || c == '-') then 1 else 0) = sign
      have hmark : Narrow u sign := by
        subst hsign
        split
        · rename_i hhead
          cases u with
          | nil => cases hhead
          | cons c v =>
            simp only [List.head?_cons, Option.any_some, Bool.or_eq_true, beq_iff_eq] at hhead
            rcases hhead with rfl | rfl <;> exact (narrow_zero _).cons rfl
        · exact narrow_zero _
      split
      · have hall := hmark.add (narrow_span (fun _ => utf8Size_of_isDigitOrScore) (u.drop sign))
        rw [Nat.add_assoc, Nat.add_comm]
        rw [Bool.or_eq_true, beq_iff_eq, beq_iff_eq] at he
        rcases he with rfl | rfl <;> exact hall.cons rfl
      · exact narrow_zero _
    · exact narrow_zero _

lemma narrow_suffix (t : Text) : Narrow t (suffix t) := by
  unfold suffix
  split
  · split
    · exact narrow_zero _
    · exact ((narrow_zero _).cons rfl).cons rfl
  · split
    · exact narrow_zero _
    · exact (narrow_zero _).cons rfl
  · split
    · exact narrow_zero _
    · exact (narrow_zero _).cons rfl
  · exact narrow_zero _

lemma utf8Size_of_radixMark? {mark : Char} {radix : ℕ} (h : radixMark? mark = some radix) :
    mark.utf8Size = 1 := by
  unfold radixMark? at h
  split at h <;> first | rfl | cases h

lemma narrow_alphanum (t : Text) : Narrow t (span (fun c => c.isAlphanum || c == '_') t) := by
  refine narrow_span (fun c hc => ?_) t
  rw [Bool.or_eq_true, beq_iff_eq] at hc
  rcases hc with hc | rfl
  · exact Text.utf8Size_of_isAlphanum hc
  · rfl

/-- A numeral is made of characters of one byte. -/
lemma narrow_body {t : Text} {kind : Kind} {n : ℕ} (h : body t = .ok (kind, n)) : Narrow t n := by
  rw [body] at h
  split at h
  · rename_i radix hradix
    unfold radix? at hradix
    split at hradix
    · rename_i mark u
      rw [List.drop_succ_cons, List.drop_succ_cons, List.drop_zero, marked] at h
      split at h
      · cases h
      · obtain ⟨-, rfl⟩ := Prod.mk.inj (Except.ok.inj h)
        rw [Nat.add_comm]
        exact ((narrow_alphanum u).cons (utf8Size_of_radixMark? hradix)).cons rfl
    · cases hradix
  · have hwhole : Narrow t (span isDigitOrScore t) :=
      narrow_span (fun _ => utf8Size_of_isDigitOrScore) t
    have hfractional := hwhole.add (narrow_fraction _)
    have hscaled := hfractional.add (narrow_exponent _)
    rw [unmarked] at h
    split at h
    · obtain ⟨-, rfl⟩ := Prod.mk.inj (Except.ok.inj h)
      exact hscaled
    split at h
    · cases h
    · obtain ⟨-, rfl⟩ := Prod.mk.inj (Except.ok.inj h)
      exact hwhole

lemma body_ne_splitCharacter (t : Text) : body t ≠ .error .splitCharacter := by
  rw [body]
  split
  · rw [marked]
    split <;> simp
  · rw [unmarked]
    split
    · simp
    · split <;> simp

/-- What follows a numeral is at fault where it starts. -/
lemma answers_read {source t : Text} {c : Char} {start : ℕ} (hs : Stands source start (c :: t)) :
    Answers source (read start (c :: t)) := by
  rw [read]
  cases hbody : body (c :: t) with
  | error problem =>
    refine .error ⟨hs.starts, ?_⟩
    rintro rfl
    exact body_ne_splitCharacter _ hbody
  | ok extent =>
    obtain ⟨kind, n⟩ := extent
    dsimp only
    refine .ite (fun hname => .error ⟨?_, by simp⟩) fun _ => .ok _
    have hafter := hs.drop ((narrow_body hbody).add (narrow_suffix _))
    rw [← Nat.add_assoc] at hafter
    cases hdrop : (c :: t).drop (n + suffix ((c :: t).drop n)) with
    | nil =>
      rw [hdrop] at hname
      cases hname
    | cons d u =>
      rw [hdrop] at hafter
      exact hafter.starts

end Numeral

/-! ## Lexemes -/

namespace Token.Lexeme

variable {source t : Text} {start : ℕ}

lemma answers_document {c : Char} (hs : Stands source start (c :: t)) :
    Answers source (document start t) := by
  rw [document]
  split
  · exact .ok _
  · exact .error ⟨hs.starts, by simp⟩

lemma answers_var {sigil : Char} (hs : Stands source start (sigil :: t)) :
    Answers source (var start sigil t) := by
  rw [var]
  split
  · exact .ok _
  · exact .error ⟨hs.starts, by simp⟩

lemma answers_quoted {q : Char} (interpolates : Bool) (hs : Stands source start (q :: t)) :
    Answers source (quoted start q interpolates t) :=
  (Quoting.answers_literal interpolates hs).map _

lemma answers_regexp (hs : Stands source start ('/' :: t)) : Answers source (regexp start t) :=
  (Quoting.answers_regexp hs).map _

/-- What is wrong with a symbol is wrong after its colon. -/
lemma answers_colon (hs : Stands source start (':' :: t)) : Answers source (colon start t) := by
  have hnext : Stands source (start + 1) t := hs.cons
  unfold colon
  split
  · exact .ok _
  · refine .ite (fun _ => (Quoting.answers_literal _ hnext).map _) fun _ => ?_
    refine .ite (fun _ => ?_) fun _ => ?_
    · split
      · exact .ok _
      · exact .error ⟨hnext.starts, by simp⟩
    refine .ite (fun _ => .ok _) fun _ => ?_
    split <;> exact .ok _
  · exact .ok _

/-- The delimiter of a percent literal in a text where none is outside ASCII. -/
lemma not_isWide_of_percentForm? {kind : Kind} {interpolates : Bool} {letters : ℕ} {d : Char}
    {u : Text} (hform : percentForm? t = some (kind, interpolates, letters))
    (hdrop : t.drop letters = d :: u) (hwide : Text.startsWide t = false) : isWide d = false := by
  cases t with
  | nil => cases hform
  | cons c v =>
    rw [Text.startsWide, Bool.or_eq_false_iff, Bool.and_eq_false_iff] at hwide
    rcases percentForm?_cons hform with ⟨rfl, hletter⟩ | ⟨rfl, -, -⟩
    · rw [List.drop_succ_cons, List.drop_zero] at hdrop
      subst hdrop
      have hnot := hwide.2.resolve_left fun hc => by
        rw [List.contains_iff_mem.2 hletter] at hc
        cases hc
      simpa using hnot
    · rw [List.drop_zero] at hdrop
      obtain ⟨rfl, rfl⟩ := List.cons.inj hdrop
      exact hwide.1

lemma answers_percent? (hs : Stands source start ('%' :: t)) (hwide : Text.startsWide t = false) :
    Answers source (percent? start t) := by
  rw [percent?]
  cases hform : percentForm? t with
  | none => exact .ok _
  | some form =>
    obtain ⟨kind, interpolates, letters⟩ := form
    have hnext : Stands source (start + 1) t := hs.cons
    have hdelimiter := hnext.drop (size_take_letters hform).1
    dsimp only
    cases hdrop : t.drop letters with
    | nil => exact .ok _
    | cons d u =>
      rw [hdrop] at hdelimiter
      have hnarrow := not_isWide_of_percentForm? hform hdrop hwide
      refine .ite (fun _ => .ok _) fun _ => ?_
      have hliteral := Quoting.answers_literal interpolates hdelimiter
      generalize Quoting.literal _ d interpolates u = r at hliteral
      cases hliteral with
      | ok n =>
        dsimp only
        rw [hnarrow, if_neg Bool.false_ne_true]
        exact .ok _
      | error h => exact .error h

end Token.Lexeme

/-! ## Moves -/

namespace Scanner

variable {source t : Text} {pos : ℕ} {c : Char}

lemma answers_chooseSign (hs : Stands source pos (c :: t)) :
    Answers source (chooseSign pos c t) := by
  rw [chooseSign]
  split
  · exact .error ⟨hs.starts, by simp⟩
  · exact .ok _

lemma answers_choosePercent (hs : Stands source pos ('%' :: t))
    (hwide : Text.startsWide t = false) : Answers source (choosePercent pos '%' t) := by
  rw [choosePercent]
  have hpercent := Lexeme.answers_percent? hs hwide
  generalize Lexeme.percent? pos t = r at hpercent
  cases hpercent with
  | ok l =>
    cases l with
    | none => exact answers_chooseSign hs
    | some l => exact .ok _
  | error h => exact .error h

lemma answers_chooseLiteral (v : View) (hs : Stands source pos (c :: t))
    (hnarrow : Text.narrowPercents (c :: t)) : Answers source (chooseLiteral v pos c t) := by
  rw [chooseLiteral]
  refine .ite (fun _ => (Lexeme.answers_quoted true hs).map _) fun _ => ?_
  refine .ite (fun _ => (Lexeme.answers_quoted false hs).map _) fun _ => ?_
  refine .ite (fun hc => ?_) fun _ => ?_
  · subst hc
    exact (Lexeme.answers_colon hs).map _
  refine .ite (fun _ => answers_chooseSign hs) fun _ => ?_
  refine .ite (fun _ => ?_) fun _ => ?_
  · split
    · exact .ok _
    · exact answers_chooseSign hs
  refine .ite (fun hc => ?_) fun _ => ?_
  · subst hc
    exact answers_choosePercent hs ((Text.narrowPercents_cons hnarrow).1 rfl)
  refine .ite (fun hc => ?_) fun _ => ?_
  · subst hc
    exact (Lexeme.answers_regexp hs).map _
  refine .ite (fun _ => ?_) fun _ => answers_chooseSign hs
  split
  · exact .ok _
  · exact answers_chooseSign hs

lemma answers_chooseJoin (hs : Stands source pos (c :: t)) : Answers source (chooseJoin pos t) := by
  unfold chooseJoin
  split
  · exact .ok _
  · exact .ok _
  · exact .error ⟨hs.starts, by simp⟩

/-- A move is chosen, or what stands at the text or inside its first token is at fault. -/
lemma answers_choose (v : View) (hs : Stands source pos (c :: t))
    (hnarrow : Text.narrowPercents (c :: t)) : Answers source (choose v pos c t) := by
  rw [choose]
  refine .ite (fun _ => .ok _) fun _ => ?_
  refine .ite (fun _ => answers_chooseJoin hs) fun _ => ?_
  refine .ite (fun _ => .ok _) fun _ => ?_
  refine .ite (fun _ => .ok _) fun _ => ?_
  refine .ite (fun _ => (Lexeme.answers_document hs).map _) fun _ => ?_
  refine .ite (fun _ => .ok _) fun _ => ?_
  refine .ite (fun _ => (Numeral.answers_read hs).map _) fun _ => ?_
  refine .ite (fun _ => .ok _) fun _ => ?_
  refine .ite (fun _ => (Lexeme.answers_var hs).map _) fun _ => ?_
  split
  · exact .ok _
  · exact answers_chooseLiteral v hs hnarrow

/-! ## Runs -/

/-- Heredocs are announced at characters of the text. -/
def Announces (source : Text) (s : Scanner) : Prop := ∀ doc ∈ s.pending, source.Starts doc.start

lemma Announces.next {s s' : Scanner} (h : Announces source s) (hs : Stands source s.pos s.rest)
    (hnext : Next s s') : Announces source s' := by
  intro doc hdoc
  rcases hnext.mem_pending hdoc with hdoc | hstart
  · exact h doc hdoc
  · obtain ⟨c, t, hrest, -⟩ := hnext
    rw [hrest] at hs
    rw [hstart]
    exact hs.starts

lemma answers_newline {s : Scanner} (h : Announces source s) : Answers source s.newline := by
  rw [newline]
  dsimp only
  split
  · rename_i doc hdoc
    exact .error ⟨h doc (mem_of_bodiesLength hdoc), by simp⟩
  · exact .ok _

lemma answers_step {s : Scanner} (h : Announces source s) (hs : Stands source s.pos (c :: t))
    (hnarrow : Text.narrowPercents (c :: t)) : Answers source (s.step c t) := by
  rw [step_eq]
  refine (answers_choose s.view hs hnarrow).bind fun m _ => ?_
  cases m with
  | lineBreak => exact answers_newline h
  | _ => exact .ok _

lemma Announces.reaches {s : Scanner} (hreach : Reaches { rest := source } s) :
    Announces source s := by
  induction hreach with
  | refl => exact List.forall_mem_nil _
  | tail hreach hnext ih => exact ih.next ((sound_start source).reaches hreach).split hnext

/-- A text is read to its end, or a fault is placed in it. -/
lemma answers_run (hnarrow : source.narrowPercents) :
    Answers source (run { rest := source }) := by
  cases hrun : run { rest := source } with
  | ok s => exact .ok s
  | error fault =>
    obtain ⟨s, hreach, hfails⟩ := run_eq_error_iff.1 hrun
    have hannounces := Announces.reaches hreach
    have hs : Stands source s.pos s.rest := ((sound_start source).reaches hreach).split
    cases hfails with
    | @step c t _ hrest hstep =>
      rw [hrest] at hs
      have hrestNarrow : Text.narrowPercents (c :: t) := by
        obtain ⟨before, hsource, -⟩ := hs
        rw [hsource] at hnarrow
        exact Text.narrowPercents_append hnarrow
      exact hstep ▸ answers_step hannounces hs hrestNarrow
    | heredoc hrest hpending =>
      refine .error ⟨hannounces _ ?_, by simp⟩
      rw [hpending]
      exact List.mem_cons_self

end Scanner

/-! ## Trees -/

namespace Tree

variable {source : Text}

lemma step_eq_error {f : Frame} {stack : Stack} {t : Token} {after : List Token} {fault : Fault}
    (h : step f stack t after = .error fault) : fault = ⟨t.start, .unexpectedCloser t.text⟩ := by
  unfold step at h
  split_ifs at h
  cases stack with
  | nil => exact (Except.error.inj h).symm
  | cons level levels =>
    dsimp only at h
    split_ifs at h
    exact (Except.error.inj h).symm

/-- The blocks that are open start at characters of the text. -/
def OpensAt (source : Text) (stack : Stack) : Prop := ∀ level ∈ stack, source.Starts level.1.start

lemma Grows.opensAt {f f' : Frame} {stack stack' : Stack} {t : Token}
    (h : Grows f stack t f' stack') (hstack : OpensAt source stack) (ht : source.Starts t.start) :
    OpensAt source stack' := by
  cases h with
  | pass _ => exact hstack
  | finish _ => exact hstack
  | close opener outer levels _ hs _ =>
    subst hs
    exact (List.forall_mem_cons.1 hstack).2
  | opens header _ _ => exact List.forall_mem_cons.2 ⟨ht, hstack⟩
  | single header _ _ _ => exact hstack

lemma answers_build {f : Frame} {stack : Stack} {ts : List Token} (hstack : OpensAt source stack)
    (hts : ∀ t ∈ ts, source.Starts t.start) : Answers source (build f stack ts) := by
  induction ts generalizing f stack with
  | nil =>
    cases stack with
    | nil => exact .ok _
    | cons level levels => exact .error ⟨hstack level List.mem_cons_self, by simp⟩
  | cons t after ih =>
    obtain ⟨ht, hafter⟩ := List.forall_mem_cons.1 hts
    rw [build]
    cases hstep : step f stack t after with
    | error fault =>
      rw [step_eq_error hstep]
      exact .error ⟨ht, by simp⟩
    | ok next => exact ih ((grows_of_step hstep).opensAt hstack ht) hafter

lemma answers_ofTokens {tokens : List Token} (h : Token.Stream source tokens) :
    Answers source (ofTokens tokens) := by
  refine answers_build (List.forall_mem_nil _) fun t ht => ?_
  obtain ⟨before, after, hsource, hstart⟩ := h.placed t ht
  obtain ⟨c, text, htext⟩ := List.exists_cons_of_ne_nil (h.ne_nil t ht)
  rw [htext, List.cons_append] at hsource
  exact ⟨c, text ++ after, before, hsource, hstart⟩

lemma answers_ofText (hnarrow : source.narrowPercents) : Answers source (ofText source) := by
  have hlex : Answers source (Token.lex source) := by
    rw [Token.lex_eq]
    exact (Scanner.answers_run hnarrow).map _
  rw [ofText]
  cases h : Token.lex source with
  | error fault =>
    rw [h] at hlex
    cases hlex with
    | error hplaced => exact .error hplaced
  | ok tokens => exact answers_ofTokens (Token.stream_of_lex h).1

/-- Where no percent sign stands before a delimiter outside ASCII, the tree of a text is built from
tokens that lie in the text between its characters, or there is a fault. The fault is not that a
literal ends inside a character, and its line and column are those of an offset inside the text, at
which a character starts. -/
theorem ofText_total {source : Text} (hnarrow : source.narrowPercents) :
    (∃ scanned body, Token.scan source = .ok scanned ∧ Token.Stream source scanned ∧
        ofText source = .ok body ∧ ∀ t ∈ Node.bodyTokens body, t.Placed source) ∨
      ∃ fault position, ofText source = .error fault ∧ fault.problem ≠ .splitCharacter ∧
        Error.ofFault source fault = .invalidSource position fault.problem ∧
        position = Text.position source fault.offset ∧
        Text.offset? source position = some fault.offset ∧ source.Starts fault.offset ∧
        fault.offset < size source := by
  have hanswers := answers_ofText hnarrow
  cases h : ofText source with
  | error fault =>
    rw [h] at hanswers
    cases hanswers with
    | error hplaced =>
      exact .inr ⟨fault, _, rfl, hplaced.whole, rfl, rfl, hplaced.starts.offset?_position,
        hplaced.starts, hplaced.starts.lt_size⟩
  | ok body =>
    rw [ofText] at h
    cases hlex : Token.lex source with
    | error fault =>
      rw [hlex] at h
      cases h
    | ok tokens =>
      rw [hlex] at h
      obtain ⟨scanned, hscan, -⟩ := eq_ok_of_map_eq_ok hlex
      refine .inl ⟨scanned, body, hscan, (Token.stream_of_scan hscan).1, rfl, fun t ht => ?_⟩
      rw [bodyTokens_of_ofTokens h] at ht
      exact (Token.stream_of_lex hlex).1.placed t (List.mem_of_mem_filter ht)

example : Token.lex "%é é".toList = .error ⟨0, .splitCharacter⟩ := by
  decide +kernel

end Tree

end TablePack
