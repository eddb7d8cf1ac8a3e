import Mathlib.Tactic
import TablePack.Proofs.Lookahead

/-!
# Reading at a later offset

The scanner is told at which byte of the source its text stands, and it makes no decision by that:
the offset goes into faults and into announcements of heredocs, and nowhere else. So a text that is
read `k` bytes later is read alike, and what offsets there are in the answer are `k` greater.

* `Quoting.close_later`, `Token.Lexeme.percent?_later`, `Numeral.read_later` and others: one lemma
  for each function that may report a fault;
* `Scanner.choose_later`: the choice of a move.
-/

namespace TablePack

open Token (Kind Lexeme)

/-- A fault that is reported `k` bytes later. -/
def Fault.later (k : ℕ) (f : Fault) : Fault := ⟨f.offset + k, f.problem⟩

lemma mapError_map {α β : Type} (g : Fault → Fault) (f : α → β) (r : Except Fault α) :
    (r.map f).mapError g = (r.mapError g).map f := by
  cases r <;> rfl

lemma mapError_ite {α : Type} (g : Fault → Fault) (p : Prop) [Decidable p] (a b : Except Fault α) :
    (if p then a else b).mapError g = if p then a.mapError g else b.mapError g :=
  apply_ite _ p a b

/-! ## Quoted text -/

namespace Quoting

/-- A frame that is opened `k` bytes later. -/
def Frame.later (k : ℕ) : Frame → Frame
  | literal start opener closer interpolates depth =>
    literal (start + k) opener closer interpolates depth
  | code start depth => code (start + k) depth
  | regexp start inClass => regexp (start + k) inClass

/-- A reading `k` bytes later. -/
def Reading.later (k : ℕ) : Reading → Reading
  | escape => escape
  | stay frame => stay (frame.later k)
  | enter frame => enter (frame.later k)
  | interpolate frame => interpolate (frame.later k)
  | leave => leave

lemma Frame.read_later (k : ℕ) (f : Frame) (here : ℕ) (c : Char) (next : Option Char) :
    (f.later k).read (here + k) c next = (f.read here c next).later k := by
  cases f <;> simp only [later, read] <;> split_ifs <;> rfl

lemma Frame.fault_later (k : ℕ) (f : Frame) : (f.later k).fault = f.fault.later k := by
  cases f <;> rfl

/-- The end of a literal is found alike. -/
lemma close_later (k : ℕ) (top : Frame) (below : List Frame) (here n : ℕ) (t : Text) :
    close (top.later k) (below.map (Frame.later k)) (here + k) n t
      = (close top below here n t).mapError (Fault.later k) := by
  -- The place moves on with each character; `k` is kept outermost for the induction hypothesis.
  have hcomm : ∀ m n : ℕ, n + k + m = n + m + k := fun m n => Nat.add_right_comm n k m
  fun_induction close top below here n t with
  | case1 top below here n =>
    rw [close, Frame.fault_later]
    rfl
  | case2 top below here n c t frame hr ih =>
    rw [close_cons, Frame.read_later, hr]
    dsimp only [Reading.later]
    rw [hcomm]
    exact ih
  | case3 top below here n c t frame hr ih =>
    rw [close_cons, Frame.read_later, hr]
    dsimp only [Reading.later]
    rw [hcomm]
    exact ih
  | case4 top here n c t hr =>
    rw [close_cons, Frame.read_later, hr]
    rfl
  | case5 top here n c t hr frame outer ih =>
    rw [close_cons, Frame.read_later, hr]
    dsimp only [Reading.later]
    rw [hcomm]
    exact ih
  | case6 top below here n c hr =>
    rw [close_cons, Frame.read_later, hr]
    dsimp only [Reading.later]
    rw [Frame.fault_later]
    rfl
  | case7 top below here n c d u hr ih =>
    rw [close_cons, Frame.read_later, hr]
    dsimp only [Reading.later]
    rw [hcomm, hcomm]
    exact ih
  | case8 top below here n c frame hr =>
    rw [close_cons, Frame.read_later, hr]
    dsimp only [Reading.later]
    rw [Frame.fault_later]
    rfl
  | case9 top below here n c frame d u hr ih =>
    rw [close_cons, Frame.read_later, hr]
    dsimp only [Reading.later]
    rw [hcomm, hcomm]
    exact ih

lemma literal_later (k start : ℕ) (opener : Char) (interpolates : Bool) (t : Text) :
    literal (start + k) opener interpolates t
      = (literal start opener interpolates t).mapError (Fault.later k) := by
  rw [literal, Nat.add_right_comm]
  exact close_later k (.literal start opener (closing opener) interpolates 0) [] _ 0 t

lemma regexp_later (k start : ℕ) (t : Text) :
    regexp (start + k) t = (regexp start t).mapError (Fault.later k) := by
  rw [regexp, Nat.add_right_comm]
  exact close_later k (.regexp start false) [] _ 0 t

end Quoting

/-! ## Lexemes -/

namespace Token.Lexeme

lemma document_later (k start : ℕ) (t : Text) :
    document (start + k) t = (document start t).mapError (Fault.later k) := by
  rw [document, document]
  cases documentLength? 0 t <;> rfl

lemma var_later (k start : ℕ) (sigil : Char) (t : Text) :
    var (start + k) sigil t = (var start sigil t).mapError (Fault.later k) := by
  rw [var, var]
  cases variableLength? sigil t <;> rfl

lemma quoted_later (k start : ℕ) (q : Char) (interpolates : Bool) (t : Text) :
    quoted (start + k) q interpolates t
      = (quoted start q interpolates t).mapError (Fault.later k) := by
  rw [quoted, quoted, Quoting.literal_later, mapError_map]

lemma regexp_later (k start : ℕ) (t : Text) :
    regexp (start + k) t = (regexp start t).mapError (Fault.later k) := by
  rw [regexp, regexp, Quoting.regexp_later, mapError_map]

lemma colon_later (k start : ℕ) (t : Text) :
    colon (start + k) t = (colon start t).mapError (Fault.later k) := by
  cases t with
  | nil => rfl
  | cons c u =>
    by_cases hc : c = ':'
    · subst hc
      rfl
    · rw [colon_cons hc, colon_cons hc, Nat.add_right_comm, Quoting.literal_later]
      simp only [mapError_ite, mapError_map]
      congr 1
      cases variableLength? c u <;> cases Sign.findMethod? (c :: u) <;> rfl

lemma percent?_later (k start : ℕ) (t : Text) :
    percent? (start + k) t = (percent? start t).mapError (Fault.later k) := by
  rw [percent?, percent?]
  rcases percentForm? t with _ | ⟨kind, interpolates, letters⟩
  · rfl
  dsimp only
  cases t.drop letters with
  | nil => rfl
  | cons delimiter u =>
    dsimp only
    have hoffset : start + k + 1 + letters = start + 1 + letters + k := by omega
    rw [mapError_ite, hoffset, Quoting.literal_later]
    cases Quoting.literal (start + 1 + letters) delimiter interpolates u with
    | error fault => rfl
    | ok n => split_ifs <;> rfl

end Token.Lexeme

lemma Numeral.read_later (k start : ℕ) (t : Text) :
    read (start + k) t = (read start t).mapError (Fault.later k) := by
  rw [read, read]
  rcases body t with problem | ⟨kind, n⟩
  · rfl
  · dsimp only
    have hoffset : start + k + n + suffix (t.drop n) = start + n + suffix (t.drop n) + k := by omega
    rw [mapError_ite, hoffset]
    rfl

/-! ## Heredocs -/

namespace Heredoc

/-- A heredoc that is announced at another offset. -/
def moved (g : ℕ → ℕ) (doc : Heredoc) : Heredoc := { doc with start := g doc.start }

/-- A heredoc that is announced `k` bytes later. -/
def later (k : ℕ) (doc : Heredoc) : Heredoc := doc.moved (· + k)

lemma announced?_later (k start : ℕ) (t : Text) :
    announced? (start + k) t
      = (announced? start t).map fun found => (found.1.later k, found.2) := by
  by_cases hhead : t.head? = some '<'
  · obtain ⟨u, rfl⟩ := List.head?_eq_some_iff.1 hhead
    rw [announced?_cons, announced?_cons, Option.map_map]
    rfl
  · rw [announced?_of_head?_ne hhead, announced?_of_head?_ne hhead]
    rfl

lemma bodyLength?_moved (g : ℕ → ℕ) (doc : Heredoc) (t : Text) :
    (doc.moved g).bodyLength? t = doc.bodyLength? t := by
  induction hn : t.length using Nat.strong_induction_on generalizing t with
  | _ n ih =>
    by_cases ht : t = []
    · subst ht
      rw [bodyLength?, bodyLength?]
    · rw [bodyLength?_of_ne_nil _ ht, bodyLength?_of_ne_nil doc ht,
        ih _ (hn ▸ Text.length_afterLine_lt ht) _ rfl]
      rfl

/-- Where the bodies of heredocs end does not depend on where these are announced. -/
lemma bodiesLength_moved (g : ℕ → ℕ) (docs : List Heredoc) (t : Text) :
    bodiesLength (docs.map (moved g)) t = (bodiesLength docs t).mapError (moved g) := by
  induction docs generalizing t with
  | nil => rfl
  | cons doc docs ih =>
    rw [List.map_cons, bodiesLength, bodiesLength, bodyLength?_moved]
    cases doc.bodyLength? t with
    | none => rfl
    | some n =>
      dsimp only
      rw [ih]
      cases bodiesLength docs (t.drop n) <;> rfl

end Heredoc

/-! ## Moves -/

namespace Scanner

/-- A move that is made `k` bytes later. -/
def Move.later (k : ℕ) : Move → Move
  | .announce doc n => .announce (doc.later k) n
  | m => m

/-- A choice that is made `k` bytes later. -/
def choiceLater (k : ℕ) (r : Except Fault Move) : Except Fault Move :=
  (r.map (Move.later k)).mapError (Fault.later k)

lemma ite_later {k : ℕ} {p : Prop} [Decidable p] {a a' b b' : Except Fault Move}
    (ha : a' = choiceLater k a) (hb : b' = choiceLater k b) :
    (if p then a' else b') = choiceLater k (if p then a else b) := by
  split
  · exact ha
  · exact hb

lemma map_lexeme_later {k : ℕ} {r r' : Except Fault Lexeme} (h : r' = r.mapError (Fault.later k)) :
    r'.map Move.lexeme = choiceLater k (r.map .lexeme) := by
  subst h
  cases r <;> rfl

lemma chooseSign_later (k pos : ℕ) (c : Char) (t : Text) :
    chooseSign (pos + k) c t = choiceLater k (chooseSign pos c t) := by
  rw [chooseSign, chooseSign]
  cases Sign.find? (c :: t) <;> rfl

lemma choosePercent_later (k pos : ℕ) (c : Char) (t : Text) :
    choosePercent (pos + k) c t = choiceLater k (choosePercent pos c t) := by
  rw [choosePercent, choosePercent, Lexeme.percent?_later]
  rcases Lexeme.percent? pos t with fault | _ | l
  · rfl
  · exact chooseSign_later k pos c t
  · rfl

lemma chooseLiteral_later (v : View) (k pos : ℕ) (c : Char) (t : Text) :
    chooseLiteral v (pos + k) c t = choiceLater k (chooseLiteral v pos c t) := by
  have hsign := chooseSign_later k pos c t
  rw [chooseLiteral, chooseLiteral]
  refine ite_later (map_lexeme_later (Lexeme.quoted_later ..))
    (ite_later (map_lexeme_later (Lexeme.quoted_later ..))
    (ite_later (map_lexeme_later (Lexeme.colon_later ..))
    (ite_later hsign (ite_later ?_ (ite_later (choosePercent_later ..)
    (ite_later (map_lexeme_later (Lexeme.regexp_later ..)) (ite_later ?_ hsign)))))))
  · cases Lexeme.character? t with
    | none => exact hsign
    | some l => rfl
  · rw [Heredoc.announced?_later]
    rcases Heredoc.announced? pos t with _ | ⟨doc, n⟩
    · exact hsign
    · rfl

lemma chooseJoin_later (k pos : ℕ) (t : Text) :
    chooseJoin (pos + k) t = choiceLater k (chooseJoin pos t) := by
  unfold chooseJoin
  split <;> rfl

/-- A move is chosen alike at a later offset. -/
lemma choose_later (v : View) (k pos : ℕ) (c : Char) (t : Text) :
    choose v (pos + k) c t = choiceLater k (choose v pos c t) := by
  rw [choose, choose]
  refine ite_later rfl (ite_later (chooseJoin_later ..) (ite_later rfl (ite_later rfl
    (ite_later (map_lexeme_later (Lexeme.document_later ..)) (ite_later rfl
    (ite_later (map_lexeme_later (Numeral.read_later ..)) (ite_later rfl
    (ite_later (map_lexeme_later (Lexeme.var_later ..)) ?_))))))))
  cases if v.defining then Sign.findMethod? (c :: t) else none with
  | none => exact chooseLiteral_later v k pos c t
  | some name => rfl

end Scanner

end TablePack
