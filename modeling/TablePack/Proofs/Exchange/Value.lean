import Mathlib.Tactic
import TablePack.Proofs.Constructor
import TablePack.Proofs.Exchange.Depth
import TablePack.Proofs.Exchange.Fence
import TablePack.Proofs.Shift

/-!
# Reading an array, and reading a constructor in its place

An assignment has an array of integers as its value. The scanner reads the array, or it reads the
constructor of a packed table that stands there instead. Both are made of quiet tokens and end with
a closing bracket, and what is remembered after them is the same: the local variables, the list of
parameters that is open, and whether the line rescues an error. Two conditions are needed: an array
that goes over several lines may end what a line has begun, and the parentheses of the constructor
may not be taken for the end of a list of parameters.

* `Scanner.quietRun_array`, `Scanner.quietRun_constructor`: both are quiet;
* `Scanner.tracked_array`, `Scanner.tracked_constructor`: the list of parameters after them;
* `Token.fence_array`, `Token.fence_constructor`: the look back over them.
-/

namespace TablePack

open Token (Kind kindAt? Fence)
open Piece (tokensAt)

/-! ## The tokens of an array -/

/-- The tokens of an array of integers, as they are read at first. -/
structure Token.IsArray (opener : Token) (inner : List Token) (closer : Token) : Prop where
  opener_kind : opener.kind = .lbracket
  opener_text : opener.text = ['[']
  inner_kind : ∀ t ∈ inner,
    t.kind = .int ∨ t.kind = .comma ∨ t.kind = .newline ∨ t.kind = .semi
  closer_kind : closer.kind = .rbracket
  closer_text : closer.text = [']']

namespace Scanner

/-- The kinds of tokens that are quiet after any other token. -/
def isQuiet : Kind → Bool
  | .int | .comma | .newline | .semi | .lbracket | .rbracket | .rparen | .colons | .dot => true
  | _ => false

variable {older : List Token} {t : Token} {ts us : List Token}

lemma opened?_eq_none (hparen : t.kind ≠ .lparen) (hpipe : t.kind ≠ .pipe) (older : List Token) :
    Parameters.opened? (t :: older) = none := by
  cases older with
  | nil => rfl
  | cons u older =>
    unfold Parameters.opened?
    split <;> simp_all

lemma quiet_of_isQuiet (h : isQuiet t.kind) (older : List Token) : Quiet true older t := by
  have hne : ∀ k, isQuiet k = false → t.kind ≠ k := by
    rintro k hk rfl
    rw [h] at hk
    cases hk
  have hword : isWord t.kind = false := by
    cases hkind : t.kind with
    | ident => exact absurd hkind (hne _ rfl)
    | const => exact absurd hkind (hne _ rfl)
    | keyword k => exact absurd hkind (hne _ rfl)
    | _ => rfl
  refine ⟨fun hkind => absurd hkind (hne _ rfl), fun hk => ?_,
    fun hk => absurd hk (not_or.2 ⟨hne _ rfl, hne _ rfl⟩),
    opened?_eq_none (hne _ rfl) (hne _ rfl) older, fun hkind => absurd hkind (hne _ rfl)⟩
  rw [hword] at hk
  cases hk

lemma quietRun_append (older ts us : List Token) :
    QuietRun older (ts ++ us) ↔ QuietRun older ts ∧ QuietRun (ts.reverse ++ older) us := by
  induction ts generalizing older with
  | nil => simp [QuietRun]
  | cons t ts ih => simp [QuietRun, ih, and_assoc]

lemma quietRun_of_isQuiet (h : ∀ t ∈ ts, isQuiet t.kind) (older : List Token) :
    QuietRun older ts := by
  induction ts generalizing older with
  | nil => trivial
  | cons t ts ih =>
    obtain ⟨ht, hts⟩ := List.forall_mem_cons.1 h
    exact ⟨quiet_of_isQuiet ht older, ih hts _⟩

/-! ## The list of parameters -/

/-- The kinds of tokens after which as many brackets are open as before. -/
def isFlat : Kind → Bool
  | .int | .string | .comma | .colons | .const | .dot | .ident => true
  | _ => false

lemma tracked_append (p : Option Parameters) (ts us : List Token) :
    tracked p (ts ++ us) = tracked (tracked p ts) us := List.foldl_append

lemma tracked_none (ts : List Token) : tracked none ts = none := by
  induction ts with
  | nil => rfl
  | cons t ts ih => exact ih

lemma track_flat {p : Parameters}
    (h : isFlat t.kind ∨ (t.kind = .newline ∨ t.kind = .semi) ∧ p.ending ≠ .line) :
    ∃ expecting, p.track t = some ⟨p.ending, p.depth, expecting⟩ := by
  rcases h with h | ⟨hkind | hkind, hending⟩
  · unfold Parameters.track
    cases hkind : t.kind <;> rw [hkind] at h <;> first | exact ⟨_, rfl⟩ | cases h
  · exact ⟨p.expecting, by simp [Parameters.track, hkind, hending]⟩
  · exact ⟨p.ending == .pipe, by simp only [Parameters.track, hkind, if_neg hending]⟩

lemma tracked_flat (p : Parameters)
    (h : ∀ t ∈ ts, isFlat t.kind ∨ (t.kind = .newline ∨ t.kind = .semi) ∧ p.ending ≠ .line) :
    ∃ expecting, tracked (some p) ts = some ⟨p.ending, p.depth, expecting⟩ := by
  induction ts generalizing p with
  | nil => exact ⟨p.expecting, rfl⟩
  | cons t ts ih =>
    obtain ⟨ht, hts⟩ := List.forall_mem_cons.1 h
    obtain ⟨expecting, htrack⟩ := track_flat ht
    obtain ⟨last, hlast⟩ := ih ⟨p.ending, p.depth, expecting⟩ hts
    refine ⟨last, ?_⟩
    change tracked (p.track t) ts = _
    rw [htrack, hlast]

/-- The list of parameters after a value. -/
def afterValue (p : Option Parameters) : Option Parameters :=
  p.map fun q => { q with expecting := false }

variable {opener closer : Token} {inner : List Token}

lemma quietRun_array (h : Token.IsArray opener inner closer) (older : List Token) :
    QuietRun older (opener :: (inner ++ [closer])) := by
  refine quietRun_of_isQuiet (fun t ht => ?_) older
  rw [List.mem_cons, List.mem_append, List.mem_singleton] at ht
  rcases ht with rfl | ht | rfl
  · rw [h.opener_kind]
    rfl
  · rcases h.inner_kind t ht with hkind | hkind | hkind | hkind <;> rw [hkind] <;> rfl
  · rw [h.closer_kind]
    rfl

lemma tracked_array (h : Token.IsArray opener inner closer) {p : Option Parameters}
    (hline : (∀ t ∈ inner, t.kind ≠ .newline ∧ t.kind ≠ .semi) ∨ ∀ q ∈ p, q.ending ≠ .line) :
    tracked p (opener :: (inner ++ [closer])) = afterValue p := by
  cases p with
  | none => exact tracked_none _
  | some q =>
    have hopen : q.track opener = some ⟨q.ending, q.depth + 1, false⟩ := by
      simp only [Parameters.track, h.opener_kind]
    have hinner : ∀ t ∈ inner, isFlat t.kind ∨
        (t.kind = .newline ∨ t.kind = .semi) ∧ q.ending ≠ .line := by
      intro t ht
      rcases h.inner_kind t ht with hkind | hkind | hkind | hkind
      · exact .inl (by rw [hkind]; rfl)
      · exact .inl (by rw [hkind]; rfl)
      · refine .inr ⟨.inl hkind, hline.resolve_left (fun hnone => (hnone t ht).1 hkind) q rfl⟩
      · refine .inr ⟨.inr hkind, hline.resolve_left (fun hnone => (hnone t ht).2 hkind) q rfl⟩
    obtain ⟨expecting, hflat⟩ := tracked_flat ⟨q.ending, q.depth + 1, false⟩ hinner
    change tracked (q.track opener) (inner ++ [closer]) = _
    rw [hopen, tracked_append, hflat]
    change Parameters.track _ closer = _
    simp only [Parameters.track, h.closer_kind, Nat.add_sub_cancel, afterValue, Option.map_some]

end Scanner

/-! ## The tokens of a constructor -/

namespace Encoding

/-- The parentheses of a constructor that starts at byte `pos`. -/
def lparenAt (e : Encoding) (pos : ℕ) : Token :=
  ⟨.lparen, pos + Text.size (Piece.textOf e.front), ['(']⟩

def rparenAt (e : Encoding) (pos : ℕ) : Token :=
  ⟨.rparen, (e.lparenAt pos).stop + Text.size (Piece.textOf e.arguments), [')']⟩

/-- The tokens of its arguments. -/
def argumentsAt (e : Encoding) (pos : ℕ) : List Token :=
  tokensAt (e.lparenAt pos).stop e.arguments

lemma tokensAt_pieces (e : Encoding) (pos : ℕ) :
    tokensAt pos e.pieces
      = tokensAt pos e.front ++ (e.lparenAt pos :: (e.argumentsAt pos ++ [e.rparenAt pos])) := by
  rw [pieces, Piece.tokensAt_append, tokensAt, Piece.tokensAt_append]
  rfl

variable {e : Encoding} {pos : ℕ} {t : Token}

lemma of_mem_arguments (ht : t ∈ e.argumentsAt pos) :
    t.kind = .string ∧ t.text.head? = some '"' ∨ t.kind = .comma := by
  obtain ⟨p, hp, hkind, htext⟩ := Piece.exists_piece_of_mem ht
  rcases Piece.mem_joined hp with hp | rfl | rfl
  · obtain ⟨bytes, -, rfl⟩ := List.mem_map.1 hp
    refine .inl ⟨(Option.some.inj hkind).symm, ?_⟩
    rw [← htext]
    rfl
  · exact .inr (Option.some.inj hkind).symm
  · cases hkind

lemma argumentsAt_ne_nil (h : e.buffers ≠ []) (pos : ℕ) : e.argumentsAt pos ≠ [] := by
  intro hnil
  refine leavesAt_arguments_ne_nil h (e.lparenAt pos).stop ?_
  rw [Piece.leavesAt, ← argumentsAt, hnil]
  rfl

lemma kind_of_mem_front (ht : t ∈ tokensAt pos e.front) :
    t.kind = .colons ∨ t.kind = .const ∨ t.kind = .dot ∨ t.kind = .ident := by
  obtain ⟨p, hp, hkind, -⟩ := Piece.exists_piece_of_mem ht
  simp only [front, List.mem_cons, List.not_mem_nil, or_false] at hp
  rcases hp with rfl | rfl | rfl | rfl | rfl | rfl | rfl | rfl <;>
    simp [← Option.some.inj hkind]

/-- The kinds of the tokens of a constructor. -/
def kinds : List Kind := [.colons, .const, .dot, .ident, .lparen, .string, .comma, .rparen]

lemma kind?_mem_kinds {p : Piece} (hp : p ∈ e.pieces) {k : Kind} (hk : p.kind? = some k) :
    k ∈ kinds := by
  rw [pieces, List.mem_append, List.mem_cons, List.mem_append, List.mem_singleton] at hp
  rcases hp with hp | rfl | hp | rfl
  · simp only [front, List.mem_cons, List.not_mem_nil, or_false] at hp
    rcases hp with rfl | rfl | rfl | rfl | rfl | rfl | rfl | rfl <;> cases hk <;> decide
  · cases hk
    decide
  · rcases Piece.mem_joined hp with hp | rfl | rfl
    · obtain ⟨bytes, -, rfl⟩ := List.mem_map.1 hp
      cases hk
      decide
    · cases hk
      decide
    · cases hk
  · cases hk
    decide

lemma kind_mem_kinds (ht : t ∈ tokensAt pos e.pieces) : t.kind ∈ kinds := by
  obtain ⟨p, hp, hkind, -⟩ := Piece.exists_piece_of_mem ht
  exact kind?_mem_kinds hp hkind

lemma newline_not_mem_pieces (e : Encoding) : Piece.newline ∉ e.pieces := fun h =>
  absurd (kind?_mem_kinds h rfl) (by decide)

/-- The closing parenthesis ends the text of the constructor. -/
lemma stop_rparenAt (e : Encoding) (pos : ℕ) :
    (e.rparenAt pos).stop = pos + Text.size (Piece.textOf e.pieces) := by
  have hparen : Text.size ['('] = 1 ∧ Text.size [')'] = 1 := ⟨rfl, rfl⟩
  have htext : Piece.textOf e.pieces
      = Piece.textOf e.front ++ (['('] ++ (Piece.textOf e.arguments ++ [')'])) := by
    rw [pieces, Piece.textOf_append, Piece.textOf_cons, Piece.textOf_append]
    rfl
  simp only [htext, Text.size_append, Token.stop, rparenAt, lparenAt]
  omega

lemma scannedAt_pieces (e : Encoding) (pos : ℕ) :
    Scanner.scannedAt pos e.pieces = tokensAt pos e.pieces := by
  refine (List.map_congr_left fun t ht => ?_).trans (List.map_id _)
  have hscanned : ∀ k ∈ kinds, Scanner.scanned k = k := by decide
  rw [hscanned _ (kind_mem_kinds ht)]
  rfl

end Encoding

namespace Scanner

variable {older : List Token} {t : Token}

lemma quiet_const (ht : t.kind = .const) (h : Token.inDefName older = false) :
    Quiet true older t := by
  refine ⟨fun hkind => ?_, fun _ _ => h, by simp [ht],
    opened?_eq_none (by simp [ht]) (by simp [ht]) older, fun hkind => ?_⟩
  · rw [ht] at hkind
    cases hkind
  · rw [ht] at hkind
    cases hkind

lemma quiet_string (ht : t.kind = .string) (htext : t.text.head? ≠ some '<') :
    Quiet true older t := by
  refine ⟨fun hkind => ?_, fun hword => ?_, by simp [ht],
    opened?_eq_none (by simp [ht]) (by simp [ht]) older, fun _ => htext⟩
  · rw [ht] at hkind
    cases hkind
  · rw [ht] at hword
    cases hword

lemma quietRun_arguments (e : Encoding) (pos : ℕ) (older : List Token) :
    QuietRun older (e.argumentsAt pos) := by
  have hall : ∀ ts : List Token, (∀ t ∈ ts, t ∈ e.argumentsAt pos) →
      ∀ older, QuietRun older ts := by
    intro ts
    induction ts with
    | nil => exact fun _ _ => trivial
    | cons t ts ih =>
      intro h older
      obtain ⟨ht, hts⟩ := List.forall_mem_cons.1 h
      refine ⟨?_, ih hts _⟩
      rcases Encoding.of_mem_arguments ht with ⟨hkind, htext⟩ | hkind
      · exact quiet_string hkind (by rw [htext]; decide)
      · exact quiet_of_isQuiet (by rw [hkind]; rfl) _
  exact hall _ (fun _ ht => ht) older

/-- The tokens of a constructor are quiet. -/
lemma quietRun_constructor (e : Encoding) (pos : ℕ) (older : List Token) :
    QuietRun older (tokensAt pos e.pieces) := by
  rw [Encoding.tokensAt_pieces, quietRun_append]
  refine ⟨⟨quiet_of_isQuiet rfl _, quiet_const rfl rfl, quiet_of_isQuiet rfl _, quiet_const rfl rfl,
    quiet_of_isQuiet rfl _, quiet_const rfl rfl, quiet_of_isQuiet rfl _, ?_, trivial⟩, ?_, ?_⟩
  · refine ⟨fun _ => rfl, fun _ _ => rfl, by simp, rfl, fun hkind => ?_⟩
    cases hkind
  · -- The name before the parenthesis is called, and no method is defined under it.
    refine ⟨fun hkind => ?_, fun hword => ?_, fun hsign => ?_, rfl, fun hkind => ?_⟩
    · cases hkind
    · cases hword
    · rcases hsign with hsign | hsign <;> cases hsign
    · cases hkind
  · rw [quietRun_append]
    exact ⟨quietRun_arguments e pos _, quiet_of_isQuiet rfl _, trivial⟩

/-- After a constructor the list of parameters is the same. -/
lemma tracked_constructor (e : Encoding) (pos : ℕ) {p : Option Parameters}
    (hparen : ∀ q ∈ p, q.ending = .paren → 0 < q.depth) :
    tracked p (tokensAt pos e.pieces) = afterValue p := by
  cases p with
  | none => exact tracked_none _
  | some q =>
    have hfront : ∀ t ∈ tokensAt pos e.front, isFlat t.kind ∨
        (t.kind = .newline ∨ t.kind = .semi) ∧ q.ending ≠ .line := by
      intro t ht
      rcases Encoding.kind_of_mem_front ht with h | h | h | h <;> exact .inl (by rw [h]; rfl)
    have harguments : ∀ t ∈ e.argumentsAt pos, isFlat t.kind ∨
        (t.kind = .newline ∨ t.kind = .semi) ∧ q.ending ≠ .line := by
      intro t ht
      rcases Encoding.of_mem_arguments ht with ⟨h, -⟩ | h <;> exact .inl (by rw [h]; rfl)
    obtain ⟨first, hfirst⟩ := tracked_flat q hfront
    obtain ⟨last, hlast⟩ := tracked_flat
      ⟨q.ending, q.depth + 1, Parameters.namesAt q.ending (q.depth + 1)⟩ harguments
    have hclose : ¬ (q.ending = .paren ∧ q.depth = 0) := by
      rintro ⟨hending, hdepth⟩
      have := hparen q rfl hending
      omega
    rw [Encoding.tokensAt_pieces, tracked_append, hfirst]
    change tracked (some ⟨q.ending, q.depth + 1, Parameters.namesAt q.ending (q.depth + 1)⟩) _ = _
    rw [tracked_append, hlast]
    change Parameters.track ⟨q.ending, q.depth + 1, last⟩ (e.rparenAt pos) = _
    simp [Parameters.track, Encoding.rparenAt, afterValue, hclose]

end Scanner

/-! ## The look back -/

namespace Token

variable {opener closer : Token} {inner older : List Token}

lemma kindAt?_ne {l : List Token} {k : Kind} {n : ℕ} (hn : n < l.length) (h : ∀ t ∈ l, t.kind ≠ k) :
    kindAt? (l ++ older) n ≠ some k := by
  rw [kindAt?, List.getElem?_append_left hn, List.getElem?_eq_getElem hn, Option.map_some]
  intro hk
  exact h _ (List.getElem_mem hn) (Option.some.inj hk)

/-- Whether a line rescues an error, after tokens that end no line. -/
lemma rescuesLine_append {l : List Token} (hrescue : ∀ t ∈ l, t.kind ≠ .keyword .rescue_)
    (h : (∀ t ∈ l, t.kind ≠ .newline ∧ t.kind ≠ .semi) ∨ rescuesLine older = false) :
    rescuesLine (l ++ older) = rescuesLine older := by
  induction l with
  | nil => rfl
  | cons t l ih =>
    obtain ⟨ht, hl⟩ := List.forall_mem_cons.1 hrescue
    have htail := ih hl (h.imp_left fun hend => (List.forall_mem_cons.1 hend).2)
    rw [List.cons_append, rescuesLine, List.takeWhile_cons]
    split
    · rw [List.any_cons, beq_eq_false_iff_ne.2 ht, Bool.false_or]
      exact htail
    · rename_i hends
      rcases h with hend | hfalse
      · have := (List.forall_mem_cons.1 hend).1
        simp [this.1, this.2] at hends
      · exact hfalse.symm

/-- The tokens before an array that is assigned to a field: the sign, and the name. -/
def Assigned (older : List Token) : Prop :=
  ∃ assign name others, older = assign :: name :: others ∧ assign.kind = .assign ∧
    name.kind = .ident

lemma fence_array (h : IsArray opener inner closer) (holder : Assigned older)
    (hline : (∀ t ∈ inner, t.kind ≠ .newline ∧ t.kind ≠ .semi) ∨ rescuesLine older = false) :
    Fence ((opener :: (inner ++ [closer])).reverse ++ older) closer.stop (rescuesLine older) := by
  obtain ⟨assign, name, others, rfl, hassign, hname⟩ := holder
  set l := (opener :: (inner ++ [closer])).reverse with hl
  have hcons : l = closer :: (inner.reverse ++ [opener]) := by simp [hl]
  have hkind : ∀ k, k ∉ [Kind.int, .comma, .newline, .semi, .lbracket, .rbracket] →
      ∀ t ∈ l, t.kind ≠ k := by
    rintro k hk t ht rfl
    rw [hl, List.mem_reverse, List.mem_cons, List.mem_append, List.mem_singleton] at ht
    rcases ht with rfl | ht | rfl
    · exact hk (by rw [h.opener_kind]; decide)
    · rcases h.inner_kind t ht with ht | ht | ht | ht <;> exact hk (by rw [ht]; decide)
    · exact hk (by rw [h.closer_kind]; decide)
  have hlength : 2 ≤ l.length := by simp [hl]
  refine ⟨?_, fun n hn => ?_, ?_, fun wanted names => ?_, ?_⟩
  · rw [hcons]
    exact ⟨closer, _, rfl, .inl h.closer_kind, by rw [h.closer_text]; decide, rfl⟩
  · rw [List.append_cons l assign, List.append_cons (l ++ [assign]) name]
    refine kindAt?_ne (by simp; omega) fun t ht => ?_
    rw [List.mem_append, List.mem_append, List.mem_singleton, List.mem_singleton] at ht
    rcases ht with (ht | rfl) | rfl
    · exact hkind _ (by decide) t ht
    · simp [hassign]
    · simp [hname]
  · exact kindAt?_ne (by omega) (hkind _ (by decide))
  · rw [hcons, List.cons_append, collectTargets, h.closer_kind]
  · refine rescuesLine_append (hkind _ (by decide)) ?_
    refine hline.imp_left fun hnone t ht => ?_
    rw [hl, List.mem_reverse, List.mem_cons, List.mem_append, List.mem_singleton] at ht
    rcases ht with rfl | ht | rfl
    · simp [h.opener_kind]
    · exact hnone t ht
    · simp [h.closer_kind]

lemma fence_constructor {e : Encoding} (h : e.buffers ≠ []) (pos : ℕ) (older : List Token) :
    Fence ((tokensAt pos e.pieces).reverse ++ older) (e.rparenAt pos).stop (rescuesLine older) := by
  have hkind : ∀ k ∉ Encoding.kinds, ∀ t ∈ (tokensAt pos e.pieces).reverse, t.kind ≠ k := by
    rintro k hk t ht rfl
    exact hk (Encoding.kind_mem_kinds (List.mem_reverse.1 ht))
  obtain ⟨init, last, hlast⟩ :=
    (List.eq_nil_or_concat (e.argumentsAt pos)).resolve_left (Encoding.argumentsAt_ne_nil h pos)
  rw [List.concat_eq_append] at hlast
  have hmem : last ∈ e.argumentsAt pos := by simp [hlast]
  have hcons : (tokensAt pos e.pieces).reverse = e.rparenAt pos :: last ::
      (init.reverse ++ (e.lparenAt pos :: (tokensAt pos e.front).reverse)) := by
    rw [Encoding.tokensAt_pieces, hlast]
    simp
  have hlength : 4 ≤ (tokensAt pos e.pieces).reverse.length := by
    rw [Encoding.tokensAt_pieces]
    simp [Encoding.front, tokensAt, Piece.colons, Piece.const, Piece.dot, Piece.ident]
  refine ⟨?_, fun n hn => kindAt?_ne (by omega) (hkind _ (by decide)), ?_, fun wanted names => ?_,
    ?_⟩
  · rw [hcons]
    exact ⟨_, _, rfl, .inr rfl, by simp [Encoding.rparenAt], rfl⟩
  · rw [hcons]
    change some last.kind ≠ _
    rcases Encoding.of_mem_arguments hmem with ⟨hlast, -⟩ | hlast <;> simp [hlast]
  · rw [hcons]
    cases wanted with
    | false => rfl
    | true =>
      change collectTargets true names (last :: _) = _
      rcases Encoding.of_mem_arguments hmem with ⟨hlast, -⟩ | hlast <;>
        simp [collectTargets, hlast]
  · refine rescuesLine_append (hkind _ (by decide)) (.inl fun t ht => ?_)
    exact ⟨hkind _ (by decide) t ht, hkind _ (by decide) t ht⟩

end Token

end TablePack
