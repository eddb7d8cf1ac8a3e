import Mathlib.Order.Monotone.Basic
import Mathlib.Tactic
import TablePack.Proofs.Stream
import TablePack.Tree.Build

/-!
# Relabelled tokens

Two texts that differ only where nothing looks have the same tokens at other offsets. A `Relabeling`
is a map on tokens that keeps their kinds and the words that are looked for, together with the map
on offsets that goes with it. `Relabeling.Keeps` is what it has to keep of a single token besides:
the order of offsets, and the texts of names, integers and brackets. Nothing is asked of the offset
of a newline.

Whatever looks at tokens then sees the same before and after a relabeling:

* `Relabeling.inRescue_map`, `Relabeling.targets_map`, `Relabeling.opened?_map` and others: what is
  remembered of the tokens;
* `Relabeling.tellBrackets_map`: how brackets are told apart;
* `Relabeling.lex_map`: the tokens of a text.

`Corresponds` is the relation between the results of two functions that may fail.
-/

namespace TablePack

open Token (Kind kindAt? isName)

/-! ## Results -/

/-- Two results: faults in the relation `E`, or values in the relation `R`. -/
inductive Corresponds (E : Fault → Fault → Prop) {α β : Type} (R : α → β → Prop) :
    Except Fault α → Except Fault β → Prop
  | ok {a : α} {b : β} : R a b → Corresponds E R (.ok a) (.ok b)
  | error {f f' : Fault} : E f f' → Corresponds E R (.error f) (.error f')

namespace Corresponds

variable {E : Fault → Fault → Prop} {α β γ δ : Type} {R : α → β → Prop} {r : Except Fault α}
  {r' : Except Fault β}

lemma map {S : γ → δ → Prop} {f : α → γ} {g : β → δ} (h : Corresponds E R r r')
    (hfg : ∀ a b, R a b → S (f a) (g b)) : Corresponds E S (r.map f) (r'.map g) := by
  cases h with
  | ok hab => exact .ok (hfg _ _ hab)
  | error hf => exact .error hf

lemma bind {S : γ → δ → Prop} {f : α → Except Fault γ} {g : β → Except Fault δ}
    (h : Corresponds E R r r') (hfg : ∀ a b, r = .ok a → R a b → Corresponds E S (f a) (g b)) :
    Corresponds E S (r.bind f) (r'.bind g) := by
  cases h with
  | ok hab => exact hfg _ _ rfl hab
  | error hf => exact .error hf

lemma ite {p : Prop} [Decidable p] {a b : Except Fault α} {a' b' : Except Fault β}
    (hpos : p → Corresponds E R a a') (hneg : ¬ p → Corresponds E R b b') :
    Corresponds E R (if p then a else b) (if p then a' else b') := by
  split
  · exact hpos ‹p›
  · exact hneg ‹¬ p›

lemma imp {E' : Fault → Fault → Prop} {S : α → β → Prop} (h : Corresponds E R r r')
    (hE : ∀ f f', E f f' → E' f f') (hR : ∀ a b, R a b → S a b) : Corresponds E' S r r' := by
  cases h with
  | ok hab => exact .ok (hR _ _ hab)
  | error hf => exact .error (hE _ _ hf)

lemma exists_of_eq_ok {a : α} (h : Corresponds E R r r') (hr : r = .ok a) :
    ∃ b, r' = .ok b ∧ R a b := by
  cases h with
  | ok hab =>
    cases hr
    exact ⟨_, rfl, hab⟩
  | error _ => cases hr

end Corresponds

/-! ## Relabelings -/

/-- The kinds of tokens whose texts are read off: names, integers, and what opens or closes a
block. -/
def Token.isFixed (k : Kind) : Bool :=
  isName k || k == .int || k == .lbracket || Tree.isCloser k || Tree.isBracket k

/-- A map on tokens and the map on offsets that goes with it. -/
structure Relabeling where
  token : Token → Token
  offset : ℕ → ℕ
  /-- The offsets that keep their order. -/
  domain : Set ℕ
  kind_token : ∀ t, (token t).kind = t.kind
  token_with : ∀ (t : Token) (k : Kind), t.kind ≠ .newline → k ≠ .newline →
    token { t with kind := k } = { token t with kind := k }
  /-- Words are recognised. -/
  word_token : ∀ (t : Token) (w : Text), '\n' ∉ w → ((token t).text = w ↔ t.text = w)
  strictMonoOn : StrictMonoOn offset domain

namespace Relabeling

attribute [simp] kind_token

variable (r : Relabeling)

/-- What is kept of a token. -/
structure Keeps (t : Token) : Prop where
  text_eq : Token.isFixed t.kind → (r.token t).text = t.text
  start_mem : t.kind ≠ .newline → t.start ∈ r.domain
  start_eq : t.kind ≠ .newline → (r.token t).start = r.offset t.start
  stop_mem : t.kind ≠ .newline → t.stop ∈ r.domain
  stop_eq : t.kind ≠ .newline → (r.token t).stop = r.offset t.stop

/-- A fault, and the fault at the relabelled offset. -/
def Moves (f f' : Fault) : Prop := f.offset ∈ r.domain ∧ f' = ⟨r.offset f.offset, f.problem⟩

variable {r} {t u : Token} {recent : List Token}

/-- Two tokens touch before and after a relabeling, or neither. -/
lemma Keeps.touches (ht : r.Keeps t) (hu : r.Keeps u) (htn : t.kind ≠ .newline)
    (hun : u.kind ≠ .newline) : ((r.token u).stop == (r.token t).start) = (u.stop == t.start) := by
  rw [hu.stop_eq hun, ht.start_eq htn, Bool.eq_iff_iff, beq_iff_eq, beq_iff_eq]
  exact r.strictMonoOn.injOn.eq_iff (hu.stop_mem hun) (ht.start_mem htn)

lemma beq_word (r : Relabeling) (t : Token) {w : Text} (hw : '\n' ∉ w) :
    ((r.token t).text == w) = (t.text == w) := by
  rw [Bool.eq_iff_iff, beq_iff_eq, beq_iff_eq]
  exact r.word_token t w hw

/-- A token that is told apart is kept if the token before that is. -/
lemma Keeps.retold (h : r.Keeps t) (ht : t.kind = .lbracket) {k : Kind} (hk : k ≠ .newline) :
    r.Keeps { t with kind := k } := by
  have hne : t.kind ≠ .newline := by rw [ht]; simp
  have hwith := r.token_with t k hne hk
  refine ⟨fun _ => ?_, fun _ => h.start_mem hne, fun _ => ?_, fun _ => h.stop_mem hne, fun _ => ?_⟩
  · rw [hwith]
    exact h.text_eq (by rw [ht]; rfl)
  · rw [hwith]
    exact h.start_eq hne
  · rw [hwith]
    exact h.stop_eq hne

/-! ## Looking back -/

lemma kindAt?_map (r : Relabeling) (recent : List Token) (n : ℕ) :
    kindAt? (recent.map r.token) n = kindAt? recent n := by
  simp [kindAt?, Function.comp_def]

lemma valueExpected_map (r : Relabeling) (recent : List Token) :
    Token.valueExpected (recent.map r.token) = Token.valueExpected recent := by
  cases recent with
  | nil => rfl
  | cons t older => simp [Token.valueExpected]

lemma inDefName_map (r : Relabeling) (recent : List Token) :
    Token.inDefName (recent.map r.token) = Token.inDefName recent := by
  simp only [Token.inDefName, kindAt?_map]

lemma namesDef_map (r : Relabeling) (recent : List Token) :
    Token.namesDef (recent.map r.token) = Token.namesDef recent := by
  simp only [Token.namesDef, kindAt?_map]

lemma followsAccess_map (r : Relabeling) (recent : List Token) :
    Token.followsAccess (recent.map r.token) = Token.followsAccess recent := by
  cases recent <;> simp [Token.followsAccess]

lemma inRescue_map (r : Relabeling) (recent : List Token) :
    Token.inRescue (recent.map r.token) = Token.inRescue recent := by
  cases recent with
  | nil => rfl
  | cons t older =>
    have harrow := r.beq_word t (w := "=>".toList) (by decide)
    simp only [List.map_cons, Token.inRescue, harrow, List.takeWhile_map, List.any_map,
      Function.comp_def, kind_token]

lemma opensCall_map (ht : r.Keeps t) (hkind : t.kind ≠ .newline) (h : ∀ t ∈ recent, r.Keeps t) :
    Token.opensCall (r.token t) (recent.map r.token) = Token.opensCall t recent := by
  cases recent with
  | nil => rfl
  | cons u older =>
    simp only [Token.opensCall, List.map_cons, List.head?_cons, Option.any_some, kind_token]
    by_cases hu : u.kind = .newline
    · rw [hu]
      rfl
    · rw [ht.touches (h u List.mem_cons_self) hkind hu]

lemma collectTargets_map (h : ∀ t ∈ recent, r.Keeps t) (wanted : Bool) (names : List Text) :
    Token.collectTargets wanted names (recent.map r.token)
      = Token.collectTargets wanted names recent := by
  induction recent generalizing wanted names with
  | nil => rfl
  | cons t older ih =>
    obtain ⟨ht, holder⟩ := List.forall_mem_cons.1 h
    simp only [List.map_cons, Token.collectTargets, kind_token, ih holder, followsAccess_map]
    cases hkind : t.kind with
    | ident => simp only [ht.text_eq (by rw [hkind]; rfl)]
    | op => simp only [r.word_token t ['*'] (by decide)]
    | lparen => simp only [opensCall_map ht (by rw [hkind]; simp) holder]
    | _ => rfl

lemma targets_map (h : ∀ t ∈ recent, r.Keeps t) :
    Token.targets (recent.map r.token) = Token.targets recent :=
  collectTargets_map h true []

lemma opened?_map (r : Relabeling) (recent : List Token) :
    Parameters.opened? (recent.map r.token) = Parameters.opened? recent := by
  match recent with
  | [] => rfl
  | [t] => rfl
  | t :: u :: older =>
    have hnames := namesDef_map r (u :: older)
    have harrow := r.word_token u "->".toList (by decide)
    rw [List.map_cons] at hnames
    simp only [List.map_cons, Parameters.opened?, kind_token, hnames, harrow]

lemma track_token (r : Relabeling) (p : Parameters) (t : Token) :
    p.track (r.token t) = p.track t := by
  have hstar := r.word_token t ['*'] (by decide)
  have hpower := r.word_token t ['*', '*'] (by decide)
  have hblock := r.word_token t ['&'] (by decide)
  simp only [Parameters.track, kind_token, hstar, hpower, hblock]

/-! ## Brackets -/

lemma tellBracket_token {previous : Option Token} (h : ∀ p ∈ previous, r.Keeps p) (ht : r.Keeps t) :
    Token.tellBracket (previous.map r.token) (r.token t) = r.token (Token.tellBracket previous t) ∧
      r.Keeps (Token.tellBracket previous t) := by
  by_cases hkind : t.kind = .lbracket
  · have hne : t.kind ≠ .newline := by rw [hkind]; simp
    have htouch : (previous.map r.token).any
          (fun p => p.kind.endsPrimary && p.stop == (r.token t).start)
        = previous.any fun p => p.kind.endsPrimary && p.stop == t.start := by
      cases previous with
      | none => rfl
      | some p =>
        simp only [Option.map_some, Option.any_some, kind_token]
        by_cases hp : p.kind = .newline
        · simp [hp, Kind.endsPrimary]
        · rw [ht.touches (h p rfl) hne hp]
    rw [Token.tellBracket, Token.tellBracket, kind_token, if_pos hkind, if_pos hkind, htouch]
    split
    · exact ⟨(r.token_with t _ hne (by simp)).symm, ht.retold hkind (by simp)⟩
    · exact ⟨(r.token_with t _ hne (by simp)).symm, ht.retold hkind (by simp)⟩
  · rw [Token.tellBracket, Token.tellBracket, kind_token, if_neg hkind, if_neg hkind]
    exact ⟨rfl, ht⟩

/-- Brackets are told apart alike, and what is told apart is kept. -/
lemma tellFrom_map {tokens : List Token} {previous : Option Token} (h : ∀ t ∈ tokens, r.Keeps t)
    (hprevious : ∀ p ∈ previous, r.Keeps p) :
    Token.tellFrom (previous.map r.token) (tokens.map r.token)
        = (Token.tellFrom previous tokens).map r.token ∧
      ∀ t ∈ Token.tellFrom previous tokens, r.Keeps t := by
  induction tokens generalizing previous with
  | nil => exact ⟨rfl, List.forall_mem_nil _⟩
  | cons t tokens ih =>
    obtain ⟨ht, hrest⟩ := List.forall_mem_cons.1 h
    obtain ⟨htold, hkept⟩ := tellBracket_token hprevious ht
    obtain ⟨hmap, hall⟩ := ih hrest (by simpa using ht : ∀ p ∈ some t, r.Keeps p)
    simp only [List.map_cons, Token.tellFrom_cons, htold]
    exact ⟨congrArg _ hmap, List.forall_mem_cons.2 ⟨hkept, hall⟩⟩

lemma tellBrackets_map {tokens : List Token} (h : ∀ t ∈ tokens, r.Keeps t) :
    Token.tellBrackets (tokens.map r.token) = (Token.tellBrackets tokens).map r.token ∧
      ∀ t ∈ Token.tellBrackets tokens, r.Keeps t :=
  @tellFrom_map r tokens none h (by simp)

/-- A run that remembers relabelled tokens ends with relabelled tokens. -/
lemma lex_map {E : Fault → Fault → Prop} {source source' : Text}
    (hrun : Corresponds E
      (fun s s' => s'.recent = s.recent.map r.token ∧ ∀ t ∈ s.recent, r.Keeps t)
      (Scanner.run { rest := source }) (Scanner.run { rest := source' })) :
    Corresponds E (fun ts ts' => ts' = ts.map r.token ∧ ∀ t ∈ ts, r.Keeps t)
      (Token.lex source) (Token.lex source') := by
  rw [Token.lex_eq, Token.lex_eq]
  refine hrun.map fun s s' ⟨hrecent, hkeeps⟩ => ?_
  rw [hrecent, ← List.map_reverse]
  exact tellBrackets_map fun t ht => hkeeps t (List.mem_reverse.1 ht)

end Relabeling

end TablePack
