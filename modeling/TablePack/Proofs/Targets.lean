import Mathlib.Tactic
import TablePack.Proofs.Parameters

/-!
# Targets of an assignment

The left side of an assignment is a list of targets: names, and lists in parentheses, each with or
without a star in front. The names are found by one walk back over the tokens, which keeps no stack
of the open parentheses but only whether a name must come next. On a list of targets that is enough.
Reading it backwards, an item is wanted exactly at its end and behind a comma; what is in front of
an item is a comma, an opening parenthesis, a star or the start of the statement, so no name is
taken for a member and no parenthesis for that of a call (`Clear`).

* `Target`, `TargetList`: lists of targets, as tokens, and the names in them;
* `collectTargets_item`, `collectTargets_list`: the walk over an item and over a list;
* `targets_bound`: what an assignment binds.
-/

namespace TablePack

open Token (Kind collectTargets)

/-! ## Lists of targets -/

/-- A token of a given kind. -/
structure Token.OfKind (kind : Kind) where
  token : Token
  kind_eq : token.kind = kind := by rfl

/-- A star in front of a target. -/
structure Token.Splat where
  token : Token
  kind_eq : token.kind = .op := by rfl
  text_eq : token.text = ['*'] := by rfl

mutual

/-- A target: a name, or a list of targets in parentheses. A star may stand in front of either. -/
inductive Target where
  | name (star : Option Token.Splat) (name : Token.OfKind .ident)
  | group (star : Option Token.Splat) (opening : Token.OfKind .lparen) (list : TargetList)
      (closing : Token.OfKind .rparen)

/-- Targets with commas between them. -/
inductive TargetList where
  | one (item : Target)
  | cons (item : Target) (comma : Token.OfKind .comma) (more : TargetList)

end

/-- The tokens of a star that may be missing. -/
def Token.Splat.tokens : Option Token.Splat → List Token
  | none => []
  | some star => [star.token]

mutual

/-- The tokens of a target. -/
def Target.tokens : Target → List Token
  | .name star name => Token.Splat.tokens star ++ [name.token]
  | .group star opening list closing =>
    Token.Splat.tokens star ++ opening.token :: (list.tokens ++ [closing.token])

/-- The tokens of a list. -/
def TargetList.tokens : TargetList → List Token
  | .one item => item.tokens
  | .cons item comma more => item.tokens ++ comma.token :: more.tokens

end

mutual

/-- The names of a target, in order. -/
def Target.names : Target → List Text
  | .name _ name => [name.token.text]
  | .group _ _ list _ => list.names

/-- The names of a list, in order. -/
def TargetList.names : TargetList → List Text
  | .one item => item.names
  | .cons item _ more => item.names ++ more.names

end

namespace Token

/-- The kinds of tokens after which a statement starts. -/
def Kind.startsStatement : Kind → Bool
  | newline | semi | pipe | lbrace | keyword _ => true
  | _ => false

/-- The tokens of a history that count. -/
def withoutComments (history : List Token) : List Token :=
  history.filter fun t => t.kind != .comment

/-- A statement starts after these tokens: there are none, or the last one of them makes a start. -/
def AtStart (before : List Token) : Prop :=
  ∀ t ∈ (withoutComments before).getLast?, t.kind.startsStatement

/-! ## The walk back -/

/-- The next older token does not make a member of a name or a call of a parenthesis. -/
def Clear (older : List Token) : Prop :=
  ∀ u ∈ older.head?, u.kind ∉ [Kind.dot, .colons, .ident, .const]

variable {older : List Token} {names : List Text}

lemma Clear.followsAccess_eq (h : Clear older) : followsAccess older = false := by
  cases older with
  | nil => rfl
  | cons u older =>
    have hkind := h u rfl
    simp_all [followsAccess]

lemma Clear.opensCall_eq (h : Clear older) (t : Token) : opensCall t older = false := by
  cases older with
  | nil => rfl
  | cons u older =>
    have hkind := h u rfl
    simp_all [opensCall]

lemma clear_cons {t : Token} (h : t.kind ∉ [Kind.dot, .colons, .ident, .const]) :
    Clear (t :: older) := by
  rintro u ⟨⟩
  exact h

/-- A star hides nothing that matters. -/
lemma Clear.splat (h : Clear older) (star : Option Splat) :
    Clear ((Splat.tokens star).reverse ++ older) := by
  cases star with
  | none => exact h
  | some star => exact clear_cons (by simp [star.kind_eq])

/-- A star is passed over. -/
lemma collectTargets_splat (star : Option Splat) (wanted : Bool) :
    collectTargets wanted names ((Splat.tokens star).reverse ++ older)
      = collectTargets wanted names older := by
  cases star with
  | none => rfl
  | some star => simp [Splat.tokens, collectTargets, star.kind_eq, star.text_eq]

lemma collectTargets_name (t : OfKind .ident) (h : Clear older) :
    collectTargets true names (t.token :: older)
      = collectTargets false (names ++ [t.token.text]) older := by
  simp [collectTargets, t.kind_eq, h.followsAccess_eq]

lemma collectTargets_comma (t : OfKind .comma) :
    collectTargets false names (t.token :: older) = collectTargets true names older := by
  simp [collectTargets, t.kind_eq]

lemma collectTargets_closing (t : OfKind .rparen) :
    collectTargets true names (t.token :: older) = collectTargets true names older := by
  simp [collectTargets, t.kind_eq]

lemma collectTargets_opening (t : OfKind .lparen) (h : Clear older) :
    collectTargets false names (t.token :: older) = collectTargets false names older := by
  simp [collectTargets, t.kind_eq, h.opensCall_eq]

mutual

/-- The walk over an item takes its names, the last one first, and wants none after it. -/
lemma collectTargets_item : ∀ (item : Target) {older : List Token} (names : List Text),
    Clear older → collectTargets true names (item.tokens.reverse ++ older)
      = collectTargets false (names ++ item.names.reverse) older
  | .name star name, older, names, h => by
    rw [Target.tokens, List.reverse_append, List.append_assoc, List.reverse_singleton,
      List.singleton_append, collectTargets_name name (h.splat star), collectTargets_splat]
    rfl
  | .group star opening list closing, older, names, h => by
    have hopening : Clear (opening.token :: ((Splat.tokens star).reverse ++ older)) :=
      clear_cons (by simp [opening.kind_eq])
    -- backwards: the closing parenthesis, the list, the opening parenthesis and the star
    rw [Target.tokens, List.reverse_append, List.reverse_cons, List.reverse_append,
      List.reverse_singleton, List.singleton_append, List.append_assoc, List.append_assoc,
      List.cons_append, collectTargets_closing, List.singleton_append,
      collectTargets_list list names hopening, collectTargets_opening _ (h.splat star),
      collectTargets_splat]
    rfl

/-- The walk over a list takes its names, the last one first, and wants none after it. -/
lemma collectTargets_list : ∀ (list : TargetList) {older : List Token} (names : List Text),
    Clear older → collectTargets true names (list.tokens.reverse ++ older)
      = collectTargets false (names ++ list.names.reverse) older
  | .one item, older, names, h => collectTargets_item item names h
  | .cons item comma more, older, names, h => by
    have hcomma : Clear (comma.token :: (item.tokens.reverse ++ older)) :=
      clear_cons (by simp [comma.kind_eq])
    rw [TargetList.tokens, List.reverse_append, List.reverse_cons, List.append_assoc,
      List.append_assoc, List.singleton_append, collectTargets_list more names hcomma,
      collectTargets_comma, collectTargets_item item _ h, TargetList.names, List.reverse_append,
      List.append_assoc]

end

/-- A walk that comes to the start of the statement, and wants no name there, keeps all names. -/
lemma collectTargets_start (h : ∀ t ∈ older.head?, t.kind.startsStatement) :
    collectTargets false names older = names := by
  cases older with
  | nil => rfl
  | cons t older =>
    have hkind := h t rfl
    unfold Kind.startsStatement at hkind
    split at hkind <;> simp_all [collectTargets, keepTargets]

lemma clear_start (h : ∀ t ∈ older.head?, t.kind.startsStatement) : Clear older := by
  intro t ht hmem
  have hkind := h t ht
  have hnone : ∀ k ∈ [Kind.dot, .colons, .ident, .const], k.startsStatement = false := by decide
  rw [hnone t.kind hmem] at hkind
  cases hkind

/-- The targets of an assignment behind a list that starts a statement are its names. -/
lemma targets_eq (list : TargetList) (h : ∀ t ∈ older.head?, t.kind.startsStatement) :
    targets (list.tokens.reverse ++ older) = list.names.reverse := by
  rw [targets, collectTargets_list list [] (clear_start h), collectTargets_start h,
    List.nil_append]

end Token

/-! ## What an assignment binds -/

namespace Scanner

open Token (withoutComments AtStart)

/-- The scanner looks back at the tokens that it has read, without the comments, as it does along
every run (`Sound.recent_eq`). If these end with a list of targets at the start of a statement, an
assignment binds all names of the list, at any depth, and no other name. -/
theorem targets_bound {s : Scanner} {before list : List Token} {targets : TargetList}
    (hrecent : s.recent = withoutComments s.tokens) (htokens : s.tokens.reverse = before ++ list)
    (hbefore : AtStart before) (hlist : withoutComments list = targets.tokens) :
    (∀ x, x ∈ (s.bindNames (Token.targets s.recent)).locals ↔
        x ∈ s.locals ∨ x ∈ targets.names) ∧
      ∀ (c : Char) (t : Text) (sign : Sign), Sign.find? (c :: t) = some sign → sign.assigns →
        ∃ s', s.sign c t = .ok s' ∧ ∀ x, x ∈ s'.locals ↔ x ∈ s.locals ∨ x ∈ targets.names := by
  have hhistory : s.recent = targets.tokens.reverse ++ (withoutComments before).reverse := by
    rw [hrecent, ← List.reverse_append, ← hlist, withoutComments, withoutComments,
      withoutComments, ← List.filter_append, ← htokens, List.filter_reverse, List.reverse_reverse]
  have htargets : Token.targets s.recent = targets.names.reverse := by
    rw [hhistory]
    exact Token.targets_eq targets (by rwa [List.head?_reverse])
  have hbinds : ∀ x, x ∈ (s.bindNames (Token.targets s.recent)).locals ↔
      x ∈ s.locals ∨ x ∈ targets.names := by
    intro x
    rw [mem_locals_bindNames, htargets, List.mem_reverse]
  refine ⟨hbinds, fun c t sign hfind hassigns => ⟨s.readSign sign, ?_, ?_⟩⟩
  · rw [Scanner.sign, hfind]
    rfl
  · intro x
    change x ∈ (s.bindNames (if sign.assigns then Token.targets s.recent else [])).locals ↔ _
    rw [if_pos hassigns, hbinds]

/-- A splatted group with another one in it, and a comment behind its comma. -/
theorem targets_bound_nested :
    ∃ s : Scanner, s.recent = withoutComments s.tokens ∧
      s.tokens.reverse.map Token.text
        = ["x", "\n", "*", "(", "a", ",", "# all", "(", "b", ")", ")", ",", "c"].map
          String.toList ∧
      s.locals = [['y']] ∧
      ∀ x, x ∈ (s.bindNames (Token.targets s.recent)).locals ↔
        x = ['y'] ∨ x = ['a'] ∨ x = ['b'] ∨ x = ['c'] := by
  let before : List Token := [⟨.ident, 0, ['x']⟩, ⟨.newline, 1, ['\n']⟩]
  let front : List Token :=
    [⟨.op, 2, ['*']⟩, ⟨.lparen, 3, ['(']⟩, ⟨.ident, 4, ['a']⟩, ⟨.comma, 5, [',']⟩]
  let back : List Token :=
    [⟨.lparen, 13, ['(']⟩, ⟨.ident, 14, ['b']⟩, ⟨.rparen, 15, [')']⟩, ⟨.rparen, 16, [')']⟩,
      ⟨.comma, 17, [',']⟩, ⟨.ident, 19, ['c']⟩]
  let list : List Token := front ++ ⟨.comment, 7, "# all".toList⟩ :: back
  have hbound := @targets_bound
    { rest := ['='], tokens := (before ++ list).reverse,
      recent := (before ++ front ++ back).reverse, locals := [['y']] }
    before list
    (.cons
      (.group (some { token := ⟨.op, 2, ['*']⟩ }) { token := ⟨.lparen, 3, ['(']⟩ }
        (.cons (.name none { token := ⟨.ident, 4, ['a']⟩ }) { token := ⟨.comma, 5, [',']⟩ }
          (.one (.group none { token := ⟨.lparen, 13, ['(']⟩ }
            (.one (.name none { token := ⟨.ident, 14, ['b']⟩ }))
            { token := ⟨.rparen, 15, [')']⟩ })))
        { token := ⟨.rparen, 16, [')']⟩ })
      { token := ⟨.comma, 17, [',']⟩ }
      (.one (.name none { token := ⟨.ident, 19, ['c']⟩ })))
    rfl rfl (by rintro _ ⟨⟩; rfl) rfl
  refine ⟨_, rfl, rfl, rfl, fun x => (hbound.1 x).trans ?_⟩
  change x ∈ [['y']] ∨ x ∈ [['a'], ['b'], ['c']] ↔ _
  simp

end Scanner

end TablePack
