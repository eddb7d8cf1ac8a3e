import Mathlib.Tactic
import TablePack.Proofs.Flatten

/-!
# Balanced texts

Whether a text has a tree is a matter of the tokens that bound blocks, as long as all of its
keywords bound a block wherever they stand, or nowhere (`Tree.isSteady`). These tokens, the
`Tree.borders` of the text, have to be well nested. What that means is said by two grammars:
`Balanced` borders close all that they open, and `Leaves` are balanced borders with openers between
them that are never closed.

The blocks that are open while a tree is built follow the grammars token by token (`track`),
whatever is collected in them.

* `Tree.track_eq_ok_iff`, `Tree.track_eq_error_iff`: the open blocks and the grammars;
* `Tree.outcome_of_build`: the open blocks and building;
* `Tree.ofText_balanced`: which texts have a tree, and what is wrong with the others.
-/

namespace TablePack

open Token (Kind)

namespace Tree

/-! ## Borders -/

/-- The keywords that open a block wherever they stand, or never. -/
def isSteady : Keyword → Bool
  | .module_ | .class_ | .begin_ | .case_ | .end_ | .then_ | .else_ | .elsif_ | .when_ | .in_
  | .and_ | .or_ | .not_ | .return_ | .break_ | .next_ | .rescue_ | .ensure_ => true
  | _ => false

/-- The kinds of tokens that open a block wherever they stand. -/
def isOpener : Kind → Bool
  | .lparen | .indexBracket | .arrayBracket | .lbrace => true
  | .keyword .module_ | .keyword .class_ | .keyword .begin_ | .keyword .case_ => true
  | _ => false

/-- A token that opens or closes a block. -/
def isBorder (t : Token) : Bool := isOpener t.kind || isCloser t.kind

/-- The tokens that open or close a block. -/
def borders (tokens : List Token) : List Token := tokens.filter isBorder

/-- Well-nested borders: each opener has a closer of its kind, with well-nested borders between
them. -/
inductive Balanced : List Token → Prop
  | nil : Balanced []
  | block {opener closer : Token} {inner rest : List Token} : isOpener opener.kind →
      Bounds opener.kind closer.kind → Balanced inner → Balanced rest →
      Balanced (opener :: (inner ++ closer :: rest))

/-- Borders that are well nested but for some openers without a closer, the innermost one first. -/
inductive Leaves : List Token → List Token → Prop
  | balanced {ts : List Token} : Balanced ts → Leaves ts []
  | opener {before ts pending : List Token} {opener : Token} : Leaves before pending →
      isOpener opener.kind → Balanced ts → Leaves (before ++ opener :: ts) (opener :: pending)

/-- A closer that is not the one for the innermost open block, or that has no open block at all. -/
def IsStray (pending : List Token) (t : Token) : Prop :=
  isCloser t.kind ∧ ∀ opener ∈ pending.head?, ¬ Bounds opener.kind t.kind

lemma canOpen_of_isOpener {k : Kind} (h : isOpener k) : CanOpen k := by
  cases k with
  | lparen => exact .inl rfl
  | indexBracket => exact .inl rfl
  | arrayBracket => exact .inl rfl
  | lbrace => exact .inl rfl
  | keyword word =>
    refine canOpen_of_mem_blockWords ?_
    cases word <;> first | decide | cases h
  | _ => cases h

lemma Balanced.append {as bs : List Token} (ha : Balanced as) (hb : Balanced bs) :
    Balanced (as ++ bs) := by
  induction ha with
  | nil => exact hb
  | block hopener hcloser hinner _ _ ih =>
    rw [List.cons_append, List.append_assoc, List.cons_append]
    exact .block hopener hcloser hinner ih

lemma leaves_nil_iff {ts : List Token} : Leaves ts [] ↔ Balanced ts := by
  refine ⟨fun h => ?_, .balanced⟩
  cases h with
  | balanced h => exact h

lemma Leaves.push {ts pending : List Token} {t : Token} (h : Leaves ts pending)
    (ht : isOpener t.kind) : Leaves (ts ++ [t]) (t :: pending) := .opener h ht .nil

/-- A closer closes the innermost block. -/
lemma Leaves.close {ts pending : List Token} {opener t : Token} (h : Leaves ts (opener :: pending))
    (ht : Bounds opener.kind t.kind) : Leaves (ts ++ [t]) pending := by
  cases h with
  | @opener before inner _ _ hbefore hopener hinner =>
    have hblock : Balanced (opener :: (inner ++ [t])) := .block hopener ht hinner .nil
    rw [List.append_assoc, List.cons_append]
    cases hbefore with
    | balanced hb => exact .balanced (hb.append hblock)
    | opener hbefore houter hb =>
      rw [List.append_assoc, List.cons_append]
      exact .opener hbefore houter (hb.append hblock)

lemma Leaves.isOpener_of_mem {ts pending : List Token} (h : Leaves ts pending) :
    ∀ t ∈ pending, isOpener t.kind := by
  induction h with
  | balanced _ => simp
  | opener _ hopener _ ih => exact List.forall_mem_cons.2 ⟨hopener, ih⟩

/-! ## Open blocks -/

/-- The openers without a closer after some borders, when there are `pending` ones before them; or
the first closer that does not fit. -/
def track : List Token → List Token → Except Token (List Token)
  | pending, [] => .ok pending
  | pending, t :: ts =>
    if isCloser t.kind then
      match pending with
      | [] => .error t
      | opener :: outer => if t.kind = closerOf opener.kind then track outer ts else .error t
    else track (t :: pending) ts

lemma isCloser_of_isOpener {k : Kind} (h : isOpener k) : isCloser k = false := by
  unfold isOpener at h
  split at h <;> first | rfl | cases h

lemma track_opener {t : Token} (ht : isOpener t.kind) (pending ts : List Token) :
    track pending (t :: ts) = track (t :: pending) ts := by
  simp [track, isCloser_of_isOpener ht]

lemma track_closer {opener t : Token} (ht : Bounds opener.kind t.kind) (pending ts : List Token) :
    track (opener :: pending) (t :: ts) = track pending ts := by
  simp [track, (bounds_iff.1 ht).2, isCloser_closerOf]

/-- A stray closer is not what the innermost opener asks for. -/
lemma IsStray.ne_closerOf {pending : List Token} {opener t : Token}
    (h : IsStray (opener :: pending) t) (hopener : isOpener opener.kind) :
    t.kind ≠ closerOf opener.kind := fun hkind =>
  h.2 opener rfl (bounds_iff.2 ⟨canOpen_of_isOpener hopener, hkind⟩)

lemma track_stray {pending : List Token} {t : Token} (hpending : ∀ u ∈ pending, isOpener u.kind)
    (h : IsStray pending t) (ts : List Token) : track pending (t :: ts) = .error t := by
  cases pending with
  | nil => simp [track, h.1]
  | cons opener outer =>
    have hne := h.ne_closerOf (hpending opener List.mem_cons_self)
    simp [track, h.1, hne]

/-- Balanced borders leave the open blocks as they are. -/
lemma Balanced.track_append {ts : List Token} (h : Balanced ts) (pending rest : List Token) :
    track pending (ts ++ rest) = track pending rest := by
  induction h generalizing pending rest with
  | nil => rfl
  | block hopener hcloser _ _ ihinner ihrest =>
    rw [List.cons_append, track_opener hopener, List.append_assoc, ihinner, List.cons_append,
      track_closer hcloser, ihrest]

lemma Leaves.track_append {ts left : List Token} (h : Leaves ts left) (rest : List Token) :
    track [] (ts ++ rest) = track left rest := by
  induction h generalizing rest with
  | balanced h => exact h.track_append [] rest
  | opener _ hopener hts ih =>
    rw [List.append_assoc, ih, List.cons_append, track_opener hopener, hts.track_append]

/-- One border that is tracked: it is an opener, the closer of the innermost block, or stray. -/
lemma border_cases (pending : List Token) {t : Token} (ht : isBorder t) :
    isOpener t.kind ∨ (∃ opener outer, pending = opener :: outer ∧ Bounds opener.kind t.kind) ∨
      IsStray pending t := by
  rcases Bool.or_eq_true_iff.1 ht with hopener | hcloser
  · exact .inl hopener
  · cases pending with
    | nil => exact .inr (.inr ⟨hcloser, by simp⟩)
    | cons opener outer =>
      by_cases hkind : Bounds opener.kind t.kind
      · exact .inr (.inl ⟨opener, outer, rfl, hkind⟩)
      · exact .inr (.inr ⟨hcloser, by simpa using hkind⟩)

/-- What is tracked after borders that leave some openers. -/
lemma leaves_of_track {before pending ts : List Token} (h : Leaves before pending)
    (hts : ∀ t ∈ ts, isBorder t) :
    (∀ left, track pending ts = .ok left → Leaves (before ++ ts) left) ∧
      ∀ t, track pending ts = .error t → ∃ earlier later outer,
        before ++ ts = earlier ++ t :: later ∧ Leaves earlier outer ∧ IsStray outer t := by
  induction ts generalizing before pending with
  | nil =>
    refine ⟨fun left hleft => ?_, fun t ht => by cases ht⟩
    cases hleft
    simpa using h
  | cons t ts ih =>
    obtain ⟨ht, hts⟩ := List.forall_mem_cons.1 hts
    rw [List.append_cons]
    rcases border_cases pending ht with hopener | ⟨opener, outer, rfl, hkind⟩ | hstray
    · rw [track_opener hopener]
      exact ih (h.push hopener) hts
    · rw [track_closer hkind]
      exact ih (h.close hkind) hts
    · rw [track_stray h.isOpener_of_mem hstray]
      refine ⟨fun left hleft => (by cases hleft), fun u hu => ?_⟩
      cases hu
      exact ⟨before, ts, pending, by simp, h, hstray⟩

lemma track_eq_ok_iff {ts left : List Token} (hts : ∀ t ∈ ts, isBorder t) :
    track [] ts = .ok left ↔ Leaves ts left := by
  refine ⟨(leaves_of_track (.balanced .nil) hts).1 left, fun h => ?_⟩
  simpa [track] using h.track_append []

lemma track_eq_error_iff {ts : List Token} {t : Token} (hts : ∀ t ∈ ts, isBorder t) :
    track [] ts = .error t ↔ ∃ before after pending,
      ts = before ++ t :: after ∧ Leaves before pending ∧ IsStray pending t := by
  refine ⟨(leaves_of_track (.balanced .nil) hts).2 t, ?_⟩
  rintro ⟨before, after, pending, rfl, hleaves, hstray⟩
  rw [hleaves.track_append, track_stray hleaves.isOpener_of_mem hstray]

/-! ## Building -/

/-- The openers of the blocks that are open. -/
def openers (stack : Stack) : List Token := stack.map Prod.fst

/-- A token that is no keyword whose meaning depends on its place. -/
def IsSteady (t : Token) : Prop := ∀ word, t.kind = .keyword word → isSteady word

lemma step_of_opener {t : Token} (ht : isOpener t.kind) (f : Frame) (stack : Stack)
    (after : List Token) : ∃ f', step f stack t after = .ok (f', (t, f) :: stack) := by
  obtain ⟨kind, start, text⟩ := t
  cases kind with
  | lparen => exact ⟨_, rfl⟩
  | indexBracket => exact ⟨_, rfl⟩
  | arrayBracket => exact ⟨_, rfl⟩
  | lbrace => exact ⟨_, rfl⟩
  | keyword word => cases word <;> first | exact ⟨_, rfl⟩ | cases ht
  | _ => cases ht

lemma step_of_stray {stack : Stack} {t : Token}
    (hstack : ∀ u ∈ openers stack, isOpener u.kind) (ht : IsStray (openers stack) t) (f : Frame)
    (after : List Token) :
    step f stack t after = .error ⟨t.start, .unexpectedCloser t.text⟩ := by
  have hcloser := ht.1
  have hseparator := isSeparator_of_isCloser hcloser
  simp only [isSeparator, Bool.or_eq_false_iff, beq_eq_false_iff_ne] at hseparator
  unfold step
  rw [if_neg hseparator.1, if_neg hseparator.2, if_pos hcloser]
  cases stack with
  | nil => rfl
  | cons level levels =>
    have hne := ht.ne_closerOf (hstack level.1 List.mem_cons_self)
    exact if_neg hne.symm

/-- A token that is no border leaves the open blocks as they are. -/
lemma step_of_not_isBorder {t : Token} (hsteady : IsSteady t) (ht : isBorder t = false) (f : Frame)
    (stack : Stack) (after : List Token) : ∃ f', step f stack t after = .ok (f', stack) := by
  obtain ⟨kind, start, text⟩ := t
  cases kind with
  | newline =>
    unfold step
    rw [if_pos rfl]
    split_ifs
    · exact ⟨_, rfl⟩
    · exact ⟨_, rfl⟩
  | keyword word =>
    have hword := hsteady word rfl
    cases word <;> first | exact ⟨_, rfl⟩ | exact absurd hword (by decide) | cases ht
  | _ => first | exact ⟨_, rfl⟩ | cases ht

/-- The outcome of building that the openers left over at the end, or a stray closer, stand for. -/
def Outcome : Except Token (List Token) → Except Fault (List Statement) → Prop
  | .ok [], result => ∃ tree, result = .ok tree
  | .ok (opener :: _), result => result = .error ⟨opener.start, .unclosedOpener opener.text⟩
  | .error t, result => result = .error ⟨t.start, .unexpectedCloser t.text⟩

lemma Outcome.eq_ok_iff {tracked : Except Token (List Token)}
    {result : Except Fault (List Statement)} (h : Outcome tracked result) :
    (∃ tree, result = .ok tree) ↔ tracked = .ok [] := by
  cases tracked with
  | error t =>
    cases h
    simp
  | ok left =>
    cases left with
    | nil => exact iff_of_true h rfl
    | cons opener pending =>
      cases h
      simp

lemma Outcome.eq_error_iff {tracked : Except Token (List Token)}
    {result : Except Fault (List Statement)} (h : Outcome tracked result) (fault : Fault) :
    result = .error fault ↔
      (∃ t, tracked = .error t ∧ fault = ⟨t.start, .unexpectedCloser t.text⟩) ∨
      ∃ opener pending, tracked = .ok (opener :: pending) ∧
        fault = ⟨opener.start, .unclosedOpener opener.text⟩ := by
  cases tracked with
  | error t =>
    cases h
    simp [eq_comm]
  | ok left =>
    cases left with
    | nil =>
      obtain ⟨tree, rfl⟩ := h
      simp
    | cons opener pending =>
      cases h
      simp [eq_comm]

/-- The outcome of building does not depend on what is collected in the blocks. -/
lemma outcome_of_build {ts : List Token} (hsteady : ∀ t ∈ ts, IsSteady t) (f : Frame)
    (stack : Stack) (hstack : ∀ u ∈ openers stack, isOpener u.kind) :
    Outcome (track (openers stack) (borders ts)) (build f stack ts) := by
  induction ts generalizing f stack with
  | nil =>
    cases stack with
    | nil => exact ⟨_, rfl⟩
    | cons level levels => exact rfl
  | cons t ts ih =>
    obtain ⟨ht, hts⟩ := List.forall_mem_cons.1 hsteady
    by_cases hborder : isBorder t
    · rw [borders, List.filter_cons_of_pos hborder]
      rcases border_cases (openers stack) hborder with
        hopener | ⟨opener, outer, heq, hkind⟩ | hstray
      · obtain ⟨f', hstep⟩ := step_of_opener hopener f stack ts
        rw [track_opener hopener, build, hstep]
        exact ih hts f' ((t, f) :: stack) (List.forall_mem_cons.2 ⟨hopener, hstack⟩)
      · obtain ⟨⟨opener', frame⟩, levels, rfl, rfl, rfl⟩ := List.map_eq_cons_iff.1 heq
        rw [heq, track_closer hkind, build, step_of_closer (bounds_iff.1 hkind).2]
        exact ih hts _ levels (List.forall_mem_cons.1 hstack).2
      · rw [track_stray hstack hstray, build, step_of_stray hstack hstray]
        rfl
    · obtain ⟨f', hstep⟩ := step_of_not_isBorder ht (by simpa using hborder) f stack ts
      rw [borders, List.filter_cons_of_neg hborder, build, hstep]
      exact ih hts f' stack hstack

/-- A text has a tree exactly when the tokens that open and close blocks are well nested. If it has
none, the fault is at the first closer that is not the one for the innermost open block; and if
there is no such closer, at the innermost opener that is left open. -/
theorem ofText_balanced {source : Text} {tokens : List Token} (hlex : Token.lex source = .ok tokens)
    (hsteady : ∀ t ∈ tokens, IsSteady t) :
    ((∃ tree, ofText source = .ok tree) ↔ Balanced (borders tokens)) ∧
      ∀ fault, ofText source = .error fault ↔
        (∃ before t after pending, borders tokens = before ++ t :: after ∧ Leaves before pending ∧
          IsStray pending t ∧ fault = ⟨t.start, .unexpectedCloser t.text⟩) ∨
        ∃ opener pending, Leaves (borders tokens) (opener :: pending) ∧
          fault = ⟨opener.start, .unclosedOpener opener.text⟩ := by
  have hborders : ∀ t ∈ borders tokens, isBorder t := fun t ht => (List.mem_filter.1 ht).2
  have houtcome : Outcome (track [] (borders tokens)) (ofText source) := by
    rw [ofText, hlex]
    exact outcome_of_build hsteady {} [] (by simp [openers])
  refine ⟨?_, fun fault => ?_⟩
  · rw [houtcome.eq_ok_iff, track_eq_ok_iff hborders, leaves_nil_iff]
  · rw [houtcome.eq_error_iff]
    simp only [track_eq_ok_iff hborders, track_eq_error_iff hborders]
    refine or_congr_left ⟨?_, ?_⟩
    · rintro ⟨t, ⟨before, after, pending, heq, hleaves, hstray⟩, hfault⟩
      exact ⟨before, t, after, pending, heq, hleaves, hstray, hfault⟩
    · rintro ⟨before, t, after, pending, heq, hleaves, hstray, hfault⟩
      exact ⟨t, ⟨before, after, pending, heq, hleaves, hstray⟩, hfault⟩

/-- A closer that fits an open block, but not the innermost one. -/
theorem ofText_balanced_crossed :
    Token.lex "begin\n x[(1]\nend)".toList = .ok
        [⟨.keyword .begin_, 0, "begin".toList⟩, ⟨.newline, 5, ['\n']⟩, ⟨.ident, 7, ['x']⟩,
          ⟨.indexBracket, 8, ['[']⟩, ⟨.lparen, 9, ['(']⟩, ⟨.int, 10, ['1']⟩, ⟨.rbracket, 11, [']']⟩,
          ⟨.newline, 12, ['\n']⟩, ⟨.keyword .end_, 13, "end".toList⟩, ⟨.rparen, 16, [')']⟩] ∧
      ofText "begin\n x[(1]\nend)".toList = .error ⟨11, .unexpectedCloser [']']⟩ ∧
      ¬ Balanced [⟨.keyword .begin_, 0, "begin".toList⟩, ⟨.indexBracket, 8, ['[']⟩,
        ⟨.lparen, 9, ['(']⟩, ⟨.rbracket, 11, [']']⟩, ⟨.keyword .end_, 13, "end".toList⟩,
        ⟨.rparen, 16, [')']⟩] := by
  have hlex : Token.lex "begin\n x[(1]\nend)".toList = .ok
      [⟨.keyword .begin_, 0, "begin".toList⟩, ⟨.newline, 5, ['\n']⟩, ⟨.ident, 7, ['x']⟩,
        ⟨.indexBracket, 8, ['[']⟩, ⟨.lparen, 9, ['(']⟩, ⟨.int, 10, ['1']⟩, ⟨.rbracket, 11, [']']⟩,
        ⟨.newline, 12, ['\n']⟩, ⟨.keyword .end_, 13, "end".toList⟩, ⟨.rparen, 16, [')']⟩] := by
    decide +kernel
  obtain ⟨hok, herror⟩ := ofText_balanced hlex (by simp [IsSteady, isSteady])
  have hleaves : Leaves
      [⟨.keyword .begin_, 0, "begin".toList⟩, ⟨.indexBracket, 8, ['[']⟩, ⟨.lparen, 9, ['(']⟩]
      [⟨.lparen, 9, ['(']⟩, ⟨.indexBracket, 8, ['[']⟩, ⟨.keyword .begin_, 0, "begin".toList⟩] :=
    (((Leaves.balanced .nil).push rfl).push rfl).push rfl
  have hcrossed : ¬ Bounds .lparen .rbracket := fun h => by cases h
  have hfault := (herror _).2 (.inl ⟨_, ⟨.rbracket, 11, [']']⟩, _, _, rfl, hleaves, by
    simpa [IsStray, isCloser] using hcrossed, rfl⟩)
  refine ⟨hlex, hfault, fun hbalanced => ?_⟩
  obtain ⟨tree, htree⟩ := hok.2 hbalanced
  rw [hfault] at htree
  cases htree

end Tree

end TablePack
