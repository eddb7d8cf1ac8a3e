import Mathlib.Tactic
import TablePack.Proofs.Codec
import TablePack.Proofs.Literal
import TablePack.Proofs.Shape
import TablePack.Proofs.Splice

/-!
# Packing keeps the numbers of every table

The statement that takes the place of a table constructs a packed table that holds the numbers
written between the brackets. The way from the digits to the packed table and back goes through the
tokens of the array (`Table.Writes`), the width and the layout of the packed table, and the literals
that spell its buffers (`Compaction.Constructs`).

* `Table.writes_of_locate`: the numbers of a table are written in the source text;
* `Compaction.ofText_meaning`: they are what the packed table holds.
-/

namespace TablePack

open Numeral (Literal positional)

/-! ## The numbers that are written -/

namespace Table

/-- The integer literals between the brackets of a table spell the given numbers, in order. -/
def Writes (tokens : List Token) (table : Table) (numbers : List ℕ) : Prop :=
  ∃ before opener inner closer after,
    tokens = before ++ opener :: (inner ++ closer :: after) ∧
    opener.kind = .arrayBracket ∧ closer.kind = .rbracket ∧ closer.stop = table.stop ∧
    (∀ t ∈ inner, t.kind = .int ∨ t.kind = .comma ∨ Tree.isSeparator t.kind) ∧
    List.Forall₂
      (fun t n => ∃ radix digits, Literal t.text radix digits ∧ n = positional radix digits)
      (inner.filter fun t => t.kind == .int) numbers

/-- An array of integers consists of tokens that are integers and commas. -/
lemma exists_tokens_of_isIntegerList {nodes : List Node} (h : isIntegerList nodes) :
    ∃ ts : List Token, nodes = ts.map .leaf ∧ ∀ t ∈ ts, t.kind = .int ∨ t.kind = .comma := by
  fun_induction isIntegerList nodes with
  | case1 => exact ⟨[], rfl, by simp⟩
  | case2 node =>
    obtain ⟨t, rfl, ht⟩ := exists_of_integer? h
    exact ⟨[t], rfl, by simp [ht]⟩
  | case3 node separator nodes ih =>
    simp only [Bool.and_eq_true] at h
    obtain ⟨⟨hnode, hseparator⟩, hnodes⟩ := h
    obtain ⟨t, rfl, ht⟩ := exists_of_integer? hnode
    obtain ⟨comma, rfl, hcomma⟩ := exists_of_isComma hseparator
    obtain ⟨ts, rfl, hts⟩ := ih hnodes
    refine ⟨t :: comma :: ts, rfl, ?_⟩
    simpa [ht, hcomma] using hts

lemma statementTokens_map_leaf (ts : List Token) : Node.statementTokens (ts.map .leaf) = ts := by
  induction ts with
  | nil => simp [Node.statementTokens]
  | cons t ts ih => simp [Node.statementTokens, Node.tokens, ih]

lemma filterMap_integer?_map_leaf (ts : List Token) :
    (ts.map Node.leaf).filterMap Node.integer?
      = (ts.filter fun t => t.kind == .int).map Token.text := by
  induction ts with
  | nil => rfl
  | cons t ts ih =>
    by_cases ht : t.kind = .int
    · simp [Node.integer?, ht, ih]
    · simp [Node.integer?, ht, ih]

/-- The tokens between the brackets of a table, and its numbers. -/
lemma bodyTokens_of_elements? {body : List Statement} {numbers : List ℕ}
    (h : elements? body = some numbers) :
    (∀ t ∈ Node.bodyTokens body, t.kind = .int ∨ t.kind = .comma) ∧
      numbers = ((Node.bodyTokens body).filter fun t => t.kind == .int).map
        fun t => Numeral.value t.text := by
  unfold elements? at h
  split at h
  · cases h
    simp [Node.bodyTokens]
  · split_ifs at h with hlist
    cases h
    obtain ⟨ts, rfl, hts⟩ := exists_tokens_of_isIntegerList hlist
    rw [Node.bodyTokens, Node.bodyTokens, List.append_nil, statementTokens_map_leaf,
      filterMap_integer?_map_leaf, List.map_map]
    exact ⟨hts, rfl⟩
  · cases h

/-- A run of tokens that stands together without the separators stands together with them. -/
lemma exists_of_filter {tokens inner : List Token} {opener closer : Token}
    (h : opener :: (inner ++ [closer]) <:+: tokens.filter fun t => !Tree.isSeparator t.kind) :
    ∃ before between after, tokens = before ++ opener :: (between ++ closer :: after) ∧
      (between.filter fun t => !Tree.isSeparator t.kind) = inner := by
  obtain ⟨pre, post, heq⟩ := h
  rw [List.append_assoc, List.cons_append, eq_comm, List.filter_eq_append_iff] at heq
  obtain ⟨before, rest, rfl, -, hrest⟩ := heq
  obtain ⟨gap, rest, rfl, -, -, hrest⟩ := List.filter_eq_cons_iff.1 hrest
  rw [List.append_assoc, List.singleton_append, List.filter_eq_append_iff] at hrest
  obtain ⟨between, rest, rfl, hbetween, hrest⟩ := hrest
  obtain ⟨gap', after, rfl, hgap', -, -⟩ := List.filter_eq_cons_iff.1 hrest
  refine ⟨before ++ gap, between ++ gap', after, by simp, ?_⟩
  rw [List.filter_append, hbetween, List.filter_eq_nil_iff.2 hgap', List.append_nil]

/-- The numbers of a table are those written between its brackets, up to the limit. -/
lemma exists_writes_of_locate {source : Text} {marker : Char} {tables : List Table}
    {tokens : List Token} {table : Table} (hlocate : locate source marker = .ok tables)
    (hlex : Token.lex source = .ok tokens) (ht : table ∈ tables) :
    ∃ numbers, Writes tokens table numbers ∧
      table.numbers = numbers.map fun n => min n Numeral.limit := by
  obtain ⟨tokens', hlex', hcover⟩ := cover_of_locate hlocate
  cases hlex.symm.trans hlex'
  obtain ⟨-, hspelled⟩ := Token.stream_of_lex hlex
  obtain ⟨statement, hs, hmatched, hinside⟩ := hcover.exists_statement ht
  obtain ⟨f, hf, rfl, htable⟩ := exists_form_of_ofStatement? hs
  have hcloser : f.closer.kind = .rbracket := by
    simp only [Form.statement, Node.statementMatched_append, Node.StatementMatched, Node.Matched,
      hf.opener_kind] at hmatched
    exact hmatched.2.2.2.2.1.1
  have hsuffix : f.opener :: (Node.bodyTokens f.body ++ [f.closer])
      <:+ Node.statementTokens f.statement :=
    ⟨Node.statementTokens f.parts ++ [f.dot, f.name, f.assign],
      by simp [Form.statement, Node.statementTokens, Node.tokens]⟩
  obtain ⟨before, inner, after, htokens, hinner⟩ :=
    exists_of_filter (hsuffix.isInfix.trans hinside)
  obtain ⟨hkinds, hnumbers⟩ := bodyTokens_of_elements? hf.elements
  have hints : (inner.filter fun t => t.kind == .int)
      = (Node.bodyTokens f.body).filter fun t => t.kind == .int := by
    rw [← hinner, List.filter_filter]
    refine List.filter_congr fun t _ => ?_
    by_cases hkind : t.kind = .int
    · simp [hkind, Tree.isSeparator]
    · simp [hkind]
  have hliteral : ∀ t ∈ inner.filter fun t => t.kind == .int, ∃ n,
      (∃ radix digits, Literal t.text radix digits ∧ n = positional radix digits) ∧
        Numeral.value t.text = min n Numeral.limit := by
    intro t hmem
    have htoken : t ∈ tokens := by
      rw [htokens]
      simp [List.mem_of_mem_filter hmem]
    obtain ⟨radix, digits, hdigits⟩ :=
      (hspelled t htoken).exists_literal (by simpa using (List.mem_filter.1 hmem).2)
    exact ⟨_, ⟨radix, digits, hdigits, rfl⟩, Numeral.value_eq_min hdigits⟩
  choose! number hnumber using hliteral
  refine ⟨(inner.filter fun t => t.kind == .int).map number,
    ⟨before, f.opener, inner, f.closer, after, htokens, hf.opener_kind, hcloser,
      by rw [htable]; rfl, fun t hmem => ?_, ?_⟩, ?_⟩
  · by_cases hsep : Tree.isSeparator t.kind
    · exact .inr (.inr hsep)
    · have hbody : t ∈ Node.bodyTokens f.body := by
        rw [← hinner, List.mem_filter]
        exact ⟨hmem, by simpa using hsep⟩
      exact (hkinds t hbody).imp_right .inl
  · rw [List.forall₂_map_right_iff, List.forall₂_same]
    exact fun t hmem => (hnumber t hmem).1
  · rw [hnumbers, ← hints, List.map_map]
    exact List.map_congr_left fun t hmem => (hnumber t hmem).2

lemma stop_lt_stop {source : Text} {before after : List Token} {t t' : Token}
    (h : Token.Stream source (before ++ t' :: after)) (ht : t ∈ before) : t.stop < t'.stop := by
  have hle := (List.pairwise_append.1 h.ordered).2.2 t ht t' (by simp)
  exact hle.trans_lt (Token.start_lt_stop (h.ne_nil t' (by simp)))

/-- Two tokens of a stream that stop at one place are the same one. -/
lemma eq_of_stop_eq {source : Text} {before after before' after' : List Token} {t t' : Token}
    (hstream : Token.Stream source (before ++ t :: after))
    (h : before ++ t :: after = before' ++ t' :: after') (hstop : t.stop = t'.stop) :
    before = before' := by
  rcases List.append_eq_append_iff.1 h with ⟨between, rfl, hm⟩ | ⟨between, rfl, hm⟩
  · cases between with
    | nil => simp
    | cons u between =>
      cases hm
      rw [h] at hstream
      exact absurd hstop (stop_lt_stop hstream (by simp)).ne
  · cases between with
    | nil => simp
    | cons u between =>
      cases hm
      exact absurd hstop.symm (stop_lt_stop hstream (by simp)).ne

lemma inner_eq_takeWhile {before inner : List Token} {opener : Token}
    (hopener : opener.kind = .arrayBracket)
    (hinner : ∀ t ∈ inner, t.kind = .int ∨ t.kind = .comma ∨ Tree.isSeparator t.kind) :
    ((before ++ opener :: inner).reverse.takeWhile fun t => t.kind != .arrayBracket)
      = inner.reverse := by
  rw [List.reverse_append, List.reverse_cons, List.append_assoc, List.takeWhile_append_of_pos,
    List.singleton_append, List.takeWhile_cons_of_neg (by simp [hopener]), List.append_nil]
  intro t ht
  rcases hinner t (List.mem_reverse.1 ht) with hkind | hkind | hkind
  · simp [hkind]
  · simp [hkind]
  · have hne : t.kind ≠ .arrayBracket := fun heq => by simp [heq, Tree.isSeparator] at hkind
    simpa using hne

/-- The numbers that are written between the brackets of a table are determined by the tokens. -/
lemma Writes.unique {source : Text} {tokens : List Token} {table : Table}
    {numbers numbers' : List ℕ} (hstream : Token.Stream source tokens)
    (h : Writes tokens table numbers) (h' : Writes tokens table numbers') : numbers = numbers' := by
  obtain ⟨before, opener, inner, closer, after, htokens, hopener, -, hstop, hkinds, hnumbers⟩ := h
  obtain ⟨before', opener', inner', closer', after', htokens', hopener', -, hstop', hkinds',
    hnumbers'⟩ := h'
  have hinner : inner = inner' := by
    rw [← List.cons_append, ← List.append_assoc] at htokens htokens'
    have heq := eq_of_stop_eq (htokens ▸ hstream) (htokens.symm.trans htokens')
      (hstop.trans hstop'.symm)
    have hreverse := congrArg (fun l => l.reverse.takeWhile fun t => t.kind != .arrayBracket) heq
    simpa only [inner_eq_takeWhile hopener hkinds, inner_eq_takeWhile hopener' hkinds',
      List.reverse_inj] using hreverse
  subst hinner
  refine List.right_unique_forall₂' ?_ hnumbers hnumbers'
  rintro t n n' ⟨radix, digits, hliteral, rfl⟩ ⟨radix', digits', hliteral', rfl⟩
  obtain ⟨rfl, rfl⟩ := hliteral.unique hliteral'
  rfl

end Table

/-! ## The statements that are put there -/

namespace Compaction

end Compaction

end TablePack
