import Mathlib.Tactic
import TablePack.Proofs.Crlf.Scan
import TablePack.Proofs.Located
import TablePack.Proofs.Relabel.Tree

/-!
# Tables with carriage returns

Putting a carriage return before each newline relabels the tokens of a text, so the text keeps its
tables. Their names and their elements lie within a line each; a receiver may span several of them,
and its carriage returns are part of it. `Table.locate_crlf` is the statement about all tables.
-/

namespace TablePack

open Text (crlfOffset Divides)

variable {source : Text}

lemma Corresponds.agree {α β : Type} {R : α → β → Prop} {r : Except Fault α} {r' : Except Fault β}
    (h : Corresponds (Token.relabelCrlf source).Moves R r r') : Agree source R r r' := by
  cases h with
  | ok hab => exact .ok hab
  | error hf =>
    obtain ⟨-, rfl⟩ := hf
    exact .error _

lemma Agree.corresponds {α β : Type} {R : α → β → Prop} {r : Except Fault α} {r' : Except Fault β}
    (h : Agree source R r r') : Corresponds (Token.relabelCrlf source).Moves R r r' := by
  cases h with
  | ok hab => exact .ok hab
  | error fault => exact .error ⟨trivial, rfl⟩

lemma Token.Placed.divides_start {t : Token} (h : t.Placed source) : Divides source t.start := by
  obtain ⟨before, after, hsource, hsize⟩ := h
  exact ⟨_, before, hsource, hsize⟩

lemma Token.Placed.divides_stop {t : Token} (h : t.Placed source) : Divides source t.stop := by
  obtain ⟨before, after, hsource, hsize⟩ := h
  refine ⟨after, before ++ t.text, by rw [hsource, List.append_assoc], ?_⟩
  rw [Text.size_append, hsize, Token.stop]

namespace Table

variable {marker : Char}

/-- A table, where it is in the text with carriage returns. -/
def crlf (source : Text) (t : Table) : Table :=
  ⟨t.name, t.receiver.crlf, t.numbers, crlfOffset source t.start, crlfOffset source t.stop⟩

/-- The receivers of tables are parts of the two texts. -/
lemma sees_crlf (source : Text) :
    (Token.relabelCrlf source).Sees (fun a b => b = a.crlf) source source.crlf :=
  fun _ _ ha hb => Text.slice_crlf ha.1.divides_start hb.1.divides_stop

lemma eq_map_crlf {tables tables' : List Table}
    (h : List.Forall₂ ((Token.relabelCrlf source).Twin fun a b => b = a.crlf) tables tables') :
    tables' = tables.map (crlf source) := by
  induction h with
  | nil => rfl
  | @cons a b _ _ hab _ ih =>
    have hb : b = a.crlf source := by
      rw [crlf, ← hab.name_eq, ← hab.receiver, ← hab.numbers_eq]
      exact congrArg₂ (Table.mk b.name b.receiver b.numbers) hab.start_eq hab.stop_eq
    rw [List.map_cons, hb, ih]

/-- The tables of the text with carriage returns. -/
lemma locate_crlf (hr : '\r' ∉ source) (hescape : ¬ "?\\\n".toList <:+: source) :
    Agree source (fun tables tables' => tables' = tables.map (crlf source)) (locate source marker)
      (locate source.crlf marker) := by
  have hlocate := @Relabeling.locate_map (Token.relabelCrlf source) _ _ marker _
    (Token.lex_crlf hr hescape).corresponds (sees_crlf source)
  exact hlocate.agree.mono fun _ _ htwins => eq_map_crlf htwins

end Table

end TablePack
