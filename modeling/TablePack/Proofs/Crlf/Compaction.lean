import Mathlib.Tactic
import TablePack.Proofs.Crlf.Table
import TablePack.Proofs.Literal
import TablePack.Proofs.Splice

/-!
# Compaction with carriage returns

To compact a text and to put carriage returns before its newlines can be done in either order. The
plan is the same one for both texts, the replaced pieces correspond, and a newline at the end is
added in the way in which the other lines end.

* `Compaction.plan_crlf`: the plan;
* `Text.spliced_crlf`, `Text.terminator_crlf`: the edited text;
* `Compaction.ofText_crlf`: compaction.
-/

namespace TablePack

open Text (crlfOffset Divides)

namespace Text

variable {source : Text}

/-! ## Edited texts -/

/-- Pieces of a text that correspond to pieces of the text with carriage returns. -/
lemma spliced_crlf {here : ℕ} (hhere : Divides source here) {pieces : List (ℕ × ℕ × Text)}
    (h : ∀ p ∈ pieces, Divides source p.1 ∧ Divides source p.2.1) :
    spliced source.crlf (crlfOffset source here)
        (pieces.map fun p => (crlfOffset source p.1, crlfOffset source p.2.1, p.2.2.crlf))
      = (spliced source here pieces).crlf := by
  induction pieces generalizing here with
  | nil => exact dropBytes_crlf hhere
  | cons p pieces ih =>
    obtain ⟨start, stop, new⟩ := p
    obtain ⟨⟨hstart, hstop⟩, hrest⟩ := List.forall_mem_cons.1 h
    rw [List.map_cons, spliced, spliced, ih hstop hrest, slice_crlf hhere hstart, crlf_append,
      crlf_append]

lemma returnNewlines_of_not_mem {t : Text} (hr : '\r' ∉ t) : returnNewlines t = 0 := by
  rw [returnNewlines, List.count_eq_zero]
  intro hmem
  exact hr (List.of_mem_zip hmem).1

lemma count_newline_crlf (t : Text) : (crlf t).count '\n' = t.count '\n' := by
  induction t with
  | nil => rfl
  | cons c t ih =>
    by_cases hc : c = '\n'
    · subst hc
      rw [crlf_newline, List.count_cons_of_ne (by decide), List.count_cons_self,
        List.count_cons_self, ih]
    · rw [crlf_cons hc, List.count_cons_of_ne hc, List.count_cons_of_ne hc, ih]

/-- All newlines come after carriage returns. -/
lemma returnNewlines_crlf {t : Text} (hr : '\r' ∉ t) : returnNewlines (crlf t) = t.count '\n' := by
  induction t with
  | nil => rfl
  | cons c t ih =>
    rw [List.mem_cons, not_or] at hr
    by_cases hc : c = '\n'
    · subst hc
      rw [crlf_newline, returnNewlines_cons, returnNewlines_cons, ih hr.2, List.count_cons_self,
        if_pos ⟨rfl, rfl⟩, if_neg (by simp)]
      omega
    · rw [crlf_cons hc, returnNewlines_cons, ih hr.2, List.count_cons_of_ne hc,
        if_neg fun h => hr.1 h.1.symm, Nat.zero_add]

lemma terminator_crlf (hr : '\r' ∉ source) (hn : '\n' ∈ source) :
    terminator source.crlf = (terminator source).crlf := by
  have hpos : 0 < source.count '\n' := List.count_pos_iff.2 hn
  rw [terminator, terminator, getLast?_crlf, bareNewlines, bareNewlines, count_newline_crlf,
    returnNewlines_crlf hr, returnNewlines_of_not_mem hr]
  split_ifs with hlast hmore hmore
  · rfl
  · omega
  · rfl
  · omega
  · omega

end Text

lemma Table.newline_not_mem_name {source : Text} {marker : Char} {tables : List Table}
    (h : locate source marker = .ok tables) {table : Table} (ht : table ∈ tables) :
    '\n' ∉ table.name := by
  obtain ⟨tokens, hlex, hcover⟩ := cover_of_locate h
  obtain ⟨statement, hs, -, hinside⟩ := hcover.exists_statement ht
  obtain ⟨f, hf, rfl, htable⟩ := exists_form_of_ofStatement? hs
  have hmem : f.name ∈ tokens := by
    refine (List.mem_filter.1 (hinside.subset ?_)).1
    simp [Form.statement, Node.statementTokens, Node.tokens]
  have hspelled := (Token.stream_of_lex hlex).2 f.name hmem
  rw [Token.SpelledApart, hf.name_kind, if_neg (by decide)] at hspelled
  rw [htable]
  exact hspelled.name rfl

namespace Compaction

variable {opts : Options} {source : Text}

/-! ## The plan -/

lemma plan_crlf (opts : Options) (source : Text) (tables : List Table) :
    plan opts source.crlf (tables.map (Table.crlf source))
      = (plan opts source tables).map fun p =>
          (p.1.map fun q => (q.1.crlf source, q.2), p.2) := by
  induction tables with
  | nil => rfl
  | cons t tables ih =>
    simp only [List.map_cons, plan, Table.crlf, keep, Text.position_crlf, ih]
    split
    · rfl
    · cases plan opts source tables <;> rfl
    · cases plan opts source tables <;> rfl

lemma statement_crlf (hpath : '\n' ∉ opts.classPath) (receiver : Text) {name : Text}
    (hname : '\n' ∉ name) (e : Encoding) :
    statement opts receiver.crlf name e = (statement opts receiver name e).crlf := by
  have hvariant : '\n' ∉ e.variant.name.toList := by
    cases e.variant <;> decide
  have hbuffers : '\n' ∉ [',', ' '].intercalate (e.buffers.map ByteLiteral.write) := by
    intro hmem
    exact absurd (ByteLiteral.printed_of_mem_intercalate hmem).1 (by decide)
  simp only [statement, Text.crlf_append, Text.crlf_of_not_mem hpath, Text.crlf_of_not_mem hname,
    Text.crlf_of_not_mem hvariant, Text.crlf_of_not_mem hbuffers]
  rfl

/-! ## Compaction -/

/-- The edited texts of a plan correspond. -/
lemma spliced_plan_crlf {tables : List Table} {planned : List (Table × Encoding)}
    {kept : List Kept} (hpath : '\n' ∉ opts.classPath)
    (hlocate : Table.locate source opts.marker = .ok tables)
    (hplan : plan opts source tables = .ok (planned, kept)) :
    Text.spliced source.crlf 0
        ((planned.map fun p => (p.1.crlf source, p.2)).map (piece opts))
      = (Text.spliced source 0 (planned.map (piece opts))).crlf := by
  have hmem : ∀ p ∈ planned, p.1 ∈ tables := fun p hp =>
    (sublist_of_plan hplan).subset (List.mem_map_of_mem hp)
  have hpieces : (planned.map fun p => (p.1.crlf source, p.2)).map (piece opts)
      = (planned.map (piece opts)).map fun p =>
          (crlfOffset source p.1, crlfOffset source p.2.1, p.2.2.crlf) := by
    rw [List.map_map, List.map_map]
    refine List.map_congr_left fun p hp => ?_
    have hname := Table.newline_not_mem_name hlocate (hmem p hp)
    simp only [Function.comp, piece, Table.crlf, statement_crlf hpath _ hname]
  have hdivides : ∀ p ∈ planned.map (piece opts), Divides source p.1 ∧ Divides source p.2.1 := by
    intro p hp
    obtain ⟨q, hq, rfl⟩ := List.mem_map.1 hp
    obtain ⟨before, gap, after, hdivision⟩ := Table.located_division hlocate (hmem q hq)
    obtain ⟨hsource, hstart, hstop⟩ := hdivision
    refine ⟨⟨_, before, hsource, hstart.symm⟩, after, before ++ (q.1.receiver ++ (gap ++ [']'])),
      by simp [hsource], ?_⟩
    simp only [Text.size_append, Text.size_cons, Text.size_nil, piece, hstop]
    rw [show ']'.utf8Size = 1 from rfl]
    omega
  have hzero : Divides source 0 := ⟨source, [], rfl, rfl⟩
  have hspliced := Text.spliced_crlf hzero hdivides
  rwa [Text.crlfOffset_zero, ← hpieces] at hspliced

/-- Compaction does not depend on how lines end. Where no carriage return is in a text, and no
newline is the escaped character of a character literal, the text with carriage returns fails in the
same way as the text itself, or both are compacted: the tables that are packed and those that are
kept are the same ones, on the same lines, and the results differ in their carriage returns only. -/
theorem ofText_crlf {opts : Options} {source : Text} (hreturn : '\r' ∉ source)
    (hnewline : '\n' ∈ source) (hescape : ¬ "?\\\n".toList <:+: source)
    (hpath : '\n' ∉ opts.classPath) :
    (∃ e, ofText opts source = .error e ∧ ofText opts source.crlf = .error e) ∨
    ∃ c c', ofText opts source = .ok c ∧ ofText opts source.crlf = .ok c' ∧
      c'.source = c.source.crlf ∧ c'.kept = c.kept ∧
      List.Forall₂ (fun e e' => e' = { e with literalBytes := e'.literalBytes })
        c.packed c'.packed := by
  have hagree := @Table.locate_crlf source opts.marker hreturn hescape
  cases hlocate : Table.locate source opts.marker with
  | error fault =>
    left
    rw [hlocate] at hagree
    generalize hlocate' : Table.locate source.crlf opts.marker = r' at hagree
    cases hagree
    refine ⟨.ofFault source fault, ?_, ?_⟩
    · rw [ofText, hlocate]
    · rw [ofText, hlocate', ← Error.ofFault_crlf]
  | ok tables =>
    rw [hlocate] at hagree
    generalize hlocate' : Table.locate source.crlf opts.marker = r' at hagree
    cases hagree with
    | ok htables =>
    subst htables
    have hplans := plan_crlf opts source tables
    cases hplan : plan opts source tables with
    | error e =>
      left
      rw [hplan] at hplans
      refine ⟨e, ?_, ?_⟩
      · rw [ofText, hlocate]
        simp only [hplan]
      · rw [ofText, hlocate']
        simp only [hplans, Except.map]
    | ok parts =>
      right
      obtain ⟨planned, kept⟩ := parts
      rw [hplan] at hplans
      have hspliced := spliced_plan_crlf hpath hlocate hplan
      refine ⟨_, _, ofText_of_plan hlocate hplan, ofText_of_plan hlocate' hplans, ?_, rfl, ?_⟩
      · simp only [List.map_eq_nil_iff]
        split
        · rfl
        · rw [hspliced, Text.terminator_crlf hreturn hnewline, Text.crlf_append]
      · rw [List.forall₂_map_left_iff, List.forall₂_map_right_iff, List.forall₂_map_right_iff,
          List.forall₂_same]
        intro p hp
        simp only [entry, Table.crlf, Text.position_crlf]

/-- A receiver and a table that span lines, a table that is kept, a document, and no newline at the
end. -/
theorem ofText_crlf_multiline :
    ∃ c', ofText {} ("f(1,\r\n 2)._t = [1,\r\n 300]\r\nputs <<A\r\nx._t = [1]\r\nA\r\n"
          ++ "x._u = [18446744073709551616]").toList = .ok c' ∧
      c'.source = ("f(1,\r\n 2)._t = ::Ragel::Bitmap::Array16.new(\"\\x00\\x01\", \"\\x01,\")\r\n"
          ++ "puts <<A\r\nx._t = [1]\r\nA\r\nx._u = [18446744073709551616]\r\n").toList ∧
      c'.kept = [⟨"_u".toList, 7, 7, .oversize 18446744073709551616 9⟩] ∧
      List.Forall₂ (fun (e e' : Entry) => e' = { e with literalBytes := e'.literalBytes })
        [⟨"_t".toList, 1, 3, .array16, 2, 2, 23, 4⟩] c'.packed := by
  set source := ("f(1,\n 2)._t = [1,\n 300]\nputs <<A\nx._t = [1]\nA\n"
    ++ "x._u = [18446744073709551616]").toList
  have hcrlf : ("f(1,\r\n 2)._t = [1,\r\n 300]\r\nputs <<A\r\nx._t = [1]\r\nA\r\n"
      ++ "x._u = [18446744073709551616]").toList = Text.crlf source := by
    decide +kernel
  have h : ofText {} source
      = .ok ⟨("f(1,\n 2)._t = ::Ragel::Bitmap::Array16.new(\"\\x00\\x01\", \"\\x01,\")\n"
          ++ "puts <<A\nx._t = [1]\nA\nx._u = [18446744073709551616]\n").toList,
        [⟨"_t".toList, 1, 3, .array16, 2, 2, 23, 4⟩],
        [⟨"_u".toList, 7, 7, .oversize 18446744073709551616 9⟩]⟩ := by
    decide +kernel
  rcases @ofText_crlf {} source (by decide +kernel) (by decide +kernel) (by decide +kernel)
    (by decide +kernel) with ⟨e, he, -⟩ | ⟨c, c', hc, hc', hsource, hkept, hpacked⟩
  · rw [h] at he
    cases he
  · rw [← Except.ok.inj (h.symm.trans hc)] at hsource hkept hpacked
    refine ⟨c', by rw [hcrlf, hc'], ?_, hkept, hpacked⟩
    rw [hsource]
    decide +kernel

end Compaction

end TablePack
