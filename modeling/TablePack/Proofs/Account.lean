import Mathlib.Data.List.TakeWhile
import Mathlib.Tactic
import TablePack.Compaction.Event
import TablePack.Proofs.Meaning
import TablePack.Proofs.Width

/-!
# What is reported of every table

A table without elements makes compaction fail. Otherwise each table is either packed or kept, and
which of the two happens is a matter of the numbers that are written between its brackets, however
large they are: whether one of them needs more than eight bytes. What is reported of a table can be
computed from the table and the text alone (`Figures.ofTable`, `keepOversize`), so it is the same
for all options that choose a layout or a class.

* `Compaction.exists_plan`: the plan for tables that all have elements;
* `Table.holdsOversize_iff`: too large a literal, and too large a number;
* `Compaction.ofText_report`: the report as a whole;
* `Compaction.events_of_ofText`, `Compaction.events_of_empty`: the events on the way say the same.
-/

namespace TablePack

/-! ## Tables that are too large -/

namespace Table

/-- A table with a number of more than eight bytes. -/
def IsOversize (t : Table) : Prop := ∃ n ∈ t.numbers, 2 ^ 64 ≤ n

instance (t : Table) : Decidable t.IsOversize :=
  inferInstanceAs (Decidable (∃ n ∈ t.numbers, 2 ^ 64 ≤ n))

/-- An integer literal between the brackets of a table spells a number of more than eight bytes. -/
def HoldsOversize (tokens : List Token) (t : Table) : Prop :=
  ∃ numbers, Writes tokens t numbers ∧ ∃ n ∈ numbers, 2 ^ 64 ≤ n

/-- Reading a literal up to the limit does not hide that it is too large. -/
lemma holdsOversize_iff {source : Text} {marker : Char} {tables : List Table} {tokens : List Token}
    {t : Table} (hlocate : locate source marker = .ok tables)
    (hlex : Token.lex source = .ok tokens) (ht : t ∈ tables) :
    HoldsOversize tokens t ↔ t.IsOversize := by
  obtain ⟨numbers, hwrites, hnumbers⟩ := exists_writes_of_locate hlocate hlex ht
  have hlimit : 2 ^ 64 ≤ Numeral.limit := by decide
  have hiff : t.IsOversize ↔ ∃ n ∈ numbers, 2 ^ 64 ≤ n := by
    rw [IsOversize, hnumbers]
    simp only [List.mem_map, exists_exists_and_eq_and, le_min_iff, hlimit, and_true]
  rw [hiff]
  constructor
  · rintro ⟨numbers', hwrites', hlarge⟩
    rwa [hwrites'.unique (Token.stream_of_lex hlex).1 hwrites] at hlarge
  · exact fun hlarge => ⟨numbers, hwrites, hlarge⟩

end Table

/-! ## The report -/

namespace Compaction

/-- What is reported of a packed table, but for its variant. -/
structure Figures where
  name : Text
  firstLine : ℕ
  lastLine : ℕ
  width : ℕ
  length : ℕ
  literalBytes : ℕ
  packedBytes : ℕ

/-- The figures of an entry. -/
def Entry.figures (e : Entry) : Figures :=
  ⟨e.name, e.firstLine, e.lastLine, e.width, e.length, e.literalBytes, e.packedBytes⟩

/-- The figures of a table. -/
def Figures.ofTable (source : Text) (t : Table) : Figures :=
  ⟨t.name, (Text.position source t.start).line, (Text.position source t.stop).line,
    byteWidth (Encoding.greatest t.numbers), t.numbers.length, t.stop - t.start,
    byteWidth (Encoding.greatest t.numbers) * t.numbers.length⟩

/-- The record of a table that is too large. -/
def keepOversize (source : Text) (t : Table) : Kept :=
  keep source t (.oversize (Encoding.greatest t.numbers) (byteWidth (Encoding.greatest t.numbers)))

/-- The plan for tables that all have elements. -/
lemma exists_plan (opts : Options) (source : Text) {tables : List Table}
    (hne : ∀ t ∈ tables, t.numbers ≠ []) :
    ∃ planned, plan opts source tables
        = .ok (planned, (tables.filter fun t => t.IsOversize).map (keepOversize source)) ∧
      planned.map (fun p => (entry source p.1 p.2 (p.1.stop - p.1.start)).figures)
        = (tables.filter fun t => ¬ t.IsOversize).map (Figures.ofTable source) := by
  induction tables with
  | nil => exact ⟨[], rfl, rfl⟩
  | cons t tables ih =>
    obtain ⟨ht, hrest⟩ := List.forall_mem_cons.1 hne
    obtain ⟨planned, hplan, hfigures⟩ := ih hrest
    by_cases hsize : t.IsOversize
    · refine ⟨planned, ?_, ?_⟩
      · rw [plan, Encoding.ofNumbers_of_oversize _ hsize,
          List.filter_cons_of_pos (by simpa using hsize), List.map_cons]
        simp only [hplan]
        rfl
      · rw [hfigures, List.filter_cons_of_neg (by simpa using hsize)]
    · have hlt : ∀ n ∈ t.numbers, n < 2 ^ 64 := by simpa [Table.IsOversize] using hsize
      obtain ⟨e, he⟩ := Encoding.exists_ofNumbers opts.flatOffsets ht hlt
      refine ⟨(t, e) :: planned, ?_, ?_⟩
      · rw [plan, he, List.filter_cons_of_neg (by simpa using hsize)]
        simp only [hplan]
        rfl
      · rw [List.map_cons, hfigures, List.filter_cons_of_pos (by simpa using hsize), List.map_cons]
        congr 1
        simp [entry, Entry.figures, Figures.ofTable, Encoding.size_of_ofNumbers he,
          Encoding.width_of_ofNumbers he]

/-- The first table without elements stops the plan. -/
lemma plan_of_empty (opts : Options) (source : Text) {before after : List Table} {t : Table}
    (hbefore : ∀ u ∈ before, u.numbers ≠ []) (ht : t.numbers = []) :
    plan opts source (before ++ t :: after)
      = .error (.emptyTable t.name (Text.position source t.start).line) := by
  induction before with
  | nil =>
    rw [List.nil_append, plan, ht]
    rfl
  | cons u before ih =>
    obtain ⟨hu, hrest⟩ := List.forall_mem_cons.1 hbefore
    rw [List.cons_append, plan, ih hrest]
    split
    · rename_i hempty
      rw [Encoding.ofNumbers_eq_empty_iff] at hempty
      exact absurd hempty hu
    · rfl
    · rfl

/-- What compaction gives when all tables have elements. -/
lemma exists_ofText {opts : Options} {source : Text} {tables : List Table}
    (hlocate : Table.locate source opts.marker = .ok tables)
    (hne : ∀ t ∈ tables, t.numbers ≠ []) :
    ∃ c, ofText opts source = .ok c ∧
      c.packed.map Entry.figures
        = (tables.filter fun t => ¬ t.IsOversize).map (Figures.ofTable source) ∧
      c.kept = (tables.filter fun t => t.IsOversize).map (keepOversize source) := by
  obtain ⟨planned, hplan, hfigures⟩ := exists_plan opts source hne
  refine ⟨_, ofText_of_plan hlocate hplan, ?_, rfl⟩
  rw [← hfigures, List.map_map]
  rfl

/-- What compaction gives when a table has no elements. -/
lemma ofText_of_empty {opts : Options} {source : Text} {before after : List Table} {t : Table}
    (hlocate : Table.locate source opts.marker = .ok (before ++ t :: after))
    (hbefore : ∀ u ∈ before, u.numbers ≠ []) (ht : t.numbers = []) :
    ofText opts source = .error (.emptyTable t.name (Text.position source t.start).line) := by
  rw [ofText, hlocate]
  simp only [plan_of_empty opts source hbefore ht]

/-- Tables either all have elements, or there is a first one that has none. -/
lemma empty_cases (tables : List Table) :
    (∀ t ∈ tables, t.numbers ≠ []) ∨ ∃ before t after, tables = before ++ t :: after ∧
      (∀ u ∈ before, u.numbers ≠ []) ∧ t.numbers = [] := by
  cases hfind : tables.find? fun t => t.numbers.isEmpty with
  | none => exact .inl (by simpa using hfind)
  | some t =>
    obtain ⟨ht, before, after, htables, hbefore⟩ := List.find?_eq_some_iff_append.1 hfind
    exact .inr ⟨before, t, after, htables, by simpa using hbefore, by simpa using ht⟩

lemma savedBytes_eq (c : Compaction) :
    c.savedBytes
      = ((c.packed.map Entry.literalBytes).sum : ℤ) - (c.packed.map Entry.packedBytes).sum := by
  obtain ⟨source, packed, kept⟩ := c
  rw [savedBytes]
  dsimp only
  induction packed with
  | nil => rfl
  | cons e packed ih =>
    rw [List.foldr_cons, ih, List.map_cons, List.map_cons, List.sum_cons, List.sum_cons]
    push_cast
    ring

/-- An entry tells of a table: its name, the lines of the text on which it starts and stops, how
many bytes its greatest number takes, and the numbers of its elements and bytes. -/
structure Entry.Reports (source : Text) (t : Table) (e : Entry) : Prop where
  name_eq : e.name = t.name
  firstLine_eq : e.firstLine = (Text.position source t.start).line
  lastLine_eq : e.lastLine = (Text.position source t.stop).line
  width_eq : e.width = byteWidth (Encoding.greatest t.numbers)
  length_eq : e.length = t.numbers.length
  literalBytes_eq : e.literalBytes = t.stop - t.start
  packedBytes_eq : e.packedBytes = e.width * e.length

/-- A record of a table that was kept tells of it. -/
structure Kept.Reports (source : Text) (t : Table) (k : Kept) : Prop where
  name_eq : k.name = t.name
  firstLine_eq : k.firstLine = (Text.position source t.start).line
  lastLine_eq : k.lastLine = (Text.position source t.stop).line

lemma Entry.reports_of_figures {source : Text} {t : Table} {e : Entry}
    (h : e.figures = Figures.ofTable source t) : e.Reports source t := by
  simp only [Entry.figures, Figures.ofTable, Figures.mk.injEq] at h
  obtain ⟨hname, hfirst, hlast, hwidth, hlength, hliteral, hbytes⟩ := h
  exact ⟨hname, hfirst, hlast, hwidth, hlength, hliteral, by rw [hbytes, hwidth, hlength]⟩

/-- All that is reported, but for the variants. -/
def figures (c : Compaction) : List Figures × List Kept × ℤ :=
  (c.packed.map Entry.figures, c.kept, c.savedBytes)

/-- What is saved can be told from the figures. -/
lemma figures_eq {c c' : Compaction}
    (hpacked : c.packed.map Entry.figures = c'.packed.map Entry.figures)
    (hkept : c.kept = c'.kept) : c.figures = c'.figures := by
  have hliteral : ∀ c : Compaction, c.packed.map Entry.literalBytes
      = (c.packed.map Entry.figures).map Figures.literalBytes := fun c => by
    rw [List.map_map]
    rfl
  have hbytes : ∀ c : Compaction, c.packed.map Entry.packedBytes
      = (c.packed.map Entry.figures).map Figures.packedBytes := fun c => by
    rw [List.map_map]
    rfl
  rw [figures, figures, savedBytes_eq, savedBytes_eq, hliteral, hbytes, hliteral, hbytes, hpacked,
    hkept]

open scoped Classical in
/-- The report accounts for every table of a text. Compaction fails exactly when a table has no
elements, and names the first such table. Otherwise the tables in which a literal is too large are
kept and all others are packed, both in the order of the text, and each is reported with the lines
on which it stood and with its sizes. All of this is the same for all options that find the same
tables. -/
theorem ofText_report {opts : Options} {source : Text} {tables : List Table}
    (hlocate : Table.locate source opts.marker = .ok tables) :
    (∀ e, ofText opts source = .error e ↔ ∃ before t after, tables = before ++ t :: after ∧
      (∀ u ∈ before, u.numbers ≠ []) ∧ t.numbers = [] ∧
      e = .emptyTable t.name (Text.position source t.start).line) ∧
    ((∀ t ∈ tables, t.numbers ≠ []) → ∃ tokens c, Token.lex source = .ok tokens ∧
      ofText opts source = .ok c ∧
      List.Forall₂ (Entry.Reports source)
        (tables.filter fun t => ¬ t.HoldsOversize tokens) c.packed ∧
      List.Forall₂ (Kept.Reports source) (tables.filter fun t => t.HoldsOversize tokens) c.kept ∧
      c.savedBytes
        = ((c.packed.map Entry.literalBytes).sum : ℤ) - (c.packed.map Entry.packedBytes).sum) ∧
    ∀ opts' : Options, opts'.marker = opts.marker →
      (ofText opts' source).map figures = (ofText opts source).map figures := by
  refine ⟨fun e => ⟨fun h => ?_, ?_⟩, fun hne => ?_, fun opts' hmarker => ?_⟩
  · rcases empty_cases tables with hne | ⟨before, t, after, rfl, hbefore, ht⟩
    · obtain ⟨c, hc, -, -⟩ := exists_ofText hlocate hne
      rw [hc] at h
      cases h
    · rw [ofText_of_empty hlocate hbefore ht] at h
      cases h
      exact ⟨before, t, after, rfl, hbefore, ht, rfl⟩
  · rintro ⟨before, t, after, rfl, hbefore, ht, rfl⟩
    exact ofText_of_empty hlocate hbefore ht
  · obtain ⟨tokens, hlex, -⟩ := Table.cover_of_locate hlocate
    obtain ⟨c, hc, hpacked, hkept⟩ := exists_ofText hlocate hne
    have hoversize : ∀ t ∈ tables, t.HoldsOversize tokens ↔ t.IsOversize := fun t ht =>
      Table.holdsOversize_iff hlocate hlex ht
    refine ⟨tokens, c, hlex, hc, ?_, ?_, savedBytes_eq c⟩
    · rw [List.filter_congr (q := fun t => ¬ t.IsOversize) fun t ht => by simp [hoversize t ht]]
      have hfigures := List.forall₂_eq_eq_eq.symm ▸ hpacked.symm
      rw [List.forall₂_map_left_iff, List.forall₂_map_right_iff] at hfigures
      exact hfigures.imp fun t e h => Entry.reports_of_figures h.symm
    · rw [List.filter_congr (q := fun t => t.IsOversize) fun t ht => by simp [hoversize t ht],
        hkept, List.forall₂_map_right_iff, List.forall₂_same]
      exact fun t _ => ⟨rfl, rfl, rfl⟩
  · have hlocate' : Table.locate source opts'.marker = .ok tables := by rw [hmarker, hlocate]
    rcases empty_cases tables with hne | ⟨before, t, after, rfl, hbefore, ht⟩
    · obtain ⟨c, hc, hpacked, hkept⟩ := exists_ofText hlocate hne
      obtain ⟨c', hc', hpacked', hkept'⟩ := exists_ofText hlocate' hne
      rw [hc, hc']
      exact congrArg Except.ok (figures_eq (hpacked'.trans hpacked.symm) (hkept'.trans hkept.symm))
    · rw [ofText_of_empty hlocate hbefore ht, ofText_of_empty hlocate' hbefore ht]

open scoped Classical in
/-- A table with a literal past the limit, before two tables on one line. -/
theorem ofText_report_saturated :
    ∃ source tables tokens c,
      source =
        "a._p = [1,\n 0x1_0000000000000000_0000000000000000]\nb._q = [65536]; c._r = [2]\n".toList ∧
      Table.locate source '_' = .ok tables ∧ (∀ t ∈ tables, t.numbers ≠ []) ∧
      Token.lex source = .ok tokens ∧ ofText {} source = .ok c ∧
      List.Forall₂ (Entry.Reports source)
        (tables.filter fun t => ¬ t.HoldsOversize tokens) c.packed ∧
      List.Forall₂ (Kept.Reports source) (tables.filter fun t => t.HoldsOversize tokens) c.kept ∧
      c.packed.map Entry.name = ["_q".toList, "_r".toList] ∧ c.kept.map Kept.name = ["_p".toList] ∧
      c.savedBytes = 20 := by
  obtain ⟨source, hsource⟩ : ∃ source, source =
    "a._p = [1,\n 0x1_0000000000000000_0000000000000000]\nb._q = [65536]; c._r = [2]\n".toList :=
    ⟨_, rfl⟩
  have hlocate : Table.locate source ({} : Options).marker
      = .ok [⟨"_p".toList, ['a'], [1, Numeral.limit], 0, 50⟩, ⟨"_q".toList, ['b'], [65536], 51, 65⟩,
        ⟨"_r".toList, ['c'], [2], 67, 77⟩] := by
    rw [hsource]
    decide +kernel
  have hsummary : (ofText {} source).map
        (fun c => (c.packed.map Entry.name, c.kept.map Kept.name, c.savedBytes))
      = .ok (["_q".toList, "_r".toList], ["_p".toList], 20) := by
    rw [hsource]
    decide +kernel
  obtain ⟨tokens, c, hlex, hc, hpacked, hkept, -⟩ := (ofText_report hlocate).2.1 (by simp)
  rw [hc] at hsummary
  simp only [Except.map, Except.ok.injEq, Prod.mk.injEq] at hsummary
  exact ⟨source, _, tokens, c, hsource, hlocate, by simp, hlex, hc, hpacked, hkept, hsummary⟩

/-! ## The events -/

/-- The event that a record of a kept table stands for. -/
def Kept.event (k : Kept) : Event := .kept k.name k.firstLine k.reason

/-- The event that an entry stands for. -/
def Entry.event (e : Entry) : Event := .packed e.name e.variant e.width e.length

lemma filterMap_ofKept? (opts : Options) (source : Text) {tables : List Table}
    (hne : ∀ t ∈ tables, t.numbers ≠ []) :
    tables.filterMap (Event.ofKept? opts source)
      = ((tables.filter fun t => t.IsOversize).map (keepOversize source)).map Kept.event := by
  induction tables with
  | nil => rfl
  | cons t tables ih =>
    obtain ⟨ht, hrest⟩ := List.forall_mem_cons.1 hne
    by_cases hsize : t.IsOversize
    · have hkept : Event.ofKept? opts source t = some (keepOversize source t).event := by
        rw [Event.ofKept?, Encoding.ofNumbers_of_oversize _ hsize]
        rfl
      rw [List.filterMap_cons_some hkept, ih hrest, List.filter_cons_of_pos (by simpa using hsize)]
      rfl
    · have hlt : ∀ n ∈ t.numbers, n < 2 ^ 64 := by simpa [Table.IsOversize] using hsize
      obtain ⟨e, he⟩ := Encoding.exists_ofNumbers opts.flatOffsets ht hlt
      have hkept : Event.ofKept? opts source t = none := by rw [Event.ofKept?, he]
      rw [List.filterMap_cons_none hkept, ih hrest, List.filter_cons_of_neg (by simpa using hsize)]

/-- Compaction tells of every table that it finds, then of every one that it keeps, both in the
order of the text, and then of the packed ones from the last to the first. -/
theorem events_of_ofText {opts : Options} {source : Text} {tables : List Table} {c : Compaction}
    (hlocate : Table.locate source opts.marker = .ok tables) (h : ofText opts source = .ok c) :
    events opts source = tables.map (Event.ofFound source)
      ++ (c.kept.map Kept.event ++ c.packed.reverse.map Entry.event) := by
  rcases empty_cases tables with hne | ⟨before, t, after, rfl, hbefore, ht⟩
  · obtain ⟨planned, hplan, -⟩ := exists_plan opts source hne
    rw [ofText_of_plan hlocate hplan] at h
    cases h
    have hjudged : (tables.takeWhile fun t => !t.numbers.isEmpty) = tables :=
      List.takeWhile_eq_self_iff.2 (by simpa using hne)
    rw [events, hlocate]
    simp only [planEvents, hplan, hjudged, filterMap_ofKept? opts source hne, ← List.map_reverse,
      List.map_map]
    rfl
  · rw [ofText_of_empty hlocate hbefore ht] at h
    cases h

/-- Where a table has no elements, compaction has told of every table that it found and of those
before this one that it would have kept. -/
theorem events_of_empty {opts : Options} {source : Text} {before after : List Table} {t : Table}
    (hlocate : Table.locate source opts.marker = .ok (before ++ t :: after))
    (hbefore : ∀ u ∈ before, u.numbers ≠ []) (ht : t.numbers = []) :
    events opts source = (before ++ t :: after).map (Event.ofFound source)
      ++ ((before.filter fun u => u.IsOversize).map (keepOversize source)).map Kept.event := by
  have hjudged : ((before ++ t :: after).takeWhile fun t => !t.numbers.isEmpty) = before := by
    rw [List.takeWhile_append_of_pos (by simpa using hbefore),
      List.takeWhile_cons_of_neg (by simp [ht]), List.append_nil]
  rw [events, hlocate]
  simp only [planEvents, plan_of_empty opts source hbefore ht, hjudged,
    filterMap_ofKept? opts source hbefore, List.append_nil]

end Compaction

end TablePack
