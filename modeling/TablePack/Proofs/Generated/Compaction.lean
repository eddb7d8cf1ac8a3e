import Mathlib.Tactic
import TablePack.Proofs.Codec
import TablePack.Proofs.Constructor
import TablePack.Proofs.Generated.Table
import TablePack.Proofs.Splice

/-!
# Compaction of generated files

All tables of a generated file are packed, since their numbers are neither missing nor too large,
and nothing else is changed: what comes out is again a file of setters, with one line for each
table. The values of these setters are constructors, so no table is found in the file again, and
another compaction leaves it as it is.

* `Generated.plan_tablesAt`: every table is packed;
* `Generated.spliced_tablesAt`: what takes the place of the tables;
* `Generated.locate_packedFile`: the packed file has no tables;
* `Compaction.ofText_generated`: what becomes of a generated file.
-/

namespace TablePack

open Text (size)
open Piece (textOf)

namespace Generated

variable (opts : Options) {gs : List Generated} {es : List Encoding}

/-- The line of a packed table. -/
def packedLine (opts : Options) (g : Generated) (e : Encoding) : Text :=
  spaces g.indent ++ Compaction.statement opts "self".toList g.name e

/-! ## The plan -/

lemma exists_encodings (flat : Bool) (gs : List Generated) :
    ∃ es, List.Forall₂ (fun g e => Encoding.ofNumbers flat g.numbers = .ok e) gs es := by
  induction gs with
  | nil => exact ⟨[], .nil⟩
  | cons g gs ih =>
    obtain ⟨es, hes⟩ := ih
    obtain ⟨e, he⟩ := Encoding.exists_ofNumbers flat g.numbers_ne g.numbers_lt
    exact ⟨e :: es, .cons he hes⟩

/-- Every table is packed. -/
lemma plan_tablesAt (source : Text) (pos : ℕ)
    (h : List.Forall₂ (fun g e => Encoding.ofNumbers opts.flatOffsets g.numbers = .ok e) gs es) :
    Compaction.plan opts source (tablesAt pos gs) = .ok ((tablesAt pos gs).zip es, []) := by
  induction h generalizing pos with
  | nil => rfl
  | cons hg _ ih =>
    rw [tablesAt, Compaction.plan]
    simp only [tableAt, hg, ih]
    rfl

lemma map_name_tablesAt {R : Generated → Encoding → Prop} (h : List.Forall₂ R gs es) (pos : ℕ) :
    ((tablesAt pos gs).zip es).map (fun p => p.1.name) = gs.map name := by
  induction h generalizing pos with
  | nil => rfl
  | cons _ _ ih => rw [tablesAt, List.zip_cons_cons, List.map_cons, ih, List.map_cons, tableAt]

/-! ## The packed file -/

/-- The gaps between the tables stay, and each table becomes its constructor. -/
lemma spliced_tablesAt {R : Generated → Encoding → Prop} (h : List.Forall₂ R gs es)
    {source after : Text} (before gap : Text)
    (hsource : source
      = before ++ (gap ++ (textOf ((gs.map setter).flatMap Setter.line) ++ after))) :
    Text.spliced source (size before)
        (((tablesAt (size before + size gap) gs).zip es).map (Compaction.piece opts))
      = gap ++ ((List.zipWith (packedLine opts) gs es).flatMap (· ++ ['\n']) ++ after) := by
  induction h generalizing before gap with
  | nil =>
    rw [hsource]
    exact Text.dropBytes_size_append before _
  | @cons g e gs es _ _ ih =>
    -- the part up to the next table, and the place after that table
    have hslice : Text.slice source (size before) (size before + size gap + g.indent)
        = gap ++ spaces g.indent := by
      have hparts : source = before ++ ((gap ++ spaces g.indent) ++ (g.text ++ ['\n']
          ++ (textOf ((gs.map setter).flatMap Setter.line) ++ after))) := by
        rw [hsource, List.map_cons, List.flatMap_cons, Piece.textOf_append, textOf_line]
        simp only [List.append_assoc]
      have hsize : size before + size gap + g.indent
          = size before + size (gap ++ spaces g.indent) := by
        rw [Text.size_append, size_spaces, Nat.add_assoc]
      rw [hparts, hsize]
      exact Text.slice_append _ _ _
    have hrest := ih (before ++ gap ++ spaces g.indent ++ g.text) ['\n'] (by
      rw [hsource, List.map_cons, List.flatMap_cons, Piece.textOf_append, textOf_line]
      simp only [List.append_assoc])
    have hline : size (textOf g.setter.line) = g.indent + (size g.text + size ['\n']) := by
      rw [textOf_line, Text.size_append, Text.size_append, size_spaces]
    simp only [Text.size_append, size_spaces] at hrest
    rw [tablesAt, List.zip_cons_cons, List.map_cons, Compaction.piece, Text.spliced, tableAt,
      hslice, hline, ← Nat.add_assoc, ← Nat.add_assoc, hrest, List.zipWith_cons_cons,
      List.flatMap_cons, packedLine]
    simp only [name, List.append_assoc]

/-- The packed file is a file of constructors. -/
lemma exists_setters {opts : Options} {flat : Bool}
    (hopts : opts.classPath = "::Ragel::Bitmap".toList)
    (h : List.Forall₂ (fun g e => Encoding.ofNumbers flat g.numbers = .ok e) gs es) :
    ∃ ls : List Setter, (∀ l ∈ ls, l.Silent) ∧
      textOf (ls.flatMap Setter.line)
        = (List.zipWith (packedLine opts) gs es).flatMap (· ++ ['\n']) := by
  induction h with
  | nil => exact ⟨[], by simp, rfl⟩
  | @cons g e gs es hg _ ih =>
    obtain ⟨ls, hsilent, htext⟩ := ih
    refine ⟨e.constructor (Encoding.buffers_ne_nil hg) g.indent g.stem g.isNameChar_stem :: ls,
      List.forall_mem_cons.2 ⟨Encoding.silent_constructor, hsilent⟩, ?_⟩
    rw [List.flatMap_cons, Piece.textOf_append, Encoding.textOf_constructor hopts, htext,
      List.zipWith_cons_cons, List.flatMap_cons, packedLine]
    simp only [spaces, name, List.append_assoc]

/-- There is no table in the packed file. -/
lemma locate_packedFile {opts : Options} {flat : Bool}
    (hopts : opts.classPath = "::Ragel::Bitmap".toList)
    (h : List.Forall₂ (fun g e => Encoding.ofNumbers flat g.numbers = .ok e) gs es)
    (marker : Char) :
    Table.locate (file (List.zipWith (packedLine opts) gs es)) marker = .ok [] := by
  obtain ⟨ls, hsilent, htext⟩ := exists_setters hopts h
  have hfile : file (List.zipWith (packedLine opts) gs es) = textOf (Setter.file ls) := by
    rw [Setter.textOf_file, htext]
    exact List.append_assoc _ _ _
  rw [hfile, Setter.locate_of_silent hsilent]

lemma terminator_source (gs : List Generated) : Text.terminator (source gs) = [] := by
  have hlast : (source gs).getLast? = some '\n' := by
    refine (congrArg List.getLast? (source_eq gs)).trans ?_
    simp [Setter.file, Piece.newline, List.getLast?_cons, List.getLast?_append]
  rw [Text.terminator, if_pos hlast]

/-- What the packed tables are spliced to. -/
lemma spliced_source
    (h : List.Forall₂ (fun g e => Encoding.ofNumbers opts.flatOffsets g.numbers = .ok e) gs es) :
    Text.spliced (source gs) 0 (((tablesAt 14 gs).zip es).map (Compaction.piece opts))
      = file (List.zipWith (packedLine opts) gs es) := by
  have hsource : source gs = [] ++ ("module Parser\n".toList
      ++ (textOf ((gs.map setter).flatMap Setter.line) ++ "end\n".toList)) := by
    rw [source_eq, Setter.textOf_file, List.nil_append]
  have hspliced := spliced_tablesAt opts h [] _ hsource
  exact hspliced.trans (List.append_assoc _ _ _).symm

end Generated

namespace Compaction

open Generated (spaces)

/-- Generated files are handled as they are meant to be. Their tables are found in order, each with
its numbers and its lines. All of them are packed, each in its place and at its indentation, and the
rest of the file stays. No table is found in the packed file, so it is not changed any more. -/
theorem ofText_generated (flat : Bool) (tables : List Generated) :
    ∃ found encodings c,
      Table.locate (Generated.source tables) '_' = .ok found ∧
      found.map (fun t => (t.name, t.receiver, t.numbers,
          (Text.position (Generated.source tables) t.start).line,
          (Text.position (Generated.source tables) t.stop).line)) = Generated.spans 2 tables ∧
      List.Forall₂ (fun g e => Encoding.ofNumbers flat g.numbers = .ok e) tables encodings ∧
      ofText { flatOffsets := flat } (Generated.source tables) = .ok c ∧
      c.source = Generated.file (List.zipWith (fun g e => spaces g.indent
        ++ statement { flatOffsets := flat } "self".toList g.name e) tables encodings) ∧
      c.packed.map Entry.name = tables.map Generated.name ∧ c.kept = [] ∧
      (∀ marker, Table.locate c.source marker = .ok []) ∧
      ∀ opts, ofText opts c.source = .ok ⟨c.source, [], []⟩ := by
  obtain ⟨encodings, hencodings⟩ := Generated.exists_encodings flat tables
  set opts : Options := { flatOffsets := flat }
  have hlocate : Table.locate (Generated.source tables) opts.marker
      = .ok (Generated.tablesAt 14 tables) := Generated.locate_source tables
  have hplan := Generated.plan_tablesAt opts (Generated.source tables) 14 hencodings
  have hspliced := Generated.spliced_source opts hencodings
  have hpacked : ∀ marker, Table.locate (Generated.file (List.zipWith (Generated.packedLine opts)
      tables encodings)) marker = .ok [] := Generated.locate_packedFile rfl hencodings
  have hcompaction := ofText_of_plan hlocate hplan
  have hsource : (if (Generated.tablesAt 14 tables).zip encodings = [] then Generated.source tables
      else Text.spliced (Generated.source tables) 0
          (((Generated.tablesAt 14 tables).zip encodings).map (piece opts))
        ++ Text.terminator (Generated.source tables))
      = Generated.file (List.zipWith (Generated.packedLine opts) tables encodings) := by
    rw [hspliced, Generated.terminator_source, List.append_nil]
    -- where nothing is packed there are no tables
    split_ifs with hnil
    · cases hencodings with
      | nil => rfl
      | cons _ _ => cases hnil
    · rfl
  rw [hsource] at hcompaction
  refine ⟨_, encodings, _, hlocate, ?_, hencodings, hcompaction, rfl, ?_, rfl, hpacked, ?_⟩
  · exact Generated.map_tablesAt tables "module Parser\n".toList
      ((Generated.source_eq tables).trans (Setter.textOf_file _))
  · rw [List.map_map]
    exact Generated.map_name_tablesAt hencodings 14
  · intro opts'
    exact ofText_of_plan (hpacked opts'.marker) rfl

/-- A table in rows, the last of which is short, and a table on one line. -/
theorem ofText_generated_rows :
    ∃ tables found c,
      Generated.source tables = ("module Parser\n  self._keys = [\n    0, 10,\n    300,\n  ]\n"
        ++ "  self._ids2 = [7, 18446744073709551615]\nend\n").toList ∧
      Table.locate (Generated.source tables) '_' = .ok found ∧
      found.map (fun t => (t.name, t.receiver, t.numbers,
          (Text.position (Generated.source tables) t.start).line,
          (Text.position (Generated.source tables) t.stop).line))
        = [("_keys".toList, "self".toList, [0, 10, 300], 2, 5),
          ("_ids2".toList, "self".toList, [7, 18446744073709551615], 6, 6)] ∧
      ofText { flatOffsets := false } (Generated.source tables) = .ok c ∧
      c.packed.map Entry.name = ["_keys".toList, "_ids2".toList] ∧ c.kept = [] ∧
      ofText {} c.source = .ok ⟨c.source, [], []⟩ := by
  obtain ⟨tables, htables⟩ : ∃ tables : List Generated, tables =
      [⟨['k', 'e', 'y', 's'], [0, 10, 300], 2, .wrapped 2 4 2 (by decide), by simp,
          by simp, by simp, by simp⟩,
        ⟨['i', 'd', 's', '2'], [7, 18446744073709551615], 2, .oneLine, by simp,
          by simp, by simp, by simp⟩] := ⟨_, rfl⟩
  have hrows : Generated.rows 2 [0, 10, 300] = [[0, 10], [300]] := by simp [Generated.rows]
  obtain ⟨found, encodings, c, hlocate, hspans, -, hc, -, hnames, hkept, -, hagain⟩ :=
    ofText_generated false tables
  refine ⟨tables, found, c, ?_, hlocate, ?_, hc, ?_, hkept, hagain {}⟩
  · rw [htables]
    simp only [Generated.source, List.map_cons, List.map_nil, Generated.text, Generated.arrayText,
      hrows]
    decide +kernel
  · rw [hspans, htables]
    rfl
  · rw [hnames, htables]
    rfl

end Compaction

end TablePack
