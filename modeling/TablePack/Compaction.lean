import TablePack.ByteLiteral
import TablePack.Error
import TablePack.LineBuffer
import TablePack.Options
import TablePack.Packed.Encoding
import TablePack.Table

/-!
# Compaction

To compact a source text is to put, in the place of each table, a statement that constructs the
packed table. All other text stays as it is; only a final newline is added where something was
packed and there was none. A table whose numbers are too large stays as written, and a table
without numbers is an error.

* `Compaction.ofText` compacts a source text;
* `Compaction.events` tells what it does, step by step.
-/

namespace TablePack

namespace Compaction

/-! ## Results -/

/-- A table that was packed. -/
structure Entry where
  name : Text
  firstLine : Nat
  lastLine : Nat
  variant : Variant
  width : Nat
  /-- The number of elements. -/
  length : Nat
  /-- The number of bytes of the statement that was there. -/
  literalBytes : Nat
  /-- The number of bytes of the packed table. -/
  packedBytes : Nat
deriving Repr, DecidableEq

/-- A table that was left as written. -/
structure Kept where
  name : Text
  firstLine : Nat
  lastLine : Nat
  reason : EncodeError
deriving Repr, DecidableEq

end Compaction

/-- A source text after its tables are packed, and what happened to each of them. -/
structure Compaction where
  source : Text
  packed : List Compaction.Entry
  kept : List Compaction.Kept
deriving Repr, DecidableEq

namespace Compaction

/-- The number of bytes by which the packed tables are smaller than the statements they came
from. -/
def savedBytes (c : Compaction) : Int :=
  c.packed.foldr (fun e n => (e.literalBytes : Int) - e.packedBytes + n) 0

/-! ## The plan -/

/-- The statement that constructs a packed table. -/
def statement (opts : Options) (receiver name : Text) (e : Encoding) : Text :=
  receiver ++ ['.'] ++ name ++ [' ', '=', ' '] ++ opts.classPath ++ [':', ':']
    ++ e.variant.name.toList ++ ".new(".toList
    ++ [',', ' '].intercalate (e.buffers.map ByteLiteral.write) ++ [')']

/-- The record of a table that stays as written. -/
def keep (source : Text) (t : Table) (reason : EncodeError) : Kept :=
  ⟨t.name, (Text.position source t.start).line, (Text.position source t.stop).line, reason⟩

/-- Which tables are packed, and how, and which ones are kept. The first table without elements
makes the whole plan fail. -/
def plan (opts : Options) (source : Text) :
    List Table → Except Error (List (Table × Encoding) × List Kept)
  | [] => .ok ([], [])
  | t :: tables =>
    match Encoding.ofNumbers opts.flatOffsets t.numbers with
    | .error .empty => .error (.emptyTable t.name (Text.position source t.start).line)
    | .error (.oversize max width) =>
      (plan opts source tables).map fun p => (p.1, keep source t (.oversize max width) :: p.2)
    | .ok encoding => (plan opts source tables).map fun p => ((t, encoding) :: p.1, p.2)

/-! ## The edits -/

/-- The edit that packs a table. -/
def edit (opts : Options) (source : Text) (t : Table) (e : Encoding) : Edit :=
  ⟨Text.position source t.start, Text.position source t.stop, statement opts t.receiver t.name e⟩

/-- The record of a packed table whose statement had `removed` bytes. -/
def entry (source : Text) (t : Table) (e : Encoding) (removed : Nat) : Entry :=
  ⟨t.name, (Text.position source t.start).line, (Text.position source t.stop).line, e.variant,
    e.width, t.numbers.length, removed, e.size⟩

/-- Makes the edits of a plan, the last one first, so that the positions before an edit stay
right. -/
def splice (opts : Options) (source : Text) (buffer : LineBuffer) :
    List (Table × Encoding) → Option (List Entry × LineBuffer)
  | [] => some ([], buffer)
  | (t, e) :: planned =>
    match splice opts source buffer planned with
    | none => none
    | some (entries, later) =>
      match later.replace? (edit opts source t e) with
      | none => none
      | some (removed, spliced) => some (entry source t e removed :: entries, spliced)

/-- Compacts a source text. -/
def ofText (opts : Options) (source : Text) : Except Error Compaction :=
  match Table.locate source opts.marker with
  | .error fault => .error (.ofFault source fault)
  | .ok tables =>
    match plan opts source tables with
    | .error e => .error e
    | .ok (planned, kept) =>
      if planned.isEmpty then .ok ⟨source, [], kept⟩
      else
        match splice opts source (LineBuffer.ofText source) planned with
        | none => .error .strayEdit
        | some (entries, buffer) => .ok ⟨buffer.toText, entries, kept⟩

end Compaction

end TablePack
