import TablePack.Compaction
import TablePack.Json
import TablePack.Path

/-!
# Reports

What compaction would do to some files. A report is written by a `Report.Writer`, which may fail:
not every path is a text. `Report.json` is the writer of the program.
-/

namespace TablePack

/-- The report on a file: what is packed, and what is kept. -/
structure Report where
  path : Path
  packed : List Compaction.Entry
  kept : List Compaction.Kept
deriving DecidableEq

namespace Report

/-- Writes some reports as one text, or tells why this cannot be done. -/
abbrev Writer := List Report → Except String String

/-- The report on the compaction of a file. -/
def ofFile (path : Path) (c : Compaction) : Report := ⟨path, c.packed, c.kept⟩

/-! ## JSON -/

/-- A packed table as a value. -/
def ofEntry (e : Compaction.Entry) : Json.Value :=
  .object
    [("name".toList, .string e.name), ("start_line".toList, .number e.firstLine),
     ("end_line".toList, .number e.lastLine), ("variant".toList, .string e.variant.name.toList),
     ("width".toList, .number e.width), ("len".toList, .number e.length),
     ("literal_bytes".toList, .number e.literalBytes),
     ("packed_bytes".toList, .number e.packedBytes)]

/-- A table that was left as written as a value. -/
def ofKept (k : Compaction.Kept) : Json.Value :=
  .object
    [("name".toList, .string k.name), ("start_line".toList, .number k.firstLine),
     ("end_line".toList, .number k.lastLine), ("reason".toList, .string k.reason.message.toList)]

/-- A report as a value. -/
def value (r : Report) : Json.Value :=
  .object
    [("path".toList, .string r.path.display.toList),
     ("replaced".toList, .array (r.packed.map ofEntry)),
     ("skipped".toList, .array (r.kept.map ofKept))]

/-- Writes reports as a JSON text. All paths must be texts. -/
def json : Writer := fun reports =>
  if ∀ r ∈ reports, r.path.IsText then
    .ok (String.ofList (Json.render 0 (.array (reports.map value))))
  else .error "path contains invalid UTF-8 characters"

end Report

end TablePack
