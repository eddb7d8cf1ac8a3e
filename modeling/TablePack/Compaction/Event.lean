import TablePack.Compaction

/-!
# Events

What compaction tells about its work: first the tables it finds, then those it leaves as written,
then those it packs, from the last one to the first. When a table without elements is met, the
tables after it are not judged and nothing is packed.
-/

namespace TablePack

/-- How much an event matters. -/
inductive Event.Level where
  | debug
  | warn
deriving Repr, DecidableEq

/-- An event during compaction. -/
inductive Event where
  | found (name : Text) (count firstLine lastLine : Nat)
  | kept (name : Text) (line : Nat) (reason : EncodeError)
  | packed (name : Text) (variant : Variant) (width count : Nat)
deriving Repr, DecidableEq

namespace Event

/-- The level of an event. -/
def level : Event → Level
  | found .. | packed .. => .debug
  | kept .. => .warn

/-- The wording of an event. -/
def message : Event → String
  | found name count firstLine lastLine =>
    "found table " ++ String.ofList name ++ " (" ++ toString count ++ " elements) at lines "
      ++ toString firstLine ++ "..=" ++ toString lastLine
  | kept name line reason =>
    "leaving table " ++ String.ofList name ++ " at line " ++ toString line ++ " as written: "
      ++ reason.message
  | packed name variant width count =>
    String.ofList name ++ " -> " ++ variant.name ++ " (width " ++ toString width ++ ", "
      ++ toString count ++ " elements)"

/-- The finding of a table. -/
def ofFound (source : Text) (t : Table) : Event :=
  .found t.name t.numbers.length (Text.position source t.start).line
    (Text.position source t.stop).line

/-- The keeping of a table whose numbers are too large. -/
def ofKept? (opts : Options) (source : Text) (t : Table) : Option Event :=
  match Encoding.ofNumbers opts.flatOffsets t.numbers with
  | .error reason => some (.kept t.name (Text.position source t.start).line reason)
  | .ok _ => none

/-- The packing of a table. -/
def ofPacked (t : Table) (e : Encoding) : Event :=
  .packed t.name e.variant e.width t.numbers.length

end Event

namespace Compaction

/-- The events of the plan for some tables. -/
def planEvents (opts : Options) (source : Text) (tables : List Table) : List Event :=
  let judged := tables.takeWhile fun t => !t.numbers.isEmpty
  let packings :=
    match plan opts source tables with
    | .error _ => []
    | .ok (planned, _) => planned.reverse.map fun p => Event.ofPacked p.1 p.2
  judged.filterMap (Event.ofKept? opts source) ++ packings

/-- The events of compacting a source text, in order. -/
def events (opts : Options) (source : Text) : List Event :=
  match Table.locate source opts.marker with
  | .error _ => []
  | .ok tables => tables.map (Event.ofFound source) ++ planEvents opts source tables

end Compaction

end TablePack
