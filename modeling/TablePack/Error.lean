import TablePack.Fault
import TablePack.Text.Position

/-!
# Errors

Why a source text cannot be compacted. An error holds for the whole text: nothing of it is changed.
-/

namespace TablePack

/-- Why a source text cannot be compacted. -/
inductive Error where
  /-- The text cannot be read. -/
  | invalidSource (position : Position) (problem : Problem)
  /-- A table has no elements, so that no width fits it. -/
  | emptyTable (name : Text) (line : Nat)
  /-- An edit does not fit the lines of the text. -/
  | strayEdit
deriving Repr, DecidableEq

namespace Error

/-- The error of a fault in a source text. -/
def ofFault (source : Text) (fault : Fault) : Error :=
  .invalidSource (Text.position source fault.offset) fault.problem

/-- The wording of an error. Columns are counted from 1 here. -/
def message : Error → String
  | invalidSource position problem =>
    "invalid source at line " ++ toString position.line ++ ", column "
      ++ toString (position.column + 1) ++ ": " ++ problem.message
  | emptyTable name line =>
    "table `" ++ String.ofList name ++ "` at line " ++ toString line ++ " has no elements"
  | strayEdit => "edit outside the text"

end Error

end TablePack
