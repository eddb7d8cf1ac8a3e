import TablePack.Text

/-!
# Options

What can be chosen when tables are packed.
-/

namespace TablePack

/-- The choices for packing tables. -/
structure Options where
  /-- The constant path under which the classes of packed tables live. -/
  classPath : Text := "::Ragel::Bitmap".toList
  /-- The first character of the fields that hold tables. -/
  marker : Char := '_'
  /-- Whether words of four and eight bytes go into flat buffers. -/
  flatOffsets : Bool := true
deriving Repr, DecidableEq

end TablePack
