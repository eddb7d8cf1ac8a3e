import TablePack.Text

/-!
# Variants

The classes that hold packed tables at run time. A variant stores a table either in byte planes,
or in one flat buffer of fixed-width little-endian words.
-/

namespace TablePack

/-- The class that holds a packed table. -/
inductive Variant where
  | array8
  | array16
  | array24
  | array32
  | array32Offset
  | array64Offset
  | arrayGeneric
deriving Repr, DecidableEq

namespace Variant

/-- All variants. -/
def all : List Variant :=
  [array8, array16, array24, array32, array32Offset, array64Offset, arrayGeneric]

/-- The name of the class. -/
def name : Variant → String
  | array8 => "Array8"
  | array16 => "Array16"
  | array24 => "Array24"
  | array32 => "Array32"
  | array32Offset => "Array32Offset"
  | array64Offset => "Array64Offset"
  | arrayGeneric => "ArrayGeneric"

/-- The variant whose class has the given name. -/
def ofName? (s : String) : Option Variant := all.find? fun v => v.name == s

/-- The number of planes of a variant for which it is fixed. -/
def planeCount? : Variant → Option Nat
  | array8 => some 1
  | array16 => some 2
  | array24 => some 3
  | array32 => some 4
  | _ => none

/-- The number of bytes of a word in a flat variant. -/
def stride? : Variant → Option Nat
  | array32Offset => some 4
  | array64Offset => some 8
  | _ => none

end Variant

/-- What is wrong with the buffers given for a packed table. -/
inductive Malformed where
  /-- A variant with a fixed number of planes got another number. -/
  | wrongPlaneCount (variant : Variant) (expected got : Nat)
  /-- There are no planes, or more than eight. -/
  | planeCount (got : Nat)
  /-- Plane `k` differs in size from the first one. -/
  | unevenPlane (k size first : Nat)
  /-- A flat variant got no buffer, or more than one. -/
  | bufferCount (variant : Variant) (got : Nat)
  /-- A flat buffer does not hold a whole number of words. -/
  | partialWord (size stride : Nat)
deriving Repr, DecidableEq

/-- The wording of the fault. -/
def Malformed.message : Malformed → String
  | wrongPlaneCount variant expected got =>
    variant.name ++ " takes " ++ toString expected ++ " planes, got " ++ toString got
  | planeCount got => "expected 1..=8 planes, got " ++ toString got
  | unevenPlane k size first =>
    "plane " ++ toString k ++ " has " ++ toString size ++ " bytes, plane 0 has " ++ toString first
  | bufferCount variant got => variant.name ++ " takes one flat buffer, got " ++ toString got
  | partialWord size stride =>
    "flat buffer of " ++ toString size ++ " bytes is not a multiple of stride " ++ toString stride

end TablePack
