import TablePack.Text

/-!
# Byte literals

Bytes are written between double quotes. Printed ASCII characters stand for themselves, the others
have an escape: a named one where there is a name, and two hexadecimal digits otherwise. A hash is
escaped where it would start an interpolation. `write` gives the literal for a list of bytes.
-/

namespace TablePack

namespace ByteLiteral

/-- The named escapes: the byte and its letter. -/
def names : List (UInt8 × Char) :=
  [(0x22, '"'), (0x5c, '\\'), (0x0a, 'n'), (0x09, 't'), (0x0d, 'r'), (0x0c, 'f'), (0x0b, 'v'),
   (0x08, 'b'), (0x07, 'a'), (0x1b, 'e')]

/-- An upper-case hexadecimal digit. -/
def hexDigit (n : Nat) : Char := (Nat.digitChar n).toUpper

/-- The characters that make an interpolation of a hash before them. -/
def interpolates (c : Char) : Bool := c == '{' || c == '$' || c == '@'

/-- The spelling of a byte before the text `after`. -/
def spell (b : UInt8) (after : Text) : Text :=
  match names.lookup b with
  | some letter => ['\\', letter]
  | none =>
    if b = 0x23 && after.head?.any interpolates then ['\\', '#']
    else if 0x20 ≤ b && b ≤ 0x7e then [Char.ofNat b.toNat]
    else ['\\', 'x', hexDigit (b.toNat / 16), hexDigit (b.toNat % 16)]

/-- The literal without its opening quote. -/
def writeTail (bytes : List UInt8) : Text :=
  bytes.foldr (fun b after => spell b after ++ after) ['"']

/-- The literal for a list of bytes. -/
def write (bytes : List UInt8) : Text := '"' :: writeTail bytes

end ByteLiteral

end TablePack
