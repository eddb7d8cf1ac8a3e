import TablePack.Text

/-!
# Character classes

The classes of characters that divide Ruby text into words, numbers and blanks. Names may hold
every character outside ASCII; all other classes are ASCII alone.
-/

namespace TablePack

namespace Text

/-- The characters that separate tokens within a line. -/
def isBlank (c : Char) : Bool :=
  c == ' ' || c == '\t' || c == '\r' || c == '\x0b' || c == '\x0c'

/-- White space as delimiters and literal openers see it. A vertical tab does not count. -/
def isSpace (c : Char) : Bool :=
  c == ' ' || c == '\t' || c == '\n' || c == '\x0c' || c == '\r'

/-- A space or a tab, the characters of an indentation. -/
def isIndent (c : Char) : Bool := c == ' ' || c == '\t'

/-- Characters outside ASCII take more than one byte. -/
def isWide (c : Char) : Bool := 0x80 ≤ c.toNat

/-- The characters that may start a name. -/
def isNameStart (c : Char) : Bool := c.isAlpha || c == '_' || isWide c

/-- The characters that may continue a name. -/
def isNameChar (c : Char) : Bool := isNameStart c || c.isDigit

/-- Digits and the underscores between them. -/
def isDigitOrScore (c : Char) : Bool := c.isDigit || c == '_'

/-- The printed ASCII characters, without the space. -/
def isGraphic (c : Char) : Bool := '!' ≤ c && c ≤ '~'

/-- The first byte of the UTF-8 form of a character. -/
def leadByte (c : Char) : Nat :=
  let n := c.toNat
  if n < 0x80 then n
  else if n < 0x800 then 0xc0 + n / 0x40
  else if n < 0x10000 then 0xe0 + n / 0x1000
  else 0xf0 + n / 0x40000

/-- Whether the next character of a text continues a name. -/
def continuesName (t : Text) : Bool := t.head?.any isNameChar

/-- How many characters at the start of a text are in a class. -/
def span (p : Char → Bool) (t : Text) : Nat := (t.takeWhile p).length

/-- Whether a text starts with `word` and white space or the end of the text follows. -/
def startsWord (word t : Text) : Bool :=
  word.isPrefixOf t && (t.drop word.length).head?.all isSpace

end Text

end TablePack
