import TablePack.Text

/-!
# Faults in a source text

What can be wrong with a source text, and where. The wording of every problem is in `message`.
-/

namespace TablePack

/-- The ways in which a text fails to be a source that can be read. -/
inductive Problem where
  | unexpectedBackslash
  | unterminatedDocument
  | unterminatedHeredoc
  | invalidNumeral
  | invalidOctalDigit
  | afterNumeral
  | invalidVariable
  | unterminatedLiteral
  | unterminatedInterpolation
  | unterminatedRegexp
  | unexpectedCharacter (c : Char)
  | unexpectedCloser (text : Text)
  | unclosedOpener (text : Text)
  /-- A literal delimiter outside ASCII ends the literal inside a character. -/
  | splitCharacter
deriving Repr, DecidableEq

/-- A control character as it is shown in messages: zero by its digit, the others by their code in
lower-case hexadecimal digits. -/
def showControl (c : Char) : String :=
  if c.toNat = 0 then "\\0"
  else "\\u\x7b" ++ String.ofList (Nat.toDigits 16 c.toNat) ++ "\x7d"

/-- The wording of a problem. -/
def Problem.message : Problem → String
  | unexpectedBackslash => "unexpected backslash"
  | unterminatedDocument => "embedded document meets end of file"
  | unterminatedHeredoc => "unterminated heredoc"
  | invalidNumeral => "invalid numeric literal"
  | invalidOctalDigit => "invalid octal digit"
  | afterNumeral => "unexpected character after numeric literal"
  | invalidVariable => "invalid variable name"
  | unterminatedLiteral => "unterminated literal"
  | unterminatedInterpolation => "unterminated interpolation"
  | unterminatedRegexp => "unterminated regexp"
  | unexpectedCharacter c => "unexpected character '" ++ showControl c ++ "'"
  | unexpectedCloser text => "unexpected `" ++ String.ofList text ++ "`"
  | unclosedOpener text => "unclosed `" ++ String.ofList text ++ "`"
  | splitCharacter => "literal ends inside a character"

/-- A problem at a byte offset. -/
structure Fault where
  offset : Nat
  problem : Problem
deriving Repr, DecidableEq

end TablePack
