import TablePack.Fault
import TablePack.Text.Class
import TablePack.Token

/-!
# Numerals

Integer literals may carry a radix mark (`0x1F`, `0b101`, `0o17`, `0d9`); a leading zero alone means
octal. Underscores between digits are ignored.

* `value` is the number that an integer literal denotes, at most `limit`;
* `read` finds the numeral at the start of a text, with its fraction, exponent and suffix.
-/

namespace TablePack

namespace Numeral

open Token (Kind Lexeme)
open Text (span isDigitOrScore continuesName)

/-! ## Values -/

/-- The greatest number of 128 bits. Larger values are read as this one. -/
def limit : Nat := 0xffffffffffffffffffffffffffffffff

/-- The value of a character as a digit in the given radix, in either case. -/
def digit? (radix : Nat) (c : Char) : Option Nat :=
  let v :=
    if c.isDigit then c.toNat - '0'.toNat
    else if c.toLower.isLower then c.toLower.toNat - 'a'.toNat + 10
    else radix
  if v < radix then some v else none

/-- The radix that a mark after a leading zero names. -/
def radixMark? : Char → Option Nat
  | 'x' | 'X' => some 16
  | 'b' | 'B' => some 2
  | 'o' | 'O' => some 8
  | 'd' | 'D' => some 10
  | _ => none

/-- The radix of a literal, and its digits. -/
def parts : Text → Nat × Text
  | '0' :: mark :: digits =>
    match radixMark? mark with
    | some radix => (radix, digits)
    | none => (8, mark :: digits)
  | digits => (10, digits)

/-- Appends a digit to a number, up to the limit. A character that is no digit counts as zero. -/
def shiftIn (radix n : Nat) (c : Char) : Nat := min (n * radix + (digit? radix c).getD 0) limit

/-- The number that an integer literal denotes. -/
def value (literal : Text) : Nat :=
  let (radix, digits) := parts literal
  (digits.filter (· != '_')).foldl (shiftIn radix) 0

/-! ## Extent -/

/-- The radix of a numeral that starts with a marked zero. -/
def radix? : Text → Option Nat
  | '0' :: mark :: _ => radixMark? mark
  | _ => none

/-- The length of a fraction at the start of a text. -/
def fraction : Text → Nat
  | '.' :: d :: t => if d.isDigit then 1 + span isDigitOrScore (d :: t) else 0
  | _ => 0

/-- The length of an exponent at the start of a text. -/
def exponent : Text → Nat
  | e :: t =>
    if e == 'e' || e == 'E' then
      let sign := if t.head?.any (fun c => c == '+' || c == '-') then 1 else 0
      let digits := t.drop sign
      if digits.head?.any Char.isDigit then 1 + sign + span isDigitOrScore digits else 0
    else 0
  | [] => 0

/-- The length of a rational or imaginary suffix at the start of a text. No word may follow it. -/
def suffix : Text → Nat
  | 'r' :: 'i' :: t => if continuesName t then 0 else 2
  | 'r' :: t => if continuesName t then 0 else 1
  | 'i' :: t => if continuesName t then 0 else 1
  | _ => 0

/-- The digits after a radix mark, checked. -/
def marked (radix : Nat) (t : Text) : Except Problem (Kind × Nat) :=
  let digits := t.takeWhile fun c => c.isAlphanum || c == '_'
  if digits.isEmpty || !digits.all (fun c => c == '_' || (digit? radix c).isSome) then
    .error .invalidNumeral
  else .ok (.int, 2 + digits.length)

/-- A numeral without a radix mark. One that starts with a zero must be octal, unless it has a
fraction or an exponent. -/
def unmarked (t : Text) : Except Problem (Kind × Nat) :=
  let whole := span isDigitOrScore t
  let fractional := fraction (t.drop whole)
  let scaled := exponent (t.drop (whole + fractional))
  if fractional + scaled ≠ 0 then .ok (.float, whole + fractional + scaled)
  else if 1 < whole && t.head? == some '0'
      && (t.take whole).any (fun c => c == '8' || c == '9') then
    .error .invalidOctalDigit
  else .ok (.int, whole)

/-- The kind and length of the numeral at the start of a text, without its suffix. -/
def body (t : Text) : Except Problem (Kind × Nat) :=
  match radix? t with
  | some radix => marked radix (t.drop 2)
  | none => unmarked t

/-- The numeral at the start of a text that begins with a digit, at byte `start`. -/
def read (start : Nat) (t : Text) : Except Fault Lexeme :=
  match body t with
  | .error problem => .error ⟨start, problem⟩
  | .ok (kind, n) =>
    let tail := suffix (t.drop n)
    if continuesName (t.drop (n + tail)) then .error ⟨start + n + tail, .afterNumeral⟩
    else .ok ⟨if tail = 0 then kind else .float, n + tail - 1⟩

end Numeral

end TablePack
