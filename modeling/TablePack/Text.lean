/-!
# Texts

A text is a list of characters. Offsets, columns and lengths count the bytes of its UTF-8 form, so
an offset may fall inside a character; every function that cuts a text says what it does then.

* `size` is the number of bytes of a text;
* `cut?` divides a text at a byte offset that lies between two characters;
* `slice` is the part of a text between two such offsets;
* `line` and `afterLine` divide a text after its first line.
-/

namespace TablePack

/-- A text is the list of its characters. -/
abbrev Text := List Char

namespace Text

/-! ## Bytes -/

/-- The number of bytes of a text in UTF-8. -/
def size (t : Text) : Nat := t.foldr (fun c n => c.utf8Size + n) 0

@[simp] theorem size_nil : size [] = 0 := rfl

@[simp] theorem size_cons (c : Char) (t : Text) : size (c :: t) = c.utf8Size + size t := rfl

@[simp] theorem size_append (s t : Text) : size (s ++ t) = size s + size t := by
  induction s with
  | nil => simp
  | cons c s ih => simp [ih, Nat.add_assoc]

/-- The text before and the text after byte `n`. There is none when the text is shorter or when
the offset lies inside a character. -/
def cut? : Nat → Text → Option (Text × Text)
  | 0, t => some ([], t)
  | _ + 1, [] => none
  | n + 1, c :: t =>
    if c.utf8Size ≤ n + 1 then
      (cut? (n + 1 - c.utf8Size) t).map fun parts => (c :: parts.1, parts.2)
    else none

/-- The text without its first `n` bytes; a character that these bytes touch is dropped whole. -/
def dropBytes : Nat → Text → Text
  | 0, t => t
  | _ + 1, [] => []
  | n + 1, c :: t => dropBytes (n + 1 - c.utf8Size) t

/-- The characters that start in the first `n` bytes. -/
def takeBytes : Nat → Text → Text
  | 0, _ => []
  | _ + 1, [] => []
  | n + 1, c :: t => c :: takeBytes (n + 1 - c.utf8Size) t

/-- The part of a text from byte `start` up to byte `stop`. -/
def slice (t : Text) (start stop : Nat) : Text := takeBytes (stop - start) (dropBytes start t)

/-! ## Lines -/

/-- The first line, without its newline. -/
def line (t : Text) : Text := t.takeWhile (· != '\n')

/-- What follows the first line and its newline. -/
def afterLine (t : Text) : Text := (t.dropWhile (· != '\n')).drop 1

/-- The lines of a text, at least one, without their newlines. -/
def lines (t : Text) : List Text := t.splitOn '\n'

/-- A line without the carriage return at its end, if it has one. -/
def withoutReturn (l : Text) : Text := if l.getLast? = some '\r' then l.dropLast else l

theorem length_afterLine_lt {t : Text} (h : t ≠ []) : (afterLine t).length < t.length := by
  have hle : (t.dropWhile (· != '\n')).length ≤ t.length :=
    (List.dropWhile_suffix _).length_le
  have hpos : 0 < t.length := List.length_pos_iff.2 h
  simp only [afterLine, List.length_drop]
  omega

end Text

end TablePack
