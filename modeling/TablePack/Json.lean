import TablePack.Text

/-!
# JSON

Values and their texts: two spaces of indentation per level, one member per line, and brackets
without members closed at once.
-/

namespace TablePack

namespace Json

/-- A JSON value, of the kinds that are written here. -/
inductive Value where
  | number (n : Nat)
  | string (s : Text)
  | array (items : List Value)
  | object (members : List (Text × Value))
deriving Repr

/-- A control character by four hexadecimal digits. -/
def escapeCode (c : Char) : Text :=
  ['\\', 'u', '0', '0', Nat.digitChar (c.toNat / 16), Nat.digitChar (c.toNat % 16)]

/-- A character inside a string. Characters outside ASCII stand for themselves. -/
def escape (c : Char) : Text :=
  match c with
  | '"' => ['\\', '"']
  | '\\' => ['\\', '\\']
  | '\x08' => ['\\', 'b']
  | '\x0c' => ['\\', 'f']
  | '\n' => ['\\', 'n']
  | '\r' => ['\\', 'r']
  | '\t' => ['\\', 't']
  | c => if c.toNat < 0x20 then escapeCode c else [c]

/-- A string between its quotes. -/
def quote (s : Text) : Text := '"' :: (s.flatMap escape ++ ['"'])

/-- A line break and the indentation of the given level. -/
def newline (level : Nat) : Text := '\n' :: List.replicate (2 * level) ' '

mutual

/-- The text of a value whose first line stands at the given level of indentation. -/
def render (level : Nat) : Value → Text
  | .number n => Nat.toDigits 10 n
  | .string s => quote s
  | .array [] => ['[', ']']
  | .array (item :: items) =>
    '[' :: (newline (level + 1) ++ (render (level + 1) item ++ (renderItems (level + 1) items
      ++ (newline level ++ [']']))))
  | .object [] => ['\x7b', '\x7d']
  | .object ((key, value) :: members) =>
    '\x7b' :: (newline (level + 1) ++ (quote key ++ (':' :: ' ' :: (render (level + 1) value
      ++ (renderMembers (level + 1) members ++ (newline level ++ ['\x7d']))))))

/-- The text of the items after the first one. -/
def renderItems (level : Nat) : List Value → Text
  | [] => []
  | item :: items => ',' :: (newline level ++ (render level item ++ renderItems level items))

/-- The text of the members after the first one. -/
def renderMembers (level : Nat) : List (Text × Value) → Text
  | [] => []
  | (key, value) :: members =>
    ',' :: (newline level ++ (quote key ++ (':' :: ' ' :: (render level value
      ++ renderMembers level members))))

end

end Json

end TablePack
