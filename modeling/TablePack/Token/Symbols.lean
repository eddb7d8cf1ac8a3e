import TablePack.Token

/-!
# Operators and punctuation

The signs of the language, longest first where one continues another, and the operators that can
be names of methods.
-/

namespace TablePack

open Token (Kind)

/-- A sign: its spelling, the kind of token it makes, and whether it assigns to what stands left of
it. -/
structure Sign where
  text : Text
  kind : Kind
  assigns : Bool := false
deriving Repr, DecidableEq

namespace Sign

/-- All signs. The first one that a text starts with is the one that is read. -/
def table : List Sign :=
  [⟨"**=".toList, .op, true⟩, ⟨"<=>".toList, .op, false⟩, ⟨"===".toList, .op, false⟩,
   ⟨"...".toList, .op, false⟩, ⟨"<<=".toList, .op, true⟩, ⟨">>=".toList, .op, true⟩,
   ⟨"&&=".toList, .op, true⟩, ⟨"||=".toList, .op, true⟩, ⟨"&.".toList, .dot, false⟩,
   ⟨"::".toList, .colons, false⟩, ⟨"**".toList, .op, false⟩, ⟨"==".toList, .op, false⟩,
   ⟨"!=".toList, .op, false⟩, ⟨">=".toList, .op, false⟩, ⟨"<=".toList, .op, false⟩,
   ⟨"&&".toList, .op, false⟩, ⟨"||".toList, .op, false⟩, ⟨"<<".toList, .op, false⟩,
   ⟨">>".toList, .op, false⟩, ⟨"=~".toList, .op, false⟩, ⟨"!~".toList, .op, false⟩,
   ⟨"..".toList, .op, false⟩, ⟨"+=".toList, .op, true⟩, ⟨"-=".toList, .op, true⟩,
   ⟨"*=".toList, .op, true⟩, ⟨"/=".toList, .op, true⟩, ⟨"%=".toList, .op, true⟩,
   ⟨"|=".toList, .op, true⟩, ⟨"&=".toList, .op, true⟩, ⟨"^=".toList, .op, true⟩,
   ⟨"=>".toList, .op, false⟩, ⟨"->".toList, .op, false⟩, ⟨"=".toList, .assign, true⟩,
   ⟨"|".toList, .pipe, false⟩, ⟨",".toList, .comma, false⟩, ⟨";".toList, .semi, false⟩,
   ⟨".".toList, .dot, false⟩, ⟨"(".toList, .lparen, false⟩, ⟨")".toList, .rparen, false⟩,
   ⟨"[".toList, .lbracket, false⟩, ⟨"]".toList, .rbracket, false⟩,
   ⟨"\x7b".toList, .lbrace, false⟩, ⟨"\x7d".toList, .rbrace, false⟩,
   ⟨"+".toList, .op, false⟩, ⟨"-".toList, .op, false⟩, ⟨"*".toList, .op, false⟩,
   ⟨"/".toList, .op, false⟩, ⟨"%".toList, .op, false⟩, ⟨"<".toList, .op, false⟩,
   ⟨">".toList, .op, false⟩, ⟨"!".toList, .op, false⟩, ⟨"&".toList, .op, false⟩,
   ⟨"^".toList, .op, false⟩, ⟨"~".toList, .op, false⟩, ⟨"?".toList, .op, false⟩,
   ⟨":".toList, .op, false⟩]

/-- The sign at the start of a text. -/
def find? (t : Text) : Option Sign := table.find? fun sign => sign.text.isPrefixOf t

/-- The operators that can be names of methods, longest first where one continues another. -/
def methods : List Text :=
  ["[]=", "[]", "<=>", "===", "==", "=~", "!=", "!~", "**", "+@", "-@", "<<", ">>", "<=", ">=",
   "+", "-", "*", "/", "%", "<", ">", "!", "&", "|", "^", "~", "`"].map String.toList

/-- The operator at the start of a text that is the name of a method. -/
def findMethod? (t : Text) : Option Text := methods.find? fun name => name.isPrefixOf t

end Sign

end TablePack
