import TablePack.Text

/-!
# Tokens

A token is a kind, the byte offset at which it starts, and its text. Words that shape the tree of
scopes are keywords; every other word is a name.
-/

namespace TablePack

/-- The words that open, divide or close scopes, or that join expressions. -/
inductive Keyword where
  | module_ | class_ | def_ | begin_ | case_
  | if_ | unless_ | while_ | until_ | for_
  | do_ | end_ | then_ | else_ | elsif_
  | when_ | in_ | and_ | or_ | not_
  | return_ | break_ | next_ | rescue_ | ensure_
deriving Repr, DecidableEq

namespace Keyword

/-- Every keyword with its spelling. -/
def table : List (Text × Keyword) :=
  [("module".toList, module_), ("class".toList, class_), ("def".toList, def_),
   ("begin".toList, begin_), ("case".toList, case_), ("if".toList, if_),
   ("unless".toList, unless_), ("while".toList, while_), ("until".toList, until_),
   ("for".toList, for_), ("do".toList, do_), ("end".toList, end_),
   ("then".toList, then_), ("else".toList, else_), ("elsif".toList, elsif_),
   ("when".toList, when_), ("in".toList, in_), ("and".toList, and_),
   ("or".toList, or_), ("not".toList, not_), ("return".toList, return_),
   ("break".toList, break_), ("next".toList, next_), ("rescue".toList, rescue_),
   ("ensure".toList, ensure_)]

/-- The keyword that a word spells. -/
def ofText? (word : Text) : Option Keyword := table.lookup word

end Keyword

/-- The kinds of tokens. -/
inductive Token.Kind where
  /-- A name, or a word that is no keyword. -/
  | ident
  /-- A word that starts with a capital letter. -/
  | const
  /-- An instance, class or global variable. -/
  | var
  | keyword (word : Keyword)
  | int
  /-- A number with a fraction, an exponent, or a rational or imaginary suffix. -/
  | float
  | string
  | symbol
  | regexp
  | newline
  | semi
  | comma
  /-- A method call, plain or safe. -/
  | dot
  | colons
  /-- The plain assignment sign. -/
  | assign
  | pipe
  | op
  | lparen
  | rparen
  /-- An opening square bracket before it is known what it opens. -/
  | lbracket
  | rbracket
  | lbrace
  | rbrace
  /-- An opening bracket that indexes the value in front of it. -/
  | indexBracket
  /-- An opening bracket that builds an array. -/
  | arrayBracket
  | comment
deriving Repr, DecidableEq

/-- A token: its kind, the byte offset of its start, and its text. -/
structure Token where
  kind : Token.Kind
  start : Nat
  text : Text
deriving Repr, DecidableEq

namespace Token

/-- The byte offset just past a token. -/
def stop (t : Token) : Nat := t.start + Text.size t.text

/-- The kinds of tokens that can end a value: an operator may follow, a literal may not. -/
def Kind.endsPrimary : Kind → Bool
  | ident | const | var | int | float | string | symbol | regexp => true
  | rparen | rbracket | rbrace | keyword .end_ => true
  | _ => false

/-- A token that is read but not yet placed: its kind, and how many characters follow its first
one. Every lexeme has at least one character. -/
structure Lexeme where
  kind : Kind
  more : Nat
deriving Repr, DecidableEq

end Token

end TablePack
