import TablePack.Token.Numeral
import TablePack.Tree.Build

/-!
# Tables

A table is a statement that assigns an array of integer literals to a field of a receiver,
`receiver._name = [1, 2, 3]`. The setter must be the whole statement.

* `Table.ofStatement?` recognises one statement;
* `Table.locate` finds all tables of a source text, in order. Tables inside blocks are found; a
  statement that is a table is not searched further.
-/

namespace TablePack

/-- A table in a source text. -/
structure Table where
  /-- The name of the field. -/
  name : Text
  /-- The receiver, as written. -/
  receiver : Text
  numbers : List Nat
  /-- The byte offset at which the statement starts. -/
  start : Nat
  /-- The byte offset just past the closing bracket. -/
  stop : Nat
deriving Repr, DecidableEq

namespace Node

/-- The parts of a receiver: names, variables, dots, and every bracketed group but an array. -/
def isReceiverPart : Node → Bool
  | leaf token =>
    match token.kind with
    | .ident | .const | .var | .dot | .colons => true
    | _ => false
  | block opener _ _ => Tree.isBracket opener.kind && opener.kind != .arrayBracket

/-- The text of a node that is an integer literal. -/
def integer? : Node → Option Text
  | leaf token => if token.kind = .int then some token.text else none
  | block .. => none

/-- Whether a node is a comma. -/
def isComma (node : Node) : Bool := node.kind? == some .comma

end Node

namespace Table

/-- Whether nodes are integer literals with commas between them; another comma may end the
list. -/
def isIntegerList : List Node → Bool
  | [] => true
  | [node] => node.integer?.isSome
  | node :: separator :: nodes =>
    node.integer?.isSome && separator.isComma && isIntegerList nodes

/-- The numbers in the body of an array, if it holds nothing else. -/
def elements? : List Statement → Option (List Nat)
  | [] => some []
  | [nodes] =>
    if isIntegerList nodes then some ((nodes.filterMap Node.integer?).map Numeral.value) else none
  | _ => none

/-- Whether a field may hold a table: its name starts with the marker and goes on after it. -/
def isFieldName (marker : Char) : Text → Bool
  | c :: _ :: _ => c == marker
  | _ => false

/-- The table that a statement is, if it is one. -/
def ofStatement? (source : Text) (marker : Char) (statement : Statement) : Option Table :=
  match statement.head?, statement.reverse with
  | some first,
    .block opener closer body :: .leaf assign :: .leaf name :: .leaf dot :: last :: parts =>
    if (last :: parts).all Node.isReceiverPart && dot.text == ['.'] && name.kind == .ident
        && assign.kind == .assign && opener.kind == .arrayBracket
        && isFieldName marker name.text then
      (elements? body).map fun numbers =>
        ⟨name.text, Text.slice source first.start last.stop, numbers, first.start, closer.stop⟩
    else none
  | _, _ => none

mutual

/-- The tables in the blocks of a statement that is none itself. -/
def inNodes (source : Text) (marker : Char) : List Node → List Table
  | [] => []
  | .leaf _ :: nodes => inNodes source marker nodes
  | .block _ _ body :: nodes => inStatements source marker body ++ inNodes source marker nodes

/-- The tables in a list of statements. -/
def inStatements (source : Text) (marker : Char) : List (List Node) → List Table
  | [] => []
  | statement :: statements =>
    (match ofStatement? source marker statement with
      | some table => [table]
      | none => inNodes source marker statement)
      ++ inStatements source marker statements

end

/-- The tables of a source text, in order. -/
def locate (source : Text) (marker : Char) : Except Fault (List Table) :=
  (Tree.ofText source).map (inStatements source marker)

end Table

end TablePack
