import TablePack.Fault
import TablePack.Token.Scanner
import TablePack.Tree

/-!
# Building trees

A tree is built in one pass over the tokens with a stack of the blocks that are open. `Frame` is
what has been collected of a block so far; each open block keeps its opening token and the frame of
the block around it.

A statement ends at a semicolon, and at a newline unless the line goes on: inside square brackets,
after an operator or a comma, or before a dot. A closing token must match the innermost open
block.
-/

namespace TablePack

open Token (Kind)

namespace Tree

/-! ## Classes of tokens -/

/-- The kind of token that closes what a token of the given kind opens. -/
def closerOf : Kind → Kind
  | .lparen => .rparen
  | .indexBracket | .arrayBracket => .rbracket
  | .lbrace => .rbrace
  | _ => .keyword .end_

/-- The kinds of tokens that close a block. -/
def isCloser : Kind → Bool
  | .rparen | .rbracket | .rbrace | .keyword .end_ => true
  | _ => false

/-- The kinds of tokens that always open a block. -/
def isBracket : Kind → Bool
  | .lparen | .indexBracket | .arrayBracket | .lbrace => true
  | _ => false

/-- The kinds of tokens after which a line goes on. -/
def continuesLine : Kind → Bool
  | .op | .assign | .comma | .dot | .colons => true
  | .keyword .and_ | .keyword .or_ | .keyword .not_ => true
  | _ => false

/-- The kinds of tokens after which a condition or a loop is a value, and no modifier of the
statement before it. -/
def takesValue : Kind → Bool
  | .assign | .op | .comma | .pipe => true
  | .keyword k =>
    match k with
    | .then_ | .else_ | .elsif_ | .do_ | .and_ | .or_ | .not_ | .when_ | .in_ | .ensure_
    | .rescue_ => true
    | _ => false
  | _ => false

/-- Whether the next token that is no newline is a dot, so that a chain of calls goes on. -/
def dotFollows (after : List Token) : Bool :=
  (after.find? fun t => t.kind != .newline).any fun t => t.kind == .dot

/-- What follows the parenthesis that closes the last of `depth` open ones. -/
def afterParens : Nat → List Token → List Token
  | _, [] => []
  | depth, t :: ts =>
    match t.kind with
    | .lparen => afterParens (depth + 1) ts
    | .rparen => if depth ≤ 1 then ts else afterParens (depth - 1) ts
    | _ => afterParens depth ts

/-- Whether the definition whose keyword is followed by these tokens has an equals sign in place of
a body. -/
def isEndless (after : List Token) : Bool :=
  let named := after.dropWhile fun t =>
    t.kind == .ident || t.kind == .const || t.kind == .var || t.kind == .dot
  let listed := if named.head?.any (fun t => t.kind == .lparen) then afterParens 0 named else named
  listed.head?.any fun t => t.kind == .assign

/-- Whether a keyword opens a block, between the nodes of its statement before it, newest first,
and the tokens after it. -/
def opensBlock (k : Keyword) (before : List Node) (after : List Token) : Bool :=
  match k with
  | .module_ | .class_ | .begin_ | .case_ | .for_ | .do_ => true
  | .def_ => !isEndless after
  | .if_ | .unless_ | .while_ | .until_ => before.head?.all fun node => node.kind?.any takesValue
  | _ => false

/-- Whether a keyword opens a loop, whose header may end with `do`. -/
def opensLoop (k : Keyword) : Bool := k == .while_ || k == .until_ || k == .for_

/-! ## Frames -/

/-- What is collected of a block so far. -/
structure Frame where
  /-- Whether this is the header of a loop, to which the next `do` belongs. -/
  header : Bool := false
  /-- The statements that are complete, newest first. -/
  done : List Statement := []
  /-- The nodes of the statement that is not complete, newest first. -/
  current : List Node := []
deriving Repr

namespace Frame

/-- Adds a node to the current statement. -/
def push (f : Frame) (node : Node) : Frame := { f with current := node :: f.current }

/-- The statements collected, newest first, with the current one if it has nodes. -/
def flushed (f : Frame) : List Statement :=
  if f.current.isEmpty then f.done else f.current.reverse :: f.done

/-- The statements collected, in order. -/
def statements (f : Frame) : List Statement := f.flushed.reverse

/-- Ends the current statement, and with it the header of a loop. -/
def endStatement (f : Frame) : Frame := ⟨false, f.flushed, []⟩

/-- Whether the current statement goes on after a newline. -/
def continues (f : Frame) : Bool := f.current.head?.any fun node => node.kind?.any continuesLine

end Frame

/-- The blocks that are open, innermost first: each with its opening token and the frame around
it. -/
abbrev Stack := List (Token × Frame)

/-- Whether newlines end statements in the innermost block. -/
def newlineEnds (stack : Stack) : Bool :=
  stack.head?.all fun level => closerOf level.1.kind != .rbracket

/-- Places a token that neither separates statements nor closes a block. -/
def place (f : Frame) (stack : Stack) (t : Token) (after : List Token) : Frame × Stack :=
  if isBracket t.kind then ({}, (t, f) :: stack)
  else
    match t.kind with
    | .keyword k =>
      if k = .do_ && f.header then ({ f.push (.leaf t) with header := false }, stack)
      else if opensBlock k f.current after then ({ header := opensLoop k }, (t, f) :: stack)
      else (f.push (.leaf t), stack)
    | _ => (f.push (.leaf t), stack)

/-- Places the token `t`, which the tokens `after` follow. -/
def step (f : Frame) (stack : Stack) (t : Token) (after : List Token) :
    Except Fault (Frame × Stack) :=
  if t.kind = .newline then
    if newlineEnds stack && !f.continues && !dotFollows after then .ok (f.endStatement, stack)
    else .ok (f, stack)
  else if t.kind = .semi then .ok (f.endStatement, stack)
  else if isCloser t.kind then
    match stack with
    | (opener, outer) :: levels =>
      if closerOf opener.kind = t.kind then .ok (outer.push (.block opener t f.statements), levels)
      else .error ⟨t.start, .unexpectedCloser t.text⟩
    | [] => .error ⟨t.start, .unexpectedCloser t.text⟩
  else .ok (place f stack t after)

/-- Builds the tree of the remaining tokens onto what is collected. -/
def build (f : Frame) (stack : Stack) : List Token → Except Fault (List Statement)
  | [] =>
    match stack with
    | [] => .ok f.statements
    | (opener, _) :: _ => .error ⟨opener.start, .unclosedOpener opener.text⟩
  | t :: after =>
    match step f stack t after with
    | .error fault => .error fault
    | .ok (f', stack') => build f' stack' after

/-- The statements of a list of tokens. -/
def ofTokens (tokens : List Token) : Except Fault (List Statement) := build {} [] tokens

/-- The statements of a source text. -/
def ofText (source : Text) : Except Fault (List Statement) :=
  match Token.lex source with
  | .error fault => .error fault
  | .ok tokens => ofTokens tokens

end Tree

end TablePack
