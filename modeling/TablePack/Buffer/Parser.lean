import TablePack.Buffer.Run
import TablePack.Tree.Build

/-!
# Trees from a buffer

The tokens of a buffer are an array that the parser goes through by position. It looks ahead at the
tokens after a newline, and at those after the keyword of a definition, where it counts parentheses.
-/

namespace TablePack

open Token (Kind)

namespace Parser

/-! ## Tokens -/

/-- All tokens of a buffer, in order, comments included. -/
def scan (src : Buffer) : Checked (List Token) := do
  let l ← Lexer.run src {}
  l.out.reverse.mapM (Extent.token src)

/-- The tokens of a buffer without its comments, and with the opening brackets told apart. -/
def lex (src : Buffer) : Checked (List Token) := do
  let tokens ← scan src
  return Token.tellBrackets (tokens.filter fun t => t.kind != .comment)

/-! ## Looking ahead -/

section

variable (tokens : Array Token)

/-- Whether the next token that is no newline is a dot. -/
def dotFollows (pos : Nat) : Checked Bool := do
  let after ← Checked.tail tokens pos
  return Tree.dotFollows after.toList

/-- The position after the tokens of a class that stand at a position. -/
def skipWhile (p : Token → Bool) (i : Nat) : Nat :=
  if i < tokens.size then if tokens[i]?.any p then skipWhile p (i + 1) else i else i
termination_by tokens.size - i

/-- The position after the parenthesis that closes the last of `depth` open ones. -/
def afterParens (depth i : Nat) : Checked Nat :=
  if i < tokens.size then do
    let t ← Checked.item tokens i
    match t.kind with
    | .lparen => afterParens (depth + 1) (i + 1)
    | .rparen => do
      let depth ← Checked.minus depth 1
      if depth = 0 then return i + 1 else afterParens depth (i + 1)
    | _ => afterParens depth (i + 1)
  else .ok i
termination_by tokens.size - i

/-- The position after a list of parameters, if there is one at a position. -/
def afterList (i : Nat) : Checked Nat :=
  if tokens[i]?.any fun t => t.kind == .lparen then afterParens tokens 0 i else .ok i

/-- Whether the definition whose keyword stands before a position has an equals sign in place of a
body. -/
def isEndless (pos : Nat) : Checked Bool := do
  let i ← afterList tokens (skipWhile tokens (fun t =>
    t.kind == .ident || t.kind == .const || t.kind == .var || t.kind == .dot) pos)
  return tokens[i]?.any fun t => t.kind == .assign

/-- Whether a keyword opens a block, between the nodes of its statement before it and the tokens
from `pos` on. -/
def opensBlock (k : Keyword) (before : List Node) (pos : Nat) : Checked Bool :=
  match k with
  | .module_ | .class_ | .begin_ | .case_ | .for_ | .do_ => .ok true
  | .def_ => do return !(← isEndless tokens pos)
  | .if_ | .unless_ | .while_ | .until_ =>
    .ok (before.head?.all fun node => node.kind?.any Tree.takesValue)
  | _ => .ok false

/-! ## Building -/

/-- Places a token that neither separates statements nor closes a block. -/
def place (f : Tree.Frame) (stack : Tree.Stack) (t : Token) (pos : Nat) :
    Checked (Tree.Frame × Tree.Stack) :=
  if Tree.isBracket t.kind then .ok ({}, (t, f) :: stack)
  else
    match t.kind with
    | .keyword k =>
      if k = .do_ && f.header then .ok ({ f.push (.leaf t) with header := false }, stack)
      else do
        if ← opensBlock tokens k f.current pos then
          return ({ header := Tree.opensLoop k }, (t, f) :: stack)
        else return (f.push (.leaf t), stack)
    | _ => .ok (f.push (.leaf t), stack)

/-- Places the token `t`, which the tokens from `pos` on follow. -/
def step (src : Buffer) (f : Tree.Frame) (stack : Tree.Stack) (t : Token) (pos : Nat) :
    Checked (Tree.Frame × Tree.Stack) :=
  if t.kind = .newline then
    if Tree.newlineEnds stack && !f.continues then do
      if ← dotFollows tokens pos then return (f, stack) else return (f.endStatement, stack)
    else .ok (f, stack)
  else if t.kind = .semi then .ok (f.endStatement, stack)
  else if Tree.isCloser t.kind then
    match stack with
    | (opener, outer) :: levels =>
      if Tree.closerOf opener.kind = t.kind then
        .ok (outer.push (.block opener t f.statements), levels)
      else src.fail t.start (.unexpectedCloser t.text)
    | [] => src.fail t.start (.unexpectedCloser t.text)
  else place tokens f stack t pos

/-- Builds the tree of the tokens from `pos` on onto what is collected. -/
def build (src : Buffer) (f : Tree.Frame) (stack : Tree.Stack) (pos : Nat) :
    Checked (List Statement) :=
  if pos < tokens.size then do
    let t ← Checked.item tokens pos
    let (f, stack) ← step tokens src f stack t (pos + 1)
    build src f stack (pos + 1)
  else
    match stack with
    | [] => .ok f.statements
    | (opener, _) :: _ => src.fail opener.start (.unclosedOpener opener.text)
termination_by tokens.size - pos

end

/-- The statements of a buffer. -/
def parse (src : Buffer) : Checked (List Statement) := do
  let tokens ← lex src
  build tokens.toArray src {} [] 0

end Parser

end TablePack
