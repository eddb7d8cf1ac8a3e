import TablePack.Token

/-!
# Trees of statements

A source text is a list of statements, a statement a list of nodes. A node is a single token, or a
block: an opening bracket or keyword, the statements inside, and the token that closes it. The
tokens that separate statements are not kept.
-/

namespace TablePack

/-- A token, or a bracketed or keyword-delimited block of statements. -/
inductive Node where
  | leaf (token : Token)
  | block (opener closer : Token) (body : List (List Node))
deriving Repr

/-- The nodes between two separators. -/
abbrev Statement := List Node

namespace Node

/-- The byte offset at which a node starts. -/
def start : Node → Nat
  | leaf token => token.start
  | block opener _ _ => opener.start

/-- The byte offset just past a node. -/
def stop : Node → Nat
  | leaf token => token.stop
  | block _ closer _ => closer.stop

/-- The kind of a node that is a single token. -/
def kind? : Node → Option Token.Kind
  | leaf token => some token.kind
  | block .. => none

mutual

/-- The tokens of a node, in order. -/
def tokens : Node → List Token
  | leaf token => [token]
  | block opener closer body => opener :: (bodyTokens body ++ [closer])

/-- The tokens of a statement, in order. -/
def statementTokens : List Node → List Token
  | [] => []
  | node :: nodes => tokens node ++ statementTokens nodes

/-- The tokens of a list of statements, in order. -/
def bodyTokens : List (List Node) → List Token
  | [] => []
  | statement :: statements => statementTokens statement ++ bodyTokens statements

end

end Node

end TablePack
