import TablePack.Token

/-!
# Local variables

Whether `x /y` divides or calls `x` with a regular expression depends on whether `x` is a local
variable. Locals are collected over the whole text, from the targets of assignments, the parameters
of methods, blocks and lambdas, loop variables and the names of rescued errors.

All functions here look at the tokens read so far, newest first and without comments.
-/

namespace TablePack

open Token (Kind)

namespace Token

/-! ## Looking back -/

/-- The kind of the token `n` places back. -/
def kindAt? (recent : List Token) (n : Nat) : Option Kind := recent[n]?.map (·.kind)

/-- Whether a value comes next, since no value has just ended. -/
def valueExpected : List Token → Bool
  | [] => true
  | t :: _ => !t.kind.endsPrimary

/-- Whether the next word names the method of a definition, perhaps after a receiver and a dot. -/
def inDefName (recent : List Token) : Bool :=
  kindAt? recent 0 == some (.keyword .def_)
    || kindAt? recent 0 == some .dot && kindAt? recent 2 == some (.keyword .def_)

/-- Whether the newest token names the method of a definition. -/
def namesDef (recent : List Token) : Bool :=
  kindAt? recent 1 == some (.keyword .def_)
    || kindAt? recent 1 == some .dot && kindAt? recent 3 == some (.keyword .def_)

/-- Whether the next name is bound to the error of a `rescue` clause on the same line. -/
def inRescue : List Token → Bool
  | [] => false
  | t :: older =>
    t.text == "=>".toList
      && (older.takeWhile fun u => u.kind != .newline && u.kind != .semi).any
        fun u => u.kind == .keyword .rescue_

/-! ## Targets of an assignment -/

/-- Whether the next older token accesses a member, so that a name after it is no local. -/
def followsAccess (older : List Token) : Bool :=
  older.head?.any fun u => u.kind == .dot || u.kind == .colons

/-- Whether the parenthesis `t` opens the arguments of a call. -/
def opensCall (t : Token) (older : List Token) : Bool :=
  older.head?.any fun u => (u.kind == .ident || u.kind == .const) && u.stop == t.start

/-- The names that a walk has found. A walk that did not end at the start of a statement keeps
only the name nearest to the assignment. -/
def keepTargets (complete : Bool) (names : List Text) : List Text :=
  if complete then names else names.take 1

/-- Walks back from an assignment over its list of targets. `wanted` says that a name must come
next, and `names` are those found so far, nearest first. -/
def collectTargets (wanted : Bool) (names : List Text) : List Token → List Text
  | [] => keepTargets (!wanted) names
  | t :: older =>
    match t.kind with
    | .ident =>
      if !wanted then keepTargets false names
      else if followsAccess older then keepTargets (!names.isEmpty) names
      else collectTargets false (names ++ [t.text]) older
    | .comma => if wanted then keepTargets false names else collectTargets true names older
    | .rparen => if wanted then collectTargets wanted names older else keepTargets false names
    | .op =>
      if t.text = ['*'] then collectTargets wanted names older else keepTargets false names
    | .lparen =>
      if opensCall t older then keepTargets false names else collectTargets false names older
    | .newline | .semi | .pipe | .lbrace | .keyword _ => keepTargets (!wanted) names
    | _ => keepTargets false names

/-- The names that an assignment after these tokens binds. -/
def targets (recent : List Token) : List Text := collectTargets true [] recent

end Token

/-! ## Parameter lists -/

/-- What ends a list of parameters. -/
inductive Parameters.Ending where
  /-- The parenthesis that closes the list of a method or a lambda. -/
  | paren
  /-- The bar that closes the list of a block. -/
  | pipe
  /-- The end of the line of a method definition without parentheses. -/
  | line
deriving Repr, DecidableEq

/-- A list of parameters that is open. -/
structure Parameters where
  ending : Parameters.Ending
  /-- The number of open brackets, the one of the list itself included. -/
  depth : Nat
  /-- Whether the next name is a parameter. -/
  expecting : Bool
deriving Repr, DecidableEq

namespace Parameters

/-- A list of parameters at its start. -/
def start (ending : Ending) : Parameters := ⟨ending, if ending = .paren then 1 else 0, true⟩

/-- Whether names at the given depth of brackets are parameters. -/
def namesAt (ending : Ending) (depth : Nat) : Bool :=
  match ending with
  | .paren => depth == 1
  | .pipe | .line => depth ≤ 1

/-- The list after another token, if it is still open. -/
def track (p : Parameters) (t : Token) : Option Parameters :=
  match t.kind with
  | .comment => some p
  | .newline => if p.ending = .line then none else some p
  | .semi =>
    if p.ending = .line then none else some { p with expecting := p.ending == .pipe }
  | .lparen => some ⟨p.ending, p.depth + 1, namesAt p.ending (p.depth + 1)⟩
  | .lbracket | .lbrace => some ⟨p.ending, p.depth + 1, false⟩
  | .rparen =>
    if p.ending = .paren && p.depth = 1 then none else some ⟨p.ending, p.depth - 1, false⟩
  | .rbracket | .rbrace => some ⟨p.ending, p.depth - 1, false⟩
  | .pipe =>
    if p.ending = .pipe && p.depth = 0 then none else some { p with expecting := false }
  | .comma => some { p with expecting := namesAt p.ending p.depth }
  | .op =>
    if t.text = ['*'] || t.text = ['*', '*'] || t.text = ['&'] then some p
    else some { p with expecting := false }
  | _ => some { p with expecting := false }

/-- The list that the newest token opens: a parenthesis after an arrow or after the name of a
method that is being defined, or a bar at the start of a block. -/
def opened? (recent : List Token) : Option Parameters :=
  match recent with
  | t :: u :: older =>
    match t.kind, u.kind with
    | .lparen, .op => if u.text = "->".toList then some (start .paren) else none
    | .lparen, .ident => if Token.namesDef (u :: older) then some (start .paren) else none
    | .pipe, .lbrace => some (start .pipe)
    | .pipe, .keyword .do_ => some (start .pipe)
    | _, _ => none
  | _ => none

end Parameters

end TablePack
