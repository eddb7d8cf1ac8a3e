import TablePack.Fault
import TablePack.Text.Class

/-!
# Quoting

The end of a literal is found by a machine with a stack. Each frame of the stack is a context that
is still open: a delimited literal, a regular expression, or a piece of code that a literal
interpolates. Code may hold further literals, so frames nest.

`close` reads a text until the bottom frame ends, and answers how many characters that takes. When
the text ends first, the innermost open frame says what is unterminated.
-/

namespace TablePack

namespace Quoting

/-- A context that is open. `start` is the byte offset that a fault is reported at. -/
inductive Frame where
  /-- A literal between delimiters. `depth` counts the delimiter pairs that are open inside it. -/
  | literal (start : Nat) (opener closer : Char) (interpolates : Bool) (depth : Nat)
  /-- Interpolated code. `depth` counts the braces that are open inside it. -/
  | code (start depth : Nat)
  /-- A regular expression between slashes, possibly inside one of its character classes. -/
  | regexp (start : Nat) (inClass : Bool)
deriving Repr, DecidableEq

/-- What the next character does to the innermost frame. -/
inductive Reading where
  /-- It takes the following character along. -/
  | escape
  /-- It leaves the frame open, perhaps changed. -/
  | stay (frame : Frame)
  /-- It opens another frame. -/
  | enter (frame : Frame)
  /-- It opens another frame together with the following character. -/
  | interpolate (frame : Frame)
  /-- It closes the frame. -/
  | leave
deriving Repr, DecidableEq

/-- The delimiter that closes what `opener` opens. -/
def closing (opener : Char) : Char :=
  match opener with
  | '(' => ')'
  | '[' => ']'
  | '{' => '}'
  | '<' => '>'
  | c => c

/-- Whether a character is taken for the given delimiter. A delimiter outside ASCII is known by its
first byte alone. -/
def delimits (delimiter c : Char) : Bool :=
  c == delimiter || (Text.isWide delimiter && Text.leadByte c == Text.leadByte delimiter)

/-- The fault of a frame that the text does not close. -/
def Frame.fault : Frame → Fault
  | literal start .. => ⟨start, .unterminatedLiteral⟩
  | code start _ => ⟨start, .unterminatedInterpolation⟩
  | regexp start _ => ⟨start, .unterminatedRegexp⟩

/-- What the character `c` at byte `here` does, `next` being the character after it. -/
def Frame.read (here : Nat) (c : Char) (next : Option Char) : Frame → Reading
  | literal start opener closer interpolates depth =>
    if c = '\\' then .escape
    else if delimits closer c then
      if depth = 0 then .leave else .stay (literal start opener closer interpolates (depth - 1))
    else if delimits opener c then .stay (literal start opener closer interpolates (depth + 1))
    else if interpolates && c = '#' && next = some '{' then .interpolate (code start 0)
    else .stay (literal start opener closer interpolates depth)
  | code start depth =>
    if c = '{' then .stay (code start (depth + 1))
    else if c = '}' then if depth = 0 then .leave else .stay (code start (depth - 1))
    else if c = '"' || c = '`' then .enter (literal here c c true 0)
    else if c = '\'' then .enter (literal here c c false 0)
    else if c = '\\' then .escape
    else .stay (code start depth)
  | regexp start inClass =>
    if c = '\\' then .escape
    else if c = '[' then .stay (regexp start true)
    else if c = ']' then .stay (regexp start false)
    else if c = '/' && !inClass then .leave
    else if c = '#' && next = some '{' then .interpolate (code start 0)
    else .stay (regexp start inClass)

/-- Reads the text at byte `here` until all frames are closed. The answer is the number of
characters that this takes, added to the `n` that are already read. -/
def close (top : Frame) (below : List Frame) (here n : Nat) : Text → Except Fault Nat
  | [] => .error top.fault
  | c :: t =>
    match top.read here c t.head? with
    | .stay frame => close frame below (here + c.utf8Size) (n + 1) t
    | .enter frame => close frame (top :: below) (here + c.utf8Size) (n + 1) t
    | .leave =>
      match below with
      | [] => .ok (n + 1)
      | frame :: outer => close frame outer (here + c.utf8Size) (n + 1) t
    | .escape =>
      match t with
      | [] => .error top.fault
      | d :: u => close top below (here + c.utf8Size + d.utf8Size) (n + 2) u
    | .interpolate frame =>
      match t with
      | [] => .error frame.fault
      | d :: u => close frame (top :: below) (here + c.utf8Size + d.utf8Size) (n + 2) u

/-- The length of the literal whose opening delimiter stands at byte `start` and is followed by
`t`; the opening delimiter is not counted. -/
def literal (start : Nat) (opener : Char) (interpolates : Bool) (t : Text) : Except Fault Nat :=
  close (.literal start opener (closing opener) interpolates 0) [] (start + opener.utf8Size) 0 t

/-- The length of the regular expression whose opening slash stands at byte `start` and is followed
by `t`; the opening slash is not counted. -/
def regexp (start : Nat) (t : Text) : Except Fault Nat :=
  close (.regexp start false) [] (start + 1) 0 t

end Quoting

end TablePack
