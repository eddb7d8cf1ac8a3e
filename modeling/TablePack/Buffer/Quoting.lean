import TablePack.Buffer

/-!
# Quoting in a buffer

The end of a literal is found byte by byte. A literal may interpolate code, and code may hold
literals; each frame of the stack is one of them that is still open. Depths count the delimiters
that are open, the one of the frame itself included, so that they must not fall below zero.

A backslash passes over the byte after it, which may be the first one of a character or past the
end of the buffer.
-/

namespace TablePack

namespace Buffer

/-- A literal, a regular expression or a piece of code that is open. `start` is the position that a
problem is reported at. -/
inductive Frame where
  | literal (start : Nat) (opener closer : UInt8) (interpolates : Bool) (depth : Nat)
  | code (start depth : Nat)
  | regexp (start : Nat) (inClass : Bool)
deriving Repr, DecidableEq

/-- What becomes of the innermost frame. -/
inductive Turn where
  | stay (frame : Frame)
  | enter (frame : Frame)
  | leave
deriving Repr, DecidableEq

/-- The delimiter that closes what `opener` opens. -/
def closing (opener : UInt8) : UInt8 :=
  if opener == ascii '(' then ascii ')'
  else if opener == ascii '[' then ascii ']'
  else if opener == ascii '{' then ascii '}'
  else if opener == ascii '<' then ascii '>'
  else opener

/-- The problem of a frame that the text does not close. -/
def Frame.fail {α : Type} (src : Buffer) : Frame → Checked α
  | literal start .. => src.fail start .unterminatedLiteral
  | code start _ => src.fail start .unterminatedInterpolation
  | regexp start _ => src.fail start .unterminatedRegexp

/-- What the byte `b` at a position does, and how many bytes after it are passed over with it. -/
def Frame.read (src : Buffer) (pos : Nat) (b : UInt8) : Frame → Checked (Turn × Nat)
  | literal start opener closer interpolates depth =>
    if b == ascii '\\' then .ok (.stay (literal start opener closer interpolates depth), 1)
    else if b == closer then do
      let depth ← Checked.minus depth 1
      if depth = 0 then .ok (.leave, 0)
      else .ok (.stay (literal start opener closer interpolates depth), 0)
    else if b == opener then .ok (.stay (literal start opener closer interpolates (depth + 1)), 0)
    else if interpolates && b == ascii '#' && src.get? (pos + 1) == some (ascii '{') then
      .ok (.enter (code start 1), 1)
    else .ok (.stay (literal start opener closer interpolates depth), 0)
  | code start depth =>
    if b == ascii '{' then .ok (.stay (code start (depth + 1)), 0)
    else if b == ascii '}' then do
      let depth ← Checked.minus depth 1
      if depth = 0 then .ok (.leave, 0) else .ok (.stay (code start depth), 0)
    else if b == ascii '"' || b == ascii '`' then .ok (.enter (literal pos b b true 1), 0)
    else if b == ascii '\'' then .ok (.enter (literal pos b b false 1), 0)
    else if b == ascii '\\' then .ok (.stay (code start depth), 1)
    else .ok (.stay (code start depth), 0)
  | regexp start inClass =>
    if b == ascii '\\' then .ok (.stay (regexp start inClass), 1)
    else if b == ascii '[' then .ok (.stay (regexp start true), 0)
    else if b == ascii ']' then .ok (.stay (regexp start false), 0)
    else if b == ascii '/' && !inClass then .ok (.leave, 0)
    else if b == ascii '#' && src.get? (pos + 1) == some (ascii '{') then
      .ok (.enter (code start 1), 1)
    else .ok (.stay (regexp start inClass), 0)

/-- Reads from a position until all frames are closed. The answer is the position after that. -/
def close (src : Buffer) (top : Frame) (below : List Frame) (pos : Nat) : Checked Nat :=
  if pos < src.size then do
    let b ← src.byte pos
    let (turn, more) ← top.read src pos b
    match turn with
    | .stay frame => close src frame below (pos + more + 1)
    | .enter frame => close src frame (top :: below) (pos + more + 1)
    | .leave =>
      match below with
      | [] => .ok (pos + more + 1)
      | frame :: outer => close src frame outer (pos + more + 1)
  else top.fail src
termination_by src.size - pos

theorem gives_close (src : Buffer) (top : Frame) (below : List Frame) (pos : Nat) :
    Checked.Gives (pos < ·) (src.close top below pos) := by
  fun_induction close src top below pos with
  | case1 top below pos hlt stay enter leave =>
    refine (Checked.Gives.any _).bind fun b _ => (Checked.Gives.any _).bind fun next _ => ?_
    have hle : pos < pos + next.2 + 1 := Nat.lt_succ_of_le (Nat.le_add_right _ _)
    obtain ⟨turn, more⟩ := next
    cases turn with
    | stay frame => exact fun stop h => Nat.lt_trans hle (stay more frame stop h)
    | enter frame => exact fun stop h => Nat.lt_trans hle (enter more frame stop h)
    | leave =>
      cases below with
      | nil => exact .ok hle
      | cons frame outer => exact fun stop h => Nat.lt_trans hle (leave more frame outer stop h)
  | case2 top below pos hge =>
    cases top <;> exact src.gives_fail _ _

/-- The position after the literal whose opening delimiter stands at `start`. -/
def literal (src : Buffer) (start : Nat) (opener closer : UInt8) (interpolates : Bool) :
    Checked Nat :=
  src.close (.literal start opener closer interpolates 1) [] (start + 1)

/-- The position after the regular expression whose opening slash stands at `start`. -/
def regexp (src : Buffer) (start : Nat) : Checked Nat :=
  src.close (.regexp start false) [] (start + 1)

end Buffer

end TablePack
