import TablePack.Error

/-!
# Operations that may panic

A program that works on bytes by their positions relies on every position being in range. Here the
operations that need this are partial: an element or a part of an array that is not there, a part
of a text that starts or ends inside a character, and a difference that is negative are no values
but a `Panic`, at which all reading stops. A build that does not check its arithmetic wraps around
at a negative difference instead, and is not modelled.

Sums of positions are not checked. They exceed the length of an array by a few bytes at most.
-/

namespace TablePack

/-- The ways in which an operation has no value. -/
inductive Panic where
  /-- An element past the end of an array. -/
  | index
  /-- A part that does not lie in an array. -/
  | range
  /-- A part of a text that starts or ends inside a character. -/
  | boundary
  /-- A number that is taken from a smaller one. -/
  | underflow
deriving Repr, DecidableEq

/-- Why reading stops: at an operation that has no value, or with an error that is reported. -/
inductive Stop where
  | panic (kind : Panic)
  | error (error : Error)
deriving Repr, DecidableEq

/-- The result of reading. -/
abbrev Checked := Except Stop

namespace Checked

/-- The difference of two numbers. -/
def minus (a b : Nat) : Checked Nat :=
  if b ≤ a then .ok (a - b) else .error (.panic .underflow)

variable {α : Type}

/-- The element of an array at a position. -/
def item (xs : Array α) (i : Nat) : Checked α :=
  match xs[i]? with
  | some x => .ok x
  | none => .error (.panic .index)

/-- The part of an array from one position up to another. -/
def part (xs : Array α) (start stop : Nat) : Checked (Array α) :=
  if start ≤ stop ∧ stop ≤ xs.size then .ok (xs.extract start stop)
  else .error (.panic .range)

/-- The part of an array from a position on. -/
def tail (xs : Array α) (start : Nat) : Checked (Array α) := part xs start xs.size

/-! ## Results -/

/-- Every value that a reading has is in a class. -/
def Gives (P : α → Prop) (r : Checked α) : Prop := ∀ a, r = .ok a → P a

variable {β : Type} {P : α → Prop}

theorem Gives.ok {a : α} (h : P a) : Gives P (.ok a) := by
  rintro _ ⟨⟩
  exact h

theorem Gives.error (stop : Stop) : Gives P (.error stop) := by
  rintro _ ⟨⟩

theorem Gives.bind {r : Checked β} {f : β → Checked α} {Q : β → Prop} (hr : Gives Q r)
    (hf : ∀ b, Q b → Gives P (f b)) : Gives P (r >>= f) := by
  cases r with
  | error stop => exact .error stop
  | ok b => exact hf b (hr b rfl)

theorem Gives.any (r : Checked β) : Gives (fun _ => True) r := fun _ _ => trivial

end Checked

end TablePack
