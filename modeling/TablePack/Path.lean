/-!
# Paths

A path is the bytes that name a file to the system. Mostly they are a text, but they need not be
one. A path that is no text is shown with a replacement character for each broken character.
-/

namespace TablePack

/-- The name of a file. -/
structure Path where
  bytes : ByteArray

namespace Path

theorem data_inj {p q : Path} : p.bytes.data = q.bytes.data ↔ p = q := by
  obtain ⟨⟨a⟩⟩ := p
  obtain ⟨⟨b⟩⟩ := q
  simp

instance : DecidableEq Path := fun _ _ => decidable_of_decidable_of_iff data_inj

/-- The path that a text spells. -/
def ofString (s : String) : Path := ⟨s.toUTF8⟩

/-- The text of a path. -/
def text? (p : Path) : Option String := String.fromUTF8? p.bytes

/-- Whether a path is a text. -/
def IsText (p : Path) : Prop := p.text?.isSome

instance (p : Path) : Decidable p.IsText := inferInstanceAs (Decidable (_ = _))

/-- Whether `second` can follow the first byte of a character of three or four bytes. -/
def follows (first second : UInt8) : Bool :=
  if first = 0xe0 then 0xa0 ≤ second && second ≤ 0xbf
  else if first = 0xed then 0x80 ≤ second && second ≤ 0x9f
  else if first = 0xf0 then 0x90 ≤ second && second ≤ 0xbf
  else if first = 0xf4 then 0x80 ≤ second && second ≤ 0x8f
  else 0xe1 ≤ first && first ≤ 0xf3 && 0x80 ≤ second && second ≤ 0xbf

/-- How many bytes belong to a broken character after its first one. -/
def brokenTail (first : UInt8) : List UInt8 → Nat
  | [] => 0
  | second :: rest =>
    if !follows first second then 0
    else if 0xf0 ≤ first && rest.head?.any (fun third => 0x80 ≤ third && third ≤ 0xbf) then 2
    else 1

/-- The characters of some bytes, with a replacement character for each broken one. -/
def shown (bytes : List UInt8) : List Char :=
  match bytes with
  | [] => []
  | first :: rest =>
    match (ByteArray.mk (first :: rest).toArray).utf8DecodeChar? 0 with
    | some c => c :: shown (rest.drop (c.utf8Size - 1))
    | none => '�' :: shown (rest.drop (brokenTail first rest))
termination_by bytes.length
decreasing_by all_goals (simp only [List.length_drop, List.length_cons]; omega)

/-- A path as it is shown in messages. -/
def display (p : Path) : String := p.text?.getD (String.ofList (shown p.bytes.toList))

end Path

end TablePack
