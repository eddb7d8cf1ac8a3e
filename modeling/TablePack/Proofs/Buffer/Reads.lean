import Mathlib.Tactic
import TablePack.Proofs.Buffer.Bytes

/-!
# What stands in a buffer

The bytes from a position on determine what every operation does there (`Reads`). In the buffer of a
text, the bytes at an offset between two characters are those of the text that stands there
(`reads_ofText`). A part between two such offsets is a text (`text_ofText`), and one that ends
inside a character is none (`text_of_isContinuation`). Every offset has a line and a column
(`position_ofText`).
-/

namespace TablePack

open Text (Stands lead trail Sees)

namespace Buffer

/-- The bytes from a position on. -/
def Reads (src : Buffer) (pos : ℕ) (bs : List UInt8) : Prop :=
  ∃ before, src.bytes.toList = before ++ bs ∧ before.length = pos

section Reads

variable {src : Buffer} {pos : ℕ} {b : UInt8} {as bs : List UInt8}

lemma Reads.size_eq (h : src.Reads pos bs) : src.size = pos + bs.length := by
  obtain ⟨before, hsrc, rfl⟩ := h
  rw [Buffer.size, ← Array.length_toList, hsrc, List.length_append]

lemma Reads.append (h : src.Reads pos (as ++ bs)) : src.Reads (pos + as.length) bs := by
  obtain ⟨before, hsrc, rfl⟩ := h
  exact ⟨before ++ as, by rw [hsrc, List.append_assoc], by rw [List.length_append]⟩

lemma Reads.cons (h : src.Reads pos (b :: bs)) : src.Reads (pos + 1) bs :=
  @Reads.append _ _ [b] _ h

lemma Reads.get? (h : src.Reads pos bs) (k : ℕ) : src.get? (pos + k) = bs[k]? := by
  obtain ⟨before, hsrc, rfl⟩ := h
  rw [Buffer.get?, ← Array.getElem?_toList, hsrc, List.getElem?_append_right (by omega),
    Nat.add_sub_cancel_left]

lemma Reads.byte (h : src.Reads pos (b :: bs)) : src.byte pos = .ok b := by
  have hget := h.get? 0
  rw [Buffer.get?, Nat.add_zero] at hget
  rw [Buffer.byte, Checked.item, hget]
  rfl

lemma Reads.tail (h : src.Reads pos bs) : src.tail pos = .ok ⟨bs.toArray⟩ := by
  have hsize := h.size_eq
  obtain ⟨before, hsrc, rfl⟩ := h
  have hextract : src.bytes.extract before.length src.bytes.size = bs.toArray := by
    rw [← Array.toList_inj, Array.toList_extract, hsrc, List.extract_eq_take_drop,
      List.drop_left, List.take_of_length_le (by rw [← Buffer.size]; omega)]
  rw [Buffer.tail, Checked.tail, Checked.part, if_pos ⟨by rw [← Buffer.size]; omega, le_rfl⟩,
    hextract]
  rfl

lemma Reads.part (h : src.Reads pos (as ++ bs)) :
    Checked.part src.bytes pos (pos + as.length) = .ok as.toArray := by
  have hsize := h.size_eq
  rw [List.length_append] at hsize
  obtain ⟨before, hsrc, rfl⟩ := h
  have hextract : src.bytes.extract before.length (before.length + as.length) = as.toArray := by
    rw [← Array.toList_inj, Array.toList_extract, hsrc, List.extract_eq_take_drop,
      List.drop_left, Nat.add_sub_cancel_left, List.take_left]
  rw [Checked.part, if_pos ⟨by omega, by rw [← Buffer.size]; omega⟩, hextract]

lemma Reads.eatWhile (h : src.Reads pos bs) (p : UInt8 → Bool) :
    src.eatWhile p pos = .ok (pos + (bs.takeWhile p).length) := by
  induction bs generalizing pos with
  | nil =>
    have hsize := h.size_eq
    rw [Buffer.eatWhile, if_neg (by simp [hsize])]
    rfl
  | cons b bs ih =>
    have hsize := h.size_eq
    rw [Buffer.eatWhile, if_pos (by simp [hsize]), h.byte]
    change (if p b then src.eatWhile p (pos + 1) else .ok pos) = _
    rw [List.takeWhile_cons]
    split
    · rw [ih h.cons, List.length_cons, Nat.add_right_comm, Nat.add_assoc]
    · rfl

lemma Reads.holdsAt (h : src.Reads pos bs) (word : List UInt8) :
    src.holdsAt pos word = word.isPrefixOf bs := by
  induction word generalizing pos bs with
  | nil => rfl
  | cons d word ih =>
    have hget := h.get? 0
    rw [Nat.add_zero] at hget
    cases bs with
    | nil => simp [Buffer.holdsAt, hget]
    | cons b bs =>
      rw [Buffer.holdsAt, hget, ih h.cons, List.getElem?_cons_zero, List.isPrefixOf_cons_cons,
        Option.some_beq_some, BEq.comm]

end Reads

/-! ## The buffer of a text -/

lemma reads_zero (bs : List UInt8) : (Buffer.mk bs.toArray).Reads 0 bs := ⟨[], rfl, rfl⟩

lemma count_mk (bs : List UInt8) (p : UInt8 → Bool) :
    (Buffer.mk bs.toArray).count p = (bs.takeWhile p).length := by
  rw [count, List.takeWhile_toArray, List.size_toArray]

section Text

variable {source t : Text} {pos : ℕ}

lemma reads_ofText (h : Stands source pos t) : (ofText source).Reads pos t.bytes := by
  obtain ⟨before, rfl, rfl⟩ := h
  exact ⟨Text.bytes before, by simp [ofText], by simp⟩

lemma size_ofText (source : Text) : (ofText source).size = Text.size source := by
  simp [Buffer.size, ofText]

lemma get?_ofText (h : Stands source pos t) : (ofText source).get? pos = t.head?.map lead := by
  have hget := (reads_ofText h).get? 0
  rw [Nat.add_zero] at hget
  rw [hget]
  cases t with
  | nil => rfl
  | cons c t => rw [Text.bytes_cons_eq]; rfl

lemma byte_ofText {c : Char} (h : Stands source pos (c :: t)) :
    (ofText source).byte pos = .ok (lead c) := by
  have hreads := reads_ofText h
  rw [Text.bytes_cons_eq] at hreads
  exact hreads.byte

lemma get?_beq_ofText {d : Char} (h : Stands source pos t) (hd : d.toNat < 0x80) :
    ((ofText source).get? pos == some (ascii d)) = (t.head? == some d) := by
  rw [get?_ofText h, Text.map_lead_beq hd]

lemma tail_ofText (h : Stands source pos t) : (ofText source).tail pos = .ok (ofText t) :=
  (reads_ofText h).tail

lemma part_ofText {u : Text} (h : Stands source pos (u ++ t)) :
    (ofText source).part pos (pos + Text.size u) = .ok (ofText u) := by
  have hreads := reads_ofText h
  rw [Text.bytes_append] at hreads
  have hpart := hreads.part
  rw [Text.length_bytes] at hpart
  rw [Buffer.part, hpart]
  rfl

lemma stands_zero (t : Text) : Stands t 0 t := ⟨[], rfl, rfl⟩

lemma eatWhile_ofText {p : UInt8 → Bool} {P : Char → Bool} (hp : Sees p P)
    (h : Stands source pos t) :
    (ofText source).eatWhile p pos = .ok (pos + Text.size (t.takeWhile P)) := by
  rw [(reads_ofText h).eatWhile, Text.takeWhile_bytes hp, Text.length_bytes]

lemma count_ofText {p : UInt8 → Bool} {P : Char → Bool} (hp : Sees p P) (t : Text) :
    (ofText t).count p = Text.size (t.takeWhile P) := by
  rw [ofText, count_mk, Text.takeWhile_bytes hp, Text.length_bytes]

/-! ### Words -/

/-- Words in ASCII are found by their bytes. -/
lemma isPrefixOf_bytes {word : Text} (hword : ∀ c ∈ word, c.toNat < 0x80) (t : Text) :
    word.bytes.isPrefixOf t.bytes = word.isPrefixOf t := by
  induction word generalizing t with
  | nil => rfl
  | cons d word ih =>
    obtain ⟨hd, hword⟩ := List.forall_mem_cons.1 hword
    have hnarrow : ¬ Text.isWide d := by
      rw [Text.isWide_iff]
      omega
    rw [Text.bytes_cons_eq, Text.trail_of_narrow hnarrow, List.nil_append,
      Text.lead_of_narrow hnarrow]
    cases t with
    | nil => rfl
    | cons c t =>
      rw [Text.bytes_cons_eq, List.isPrefixOf_cons_cons, List.isPrefixOf_cons_cons, BEq.comm,
        Text.lead_beq_ascii hd, BEq.comm]
      by_cases hc : d = c
      · subst hc
        rw [Text.trail_of_narrow hnarrow, List.nil_append, ih hword]
      · rw [beq_eq_false_iff_ne.2 hc, Bool.false_and, Bool.false_and]

lemma startsWith_ofText {word : Text} (hword : ∀ c ∈ word, c.toNat < 0x80) (t : Text) :
    (ofText t).startsWith word = word.isPrefixOf t := by
  have hreads : (ofText t).Reads 0 t.bytes := reads_zero t.bytes
  rw [startsWith, hreads.holdsAt, isPrefixOf_bytes hword]

/-! ### Parts of the text -/

lemma fromUTF8?_bytes (t : Text) : String.fromUTF8? ⟨t.bytes.toArray⟩ = some (String.ofList t) := by
  have hbytes : (⟨t.bytes.toArray⟩ : ByteArray) = (String.ofList t).toByteArray := by
    rw [String.toByteArray_ofList, List.utf8Encode]
    exact ByteArray.ext List.data_toByteArray.symm
  rw [hbytes, String.fromUTF8?, dif_pos (String.ofList t).isValidUTF8]
  rfl

lemma ofText_injective {a b : Text} (h : ofText a = ofText b) : a = b := by
  have hbytes : a.bytes.toArray = b.bytes.toArray := congrArg Buffer.bytes h
  have ha := fromUTF8?_bytes a
  rw [hbytes, fromUTF8?_bytes b, Option.some_inj, String.ofList_inj] at ha
  exact ha.symm

lemma isBoundary_ofText (h : Stands source pos t) : (ofText source).isBoundary pos := by
  rw [isBoundary, get?_ofText h, size_ofText]
  cases t with
  | nil =>
    obtain ⟨before, rfl, rfl⟩ := h
    simp
  | cons c t => simp [Text.not_isContinuation_lead]

/-- A part between two offsets that divide no character. -/
lemma text_ofText {u : Text} (h : Stands source pos (u ++ t)) :
    (ofText source).text pos (pos + Text.size u) = .ok u := by
  have hreads := reads_ofText h
  rw [Text.bytes_append] at hreads
  have hpart := hreads.part
  rw [Text.length_bytes] at hpart
  rw [Buffer.text, hpart]
  change (if _ then _ else _) = _
  rw [if_pos (by rw [isBoundary_ofText h, isBoundary_ofText h.append]; rfl), fromUTF8?_bytes]
  exact congrArg Except.ok String.toList_ofList

/-- A part that ends inside a character. -/
lemma text_of_isContinuation {src : Buffer} {start stop : ℕ} {b : UInt8} {bs : List UInt8}
    (h : src.Reads stop (b :: bs)) (hb : Byte.isContinuation b) (hlt : start < stop) :
    src.text start stop = .error (.panic .boundary) := by
  have hsize := h.size_eq
  have hget := h.get? 0
  rw [Nat.add_zero, List.getElem?_cons_zero] at hget
  rw [List.length_cons] at hsize
  have hnot : src.isBoundary stop = false := by
    rw [isBoundary, hget, hsize]
    simp [hb]
    omega
  rw [Buffer.text, Checked.part, if_pos ⟨hlt.le, by rw [← Buffer.size]; omega⟩]
  change (if _ then _ else _) = _
  rw [hnot, Bool.and_false, if_neg Bool.false_ne_true]

/-! ### Lines and columns -/

lemma laterStarts_eq (here : ℕ) (t : Text) :
    ((t.bytes.zipIdx here).filter fun entry => entry.1 == ascii '\n').map (fun entry => entry.2 + 1)
      = t.laterStarts here := by
  induction t generalizing here with
  | nil => rfl
  | cons c t ih =>
    rw [Text.bytes_cons, List.zipIdx_append, List.filter_append, List.map_append,
      String.length_utf8EncodeChar, ih, Text.laterStarts]
    by_cases hc : c = '\n'
    · subst hc
      rfl
    · have hnone : ((String.utf8EncodeChar c).zipIdx here).filter
          (fun entry => entry.1 == ascii '\n')
          = [] := by
        rw [List.filter_eq_nil_iff]
        rintro ⟨b, k⟩ hmem heq
        obtain rfl : b = Text.newlineByte := beq_iff_eq.1 heq
        exact hc (Text.eq_newline_of_mem_utf8EncodeChar (List.fst_mem_of_mem_zipIdx hmem))
      rw [hnone, if_neg hc]
      rfl

lemma lineStarts_ofText (source : Text) :
    (ofText source).lineStarts = (LineIndex.ofText source).starts := by
  simp only [lineStarts, ofText, Array.zipIdx_toArray, List.filter_toArray, List.map_toArray,
    laterStarts_eq]
  exact List.append_toArray [0] _

lemma position_ofText (source : Text) (offset : ℕ) :
    (ofText source).position offset = .ok (source.position offset) := by
  have hpos : 1 ≤ (LineIndex.ofText source).lineAt offset := LineIndex.lineAt_pos _ offset
  have hlt := (LineIndex.ofText source).lineAt_sub_one_lt offset
  have hle := (LineIndex.ofText source).startAt_le offset
  have hitem : Checked.item (LineIndex.ofText source).starts
      ((LineIndex.ofText source).lineAt offset - 1)
        = .ok ((LineIndex.ofText source).startAt offset) := by
    rw [Checked.item, Array.getElem?_eq_getElem hlt]
    rfl
  rw [position, lineStarts_ofText]
  change (Checked.minus ((LineIndex.ofText source).lineAt offset) 1 >>= _) = _
  rw [Checked.minus, if_pos hpos]
  change (Checked.item _ _ >>= _) = _
  rw [hitem]
  change (Checked.minus _ _ >>= _) = _
  rw [Checked.minus, if_pos hle]
  rfl

/-- A problem is reported at the line and the column of its offset. -/
lemma fail_ofText {α : Type} (source : Text) (offset : ℕ) (problem : Problem) :
    ((ofText source).fail offset problem : Checked α)
      = .error (.error (.ofFault source ⟨offset, problem⟩)) := by
  rw [fail, position_ofText]
  rfl

end Text

end Buffer

/-! ## Results -/

@[simp]
lemma Checked.ok_bind {α β : Type} (a : α) (f : α → Checked β) : (Except.ok a >>= f) = f a := rfl

/-- The way in which reading stops at a fault. A literal that ends inside a character cannot be cut
out of the text. -/
def Stop.ofFault (source : Text) (fault : Fault) : Stop :=
  if fault.problem = .splitCharacter then .panic .boundary else .error (.ofFault source fault)

/-- A result as it is read from the buffer of a text. -/
def Checked.ofResult {α β : Type} (source : Text) (f : α → β) : Except Fault α → Checked β
  | .ok a => .ok (f a)
  | .error fault => .error (Stop.ofFault source fault)

lemma Buffer.fail_eq_ofFault {α : Type} {source : Text} {fault : Fault}
    (h : fault.problem ≠ .splitCharacter) :
    ((ofText source).fail fault.offset fault.problem : Checked α)
      = .error (Stop.ofFault source fault) := by
  rw [fail_ofText, Stop.ofFault, if_neg h]

lemma Buffer.fail_eq_ofResult {α β : Type} {source : Text} {offset : ℕ} (problem : Problem)
    (h : problem ≠ .splitCharacter) (f : α → β) :
    (ofText source).fail offset problem = .ofResult source f (.error ⟨offset, problem⟩) :=
  @fail_eq_ofFault _ _ ⟨offset, problem⟩ h

end TablePack
