import TablePack.Buffer.Lexer

/-!
# Reading a whole buffer

Every step of the lexer that succeeds goes forward (`lt_pos_step`), so reading ends. A step that has
a value but stays where it is would read the same bytes again.
-/

namespace TablePack

open Token (Kind)

namespace Lexer

open Checked (Gives)

/-- Every state that a reading leads to is further on. -/
def Forward (l : Lexer) (r : Checked Lexer) : Prop := Gives (fun l' => l.pos < l'.pos) r

/-- As `Forward`, where there may be nothing to read. -/
def ForwardIf (l : Lexer) (r : Checked (Option Lexer)) : Prop :=
  Gives (fun found => ∀ l', found = some l' → l.pos < l'.pos) r

variable {src : Buffer} {l : Lexer} {b : UInt8}

theorem gives_emit (l : Lexer) (kind : Kind) (stop : Nat) :
    Gives (fun l' => l'.pos = stop) (l.emit src kind stop) :=
  (Gives.any _).bind fun _ _ => (Gives.any _).bind fun _ _ => .ok rfl

theorem forward_emit {kind : Kind} {stop : Nat} (h : l.pos < stop) :
    l.Forward (l.emit src kind stop) := by
  intro l' hl'
  rw [gives_emit l kind stop l' hl']
  exact h

/-- A token up to a position that is found first. -/
theorem forward_bind_emit {r : Checked Nat} (kind : Kind) (h : Gives (l.pos < ·) r) :
    l.Forward (r >>= l.emit src kind) :=
  h.bind fun _ hlt => forward_emit hlt

theorem ForwardIf.some {r : Checked Lexer} (h : l.Forward r) : l.ForwardIf (r.map some) := by
  cases r with
  | error stop => exact .error stop
  | ok read =>
    refine .ok ?_
    rintro _ ⟨⟩
    exact h read rfl

theorem ForwardIf.none : l.ForwardIf (.ok none) := .ok (by rintro _ ⟨⟩)

theorem gives_documentEnd (start pos : Nat) : Gives (pos < ·) (documentEnd src start pos) := by
  fun_induction documentEnd src start pos with
  | case1 pos stop h => exact .error stop
  | case2 pos lineEnd h hlt ih =>
    have hle := src.gives_eatWhile _ _ _ h
    refine (Gives.any _).bind fun found _ => ?_
    cases found with
    | true =>
      intro stop hstop
      have hle' := src.gives_eatWhile _ _ _ hstop
      omega
    | false =>
      intro stop hstop
      have hlt' := ih stop hstop
      omega
  | case3 pos lineEnd h hge => exact src.gives_fail _ _

theorem gives_bodyEnd (doc : Announcement) (pos : Nat) : Gives (pos ≤ ·) (bodyEnd src doc pos) := by
  fun_induction bodyEnd src doc pos with
  | case1 pos hlt ih =>
    refine (Gives.any _).bind fun rest _ => (Gives.any _).bind fun line _ =>
      (Gives.any _).bind fun text _ => ?_
    split
    · exact .ok (by omega)
    · intro stop hstop
      have hle := ih rest stop hstop
      omega
  | case2 pos hge => exact src.gives_fail _ _

theorem gives_bodiesEnd (docs : List Announcement) (pos : Nat) :
    Gives (pos ≤ ·) (bodiesEnd src docs pos) := by
  induction docs generalizing pos with
  | nil => exact .ok (Nat.le_refl _)
  | cons doc docs ih =>
    exact (gives_bodyEnd doc pos).bind fun stop hle last hlast =>
      Nat.le_trans hle (ih stop last hlast)

theorem forward_newline : l.Forward (l.newline src) := by
  refine (gives_emit l .newline (l.pos + 1)).bind fun read hread => ?_
  refine (gives_bodiesEnd l.heredocs read.pos).bind fun stop hle => .ok ?_
  change l.pos < stop
  omega

theorem forward_continuation : l.Forward (l.continuation src) := by
  unfold continuation
  split
  · exact .ok (by simp)
  split
  · exact .ok (by simp)
  · exact src.gives_fail _ _

theorem forward_document : l.Forward (l.document src) :=
  forward_bind_emit .comment (gives_documentEnd l.pos l.pos)

theorem forward_lineComment (hb : src.byte l.pos = .ok b) (hne : b ≠ ascii '\n') :
    l.Forward (l.lineComment src) :=
  forward_bind_emit .comment (Buffer.gives_eatWhile_of_byte hb (by simp [hne]))

theorem gives_nameAfter {start pos : Nat} (h : start < pos) :
    Gives (start < ·) (nameAfter src start pos) := by
  unfold nameAfter
  split
  · intro stop hstop
    have hle := src.gives_eatWhile _ _ _ hstop
    omega
  · exact src.gives_fail _ _

theorem gives_varEnd (start : Nat) : Gives (start < ·) (varEnd src start) := by
  unfold varEnd
  split
  · exact gives_nameAfter (by omega)
  split
  · exact .ok (by omega)
  · exact gives_nameAfter (by omega)

theorem forward_var (kind : Kind) : l.Forward (l.var src kind) :=
  forward_bind_emit kind (gives_varEnd l.pos)

theorem gives_literal (start : Nat) (opener closer : UInt8) (interpolates : Bool) :
    Gives (start < ·) (src.literal start opener closer interpolates) := by
  intro stop hstop
  have hlt := src.gives_close _ _ _ stop hstop
  omega

theorem forward_quoted (q : UInt8) (interpolates : Bool) :
    l.Forward (l.quoted src q interpolates) :=
  forward_bind_emit .string (gives_literal l.pos q q interpolates)

theorem pos_extendBack (l : Lexer) (start : Nat) : (l.extendBack start).pos = l.pos := by
  unfold extendBack
  split <;> rfl

theorem gives_symbolEnd (start : Nat) : Gives (start ≤ ·) (symbolEnd src start) := by
  refine (src.gives_eatWhile _ _).bind fun stop hle => ?_
  split
  · exact .ok (Nat.le_succ_of_le hle)
  · exact .ok hle

theorem forward_colon : l.Forward (l.colon src) := by
  unfold colon
  split
  · exact forward_emit (by omega)
  split
  · refine (Gives.any _).bind fun q _ => forward_bind_emit .symbol fun stop hstop => ?_
    have hlt := gives_literal _ _ _ _ stop hstop
    omega
  split
  · refine Gives.bind (forward_var .symbol) fun read hread => .ok ?_
    rw [pos_extendBack]
    exact Nat.lt_of_succ_lt hread
  split
  · refine forward_bind_emit .symbol fun stop hstop => ?_
    have hle := gives_symbolEnd _ stop hstop
    omega
  · refine (Gives.any _).bind fun rest _ => ?_
    split
    · exact forward_emit (by omega)
    split
    · exact forward_emit (by omega)
    · exact forward_emit (by omega)

theorem forward_regexp : l.Forward (l.regexp src) := by
  refine (src.gives_close _ _ _).bind fun body hbody =>
    forward_bind_emit .regexp fun stop hstop => ?_
  have hle := src.gives_eatWhile _ _ stop hstop
  omega

theorem gives_flagsEnd (kind : Kind) (pos : Nat) : Gives (pos ≤ ·) (flagsEnd src kind pos) := by
  unfold flagsEnd
  split
  · exact src.gives_eatWhile _ _
  · exact .ok (Nat.le_refl _)

theorem forwardIf_character? : l.ForwardIf (l.character? src) := by
  unfold character?
  split
  · exact .none
  · rename_i n hn
    have hpos : 0 < n := by
      unfold characterLength? at hn
      split at hn
      · cases hn
      · split at hn
        · cases hn
          omega
        split at hn
        · cases hn
        split at hn
        · cases hn
        · cases hn
          omega
    refine (src.gives_eatWhile _ _).bind fun stop hle => ?_
    exact (forward_emit (by omega)).bind fun read hread => .ok (by rintro _ ⟨⟩; exact hread)

theorem forwardIf_percent? : l.ForwardIf (l.percent? src) := by
  unfold percent?
  split
  · exact .none
  · rename_i kind interpolates ahead _
    refine (Gives.any _).bind fun opener _ => ?_
    split
    · exact ForwardIf.none
    · refine (gives_literal _ _ _ _).bind fun body hbody =>
        (gives_flagsEnd _ _).bind fun stop hle => ?_
      exact (forward_emit (by omega)).bind fun read hread => .ok (by rintro _ ⟨⟩; exact hread)

theorem gives_heredocName? (pos : Nat) :
    Gives (fun found => ∀ entry, found = some entry → pos ≤ entry.2) (heredocName? src pos) := by
  unfold heredocName?
  split
  · exact .ok (by rintro _ ⟨⟩)
  split
  · refine (Gives.any _).bind fun body _ => ?_
    split
    · refine (Gives.any _).bind fun last _ => ?_
      split
      · exact .ok (by rintro _ ⟨⟩)
      · refine (Gives.any _).bind fun name _ => .ok ?_
        rintro _ ⟨⟩
        exact Nat.le_add_right _ _
    · exact .ok (by rintro _ ⟨⟩)
  split
  · refine (Gives.any _).bind fun rest _ => (Gives.any _).bind fun name _ => .ok ?_
    rintro _ ⟨⟩
    exact Nat.le_add_right _ _
  · exact .ok (by rintro _ ⟨⟩)

theorem forwardIf_announced? : l.ForwardIf (l.announced? src) := by
  unfold announced?
  split
  · refine (gives_heredocName? _).bind fun found hfound => ?_
    cases found with
    | none => exact ForwardIf.none
    | some entry =>
      have hle := hfound entry rfl
      refine (forward_emit (l := l) (by omega)).bind fun read hread => .ok ?_
      rintro _ ⟨⟩
      exact hread
  · exact .none

theorem bytes_length_pos {t : Text} (h : t ≠ []) : 0 < t.bytes.length := by
  cases t with
  | nil => exact absurd rfl h
  | cons c t =>
    have hc : 0 < c.utf8Size := c.utf8Size_pos
    simp only [Text.bytes, List.flatMap_cons, List.length_append, String.length_utf8EncodeChar]
    omega

theorem ne_nil_of_findMethod? {rest : Buffer} {name : Text} (h : findMethod? rest = some name) :
    name ≠ [] := by
  have hall : ∀ name ∈ Sign.methods, name ≠ [] := by decide
  exact hall name (List.mem_of_find?_eq_some h)

theorem forwardIf_method? : l.ForwardIf (l.method? src) := by
  unfold method?
  split
  · refine (Gives.any _).bind fun rest _ => ?_
    split
    · exact ForwardIf.none
    · rename_i name hname
      have hpos := bytes_length_pos (ne_nil_of_findMethod? hname)
      exact (forward_emit (by omega)).bind fun read hread => .ok (by rintro _ ⟨⟩; exact hread)
  · exact .none

theorem gives_openParams (l : Lexer) : Gives (fun l' => l'.pos = l.pos) (l.openParams src) := by
  refine (Gives.any _).bind fun found _ => ?_
  cases found <;> exact .ok rfl

theorem gives_bindFor (l : Lexer) (sign : Sign) :
    Gives (fun l' => l'.pos = l.pos) (l.bindFor src sign) := by
  unfold bindFor
  split
  · exact (Gives.any _).bind fun names _ => .ok rfl
  · exact .ok rfl

theorem forward_sign : l.Forward (l.sign src) := by
  refine (Gives.any _).bind fun rest _ => ?_
  split
  · exact (Gives.any _).bind fun ahead _ => src.gives_fail _ _
  · rename_i sign hsign
    have hall : ∀ sign ∈ Sign.table, sign.text ≠ [] := by decide
    have hpos := bytes_length_pos (hall sign (List.mem_of_find?_eq_some hsign))
    refine (gives_bindFor l sign).bind fun bound _ => ?_
    refine (gives_emit bound sign.kind _).bind fun read hread => ?_
    intro l' hl'
    rw [gives_openParams read l' hl', hread]
    omega

theorem forwardIf_literal? : l.ForwardIf (l.literal? src b) := by
  unfold literal?
  split
  · exact forwardIf_character?
  split
  · exact forwardIf_percent?
  split
  · exact .some forward_regexp
  split
  · exact forwardIf_announced?
  · exact .none

theorem forward_literalOrSign : l.Forward (l.literalOrSign src b) := by
  unfold literalOrSign
  split
  · exact forward_quoted _ _
  split
  · exact forward_quoted _ _
  split
  · exact forward_colon
  split
  · refine (Gives.any _).bind fun allowed _ => ?_
    cases allowed with
    | false => exact forward_sign
    | true =>
      refine forwardIf_literal?.bind fun found hfound => ?_
      cases found with
      | none => exact forward_sign
      | some read => exact .ok (hfound read rfl)
  · exact forward_sign

theorem gives_fraction (pos : Nat) : Gives (pos ≤ ·.2) (fraction src pos) := by
  unfold fraction
  split
  · exact (src.gives_eatWhile _ _).bind fun stop hle => .ok (Nat.le_of_succ_le hle)
  · exact .ok (Nat.le_refl _)

theorem gives_exponent (kind : Kind) (pos : Nat) : Gives (pos ≤ ·.2) (exponent src kind pos) := by
  unfold exponent
  split
  · refine (src.gives_eatWhile _ _).bind fun stop hle => .ok ?_
    exact Nat.le_trans (Nat.le_add_right _ _) hle
  · exact .ok (Nat.le_refl _)

theorem gives_numeral {start : Nat} (hb : src.byte start = .ok b) (hdigit : Byte.isDigit b) :
    Gives (start < ·.2) (numeral src start) := by
  unfold numeral
  split
  · refine (src.gives_eatWhile _ _).bind fun stop hle => (Gives.any _).bind fun digits _ => ?_
    split
    · exact src.gives_fail _ _
    · exact .ok (by dsimp only; omega)
  · have hwhole : Gives (start < ·) (src.eatWhile Byte.isDigitOrScore start) :=
      Buffer.gives_eatWhile_of_byte hb (by simp [Byte.isDigitOrScore, hdigit])
    refine hwhole.bind fun whole hwhole => (gives_fraction whole).bind fun fractional hfractional =>
      (gives_exponent fractional.1 fractional.2).bind fun scaled hscaled =>
      (Gives.any _).bind fun digits _ => ?_
    have hlt : start < scaled.2 := by omega
    split
    · refine (Gives.any _).bind fun first _ => ?_
      split
      · exact src.gives_fail _ _
      · exact .ok hlt
    · exact .ok hlt

theorem le_suffixed (kind : Kind) (pos : Nat) (suffixes : List UInt8) :
    pos ≤ (suffixed src kind pos suffixes).2 := by
  induction suffixes generalizing kind pos with
  | nil => exact Nat.le_refl _
  | cons suffix more ih =>
    rw [suffixed]
    split
    · exact Nat.le_of_succ_le (ih _ _)
    split
    · exact Nat.le_add_right _ _
    · exact ih _ _

theorem forward_number (hb : src.byte l.pos = .ok b) (hdigit : Byte.isDigit b) :
    l.Forward (l.number src) := by
  refine (gives_numeral hb hdigit).bind fun body hbody => ?_
  have hle := @le_suffixed src body.1 body.2 [ascii 'r', ascii 'i']
  dsimp only
  split
  · exact src.gives_fail _ _
  · exact forward_emit (by omega)

theorem gives_wordEnd {start : Nat} (hb : src.byte start = .ok b) (hname : Byte.isNameStart b) :
    Gives (start < ·) (wordEnd src start) := by
  have hfirst : Gives (start < ·) (src.eatWhile Byte.isNameChar start) :=
    Buffer.gives_eatWhile_of_byte hb (by simp [Byte.isNameChar, hname])
  refine hfirst.bind fun stop hlt => ?_
  split
  · exact .ok (Nat.lt_succ_of_lt hlt)
  · exact .ok hlt

theorem gives_openLine (l : Lexer) (method : Bool) :
    Gives (fun l' => l'.pos = l.pos) (l.openLine src method) := by
  unfold openLine
  split
  · refine (Gives.any _).bind fun listed _ => .ok ?_
    cases listed <;> rfl
  · exact .ok rfl

theorem forward_ident (hb : src.byte l.pos = .ok b) (hname : Byte.isNameStart b) :
    l.Forward (l.ident src) := by
  refine (gives_wordEnd hb hname).bind fun word hword => (Gives.any _).bind fun text _ =>
    (Gives.any _).bind fun kind _ => (Gives.any _).bind fun binds _ =>
    (gives_emit l kind _).bind fun read hread => ?_
  have hend : l.pos < l.identEnd src word := by
    unfold identEnd
    split <;> omega
  intro l' hl'
  rw [gives_openLine _ _ l' hl', hread]
  exact hend

theorem forward_step_of_byte (hb : src.byte l.pos = .ok b) (hlt : l.pos < src.size) :
    l.Forward (l.step src) := by
  rw [step, hb]
  change l.Forward (if Byte.isBlank b then _ else _)
  split
  · exact .ok (Nat.lt_succ_self _)
  split
  · exact forward_continuation
  split
  · exact forward_newline
  rename_i hnewline
  split
  · exact forward_lineComment hb (by simpa using hnewline)
  refine (Gives.any _).bind fun opens _ => ?_
  cases opens with
  | true => exact forward_document
  | false =>
    refine (Gives.any _).bind fun ends _ => ?_
    cases ends with
    | true => exact .ok hlt
    | false =>
      change l.Forward (if Byte.isDigit b then _ else _)
      split
      · exact forward_number hb ‹_›
      split
      · exact forward_ident hb ‹_›
      split
      · exact forward_var .var
      refine forwardIf_method?.bind fun found hfound => ?_
      cases found with
      | none => exact forward_literalOrSign
      | some read => exact .ok (hfound read rfl)

/-- Every step that succeeds goes forward. -/
theorem lt_pos_step (hlt : l.pos < src.size) : l.Forward (l.step src) := by
  cases hb : src.byte l.pos with
  | error stop =>
    rw [step, hb]
    exact .error stop
  | ok b => exact forward_step_of_byte hb hlt

/-! ## The whole buffer -/

/-- Reads until the buffer ends. A heredoc that is announced must have had its body by then. -/
def run (src : Buffer) (l : Lexer) : Checked Lexer :=
  if _h : l.pos < src.size then
    match _hl : l.step src with
    | .error stop => .error stop
    | .ok l' => run src l'
  else
    match l.heredocs with
    | [] => .ok l
    | doc :: _ => src.fail doc.start .unterminatedHeredoc
termination_by src.size - l.pos
decreasing_by
  have hlt := lt_pos_step _h l' _hl
  omega

end Lexer

end TablePack
