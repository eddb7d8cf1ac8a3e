import Mathlib.Tactic
import TablePack.Proofs.Buffer.Memory
import TablePack.Proofs.Lookahead

/-!
# Line breaks, comments and heredocs in a buffer

What the lexer does where the scanner passes over text that holds no other tokens. The lexer goes
over this text line by line.
-/

namespace TablePack

open Text (Stands lead span)

namespace Lexer

section

variable {source t : Text} {s : Scanner} {c : Char}

lemma stands_of_sound (hs : s.Sound source) : Stands source s.pos s.rest := hs.split

/-! ## Tokens -/

/-- A token that is made of whole characters. -/
lemma emit_ofScanner (hs : s.Sound source) (kind : Token.Kind) (n : ℕ) :
    (ofScanner s).emit (.ofText source) kind (s.pos + Text.size (s.rest.take (n + 1)))
      = .ok (ofScanner (s.emit ⟨kind, n⟩)) := by
  have hstands := stands_of_sound hs
  rw [← List.take_append_drop (n + 1) s.rest] at hstands
  have hpos : (ofScanner s).pos = s.pos := rfl
  rw [emit, hpos, Checked.minus, if_pos (Nat.le_add_right _ _), Nat.add_sub_cancel_left]
  change ((Buffer.ofText source).text s.pos _ >>= _) = _
  rw [Buffer.text_ofText hstands]
  rfl

/-- A token whose first character is in ASCII. -/
lemma emit_cons (hs : s.Sound source) (hrest : s.rest = c :: t) (hc : c.utf8Size = 1)
    (kind : Token.Kind) (n : ℕ) :
    (ofScanner s).emit (.ofText source) kind (s.pos + 1 + Text.size (t.take n))
      = .ok (ofScanner (s.emit ⟨kind, n⟩)) := by
  rw [← emit_ofScanner hs, hrest, List.take_succ_cons, Text.size_cons, hc, Nat.add_assoc]

/-- What follows a first character in ASCII. -/
lemma stands_cons (hs : s.Sound source) (hrest : s.rest = c :: t) (hc : c.utf8Size = 1) :
    Stands source (s.pos + 1) t := by
  have hstands := stands_of_sound hs
  rw [hrest] at hstands
  rw [← hc]
  exact hstands.cons

/-! ## Line breaks -/

lemma ofScanner_advance (s : Scanner) (n : ℕ) :
    ofScanner (s.advance n) = { ofScanner s with pos := s.pos + Text.size (s.rest.take n) } := rfl

lemma continuation_ofScanner (hs : s.Sound source) (hrest : s.rest = '\\' :: t) :
    (ofScanner s).continuation (.ofText source)
      = .ofResult source ofScanner (s.continuation t) := by
  have hnext := stands_cons hs hrest rfl
  have hpos : (ofScanner s).pos = s.pos := rfl
  rw [continuation, hpos, Buffer.get?_ofText hnext]
  simp (disch := decide) only [Text.map_lead_beq]
  rcases t with _ | ⟨d, u⟩
  · exact Buffer.fail_eq_ofResult _ (by simp) ofScanner
  by_cases hd : d = '\n'
  · subst hd
    have hadvance := ofScanner_advance s 2
    rw [hrest] at hadvance
    exact congrArg Except.ok hadvance.symm
  by_cases hreturn : d = '\r'
  · subst hreturn
    have hthird : Stands source (s.pos + 2) u := hnext.cons
    rw [Buffer.get?_ofText hthird, Text.map_lead_beq (by decide)]
    rcases u with _ | ⟨e, v⟩
    · exact Buffer.fail_eq_ofResult _ (by simp) ofScanner
    by_cases he : e = '\n'
    · subst he
      have hadvance := ofScanner_advance s 3
      rw [hrest] at hadvance
      exact congrArg Except.ok hadvance.symm
    · have hfault : s.continuation ('\r' :: e :: v) = .error ⟨s.pos, .unexpectedBackslash⟩ := by
        unfold Scanner.continuation
        split <;> simp_all
      rw [hfault]
      rw [if_neg (by simp), if_neg (by simp [he])]
      exact Buffer.fail_eq_ofResult _ (by simp) ofScanner
  · have hfault : s.continuation (d :: u) = .error ⟨s.pos, .unexpectedBackslash⟩ := by
      unfold Scanner.continuation
      split <;> simp_all
    rw [hfault]
    rw [if_neg (by simp [hd]), if_neg (by simp [hreturn])]
    exact Buffer.fail_eq_ofResult _ (by simp) ofScanner

lemma lineComment_ofScanner (hs : s.Sound source) (hrest : s.rest = '#' :: t) :
    (ofScanner s).lineComment (.ofText source)
      = .ok (ofScanner (s.emit (Token.Lexeme.comment t))) := by
  have hstands := stands_of_sound hs
  rw [hrest] at hstands
  have hpos : (ofScanner s).pos = s.pos := rfl
  have hsharp : ('#' :: t).takeWhile (· != '\n') = '#' :: t.take (span (· != '\n') t) := by
    rw [Text.take_span]
    rfl
  rw [lineComment, hpos, Buffer.eatWhile_ofText (Text.sees_ne (by decide)) hstands, hsharp,
    Text.size_cons, ← Nat.add_assoc]
  exact emit_cons hs hrest rfl _ _

/-! ## Lines -/

lemma wordAt_ofText {i : ℕ} {word v : Text} (h : Stands source i v)
    (hword : ∀ c ∈ word, c.toNat < 0x80) :
    wordAt (.ofText source) i word = .ok (Text.startsWord word v) := by
  rw [wordAt, Buffer.tail_ofText h, Text.startsWord]
  change Except.ok (_ && _) = _
  rw [Buffer.startsWith_ofText hword]
  by_cases hstarts : word.isPrefixOf v
  · obtain ⟨w, rfl⟩ := List.isPrefixOf_iff_prefix.1 hstarts
    rw [Text.length_bytes, Buffer.get?_ofText h.append, List.drop_left,
      Text.sees_isSpace.all_map_lead]
  · rw [Bool.not_eq_true] at hstarts
    rw [hstarts, Bool.false_and, Bool.false_and]

/-- The first line of a buffer. -/
lemma part_line (u : Text) :
    (Buffer.ofText u).part 0 ((Buffer.ofText u).count (· != ascii '\n'))
      = .ok (.ofText (Text.line u)) := by
  have hline : Stands u 0 (Text.line u ++ u.dropWhile (· != '\n')) := by
    rw [Text.line, List.takeWhile_append_dropWhile]
    exact Buffer.stands_zero u
  have hpart := Buffer.part_ofText hline
  rwa [Nat.zero_add, Text.line, ← Buffer.count_ofText (Text.sees_ne (by decide))] at hpart

lemma withoutReturn_ofText (u : Text) :
    (Buffer.ofText u).withoutReturn = .ofText (Text.withoutReturn u) := by
  rcases List.eq_nil_or_concat u with rfl | ⟨init, c, rfl⟩
  · rfl
  · rw [List.concat_eq_append]
    have hbytes : Text.bytes (init ++ [c]) = Text.bytes init ++ (lead c :: Text.trail c) := by
      rw [Text.bytes_append, Text.bytes_cons_eq, Text.bytes_nil, List.append_nil]
    have hback : (Buffer.ofText (init ++ [c])).bytes.back? = some (ascii '\r') ↔ c = '\r' := by
      rw [Buffer.ofText, hbytes, List.back?_toArray,
        List.getLast?_append_of_ne_nil _ (List.cons_ne_nil _ _),
        List.getLast?_eq_some_getLast (List.cons_ne_nil _ _), Option.some_inj, ← beq_iff_eq,
        Text.getLast_beq_ascii (by decide), beq_iff_eq]
    have hchar : (init ++ [c]).getLast? = some '\r' ↔ c = '\r' := by simp
    rw [Buffer.withoutReturn, Text.withoutReturn]
    by_cases hc : c = '\r'
    · rw [if_pos (hback.2 hc), if_pos (hchar.2 hc)]
      subst hc
      have htrail : Text.trail '\r' = [] := Text.trail_of_narrow (by decide)
      rw [List.dropLast_concat, Buffer.ofText, Buffer.ofText, hbytes, htrail]
      simp
    · rw [if_neg (mt hback.1 hc), if_neg (mt hchar.1 hc)]

lemma tail_indent (u : Text) :
    (Buffer.ofText u).tail ((Buffer.ofText u).count Byte.isIndent)
      = .ok (.ofText (u.dropWhile Text.isIndent)) := by
  have hstands : Stands u (Text.size (u.takeWhile Text.isIndent)) (u.dropWhile Text.isIndent) :=
    ⟨u.takeWhile Text.isIndent, List.takeWhile_append_dropWhile.symm, rfl⟩
  rw [Buffer.count_ofText Text.sees_isIndent, Buffer.tail_ofText hstands]

lemma lineIs_ofScanner (hs : s.Sound source) (content : Text) :
    (ofScanner s).lineIs (.ofText source) content
      = .ok (Text.withoutReturn (Text.line s.rest) == content) := by
  have hpos : (ofScanner s).pos = s.pos := rfl
  rw [lineIs, hpos, Buffer.tail_ofText (stands_of_sound hs)]
  change (Buffer.part _ _ _ >>= _) = _
  rw [part_line]
  change Except.ok (_ == _) = _
  rw [withoutReturn_ofText]
  congr 1
  rw [Bool.eq_iff_iff, beq_iff_eq, beq_iff_eq]
  exact ⟨Buffer.ofText_injective, congrArg _⟩

/-! ## Embedded documents -/

lemma documentLength?_append {l : Text} (hl : '\n' ∉ l) (n : ℕ) (w : Text) :
    Token.Lexeme.documentLength? n (l ++ w) = Token.Lexeme.documentLength? (n + l.length) w := by
  induction l generalizing n with
  | nil => rfl
  | cons c l ih =>
    rw [List.mem_cons, not_or] at hl
    rw [List.cons_append, Token.Lexeme.documentLength?, if_neg (by simp [Ne.symm hl.1]), ih hl.2,
      List.length_cons, Nat.add_right_comm, Nat.add_assoc]

lemma size_take_line (l v : Text) (k : ℕ) :
    Text.size ((l ++ '\n' :: v).take (l.length + 1 + k))
      = Text.size l + 1 + Text.size (v.take k) := by
  rw [Nat.add_assoc, List.take_append, Nat.add_sub_cancel_left,
    List.take_of_length_le (Nat.le_add_right _ _), Nat.add_comm 1 k, List.take_succ_cons,
    Text.size_append, Text.size_cons, ← Nat.add_assoc]
  rfl

lemma le_of_documentLength? {n m : ℕ} {u : Text}
    (h : Token.Lexeme.documentLength? n u = some m) : n ≤ m := by
  induction u generalizing n with
  | nil => cases h
  | cons c u ih =>
    rw [Token.Lexeme.documentLength?] at h
    split at h
    · cases h
      omega
    · exact Nat.le_of_succ_le (ih h)

/-- An embedded document is gone through line by line. -/
lemma documentEnd_ofText {start pos : ℕ} {u : Text} (h : Stands source pos u) (n : ℕ) :
    documentEnd (.ofText source) start pos
      = match Token.Lexeme.documentLength? n u with
        | some m => .ok (pos + Text.size (u.take (m - n)))
        | none => (Buffer.ofText source).fail start .unterminatedDocument := by
  induction hlength : u.length using Nat.strong_induction_on generalizing pos u n with
  | _ k ih =>
    subst hlength
    have heat := Buffer.eatWhile_ofText (Text.sees_ne (d := '\n') (by decide)) h
    change _ = Except.ok (pos + Text.size (Text.line u)) at heat
    have hsize := (Buffer.reads_ofText h).size_eq
    rw [Text.length_bytes] at hsize
    obtain ⟨hline, hu⟩ := Text.line_cases u
    rw [documentEnd]
    split
    · rename_i stop herror
      rw [heat] at herror
      cases herror
    · rename_i lineEnd hok
      rw [heat] at hok
      cases hok
      rcases hu with ⟨hu, -⟩ | hu
      · have hnone : Token.Lexeme.documentLength? n (Text.line u ++ []) = none := by
          rw [documentLength?_append hline]
          rfl
        rw [List.append_nil, ← hu] at hnone
        rw [hnone, ← hu, if_neg (by omega)]
      · generalize Text.line u = l at hline hu
        generalize Text.afterLine u = v at hu
        subst hu
        have hnext : Stands source (pos + Text.size l + 1) v := h.append.cons
        have hlt : v.length < (l ++ '\n' :: v).length := by
          simp
          omega
        have hnewline : '\n'.utf8Size = 1 := rfl
        rw [Text.size_append, Text.size_cons] at hsize
        rw [if_pos (by omega), documentLength?_append hline, Token.Lexeme.documentLength?,
          wordAt_ofText hnext (by simp)]
        change (if Text.startsWord "=end".toList v = true then _ else _) = _
        simp only [decide_true, Bool.true_and]
        split
        · rw [Buffer.eatWhile_ofText (Text.sees_ne (by decide)) hnext, ← Text.take_span]
          have hm : n + l.length + 1 + Text.span (· != '\n') v - n
              = l.length + 1 + Text.span (· != '\n') v := by omega
          dsimp only
          rw [hm, size_take_line, Nat.add_assoc, Nat.add_assoc, Nat.add_assoc]
        · rw [ih v.length hlt hnext (n + l.length + 1) rfl]
          cases hv : Token.Lexeme.documentLength? (n + l.length + 1) v with
          | none => rfl
          | some m =>
            obtain ⟨k, rfl⟩ := Nat.exists_eq_add_of_le (le_of_documentLength? hv)
            have hm : n + l.length + 1 + k - n = l.length + 1 + k := by omega
            dsimp only
            rw [Nat.add_sub_cancel_left, hm, size_take_line, Nat.add_assoc, Nat.add_assoc,
              Nat.add_assoc]

/-- Reads an embedded document. -/
lemma document_ofScanner (hs : s.Sound source) (hrest : s.rest = '=' :: t) :
    (ofScanner s).document (.ofText source)
      = .ofResult source ofScanner ((Token.Lexeme.document s.pos t).map s.emit) := by
  have hnext := stands_cons hs hrest rfl
  have hpos : (ofScanner s).pos = s.pos := rfl
  have hend : documentEnd (.ofText source) s.pos s.pos
      = documentEnd (.ofText source) s.pos (s.pos + 1) := by
    have hstands := stands_of_sound hs
    rw [hrest] at hstands
    rw [documentEnd_ofText hstands 0, documentEnd_ofText hnext 1]
    change (match Token.Lexeme.documentLength? 1 t with | some m => _ | none => _) = _
    cases h : Token.Lexeme.documentLength? 1 t with
    | none => rfl
    | some m =>
      obtain ⟨k, rfl⟩ := Nat.exists_eq_add_of_le (le_of_documentLength? h)
      dsimp only
      rw [Nat.sub_zero, Nat.add_sub_cancel_left, Nat.add_comm 1 k, List.take_succ_cons,
        Text.size_cons, ← Nat.add_assoc]
      rfl
  rw [document, hpos, hend, documentEnd_ofText hnext 0, Token.Lexeme.document]
  cases Token.Lexeme.documentLength? 0 t with
  | none =>
    dsimp only
    rw [Buffer.fail_eq_ofResult _ (by simp) (id : ℕ → ℕ)]
    rfl
  | some m => exact emit_cons hs hrest rfl .comment m

/-! ## Heredocs -/

lemma unindented_ofHeredoc (doc : Heredoc) (l : Text) :
    unindented (.ofHeredoc doc) (.ofText l)
      = .ok (.ofText (if doc.indented then l.dropWhile Text.isIndent else l)) := by
  have hindented : (Announcement.ofHeredoc doc).indented = doc.indented := rfl
  rw [unindented, hindented]
  split
  · exact tail_indent l
  · rfl

/-- The bytes of the first line and its newline, as far as there are any. -/
lemma min_size_line {pos : ℕ} {u : Text} (h : Stands source pos u) :
    min (pos + Text.size (Text.line u) + 1) (Buffer.ofText source).size
      = pos + Text.size (u.take ((Text.line u).length + 1)) := by
  have hsize := (Buffer.reads_ofText h).size_eq
  rw [Text.length_bytes] at hsize
  obtain ⟨-, ⟨hu, -⟩ | hu⟩ := Text.line_cases u
  · rw [← hu, List.take_of_length_le (Nat.le_succ _)]
    omega
  · generalize Text.line u = l at hu
    generalize Text.afterLine u = v at hu
    subst hu
    have htake := size_take_line l v 0
    have hnewline : '\n'.utf8Size = 1 := rfl
    rw [Text.size_append, Text.size_cons] at hsize
    rw [Nat.add_zero, List.take_zero, Text.size_nil] at htake
    omega

/-- One line of a heredoc. -/
lemma bodyEnd_line {pos : ℕ} {u : Text} (h : Stands source pos u) (hne : u ≠ []) (doc : Heredoc) :
    bodyEnd (.ofText source) (.ofHeredoc doc) pos
      = if doc.endsAt (Text.line u) then .ok (pos + Text.size (u.take ((Text.line u).length + 1)))
        else bodyEnd (.ofText source) (.ofHeredoc doc)
          (pos + Text.size (u.take ((Text.line u).length + 1))) := by
  have hsize := (Buffer.reads_ofText h).size_eq
  have hpos := Text.size_pos hne
  have hname : (Announcement.ofHeredoc doc).name = .ofText doc.name := rfl
  have hends : Buffer.ofText (if doc.indented then (Text.withoutReturn (Text.line u)).dropWhile
      Text.isIndent else Text.withoutReturn (Text.line u)) = .ofText doc.name
        ↔ doc.endsAt (Text.line u) := by
    rw [Heredoc.endsAt, beq_iff_eq]
    exact ⟨Buffer.ofText_injective, congrArg _⟩
  rw [Text.length_bytes] at hsize
  rw [bodyEnd, if_pos (by omega), Buffer.tail_ofText h]
  change (Buffer.part _ _ _ >>= _) = _
  rw [part_line]
  change (unindented _ (Buffer.withoutReturn _) >>= _) = _
  rw [withoutReturn_ofText, unindented_ofHeredoc]
  change (if _ = _ then _ else _) = _
  rw [hname, Buffer.count_ofText (Text.sees_ne (by decide))]
  change (if _ = _ then Except.ok (min (pos + Text.size (Text.line u) + 1) _)
    else bodyEnd _ _ (min (pos + Text.size (Text.line u) + 1) _)) = _
  rw [min_size_line h]
  simp only [hends]

lemma bodyEnd_ofText {pos : ℕ} {u : Text} (h : Stands source pos u) (doc : Heredoc) :
    bodyEnd (.ofText source) (.ofHeredoc doc) pos
      = match doc.bodyLength? u with
        | some n => .ok (pos + Text.size (u.take n))
        | none => (Buffer.ofText source).fail doc.start .unterminatedHeredoc := by
  induction hlength : u.length using Nat.strong_induction_on generalizing pos u with
  | _ k ih =>
    subst hlength
    by_cases hne : u = []
    · subst hne
      have hsize : (Buffer.ofText source).size = pos := (Buffer.reads_ofText h).size_eq
      rw [bodyEnd, if_neg (by omega), Heredoc.bodyLength?]
      rfl
    · have hafter : Text.afterLine u = u.drop ((Text.line u).length + 1) := by
        have hsplit : Text.line u ++ u.dropWhile (· != '\n') = u := List.takeWhile_append_dropWhile
        have hdrop := congrArg (List.drop (Text.line u).length) hsplit
        rw [List.drop_left] at hdrop
        rw [Text.afterLine, hdrop, List.drop_drop]
      have hnext : Stands source (pos + Text.size (u.take ((Text.line u).length + 1)))
          (Text.afterLine u) := by
        rw [hafter]
        exact Stands.append (by rwa [List.take_append_drop])
      rw [bodyEnd_line h hne, Heredoc.bodyLength?_of_ne_nil doc hne]
      split
      · rfl
      · rw [ih _ (Text.length_afterLine_lt hne) hnext rfl]
        cases doc.bodyLength? (Text.afterLine u) with
        | none => rfl
        | some n =>
          simp only [Option.map_some]
          rw [hafter, Nat.add_assoc pos, ← Text.size_append, ← List.take_add]

/-- The bodies of several heredocs. -/
lemma bodiesEnd_ofText {pos : ℕ} {u : Text} (h : Stands source pos u) (docs : List Heredoc) :
    bodiesEnd (.ofText source) (docs.map .ofHeredoc) pos
      = match Heredoc.bodiesLength docs u with
        | .ok n => .ok (pos + Text.size (u.take n))
        | .error doc => (Buffer.ofText source).fail doc.start .unterminatedHeredoc := by
  induction docs generalizing pos u with
  | nil => rfl
  | cons doc docs ih =>
    rw [List.map_cons, bodiesEnd, bodyEnd_ofText h, Heredoc.bodiesLength]
    cases doc.bodyLength? u with
    | none =>
      dsimp only
      rw [Buffer.fail_ofText]
      rfl
    | some n =>
      have hnext : Stands source (pos + Text.size (u.take n)) (u.drop n) :=
        Stands.append (by rwa [List.take_append_drop])
      change bodiesEnd _ _ _ = _
      rw [ih hnext]
      dsimp only
      cases Heredoc.bodiesLength docs (u.drop n) with
      | error doc => rfl
      | ok m =>
        change Except.ok _ = Except.ok _
        rw [List.take_add, Text.size_append, Nat.add_assoc]

/-- A newline, with the bodies of heredocs after it. -/
lemma newline_ofScanner (hs : s.Sound source) (hrest : s.rest = '\n' :: t) :
    (ofScanner s).newline (.ofText source) = .ofResult source ofScanner s.newline := by
  have hnext := stands_cons hs hrest rfl
  have hemit := emit_cons hs hrest rfl .newline 0
  have hpos : (ofScanner s).pos = s.pos := rfl
  have hdocs : (ofScanner s).heredocs = s.pending.map .ofHeredoc := rfl
  have hread : (ofScanner (s.emit ⟨.newline, 0⟩)).pos = s.pos + 1 := by
    change s.pos + Text.size (s.rest.take 1) = _
    rw [hrest]
    rfl
  have hreadRest : (s.emit ⟨.newline, 0⟩).rest = t := by
    rw [Scanner.rest_emit, hrest]
    rfl
  rw [newline, hpos]
  change ((ofScanner s).emit _ _ (s.pos + 1 + Text.size (t.take 0)) >>= _) = _
  rw [hemit]
  change (bodiesEnd _ _ _ >>= _) = _
  rw [hread, hdocs, bodiesEnd_ofText hnext, Scanner.newline, hreadRest]
  cases Heredoc.bodiesLength s.pending t with
  | error doc =>
    dsimp only
    rw [Buffer.fail_eq_ofResult _ (by simp) (id : ℕ → ℕ)]
    rfl
  | ok n =>
    refine congrArg Except.ok ?_
    rw [← hread, ← hreadRest]
    rfl

end

end Lexer

end TablePack
