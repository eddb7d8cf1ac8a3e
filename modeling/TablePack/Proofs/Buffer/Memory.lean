import Mathlib.Tactic
import TablePack.Buffer.Lexer
import TablePack.Proofs.Buffer.Reads
import TablePack.Proofs.Layout

/-!
# The memory of the lexer

A state of the scanner is a state of the lexer without the texts (`Lexer.ofScanner`). The tokens
that are read so far lie between the characters of the text, so the lexer can cut each of them out
again; what it sees of them is what the scanner sees.
-/

namespace TablePack

open Text (Stands lead)

/-- A token without its text. -/
def Extent.ofToken (t : Token) : Extent := ⟨t.kind, t.start, Text.size t.text⟩

/-- A heredoc with the bytes of its name. -/
def Announcement.ofHeredoc (doc : Heredoc) : Announcement :=
  ⟨.ofText doc.name, doc.indented, doc.start⟩

/-- The state of the lexer for a state of the scanner. -/
def Lexer.ofScanner (s : Scanner) : Lexer where
  pos := s.pos
  out := s.tokens.map .ofToken
  heredocs := s.pending.map .ofHeredoc
  locals := s.locals
  params := s.params

/-- The text of a token is where the token stands. -/
lemma Extent.text_ofToken {source : Text} {t : Token} (h : t.Placed source) :
    (ofToken t).text (.ofText source) = .ok t.text := by
  obtain ⟨before, after, hsource, hstart⟩ := h
  exact Buffer.text_ofText ⟨before, hsource, hstart⟩

/-- The tokens read so far lie in the text, and the recent ones are all but the comments. -/
structure Scanner.Recalls (source : Text) (s : Scanner) : Prop where
  placed : ∀ t ∈ s.tokens, t.Placed source
  recent_eq : s.recent = s.tokens.filter fun t => t.kind != .comment

lemma Scanner.Sound.recalls {source : Text} {s : Scanner} (hs : s.Sound source) :
    s.Recalls source := ⟨hs.placed, hs.recent_eq⟩

namespace Lexer

section

variable {source : Text} {s : Scanner}

lemma recent_ofScanner (hs : s.Recalls source) : (ofScanner s).recent = s.recent.map .ofToken := by
  rw [hs.recent_eq, recent, ofScanner, List.filter_map]
  rfl

lemma placed_of_mem_recent (hs : s.Recalls source) : ∀ t ∈ s.recent, t.Placed source := by
  intro t ht
  rw [hs.recent_eq] at ht
  exact hs.placed t (List.mem_of_mem_filter ht)

lemma kindAt?_ofScanner (hs : s.Recalls source) (n : ℕ) :
    (ofScanner s).kindAt? n = Token.kindAt? s.recent n := by
  rw [kindAt?, recent_ofScanner hs, List.getElem?_map, Option.map_map]
  rfl

lemma textAt?_ofScanner (hs : s.Recalls source) (n : ℕ) :
    (ofScanner s).textAt? (.ofText source) n = .ok (s.recent[n]?.map (·.text)) := by
  rw [textAt?, recent_ofScanner hs, List.getElem?_map]
  cases h : s.recent[n]? with
  | none => rfl
  | some t =>
    have hplaced := placed_of_mem_recent hs t (List.mem_of_getElem? h)
    simp only [Option.map_some, Extent.text_ofToken hplaced]
    rfl

lemma inDefName_ofScanner (hs : s.Recalls source) :
    (ofScanner s).inDefName = Token.inDefName s.recent := by
  rw [inDefName, Token.inDefName, kindAt?_ofScanner hs, kindAt?_ofScanner hs]

lemma valueExpected_ofScanner (hs : s.Recalls source) :
    (ofScanner s).valueExpected = Token.valueExpected s.recent := by
  rw [valueExpected, kindAt?_ofScanner hs]
  cases s.recent <;> rfl

lemma kindAt?_one (t : Token) (older : List Token) :
    (Token.kindAt? (t :: older) 1 != some .dot && Token.kindAt? (t :: older) 1 != some .colons)
      = !Token.followsAccess older := by
  cases older with
  | nil => rfl
  | cons u older => simp [Token.kindAt?, Token.followsAccess, bne]

lemma afterLocal_ofScanner (hs : s.Recalls source) :
    (ofScanner s).afterLocal (.ofText source) = .ok s.afterLocal := by
  rw [afterLocal, textAt?_ofScanner hs, kindAt?_ofScanner hs, Scanner.afterLocal]
  cases s.recent with
  | nil => rfl
  | cons t older =>
    change Except.ok (_ && _ && _) = _
    rw [kindAt?_one]
    rfl

lemma startsArgument_ofScanner (hs : s.Recalls source) {next : Option Char}
    (hnext : (Buffer.ofText source).get? (s.pos + 1) = next.map lead) :
    (ofScanner s).startsArgument (.ofText source) = .ok (s.startsArgument next) := by
  have hany : (next.map lead).any (fun b => !Byte.isSpace b && b != ascii '=')
      = next.any fun c => !Text.isSpace c && c != '=' := by
    cases next with
    | none => rfl
    | some c =>
      simp only [Option.map_some, Option.any_some, bne, Text.sees_isSpace.lead_eq]
      rw [Text.lead_beq_ascii (by decide)]
  have hpos : (ofScanner s).pos = s.pos := rfl
  rw [startsArgument, recent_ofScanner hs, hpos, hnext, hany, afterLocal_ofScanner hs,
    Scanner.startsArgument]
  cases s.recent with
  | nil => rfl
  | cons t older =>
    change (if (t.kind == .ident && decide (t.stop < s.pos) && _) = true then _ else _) = _
    dsimp only
    split
    · rename_i h
      rw [h]
      rfl
    · rename_i h
      rw [Bool.not_eq_true] at h
      rw [h]
      rfl

lemma literalAllowed_ofScanner (hs : s.Recalls source) {next : Option Char}
    (hnext : (Buffer.ofText source).get? (s.pos + 1) = next.map lead) :
    (ofScanner s).literalAllowed (.ofText source) = .ok (s.literalAllowed next) := by
  rw [literalAllowed, valueExpected_ofScanner hs, startsArgument_ofScanner hs hnext,
    Scanner.literalAllowed]
  cases Token.valueExpected s.recent <;> rfl

/-! ## Targets and parameters -/

lemma collectTargets_ofScanner {ts : List Token} (hts : ∀ t ∈ ts, t.Placed source) (wanted : Bool)
    (names : List Text) :
    collectTargets (.ofText source) wanted names (ts.map .ofToken)
      = .ok (Token.collectTargets wanted names ts) := by
  induction ts generalizing wanted names with
  | nil => rfl
  | cons t older ih =>
    obtain ⟨ht, holder⟩ := List.forall_mem_cons.1 hts
    have haccess : (older.map Extent.ofToken).head?.any
        (fun u => u.kind == .dot || u.kind == .colons) = Token.followsAccess older := by
      cases older <;> rfl
    have hcall : (older.map Extent.ofToken).head?.any
        (fun u => (u.kind == .ident || u.kind == .const) && u.stop == (Extent.ofToken t).start)
          = Token.opensCall t older := by
      cases older <;> rfl
    have hkind : (Extent.ofToken t).kind = t.kind := rfl
    rw [List.map_cons, collectTargets, Token.collectTargets, haccess, hcall, Extent.text_ofToken ht,
      hkind]
    cases t.kind with
    | ident =>
      dsimp only
      split
      · rfl
      split
      · rfl
      · exact ih holder false (names ++ [t.text])
    | comma =>
      dsimp only
      split
      · rfl
      · exact ih holder true names
    | rparen =>
      dsimp only
      split
      · exact ih holder wanted names
      · rfl
    | op =>
      change (if t.text = ['*'] then _ else _) = _
      dsimp only
      split
      · exact ih holder wanted names
      · rfl
    | lparen =>
      dsimp only
      split
      · rfl
      · exact ih holder false names
    | _ => rfl

lemma inRescue_ofScanner (hs : s.Recalls source) :
    (ofScanner s).inRescue (.ofText source) = .ok (Token.inRescue s.recent) := by
  rw [inRescue, textAt?_ofScanner hs, recent_ofScanner hs]
  cases s.recent with
  | nil => rfl
  | cons t older =>
    change Except.ok (some t.text == some "=>".toList
      && (((older.map Extent.ofToken).takeWhile _).any _))
      = _
    rw [List.takeWhile_map, List.any_map]
    rfl

lemma namesDef_ofScanner (hs : s.Recalls source) :
    (ofScanner s).namesDef 1 = Token.namesDef (s.recent.drop 1) := by
  rw [namesDef, kindAt?_ofScanner hs, kindAt?_ofScanner hs, Token.namesDef]
  simp [Token.kindAt?]

lemma opened?_ofScanner (hs : s.Recalls source) :
    ∃ ending, (ofScanner s).opened? (.ofText source) = .ok ending ∧
      ending.map .start = Parameters.opened? s.recent := by
  have hplaced := placed_of_mem_recent hs
  rw [opened?, recent_ofScanner hs, namesDef_ofScanner hs]
  generalize s.recent = recent at hplaced
  rcases recent with _ | ⟨t, _ | ⟨u, older⟩⟩
  · exact ⟨none, rfl, rfl⟩
  · exact ⟨none, rfl, rfl⟩
  · have hu : (Extent.ofToken u).text (.ofText source) = .ok u.text :=
      Extent.text_ofToken (hplaced u (by simp))
    have hkinds : (Extent.ofToken t).kind = t.kind ∧ (Extent.ofToken u).kind = u.kind := ⟨rfl, rfl⟩
    simp only [List.map_cons, hkinds, hu, Parameters.opened?]
    split <;> simp_all

lemma openParams_ofScanner (hs : s.Recalls source) :
    (ofScanner s).openParams (.ofText source) = .ok (ofScanner s.openParams) := by
  obtain ⟨ending, hopened, hending⟩ := opened?_ofScanner hs
  rw [openParams, hopened, Scanner.openParams, ← hending]
  cases ending <;> rfl

/-! ## Lines -/

lemma atLineStart_ofScanner {before : Text} (hsource : source = before ++ s.rest)
    (hbefore : s.Follows before) :
    (ofScanner s).atLineStart (.ofText source) = .ok s.atLineStart := by
  have hpos : (ofScanner s).pos = Text.size before := hbefore.pos_eq
  rw [atLineStart, hpos, Scanner.atLineStart, hbefore.previous_eq]
  rcases List.eq_nil_or_concat before with rfl | ⟨init, c, rfl⟩
  · rfl
  · rw [List.concat_eq_append] at hsource ⊢
    have hsize : Text.size (init ++ [c]) = Text.size init + c.utf8Size := by simp
    have hc := c.utf8Size_pos
    have hreads : (Buffer.ofText source).Reads (Text.size init) (Text.bytes (c :: s.rest)) := by
      refine Buffer.reads_ofText ⟨init, ?_, rfl⟩
      rw [hsource, List.append_assoc]
      rfl
    rw [Text.bytes_cons_eq, ← List.cons_append,
      ← List.dropLast_append_getLast (List.cons_ne_nil (lead c) (Text.trail c)),
      List.append_assoc] at hreads
    have hbyte := hreads.append.byte
    rw [List.length_dropLast, List.length_cons, Text.length_trail, Nat.add_sub_cancel] at hbyte
    have hminus : Checked.minus (Text.size (init ++ [c])) 1
        = .ok (Text.size init + (c.utf8Size - 1)) := by
      rw [Checked.minus, if_pos (by omega), hsize, Nat.add_sub_assoc hc]
    rw [if_neg (by omega), hminus]
    change ((Buffer.ofText source).byte _ >>= _) = _
    rw [hbyte]
    change Except.ok _ = _
    rw [Text.getLast_beq_ascii (by decide),
      List.getLast?_append_of_ne_nil _ (List.cons_ne_nil c [])]
    rfl

end

end Lexer

end TablePack
