import Mathlib.Tactic
import TablePack.Proofs.LexemeEnds
import TablePack.Proofs.Stream

/-!
# How far the scanner looks

A step of the scanner depends on the text that it reads and on little more. Let two texts begin with
the same `x`, let a character follow that starts a comment, ends a line or is the dot before a name,
and let them go on in different ways after this border. As long as a move ends before the border, it
is the same for both. There is one exception: the announcement of a heredoc whose quote is not
closed in `x` may be one in one text and none in the other.

* `Heredoc.announced?_border`, `Token.Lexeme.percent?_border` and others: what is read at the start;
* `Scanner.choose_border`: the same move is chosen.
-/

namespace TablePack

open Token (Kind Lexeme)
open Text (span Dull Border)

/-! ## Comments, documents and heredocs -/

namespace Text

lemma head?_append_cons (t : Text) (b : Char) (w w' : Text) :
    (t ++ b :: w').head? = (t ++ b :: w).head? := by
  cases t <;> rfl

lemma line_append_newline {l : Text} (hl : '\n' ∉ l) (r : Text) : line (l ++ '\n' :: r) = l := by
  rw [line, List.takeWhile_append_of_pos]
  · simp
  · intro c hc
    simpa using fun h : c = '\n' => hl (h ▸ hc)

lemma afterLine_append_newline {l : Text} (hl : '\n' ∉ l) (r : Text) :
    afterLine (l ++ '\n' :: r) = r := by
  rw [afterLine, List.dropWhile_append_of_pos]
  · simp
  · intro c hc
    simpa using fun h : c = '\n' => hl (h ▸ hc)

lemma line_append_of_not_mem {t : Text} (h : '\n' ∉ t) (v : Text) :
    line (t ++ v) = t ++ line v := by
  rw [line, List.takeWhile_append_of_pos]
  · rfl
  · intro c hc
    simpa using fun hcn : c = '\n' => h (hcn ▸ hc)

lemma length_le_line {t : Text} (h : '\n' ∉ t) (v : Text) : t.length ≤ (line (t ++ v)).length := by
  rw [line_append_of_not_mem h, List.length_append]
  exact Nat.le_add_right _ _

end Text

namespace Heredoc

lemma bodyLength?_of_ne_nil (doc : Heredoc) {t : Text} (ht : t ≠ []) :
    doc.bodyLength? t =
      if doc.endsAt (Text.line t) then some ((Text.line t).length + 1)
      else (doc.bodyLength? (Text.afterLine t)).map ((Text.line t).length + 1 + ·) := by
  cases t with
  | nil => exact absurd rfl ht
  | cons c t => rw [bodyLength?]

lemma length_line_lt_of_bodyLength? {doc : Heredoc} {t : Text} {n : ℕ}
    (h : doc.bodyLength? t = some n) : (Text.line t).length < n := by
  have ht : t ≠ [] := by
    rintro rfl
    rw [bodyLength?] at h
    cases h
  rw [bodyLength?_of_ne_nil doc ht] at h
  split at h
  · cases h
    exact Nat.lt_succ_self _
  · obtain ⟨k, -, rfl⟩ := Option.map_eq_some_iff.1 h
    omega

/-- A body that ends inside `t`, its last newline included, has the same length whatever follows. -/
lemma bodyLength?_local (doc : Heredoc) {t v : Text} {n : ℕ} (v' : Text)
    (h : doc.bodyLength? (t ++ v) = some n) (hn : n ≤ t.length) :
    doc.bodyLength? (t ++ v') = some n := by
  induction hm : t.length using Nat.strong_induction_on generalizing t n with
  | _ m ih =>
    have hline : '\n' ∈ t := by
      by_contra hline
      have := length_line_lt_of_bodyLength? h
      have := Text.length_le_line hline v
      omega
    obtain ⟨l, r, rfl, hl⟩ := List.eq_append_cons_of_mem hline
    have hassoc : ∀ v : Text, (l ++ '\n' :: r) ++ v = l ++ '\n' :: (r ++ v) := by simp
    rw [hassoc, bodyLength?_of_ne_nil doc (by simp), Text.line_append_newline hl,
      Text.afterLine_append_newline hl] at h ⊢
    split_ifs at h ⊢
    · exact h
    · obtain ⟨k, hk, rfl⟩ := Option.map_eq_some_iff.1 h
      simp only [List.length_append, List.length_cons] at hn hm
      rw [ih r.length (by omega) hk (by omega) rfl]
      rfl

/-- Bodies that end inside `t` have the same length whatever follows. -/
lemma bodiesLength_local {docs : List Heredoc} {t v : Text} {n : ℕ} (v' : Text)
    (h : bodiesLength docs (t ++ v) = .ok n) (hn : n ≤ t.length) :
    bodiesLength docs (t ++ v') = .ok n := by
  induction docs generalizing t n with
  | nil => exact h
  | cons doc docs ih =>
    rw [bodiesLength] at h ⊢
    split at h
    · cases h
    rename_i k hk
    obtain ⟨m, hm, rfl⟩ := eq_ok_of_map_eq_ok h
    have hk' : k ≤ t.length := (Nat.le_add_right k m).trans hn
    rw [List.drop_append_of_le_length hk'] at hm
    rw [bodyLength?_local doc v' hk hk']
    dsimp only
    rw [List.drop_append_of_le_length hk', ih hm (by rw [List.length_drop]; omega)]
    rfl

lemma name?_dull {v : Text} (hv : Dull v) : name? v = none := by
  cases v with
  | nil => rfl
  | cons c v =>
    have hclass : ∀ c ∈ Text.dullChars,
        (c = '\'' || c = '"' || c = '`') = false ∧ Text.isNameStart c = false :=
        Text.forall_mem_of_all (by decide)
    obtain ⟨hquote, hname⟩ := hclass c (Text.dull_cons.1 hv)
    rw [name?, hquote, hname]
    rfl

/-- The quotes that may stand around the name of a heredoc. -/
def quotes : List Char := ['\'', '"', '`']

lemma mem_quotes {q : Char} : q ∈ quotes ↔ (q = '\'' || q = '"' || q = '`') = true := by
  simp [quotes, or_assoc]

/-- The name of an announcement is read alike, unless it is quoted and the quote is still open at
the border. -/
lemma name?_border {b : Char} {t w : Text} (w' : Text) (hb : Border b w)
    (hclosed : ∀ q u, t = q :: u → q ∈ quotes → q ∈ u) :
    name? (t ++ b :: w') = name? (t ++ b :: w) := by
  cases t with
  | nil => rw [List.nil_append, List.nil_append, name?_dull (hb.dull w), name?_dull (hb.dull w')]
  | cons q u =>
    rw [List.cons_append, List.cons_append, name?, name?]
    by_cases hquote : q ∈ quotes
    · have hlt : ∀ w : Text,
          ((u ++ b :: w).takeWhile fun c => c != q && c != '\n').length < u.length :=
        fun w => Text.length_takeWhile_append_lt (hclosed q u rfl hquote) (by simp) _
      have hhead : ∀ w' : Text,
          ((u ++ b :: w').drop ((u ++ b :: w).takeWhile fun c => c != q && c != '\n').length).head?
            = u[((u ++ b :: w).takeWhile fun c => c != q && c != '\n').length]? := by
        intro w'
        rw [List.head?_drop, List.getElem?_append_left (hlt w)]
      rw [if_pos (mem_quotes.1 hquote), if_pos (mem_quotes.1 hquote)]
      dsimp only
      rw [Text.takeWhile_append_of_lt (b :: w') (hlt w), hhead w, hhead w']
    · rw [if_neg (mt mem_quotes.2 hquote), if_neg (mt mem_quotes.2 hquote), ← List.cons_append,
        ← List.cons_append, Text.takeWhile_append_dull (by decide) _ (hb.dull w),
        Text.takeWhile_append_dull (by decide) _ (hb.dull w')]

lemma announced?_of_head?_ne {start : ℕ} {t : Text} (h : t.head? ≠ some '<') :
    announced? start t = none := by
  rw [announced?]
  rintro u rfl
  exact h rfl

/-- The name of an announcement, after the angles and the mark. -/
def unmarked (t : Text) : Text :=
  t.drop (if t.head?.any (fun c => c == '~' || c == '-') then 1 else 0)

lemma unmarked_append_dull (t : Text) {v : Text} (hv : Dull v) :
    unmarked (t ++ v) = unmarked t ++ v := by
  rw [unmarked, unmarked, Text.head?_any_append_dull (by decide) t hv,
    List.drop_append_of_le_length]
  cases t with
  | nil => simp
  | cons c t => split <;> simp

lemma announced?_cons (start : ℕ) (t : Text) :
    announced? start ('<' :: t) = (name? (unmarked t)).map fun found =>
      (⟨found.1, t.head?.any (fun c => c == '~' || c == '-'), start⟩,
        1 + (if t.head?.any (fun c => c == '~' || c == '-') then 1 else 0) + found.2) := rfl

/-- An announcement, after its angles, whose quote is still open where the text ends. -/
def Unclosed (t : Text) : Prop := ∃ q u, unmarked t = q :: u ∧ q ∈ quotes ∧ q ∉ u

lemma announced?_border {b : Char} {t w : Text} (start : ℕ) (w' : Text) (hb : Border b w)
    (hclosed : ∀ u, t = '<' :: u → ¬ Unclosed u) :
    announced? start (t ++ b :: w') = announced? start (t ++ b :: w) := by
  by_cases hhead : t.head? = some '<'
  · obtain ⟨u, rfl⟩ := List.head?_eq_some_iff.1 hhead
    have hname : name? (unmarked u ++ b :: w') = name? (unmarked u ++ b :: w) := by
      refine name?_border w' hb fun q r heq hq => ?_
      by_contra hmem
      exact hclosed u rfl ⟨q, r, heq, hq, hmem⟩
    simp only [List.cons_append, announced?_cons, unmarked_append_dull u (hb.dull _), hname,
      Text.head?_append_cons u b w w']
  · have hne : ∀ w : Text, (t ++ b :: w).head? ≠ some '<' := fun w h =>
      hhead ((Text.head?_append_dull t (hb.dull w) (by decide)).1 h)
    rw [announced?_of_head?_ne (hne w), announced?_of_head?_ne (hne w')]

/-- An announcement whose quote is open at the border goes on past it. -/
lemma Unclosed.length_lt {start n : ℕ} {u v : Text} {doc : Heredoc} (h : Unclosed u) (hv : Dull v)
    (hdoc : announced? start ('<' :: (u ++ v)) = some (doc, n)) : u.length + 1 < n := by
  obtain ⟨q, r, hmark, hq, hmem⟩ := h
  rw [announced?_cons, unmarked_append_dull u hv, hmark,
    Text.head?_any_append_dull (by decide) u hv] at hdoc
  obtain ⟨⟨name, k⟩, hname, heq⟩ := Option.map_eq_some_iff.1 hdoc
  cases heq
  rw [List.cons_append, name?, if_pos (mem_quotes.1 hq)] at hname
  dsimp only at hname
  split at hname
  · rename_i hclosed
    cases hname
    have hlen : r.length ≤ ((r ++ v).takeWhile fun c => c != q && c != '\n').length := by
      by_contra hlt
      rw [not_le] at hlt
      rw [Bool.and_eq_true, beq_iff_eq, List.head?_drop, List.getElem?_append_left hlt] at hclosed
      exact hmem (List.mem_of_getElem? hclosed.2)
    have hunmarked := congrArg List.length hmark
    rw [unmarked, List.length_drop, List.length_cons] at hunmarked
    dsimp only
    omega
  · cases hname

end Heredoc

lemma Text.startsWord_append {w t : Text} (h : w.length < t.length) (v : Text) :
    startsWord w (t ++ v) = startsWord w t := by
  have hpre : w.isPrefixOf (t ++ v) = w.isPrefixOf t := by
    rw [Bool.eq_iff_iff, List.isPrefixOf_iff_prefix, List.isPrefixOf_iff_prefix]
    exact ⟨fun hw => List.prefix_of_prefix_length_le hw (List.prefix_append t v) h.le,
      fun hw => hw.trans (List.prefix_append t v)⟩
  rw [startsWord, startsWord, hpre, List.head?_drop, List.head?_drop, List.getElem?_append_left h]

namespace Token.Lexeme

lemma four_le_span_of_startsWord {t : Text} (h : Text.startsWord "=end".toList t) :
    4 ≤ span (· != '\n') t := by
  rw [Text.startsWord, Bool.and_eq_true, List.isPrefixOf_iff_prefix] at h
  obtain ⟨u, rfl⟩ := h.1
  simp [span]

lemma add_five_le_of_documentLength? {n k : ℕ} {t : Text} (h : documentLength? n t = some k) :
    n + 5 ≤ k := by
  induction t generalizing n with
  | nil => cases h
  | cons c t ih =>
    rw [documentLength?] at h
    split at h
    · rename_i hend
      rw [Bool.and_eq_true] at hend
      have := four_le_span_of_startsWord hend.2
      cases h
      omega
    · have := ih h
      omega

/-- A document that ends inside `t`, before the newline of its last line, is read alike whatever
follows. -/
lemma documentLength?_local {n k : ℕ} {t v : Text} (v' : Text)
    (h : documentLength? n (t ++ v) = some k) (hk : k < n + t.length) :
    documentLength? n (t ++ v') = some k := by
  induction t generalizing n with
  | nil =>
    have := add_five_le_of_documentLength? h
    simp only [List.length_nil] at hk
    omega
  | cons c t ih =>
    rw [List.length_cons] at hk
    rw [List.cons_append, documentLength?] at h ⊢
    split at h
    · rename_i hend
      cases h
      have hspan : ((t ++ v).takeWhile (· != '\n')).length < t.length := by
        rw [span] at hk
        omega
      have hfour := four_le_span_of_startsWord (Bool.and_eq_true_iff.1 hend).2
      have hlong : "=end".toList.length < t.length := by
        rw [span] at hfour
        exact lt_of_le_of_lt hfour hspan
      rw [Text.startsWord_append hlong] at hend ⊢
      rw [if_pos hend, span, span, Text.takeWhile_append_of_lt v' hspan]
    · rename_i hend
      have hfive := add_five_le_of_documentLength? h
      have hlong : "=end".toList.length < t.length := by
        have hword : "=end".toList.length = 4 := by decide
        omega
      rw [Text.startsWord_append hlong] at hend ⊢
      rw [if_neg hend]
      exact ih h (by omega)

lemma document_local {start : ℕ} {t v : Text} {l : Lexeme} (v' : Text)
    (h : document start (t ++ v) = .ok l) (hl : l.more < t.length) :
    document start (t ++ v') = .ok l := by
  rw [document] at h ⊢
  split at h
  · rename_i n hn
    cases h
    rw [documentLength?_local v' hn (by simpa using hl)]
  · cases h

lemma comment_local {t v : Text} (v' : Text) (h : (comment (t ++ v)).more < t.length) :
    comment (t ++ v') = comment (t ++ v) := by
  rw [comment, comment, span, span, Text.takeWhile_append_of_lt v' h]

end Token.Lexeme

/-! ## Characters and percent literals -/

/-- A word is recognised alike if it does not reach past the border. -/
lemma Text.startsWord_border {word : Text} {b : Char} (t w w' : Text) (hb : b ∉ word) :
    startsWord word (t ++ b :: w') = startsWord word (t ++ b :: w) := by
  rcases lt_or_ge word.length (t ++ [b]).length with hlt | hge
  · have hassoc : ∀ w : Text, t ++ b :: w = (t ++ [b]) ++ w := by simp
    rw [hassoc w, hassoc w', startsWord_append hlt, startsWord_append hlt]
  · have hnot : ∀ w : Text, word.isPrefixOf (t ++ b :: w) = false := by
      intro w
      rw [Bool.eq_false_iff, ne_eq, List.isPrefixOf_iff_prefix]
      intro hpre
      have hborder : t ++ [b] <+: word :=
        List.prefix_of_prefix_length_le ⟨w, by simp⟩ hpre hge
      exact hb (hborder.subset (by simp))
    rw [startsWord, startsWord, hnot, hnot, Bool.false_and, Bool.false_and]

namespace Token.Lexeme

variable {b : Char} {t w w' : Text}

lemma character?_border (t w' : Text) (hb : Border b w) :
    character? (t ++ b :: w') = character? (t ++ b :: w) := by
  match t with
  | [] => rcases hb with rfl | rfl | ⟨rfl, -⟩ <;> rfl
  | [c] =>
    by_cases hc : c = '\\'
    · subst hc
      rfl
    · rw [List.singleton_append, List.singleton_append, character?_cons hc, character?_cons hc]
      rfl
  | c :: d :: t =>
    by_cases hc : c = '\\'
    · subst hc
      rfl
    · rw [List.cons_append, List.cons_append, List.cons_append, character?_cons hc,
        List.cons_append, character?_cons hc]
      rfl

lemma isDelimiter_of_border (hb : Border b w) : ¬ b.isAlphanum ∧ b ≠ '=' := by
  rcases hb with rfl | rfl | ⟨rfl, -⟩ <;> decide

lemma percentForm?_border (t w' : Text) (hb : Border b w) :
    percentForm? (t ++ b :: w') = percentForm? (t ++ b :: w) := by
  match t with
  | [] =>
    obtain ⟨halnum, hne⟩ := isDelimiter_of_border hb
    rw [List.nil_append, List.nil_append, percentForm?_of_delimiter w halnum hne,
      percentForm?_of_delimiter w' halnum hne]
  | [c] => rfl
  | c :: d :: t => rfl

lemma le_length_of_percentForm? {kind : Kind} {interpolates : Bool} {letters : ℕ}
    (hb : Border b w) (h : percentForm? (t ++ b :: w) = some (kind, interpolates, letters)) :
    letters ≤ t.length := by
  cases t with
  | nil =>
    obtain ⟨halnum, hne⟩ := isDelimiter_of_border hb
    rw [List.nil_append, percentForm?_of_delimiter w halnum hne] at h
    cases h
    exact le_rfl
  | cons c t =>
    rw [List.length_cons]
    rcases percentForm?_cons h with ⟨rfl, -⟩ | ⟨rfl, -⟩ <;> omega

/-- A percent literal that ends before the border, or none, is read alike. -/
lemma percent?_border {start : ℕ} {r : Option Lexeme} (hb : Border b w)
    (h : percent? start (t ++ b :: w) = .ok r) (hr : ∀ l ∈ r, l.more ≤ t.length) :
    percent? start (t ++ b :: w') = .ok r := by
  rw [percent?] at h ⊢
  rw [percentForm?_border t w' hb]
  cases hform : percentForm? (t ++ b :: w) with
  | none =>
    rw [hform] at h
    exact h
  | some form =>
    obtain ⟨kind, interpolates, letters⟩ := form
    have hle := le_length_of_percentForm? hb hform
    rw [hform] at h
    dsimp only at h ⊢
    rw [List.drop_append_of_le_length hle] at h ⊢
    cases hdrop : t.drop letters with
    | nil =>
      -- the border is the delimiter: white space, or the literal goes on past it
      rw [hdrop, List.nil_append] at h
      dsimp only [List.nil_append] at h ⊢
      by_cases hspace : Text.isSpace b
      · rw [if_pos hspace] at h ⊢
        exact h
      rw [if_neg hspace] at h
      split at h
      · cases h
      split at h
      · cases h
      · cases h
        have hmore := hr _ rfl
        have hlen := List.drop_eq_nil_iff.1 hdrop
        dsimp only at hmore
        omega
    | cons delimiter u =>
      have hlen := congrArg List.length hdrop
      rw [List.length_drop, List.length_cons] at hlen
      rw [hdrop] at h
      dsimp only [List.cons_append] at h ⊢
      by_cases hspace : Text.isSpace delimiter
      · rw [if_pos hspace] at h ⊢
        exact h
      rw [if_neg hspace] at h ⊢
      split at h
      · cases h
      rename_i n hn
      by_cases hwide : Text.isWide delimiter
      · rw [if_pos hwide] at h
        cases h
      rw [if_neg hwide] at h
      cases h
      have hn' : n ≤ u.length := by
        have := hr _ rfl
        dsimp only at this
        omega
      rw [Quoting.literal_local (b :: w') hn hn']
      dsimp only
      rw [if_neg hwide, List.drop_append_of_le_length hn', List.drop_append_of_le_length hn',
        flags_append_dull _ _ (hb.dull w), flags_append_dull _ _ (hb.dull w')]

end Token.Lexeme

/-! ## Choosing the same move -/

namespace Scanner

variable {v : View} {pos : ℕ} {b c : Char} {t w w' : Text} {m : Move}

/-- A move at a text that starts with `c :: t` and takes no more than this. -/
def Move.Within (t : Text) : Move → Prop
  | .skip n => n ≤ t.length + 1
  | .lexeme l => l.more ≤ t.length
  | .announce _ n => n ≤ t.length
  | _ => True

lemma chooseSign_border (pos : ℕ) (c : Char) (t : Text) (hb : Border b w) (hb' : Border b w') :
    chooseSign pos c (t ++ b :: w') = chooseSign pos c (t ++ b :: w) := by
  have hfind : Sign.find? (c :: (t ++ b :: w')) = Sign.find? (c :: (t ++ b :: w)) :=
    Sign.find?_border (List.cons_ne_nil c t) hb hb'
  rw [chooseSign, chooseSign, hfind]

lemma chooseJoin_border (h : chooseJoin pos (t ++ b :: w) = .ok m) (hm : m.Within t) :
    chooseJoin pos (t ++ b :: w') = .ok m := by
  rw [chooseJoin.eq_def] at h
  split at h
  · rename_i u heq
    cases h
    cases t with
    | nil => simp [Move.Within] at hm
    | cons d t =>
      cases heq
      rfl
  · rename_i u heq
    cases h
    match t with
    | [] => simp [Move.Within] at hm
    | [d] => simp [Move.Within] at hm
    | d :: e :: t =>
      cases heq
      rfl
  · cases h

lemma choosePercent_border (hb : Border b w) (hb' : Border b w')
    (h : choosePercent pos c (t ++ b :: w) = .ok m) (hm : m.Within t) :
    choosePercent pos c (t ++ b :: w') = .ok m := by
  rw [choosePercent] at h ⊢
  split at h
  · cases h
  · rename_i l hl
    cases h
    rw [Lexeme.percent?_border hb hl (by rintro _ ⟨⟩; exact hm)]
  · rename_i hnone
    rw [Lexeme.percent?_border hb hnone (by simp)]
    dsimp only
    rwa [chooseSign_border pos c t hb hb']

/-- The characters that may open a literal. -/
def openers : List Char := ['"', '`', '\'', ':', '?', '%', '/', '<']

lemma chooseLiteral_eq_chooseSign (view : View) (pos : ℕ) (hc : c ∉ openers) (w : Text) :
    chooseLiteral view pos c w = chooseSign pos c w := by
  simp only [openers, List.mem_cons, List.not_mem_nil, or_false, not_or] at hc
  obtain ⟨h₁, h₂, h₃, h₄, h₅, h₆, h₇, h₈⟩ := hc
  rw [chooseLiteral, if_neg (by simp [h₁, h₂]), if_neg h₃, if_neg h₄, if_neg h₅, if_neg h₆,
    if_neg h₇, if_neg h₈, ite_self]

/-- A literal or a sign that ends before the border is chosen alike. -/
lemma chooseLiteral_border (hb : Border b w) (hb' : Border b w')
    (hclosed : ∀ u, c :: t = '<' :: '<' :: u → ¬ Heredoc.Unclosed u)
    (h : chooseLiteral v pos c (t ++ b :: w) = .ok m) (hm : m.Within t) :
    chooseLiteral v pos c (t ++ b :: w') = .ok m := by
  have hsign := chooseSign_border pos c t hb hb'
  rw [chooseLiteral] at h ⊢
  rw [Text.head?_append_cons t b w w', Lexeme.character?_border t w' hb, hsign]
  by_cases hquote : (c = '"' || c = '`') = true
  · rw [if_pos hquote] at h ⊢
    obtain ⟨l, hl, rfl⟩ := eq_ok_of_map_eq_ok h
    rw [Lexeme.quoted_local (b :: w') hl hm]
    rfl
  rw [if_neg hquote] at h ⊢
  by_cases htick : c = '\''
  · rw [if_pos htick] at h ⊢
    obtain ⟨l, hl, rfl⟩ := eq_ok_of_map_eq_ok h
    rw [Lexeme.quoted_local (b :: w') hl hm]
    rfl
  rw [if_neg htick] at h ⊢
  by_cases hcolon : c = ':'
  · rw [if_pos hcolon] at h ⊢
    obtain ⟨l, hl, rfl⟩ := eq_ok_of_map_eq_ok h
    rw [Lexeme.colon_local (hb.dull w) (hb.dull w') hl hm]
    rfl
  rw [if_neg hcolon] at h ⊢
  by_cases hallows : (!v.allows (t ++ b :: w).head?) = true
  · rw [if_pos hallows] at h ⊢
    exact h
  rw [if_neg hallows] at h ⊢
  by_cases hcharacter : c = '?'
  · rw [if_pos hcharacter] at h ⊢
    exact h
  rw [if_neg hcharacter] at h ⊢
  by_cases hpercent : c = '%'
  · rw [if_pos hpercent] at h ⊢
    exact choosePercent_border hb hb' h hm
  rw [if_neg hpercent] at h ⊢
  by_cases hslash : c = '/'
  · rw [if_pos hslash] at h ⊢
    obtain ⟨l, hl, rfl⟩ := eq_ok_of_map_eq_ok h
    rw [Lexeme.regexp_local (hb.dull w) (hb.dull w') hl hm]
    rfl
  rw [if_neg hslash] at h ⊢
  by_cases hangle : c = '<'
  · subst hangle
    rw [Heredoc.announced?_border pos w' hb fun u hu => hclosed u (by rw [hu])]
    exact h
  rw [if_neg hangle] at h ⊢
  exact h

/-- The line that ends a program is recognised alike. -/
lemma line_eq_end_border (x w' : Text) (hb : Border b w) :
    (Text.withoutReturn (Text.line (x ++ b :: w')) == "__END__".toList)
      = (Text.withoutReturn (Text.line (x ++ b :: w)) == "__END__".toList) := by
  by_cases hline : '\n' ∈ x ++ [b]
  · obtain ⟨l, r, hsplit, hl⟩ := List.eq_append_cons_of_mem hline
    have hassoc : ∀ w : Text, x ++ b :: w = l ++ '\n' :: (r ++ w) := by
      intro w
      have : x ++ b :: w = (x ++ [b]) ++ w := by simp
      rw [this, hsplit, List.append_assoc, List.cons_append]
    rw [hassoc w, hassoc w', Text.line_append_newline hl, Text.line_append_newline hl]
  · -- the border stands on the line, and not in the marker
    rw [List.mem_append, List.mem_singleton, not_or] at hline
    have hb' : b ≠ '\n' ∧ b ≠ '\r' ∧ b ∉ "__END__".toList := by
      refine ⟨fun h => hline.2 h.symm, ?_⟩
      rcases hb with rfl | rfl | ⟨rfl, -⟩ <;> decide
    have hfalse : ∀ w : Text,
        (Text.withoutReturn (Text.line (x ++ b :: w)) == "__END__".toList) = false := by
      intro w
      rw [beq_eq_false_iff_ne]
      intro hend
      have hmem : b ∈ Text.withoutReturn (Text.line (x ++ b :: w)) := by
        have hmem : b ∈ Text.line (x ++ b :: w) := by
          rw [Text.line_append_of_not_mem hline.1]
          simp [Text.line, hb'.1]
        rw [Text.withoutReturn]
        split
        · rename_i hlast
          obtain ⟨l, hl⟩ := List.getLast?_eq_some_iff.1 hlast
          rw [hl] at hmem ⊢
          simpa [hb'.2.1] using hmem
        · exact hmem
      rw [hend] at hmem
      exact hb'.2.2 hmem
    rw [hfalse w, hfalse w']

lemma document_border {l : Lexeme} (h : Lexeme.document pos (t ++ b :: w) = .ok l)
    (hl : l.more ≤ t.length) : Lexeme.document pos (t ++ b :: w') = .ok l := by
  have hassoc : ∀ w : Text, t ++ b :: w = (t ++ [b]) ++ w := by simp
  rw [hassoc] at h ⊢
  refine Lexeme.document_local w' h ?_
  rw [List.length_append, List.length_singleton]
  omega

lemma comment_border (h : (Lexeme.comment (t ++ b :: w)).more ≤ t.length) :
    Lexeme.comment (t ++ b :: w') = Lexeme.comment (t ++ b :: w) := by
  have hassoc : ∀ w : Text, t ++ b :: w = (t ++ [b]) ++ w := by simp
  rw [hassoc] at h ⊢
  rw [hassoc w]
  refine Lexeme.comment_local w' ?_
  rw [List.length_append, List.length_singleton]
  omega

/-- The same move is chosen for two texts that part after a border, as long as it ends before the
border. -/
lemma choose_border (hb : Border b w) (hb' : Border b w')
    (hclosed : ∀ u, c :: t = '<' :: '<' :: u → ¬ Heredoc.Unclosed u)
    (h : choose v pos c (t ++ b :: w) = .ok m) (hm : m.Within t) :
    choose v pos c (t ++ b :: w') = .ok m := by
  have hbegin : Text.startsWord "=begin".toList (c :: (t ++ b :: w'))
      = Text.startsWord "=begin".toList (c :: (t ++ b :: w)) :=
    Text.startsWord_border (c :: t) w w' (by rcases hb with rfl | rfl | ⟨rfl, -⟩ <;> decide)
  have hend := line_eq_end_border (c :: t) w' hb
  have hdigits :
      Numeral.read pos (c :: (t ++ b :: w')) = Numeral.read pos (c :: (t ++ b :: w)) := by
    have hread : ∀ {w : Text}, Border b w →
        Numeral.read pos (c :: (t ++ b :: w)) = Numeral.read pos (c :: t) := fun hb =>
      Numeral.read_append_dull pos (List.cons_ne_nil c t) (hb.dull _)
        (Numeral.fraction_of_border hb)
    exact (hread hb').trans (hread hb).symm
  have hmethod : Sign.findMethod? (c :: (t ++ b :: w')) = Sign.findMethod? (c :: (t ++ b :: w)) :=
    (Sign.findMethod?_append_dull (c :: t) (hb.dull w')).trans
      (Sign.findMethod?_append_dull (c :: t) (hb.dull w)).symm
  rw [choose] at h ⊢
  rw [List.cons_append, List.cons_append] at hend
  rw [hbegin, hend, hdigits, hmethod]
  by_cases hblank : Text.isBlank c = true
  · rw [if_pos hblank] at h ⊢
    exact h
  rw [if_neg hblank] at h ⊢
  by_cases hslash : c = '\\'
  · rw [if_pos hslash] at h ⊢
    exact chooseJoin_border h hm
  rw [if_neg hslash] at h ⊢
  by_cases hline : c = '\n'
  · rw [if_pos hline] at h ⊢
    exact h
  rw [if_neg hline] at h ⊢
  by_cases hcomment : c = '#'
  · rw [if_pos hcomment] at h ⊢
    cases h
    rw [comment_border hm]
  rw [if_neg hcomment] at h ⊢
  by_cases hdocument : (c = '=' && v.lineStart
      && Text.startsWord "=begin".toList (c :: (t ++ b :: w))) = true
  · rw [if_pos hdocument] at h ⊢
    obtain ⟨l, hl, rfl⟩ := eq_ok_of_map_eq_ok h
    rw [document_border hl hm]
    rfl
  rw [if_neg hdocument] at h ⊢
  by_cases hprogram : (c = '_' && v.lineStart
      && Text.withoutReturn (Text.line (c :: (t ++ b :: w))) == "__END__".toList) = true
  · -- such a line ends all of the text, border and all
    rw [if_pos hprogram] at h
    cases h
    simp [Move.Within] at hm
  rw [if_neg hprogram] at h ⊢
  by_cases hdigit : c.isDigit = true
  · rw [if_pos hdigit] at h ⊢
    exact h
  rw [if_neg hdigit] at h ⊢
  by_cases hname : Text.isNameStart c = true
  · rw [if_pos hname] at h ⊢
    exact h
  rw [if_neg hname] at h ⊢
  by_cases hsigil : (c = '@' || c = '$') = true
  · rw [if_pos hsigil] at h ⊢
    obtain ⟨l, hl, rfl⟩ := eq_ok_of_map_eq_ok h
    rw [Lexeme.var_local (hb.dull w) (hb.dull w') hl hm]
    rfl
  rw [if_neg hsigil] at h ⊢
  split at h
  · exact h
  · exact chooseLiteral_border hb hb' hclosed h hm

end Scanner

end TablePack
