import Mathlib.Tactic
import TablePack.Proofs.Account
import TablePack.Proofs.Codec
import TablePack.Proofs.Exchange.Site

/-!
# Compacting a text twice

In a text that was compacted, the tables that were too large are all that is left to find, so that a
second compaction has nothing to pack and changes nothing. This holds of tables with a header on one
line (`Table.Plain`), with no other table inside.

The tables are exchanged for their constructors one after another, the last one first: then the text
before an exchange, with all the tables in it, stays as it was.

* `Text.spliced_concat`: a splice of several pieces, the last one first;
* `Table.exists_tree_of_compacted`: the tree of the compacted text, and the tables in it;
* `Compaction.ofText_stable`: the second compaction.
-/

namespace TablePack

open Text (size)
open Piece (textOf)

/-! ## The last piece of a splice -/

namespace Text

variable {x : Text} {a b : ℕ}

lemma dropBytes_append (ha : Divides x a) (y : Text) :
    dropBytes a (x ++ y) = dropBytes a x ++ y := by
  obtain ⟨q, p, rfl, rfl⟩ := ha
  rw [List.append_assoc, dropBytes_size_append, dropBytes_size_append]

/-- A division of a text in its front is one of the front. -/
lemma Divides.left {y : Text} (h : Divides (x ++ y) a) (ha : a ≤ size x) : Divides x a := by
  obtain ⟨q, p, hp, rfl⟩ := h
  obtain ⟨m, rfl, -⟩ := append_split_of_size_le hp.symm ha
  exact ⟨m, p, rfl, rfl⟩

/-- A slice of the front of a text does not depend on the rest. -/
lemma slice_append_left (ha : Divides x a) (hb : Divides x b) (y : Text) :
    slice (x ++ y) a b = slice x a b := by
  rcases Nat.lt_or_ge b a with hlt | hle
  · rw [slice, slice, Nat.sub_eq_zero_of_le hlt.le, takeBytes_zero, takeBytes_zero]
  · obtain ⟨q, p, hp, rfl⟩ := ha
    obtain ⟨q', p', hp', rfl⟩ := hb
    obtain ⟨m, rfl, rfl⟩ := append_split_of_size_le (hp.symm.trans hp') hle
    rw [hp, List.append_assoc, List.append_assoc, size_append, slice_append, slice_append]

/-- What comes after a text stays after it. -/
lemma spliced_append (y : Text) {pieces : List (ℕ × ℕ × Text)} {here : ℕ} (hhere : Divides x here)
    (hpieces : ∀ p ∈ pieces, Divides x p.1 ∧ Divides x p.2.1) :
    spliced (x ++ y) here pieces = spliced x here pieces ++ y := by
  induction pieces generalizing here with
  | nil => rw [spliced, spliced, dropBytes_append hhere]
  | cons p pieces ih =>
    obtain ⟨start, stop, text⟩ := p
    obtain ⟨⟨hstart, hstop⟩, hrest⟩ := List.forall_mem_cons.1 hpieces
    rw [spliced, spliced, slice_append_left hhere hstart, ih hstop hrest, List.append_assoc,
      List.append_assoc]

/-- The last piece can be put into the text before the others. -/
lemma spliced_concat {before mid after new : Text} {pieces : List (ℕ × ℕ × Text)} {here : ℕ}
    (hhere : Divides before here)
    (hpieces : ∀ p ∈ pieces, Divides before p.1 ∧ Divides before p.2.1) :
    spliced (before ++ (mid ++ after)) here
        (pieces ++ [(size before, size before + size mid, new)])
      = spliced (before ++ (new ++ after)) here pieces := by
  induction pieces generalizing here with
  | nil =>
    have hend : Divides before (size before) := ⟨[], before, by simp, rfl⟩
    have hslice : slice before here (size before) = dropBytes here before := by
      obtain ⟨q, p, rfl, rfl⟩ := hhere
      have := slice_append p q []
      rw [List.append_nil] at this
      rw [size_append, this, dropBytes_size_append]
    have hrest : dropBytes (size before + size mid) (before ++ (mid ++ after)) = after := by
      rw [← size_append, ← List.append_assoc, dropBytes_size_append]
    rw [List.nil_append, spliced, spliced, spliced, slice_append_left hhere hend, hslice, hrest,
      dropBytes_append hhere]
  | cons p pieces ih =>
    obtain ⟨start, stop, text⟩ := p
    obtain ⟨⟨hstart, hstop⟩, hrest⟩ := List.forall_mem_cons.1 hpieces
    rw [List.cons_append, spliced, spliced, slice_append_left hhere hstart,
      slice_append_left hhere hstart, ih hstop hrest]

end Text

/-! ## The plan -/

namespace Compaction

/-- How a table is packed, if it is. -/
def packing? (opts : Options) (t : Table) : Option (Table × Encoding) :=
  (Encoding.ofNumbers opts.flatOffsets t.numbers).toOption.map fun e => (t, e)

lemma planned_eq_of_plan {opts : Options} {source : Text} {tables : List Table}
    {planned : List (Table × Encoding)} {kept : List Kept}
    (h : plan opts source tables = .ok (planned, kept)) :
    planned = tables.filterMap (packing? opts) := by
  induction tables generalizing planned kept with
  | nil =>
    cases h
    rfl
  | cons t tables ih =>
    rw [plan] at h
    rw [List.filterMap_cons, packing?]
    split at h
    · cases h
    · rename_i heq
      obtain ⟨⟨planned', kept'⟩, hplan, hpair⟩ := eq_ok_of_map_eq_ok h
      cases hpair
      rw [heq]
      exact ih hplan
    · rename_i heq
      obtain ⟨⟨planned', kept'⟩, hplan, hpair⟩ := eq_ok_of_map_eq_ok h
      cases hpair
      rw [heq]
      exact congrArg _ (ih hplan)

lemma packing?_of_isOversize {opts : Options} {t : Table} (h : t.IsOversize) :
    packing? opts t = none := by
  rw [packing?, Encoding.ofNumbers_of_oversize _ h]
  rfl

lemma isOversize_of_packing?_eq_none {opts : Options} {t : Table} (hne : t.numbers ≠ [])
    (h : packing? opts t = none) : t.IsOversize := by
  by_contra hsize
  obtain ⟨e, he⟩ := Encoding.exists_ofNumbers opts.flatOffsets hne
    (by simpa [Table.IsOversize] using hsize)
  rw [packing?, he] at h
  cases h

/-- A text in which some of its tables are packed. -/
def compacted (opts : Options) (source : Text) (tables : List Table) : Text :=
  Text.spliced source 0 ((tables.filterMap (packing? opts)).map (piece opts))

/-- The statement that constructs a packed table, in two parts. -/
lemma statement_eq {opts : Options} (hclass : opts.classPath = "::Ragel::Bitmap".toList)
    (t : Table) (e : Encoding) :
    statement opts t.receiver t.name e = t.head ++ textOf e.pieces := by
  rw [Encoding.textOf_pieces, statement, hclass, Table.head]
  simp

lemma divides_of_mem_pieces {opts : Options} {x : Text} {tables : List Table}
    (htables : ∀ t ∈ tables, Text.Divides x t.start ∧ Text.Divides x t.stop) :
    ∀ p ∈ (tables.filterMap (packing? opts)).map (piece opts),
      Text.Divides x p.1 ∧ Text.Divides x p.2.1 := by
  intro p hp
  obtain ⟨q, hq, rfl⟩ := List.mem_map.1 hp
  obtain ⟨t, ht, hpacked⟩ := List.mem_filterMap.1 hq
  obtain ⟨e, -, rfl⟩ := Option.map_eq_some_iff.1 hpacked
  exact htables t ht

/-- A plain table that is packed before the others. -/
lemma compacted_concat {opts : Options} (hclass : opts.classPath = "::Ragel::Bitmap".toList)
    {source before header body after : Text} {tables : List Table} {t : Table} {e : Encoding}
    (hplain : t.Plain source before header body after)
    (he : Encoding.ofNumbers opts.flatOffsets t.numbers = .ok e)
    (htables : ∀ u ∈ tables, Text.Divides before u.start ∧ Text.Divides before u.stop) :
    compacted opts source (tables ++ [t])
      = compacted opts (before ++ (t.head ++ (textOf e.pieces ++ after))) tables := by
  have hpacking : packing? opts t = some (t, e) := by
    rw [packing?, he]
    rfl
  have hpiece : piece opts (t, e) = (size before,
      size before + size (header ++ '[' :: (body ++ [']'])), t.head ++ textOf e.pieces) := by
    rw [piece, statement_eq hclass, hplain.start_eq, hplain.stop_eq_size]
  rw [compacted, compacted, List.filterMap_append, List.map_append, ← List.append_assoc t.head]
  simp only [List.filterMap_cons, hpacking, List.filterMap_nil, List.map_cons, List.map_nil, hpiece]
  rw [hplain.source_eq_append]
  exact Text.spliced_concat ⟨before, [], rfl, rfl⟩ (divides_of_mem_pieces htables)

end Compaction

/-! ## The tables of a compacted text -/

namespace Table

/-- What a table holds, and the name of the field that holds it. -/
def content (t : Table) : Text × List ℕ := (t.name, t.numbers)

lemma map_content_eq {tables tables' : List Table} (h : List.Forall₂ Alike tables tables') :
    tables'.map content = tables.map content := by
  induction h with
  | nil => rfl
  | cons halike _ ih =>
    rw [List.map_cons, List.map_cons, ih, content, content, halike.name_eq, halike.numbers_eq]

/-- The table at a site is too large, or it is plain and no other one is inside. -/
def Packable (source : Text) (marker : Char) (site : Statement) : Prop :=
  ∀ t, ofStatement? source marker site = some t → ¬ t.IsOversize →
    inNodes source marker site = [] ∧
      ∃ before header body after, t.Plain source before header body after

variable {x y : Text} {t : Table} {marker : Char} {site : Statement} {tree : List Statement}

/-- The sites of a text can be computed, with what is found there. -/
lemma packable_of_found {source : Text} {found : List (Option Table × List Table)}
    (h : (Tree.ofText source).map (fun tree => (sites marker tree).map fun site =>
      (ofStatement? source marker site, inNodes source marker site)) = .ok found)
    (hfound : ∀ t inner, (some t, inner) ∈ found → ¬ t.IsOversize →
      inner = [] ∧ ∃ before header body after, t.Plain source before header body after)
    (htree : Tree.ofText source = .ok tree) (hsite : site ∈ sites marker tree) :
    Packable source marker site := by
  intro t ht hsize
  rw [htree] at h
  obtain rfl := Except.ok.inj h
  exact hfound t _ (List.mem_map.2 ⟨site, hsite, by rw [ht]⟩) hsize

lemma exists_ofStatement? (source : Text) (hsite : site ∈ sites marker tree) :
    ∃ t, ofStatement? source marker site = some t := by
  rw [← Option.isSome_iff_exists, isSome_ofStatement?]
  exact isTable_of_mem_sites tree hsite

/-- The tables of a text are those at its sites. -/
lemma locate_eq {source : Text} (htree : Tree.ofText source = .ok tree) :
    locate source marker = .ok ((sites marker tree).filterMap (ofStatement? source marker)) := by
  rw [locate, htree, ← inStatements_eq]
  rfl

/-- A table in the front of a text does not depend on the rest. -/
lemma ofStatement?_append_left (htree : Tree.ofText (x ++ y) = .ok tree)
    (hsite : site ∈ sites marker tree) (ht : ofStatement? (x ++ y) marker site = some t)
    (hstop : t.stop ≤ size x) (y' : Text) : ofStatement? (x ++ y') marker site = some t := by
  obtain ⟨before, gap, after, hsource, hstart, hend⟩ :=
    located_division (locate_eq htree) (List.mem_filterMap.2 ⟨site, hsite, ht⟩)
  obtain ⟨f, e, pre, post, rfl, hfound⟩ := exists_found htree hsite ht
  have hlast := hfound.last_stop hstart
  rw [Text.size_append] at hlast
  -- The receiver stands in the front.
  have hslice : Text.slice (x ++ y') f.first.start f.last.stop = t.receiver := by
    obtain ⟨rest, rfl, -⟩ := Text.append_split_of_size_le (a := before ++ t.receiver)
      (by rw [hsource, List.append_assoc]) (by rw [Text.size_append]; omega)
    rw [← hlast, ← hfound.start_eq, hstart, List.append_assoc, List.append_assoc, Text.slice_append]
  refine ofStatement?_eq_some_iff.2 ⟨f, hfound.valid, rfl, hfound.table_eq.trans ?_⟩
  rw [Form.table, Form.table, hslice, ← hfound.receiver_eq]

lemma Plain.append_left {before header body after : Text}
    (h : t.Plain (x ++ y) before header body after) (hstop : t.stop ≤ size x) (y' : Text) :
    ∃ after', t.Plain (x ++ y') before header body after' := by
  have hsource : (before ++ (header ++ '[' :: (body ++ [']']))) ++ after = x ++ y := by
    rw [h.source_eq_append, List.append_assoc]
  have hsize : size (before ++ (header ++ '[' :: (body ++ [']']))) = t.stop := by
    rw [h.stop_eq_size, Text.size_append]
  obtain ⟨gap, rfl, -⟩ := Text.append_split_of_size_le hsource (hsize.le.trans hstop)
  exact ⟨gap ++ y', h.isHeader, by simp, h.start_eq, h.stop_eq, h.line⟩

lemma inNodes_eq_nil_congr {source source' : Text} (h : inNodes source marker site = []) :
    inNodes source' marker site = [] := by
  rw [inNodes_eq, sitesInNodes_eq_nil h, List.filterMap_nil]

lemma Packable.append_left (h : Packable (x ++ y) marker site)
    (htree : Tree.ofText (x ++ y) = .ok tree) (hsite : site ∈ sites marker tree)
    (ht : ofStatement? (x ++ y) marker site = some t) (hstop : t.stop ≤ size x) (y' : Text) :
    Packable (x ++ y') marker site := by
  intro t' ht' hsize
  rw [ofStatement?_append_left htree hsite ht hstop y', Option.some.injEq] at ht'
  subst ht'
  obtain ⟨hinner, before, header, body, after, hplain⟩ := h t ht hsize
  obtain ⟨after', hplain'⟩ := hplain.append_left hstop y'
  exact ⟨inNodes_eq_nil_congr hinner, before, header, body, after', hplain'⟩

/-- A text can be cut where a table starts and where it stops. -/
lemma divides_of_locate {source : Text} {tables : List Table}
    (hlocate : locate source marker = .ok tables) (ht : t ∈ tables) :
    Text.Divides source t.start ∧ Text.Divides source t.stop ∧ t.start ≤ t.stop := by
  obtain ⟨before, gap, after, hsource, hstart, hstop⟩ := located_division hlocate ht
  refine ⟨⟨_, before, hsource, hstart.symm⟩,
    ⟨after, before ++ (t.receiver ++ (gap ++ [']'])), ?_, ?_⟩, by omega⟩
  · rw [hsource]
    simp
  · have hclose : size [']'] = 1 := rfl
    rw [hstop, Text.size_append, Text.size_append, Text.size_append]
    omega

/-- One table is packed: the last one of those that come first. The text before it stays, with the
tables in it, and those after it have their names and their numbers. -/
lemma exists_packed {opts : Options} (hclass : opts.classPath = "::Ragel::Bitmap".toList)
    {source : Text} {first last : List Statement} (htree : Tree.ofText source = .ok tree)
    (hsites : sites opts.marker tree = first ++ site :: last)
    (ht : ofStatement? source opts.marker site = some t) (hne : t.numbers ≠ [])
    (hsize : ¬ t.IsOversize)
    (hpackable : ∀ other ∈ first ++ [site], Packable source opts.marker other) :
    ∃ source₁ tree₁ last₁, Tree.ofText source₁ = .ok tree₁ ∧
      sites opts.marker tree₁ = first ++ last₁ ∧
      (∀ other ∈ first, ofStatement? source₁ opts.marker other
        = ofStatement? source opts.marker other ∧ Packable source₁ opts.marker other) ∧
      (last₁.filterMap (ofStatement? source₁ opts.marker)).map content
        = (last.filterMap (ofStatement? source opts.marker)).map content ∧
      Compaction.compacted opts source
          (first.filterMap (ofStatement? source opts.marker) ++ [t])
        = Compaction.compacted opts source₁
          (first.filterMap (ofStatement? source opts.marker)) := by
  obtain ⟨hpackable, hsite⟩ := List.forall_mem_append.1 hpackable
  obtain ⟨hinner, before, header, body, after, hplain⟩ := hsite site (by simp) t ht hsize
  have hlt : ∀ n ∈ t.numbers, n < 2 ^ 64 := by simpa [IsOversize] using hsize
  obtain ⟨e, he⟩ := Encoding.exists_ofNumbers opts.flatOffsets hne hlt
  obtain ⟨tree₁, last₁, htree₁, hsites₁, hlast₁⟩ := hplain.exists_exchanged htree hsites ht hne
    hinner (Encoding.buffers_ne_nil he)
  have hlocate := @locate_eq opts.marker tree source htree
  rw [hsites, List.filterMap_append, List.filterMap_cons, ht] at hlocate
  have hbefore : ∀ u ∈ first.filterMap (ofStatement? source opts.marker),
      u.stop ≤ size before := by
    intro u hu
    rw [← hplain.start_eq]
    exact (List.pairwise_append.1 (located_pairwise hlocate)).2.2 u hu t List.mem_cons_self
  obtain rfl := hplain.source_eq
  refine ⟨_, tree₁, last₁, htree₁, hsites₁, fun other hother => ?_, ?_, ?_⟩
  · have hmem : other ∈ sites opts.marker tree := by rw [hsites]; simp [hother]
    obtain ⟨u, hu⟩ := exists_ofStatement? _ hmem
    have hstop := hbefore u (List.mem_filterMap.2 ⟨other, hother, hu⟩)
    exact ⟨(ofStatement?_append_left htree hmem hu hstop _).trans hu.symm,
      (hpackable other hother).append_left htree hmem hu hstop _⟩
  · exact map_content_eq (List.rel_filterMap (fun _ _ h => h) (hlast₁.imp fun _ _ h => h _))
  · refine Compaction.compacted_concat hclass hplain he fun u hu => ?_
    obtain ⟨hstart, hstop, hle⟩ := divides_of_locate hlocate (List.mem_append_left _ hu)
    exact ⟨hstart.left (hle.trans (hbefore u hu)), hstop.left (hbefore u hu)⟩

/-- When the tables of a text that come first are packed, the result has a tree. In it, only those
of them are found that are too large, and after these the others. -/
lemma exists_tree_of_compacted {opts : Options}
    (hclass : opts.classPath = "::Ragel::Bitmap".toList) {source : Text} {tree : List Statement}
    {first last : List Statement} (htree : Tree.ofText source = .ok tree)
    (hsites : sites opts.marker tree = first ++ last)
    (hne : ∀ t ∈ first.filterMap (ofStatement? source opts.marker), t.numbers ≠ [])
    (hpackable : ∀ site ∈ first, Packable source opts.marker site) :
    ∃ text tree', Compaction.compacted opts source
        (first.filterMap (ofStatement? source opts.marker)) = text ∧
      Tree.ofText text = .ok tree' ∧
      (inStatements text opts.marker tree').map content
        = ((first.filterMap (ofStatement? source opts.marker)).filter (fun t => t.IsOversize)
          ++ last.filterMap (ofStatement? source opts.marker)).map content := by
  induction first using List.reverseRecOn generalizing source tree last with
  | nil =>
    refine ⟨source, tree, ?_, htree, ?_⟩
    · exact Text.dropBytes_zero source
    · rw [inStatements_eq, hsites]
      rfl
  | append_singleton first site ih =>
    rw [List.append_assoc, List.singleton_append] at hsites
    have hsite : site ∈ sites opts.marker tree := by rw [hsites]; simp
    obtain ⟨t, ht⟩ := exists_ofStatement? source hsite
    have hlast : (first ++ [site]).filterMap (ofStatement? source opts.marker)
        = first.filterMap (ofStatement? source opts.marker) ++ [t] := by
      simp [ht]
    rw [hlast] at hne ⊢
    obtain ⟨hne', hnumbers⟩ := List.forall_mem_append.1 hne
    by_cases hsize : t.IsOversize
    · -- The table stays, and counts as one of the others.
      obtain ⟨text, tree', htext, htree', hcontent⟩ := ih htree hsites hne' fun other hother =>
        hpackable other (List.mem_append_left _ hother)
      refine ⟨text, tree', ?_, htree', ?_⟩
      · rw [← htext, Compaction.compacted, Compaction.compacted, List.filterMap_append,
          List.filterMap_cons, Compaction.packing?_of_isOversize hsize, List.filterMap_nil,
          List.append_nil]
      · rw [List.filterMap_cons, ht] at hcontent
        simpa [hsize] using hcontent
    · obtain ⟨source₁, tree₁, last₁, htree₁, hsites₁, hfirst₁, hcontent₁, hcompacted₁⟩ :=
        exists_packed hclass htree hsites ht (hnumbers t (by simp)) hsize hpackable
      have hsame : first.filterMap (ofStatement? source₁ opts.marker)
          = first.filterMap (ofStatement? source opts.marker) :=
        List.filterMap_congr fun other hother => (hfirst₁ other hother).1
      obtain ⟨text, tree', htext, htree', hcontent⟩ := ih htree₁ hsites₁ (by rwa [hsame])
        fun other hother => (hfirst₁ other hother).2
      rw [hsame] at htext hcontent
      refine ⟨text, tree', hcompacted₁.trans htext, htree', ?_⟩
      rw [hcontent, List.map_append, hcontent₁, ← List.map_append]
      simp [hsize]

/-- Where all tables of a text are packed that can be, the others are left. -/
lemma exists_left {opts : Options} (hclass : opts.classPath = "::Ragel::Bitmap".toList)
    {source : Text} {tables : List Table} (hlocate : locate source opts.marker = .ok tables)
    (hne : ∀ t ∈ tables, t.numbers ≠ [])
    (hpackable : ∀ tree, Tree.ofText source = .ok tree →
      ∀ site ∈ sites opts.marker tree, Packable source opts.marker site) :
    ∃ left, locate (Compaction.compacted opts source tables) opts.marker = .ok left ∧
      left.map content = (tables.filter fun t => t.IsOversize).map content := by
  obtain ⟨tree, htree, rfl⟩ := eq_ok_of_map_eq_ok hlocate
  rw [inStatements_eq] at hne ⊢
  obtain ⟨text, tree', rfl, htree', hcontent⟩ := exists_tree_of_compacted hclass htree
    (List.append_nil _).symm hne (hpackable tree htree)
  rw [List.filterMap_nil, List.append_nil] at hcontent
  exact ⟨inStatements _ opts.marker tree', by rw [locate, htree']; rfl, hcontent⟩

end Table

/-! ## The second compaction -/

namespace Compaction

variable {opts : Options} {source : Text} {c : Compaction} {tables : List Table}

/-- All tables of a text that was compacted have numbers. -/
lemma numbers_ne_nil_of_ofText (h : ofText opts source = .ok c)
    (hlocate : Table.locate source opts.marker = .ok tables) : ∀ t ∈ tables, t.numbers ≠ [] := by
  rcases empty_cases tables with hne | ⟨before, t, after, rfl, hbefore, ht⟩
  · exact hne
  · rw [ofText_of_empty hlocate hbefore ht] at h
    cases h

/-- A text in which all tables are too large stays as it is. -/
lemma ofText_of_isOversize (hlocate : Table.locate source opts.marker = .ok tables)
    (hsize : ∀ t ∈ tables, t.IsOversize) :
    ofText opts source = .ok ⟨source, [], tables.map (keepOversize source)⟩ := by
  have hne : ∀ t ∈ tables, t.numbers ≠ [] := by
    intro t ht hnil
    obtain ⟨n, hn, -⟩ := hsize t ht
    rw [hnil] at hn
    cases hn
  obtain ⟨planned, hplan, -⟩ := exists_plan opts source hne
  have hkept : tables.filter (fun t => t.IsOversize) = tables :=
    List.filter_eq_self.2 fun t ht => by simpa using hsize t ht
  have hnone : planned = [] := by
    rw [planned_eq_of_plan hplan, List.filterMap_eq_nil_iff]
    exact fun t ht => packing?_of_isOversize (hsize t ht)
  rw [ofText_of_plan hlocate hplan, hkept, hnone]
  rfl

/-- What is reported of a table that was kept does not depend on where it stands, but for the
lines. -/
lemma map_keepOversize_eq {source' : Text} {tables' : List Table}
    (h : tables'.map Table.content = tables.map Table.content) :
    (tables'.map (keepOversize source')).map (fun k => (k.name, k.reason))
      = (tables.map (keepOversize source)).map fun k => (k.name, k.reason) := by
  have heq : ∀ (text : Text) (ts : List Table),
      (ts.map (keepOversize text)).map (fun k => (k.name, k.reason))
        = (ts.map Table.content).map fun p => (p.1, EncodeError.oversize (Encoding.greatest p.2)
          (byteWidth (Encoding.greatest p.2))) := by
    intro text ts
    rw [List.map_map, List.map_map]
    rfl
  rw [heq, heq, h]

/-- When something is packed, the result is the text with the newline at its end, in which the
tables are packed. -/
lemma source_eq_compacted {planned : List (Table × Encoding)} {kept : List Kept}
    (hlocate : Table.locate source opts.marker = .ok tables)
    (hplan : plan opts source tables = .ok (planned, kept)) :
    Text.spliced source 0 (planned.map (piece opts)) ++ Text.terminator source
      = compacted opts (source ++ Text.terminator source) tables := by
  have hdivides : ∀ t ∈ tables, Text.Divides source t.start ∧ Text.Divides source t.stop := by
    intro t ht
    obtain ⟨hstart, hstop, -⟩ := Table.divides_of_locate hlocate ht
    exact ⟨hstart, hstop⟩
  have hzero : Text.Divides source 0 := ⟨source, [], rfl, rfl⟩
  rw [compacted, planned_eq_of_plan hplan,
    Text.spliced_append _ hzero (divides_of_mem_pieces hdivides)]

/-- Compaction is done with after one pass. In the compacted text, just those tables are found that
were too large, with their names and their numbers and in their order, so that a second compaction
packs nothing and gives the same text. For this, the newline that may be added at the end must not
change the tables, and those that are packed must be plain, with no other table inside. -/
theorem ofText_stable (hclass : opts.classPath = "::Ragel::Bitmap".toList)
    (hc : ofText opts source = .ok c)
    (hend : Table.locate (source ++ Text.terminator source) opts.marker
      = Table.locate source opts.marker)
    (hpackable : ∀ tree, Tree.ofText (source ++ Text.terminator source) = .ok tree →
      ∀ site ∈ Table.sites opts.marker tree,
        Table.Packable (source ++ Text.terminator source) opts.marker site) :
    ∃ tables left kept, Table.locate source opts.marker = .ok tables ∧
      Table.locate c.source opts.marker = .ok left ∧
      left.map Table.content = (tables.filter fun t => t.IsOversize).map Table.content ∧
      ofText opts c.source = .ok ⟨c.source, [], kept⟩ ∧
      kept.map (fun k => (k.name, k.reason)) = c.kept.map fun k => (k.name, k.reason) := by
  obtain ⟨tables, planned, hlocate, hplan, -, hsource⟩ := exists_plan_of_ofText hc
  have hne := numbers_ne_nil_of_ofText hc hlocate
  obtain ⟨left, hleft, hcontent⟩ : ∃ left, Table.locate c.source opts.marker = .ok left ∧
      left.map Table.content = (tables.filter fun t => t.IsOversize).map Table.content := by
    by_cases hnil : planned = []
    · rw [if_pos hnil] at hsource
      rw [planned_eq_of_plan hplan, List.filterMap_eq_nil_iff] at hnil
      refine ⟨tables, by rw [hsource, hlocate], ?_⟩
      rw [List.filter_eq_self.2 fun t ht => ?_]
      simpa using isOversize_of_packing?_eq_none (hne t ht) (hnil t ht)
    · rw [if_neg hnil, source_eq_compacted hlocate hplan] at hsource
      rw [hsource]
      exact Table.exists_left hclass (hend.trans hlocate) hne hpackable
  have hsize : ∀ t ∈ left, t.IsOversize := by
    intro t ht
    have hmem := List.mem_map_of_mem (f := Table.content) ht
    rw [hcontent] at hmem
    obtain ⟨u, hu, heq⟩ := List.mem_map.1 hmem
    have hnumbers : u.numbers = t.numbers := (Prod.mk.inj heq).2
    simpa [Table.IsOversize, hnumbers] using (List.mem_filter.1 hu).2
  refine ⟨tables, left, _, hlocate, hleft, hcontent, ofText_of_isOversize hleft hsize, ?_⟩
  obtain ⟨c', hc', -, hkept⟩ := exists_ofText hlocate hne
  obtain rfl : c = c' := Except.ok.inj (hc.symm.trans hc')
  rw [hkept]
  exact map_keepOversize_eq hcontent

/-- A table that is too large, and on one line the end of a table over two lines and a third table,
with no blank in its header. The text does not end with a newline. -/
theorem ofText_stable_shared_line :
    ∃ source c left kept,
      source = ("x = 4\na._p = [1, 0x1_0000000000000000]\nb._q = [65536, # two\n 2]; c._r=[3]\n"
        ++ "x /2").toList ∧
      ofText {} source = .ok c ∧
      c.source = ("x = 4\na._p = [1, 0x1_0000000000000000]\nb._q = ::Ragel::Bitmap::Array24.new("
        ++ "\"\\x01\\x00\", \"\\x00\\x00\", \"\\x00\\x02\"); "
        ++ "c._r = ::Ragel::Bitmap::Array8.new(\"\\x03\")\nx /2\n").toList ∧
      Table.locate c.source '_' = .ok left ∧
      left.map Table.content = [("_p".toList, [1, 2 ^ 64])] ∧
      ofText {} c.source = .ok ⟨c.source, [], kept⟩ := by
  obtain ⟨source, hsource⟩ : ∃ source, source =
    ("x = 4\na._p = [1, 0x1_0000000000000000]\nb._q = [65536, # two\n 2]; c._r=[3]\n"
      ++ "x /2").toList := ⟨_, rfl⟩
  have hterminator : Text.terminator source = ['\n'] := by
    rw [hsource]
    decide +kernel
  have hlocate : Table.locate source '_'
      = .ok [⟨"_p".toList, ['a'], [1, 2 ^ 64], 6, 38⟩, ⟨"_q".toList, ['b'], [65536, 2], 39, 63⟩,
        ⟨"_r".toList, ['c'], [3], 65, 73⟩] := by
    rw [hsource]
    decide +kernel
  have hend : Table.locate (source ++ Text.terminator source) '_' = Table.locate source '_' := by
    rw [hterminator, hlocate, hsource]
    decide +kernel
  have hc : (ofText {} source).map Compaction.source
      = .ok ("x = 4\na._p = [1, 0x1_0000000000000000]\nb._q = ::Ragel::Bitmap::Array24.new("
        ++ "\"\\x01\\x00\", \"\\x00\\x00\", \"\\x00\\x02\"); "
        ++ "c._r = ::Ragel::Bitmap::Array8.new(\"\\x03\")\nx /2\n").toList := by
    rw [hsource]
    decide +kernel
  obtain ⟨c, hc, hresult⟩ := eq_ok_of_map_eq_ok hc
  have hsites : (Tree.ofText (source ++ Text.terminator source)).map (fun tree =>
      (Table.sites '_' tree).map fun site =>
        (Table.ofStatement? (source ++ Text.terminator source) '_' site,
          Table.inNodes (source ++ Text.terminator source) '_' site))
      = .ok [(some ⟨"_p".toList, ['a'], [1, 2 ^ 64], 6, 38⟩, []),
        (some ⟨"_q".toList, ['b'], [65536, 2], 39, 63⟩, []),
        (some ⟨"_r".toList, ['c'], [3], 65, 73⟩, [])] := by
    rw [hterminator, hsource]
    decide +kernel
  have hpackable : ∀ tree, Tree.ofText (source ++ Text.terminator source) = .ok tree →
      ∀ site ∈ Table.sites '_' tree,
        Table.Packable (source ++ Text.terminator source) '_' site := by
    intro tree htree site hsite
    refine Table.packable_of_found hsites (fun t inner hmem hsize => ?_) htree hsite
    simp only [List.mem_cons, Prod.mk.injEq, Option.some.injEq, List.not_mem_nil, or_false] at hmem
    rw [hterminator, hsource]
    rcases hmem with ⟨rfl, -⟩ | ⟨rfl, hinner⟩ | ⟨rfl, hinner⟩
    · exact absurd (by decide) hsize
    · refine ⟨hinner, "x = 4\na._p = [1, 0x1_0000000000000000]\n".toList, "b._q = ".toList,
        "65536, # two\n 2".toList, "; c._r=[3]\nx /2\n".toList,
        ⟨[], [' '], [' '], rfl, by simp, by simp [Text.isBlank], by simp [Text.isBlank]⟩,
        ?_, ?_, ?_, .inr ?_⟩
      · decide +kernel
      · decide +kernel
      · decide +kernel
      · exact Scanner.settles_of_run (by decide +kernel)
    · refine ⟨hinner,
        "x = 4\na._p = [1, 0x1_0000000000000000]\nb._q = [65536, # two\n 2]; ".toList,
        "c._r=".toList, ['3'], "\nx /2\n".toList,
        ⟨[], [], [], rfl, by simp, by simp, by simp⟩, ?_, ?_, ?_, .inl (by decide)⟩
      · decide +kernel
      · decide +kernel
      · decide +kernel
  obtain ⟨tables, left, kept, htables, hleft, hcontent, hagain, -⟩ :=
    ofText_stable rfl hc hend hpackable
  refine ⟨source, c, left, kept, hsource, hc, hresult, hleft, ?_, hagain⟩
  obtain rfl := Except.ok.inj (htables.symm.trans hlocate)
  rw [hcontent]
  rfl

/-- Two texts that are not done with after one pass. In the first one the array takes the body of a
heredoc along, so that the heredoc does not end any more. In the second one, the table that was
inside of another one is found now. -/
theorem ofText_not_stable :
    (ofText {} "f(<<A)._x = [1,\nA\n2]\n".toList).map Compaction.source
      = .ok "f(<<A)._x = ::Ragel::Bitmap::Array8.new(\"\\x01\\x02\")\n".toList ∧
    ofText {} "f(<<A)._x = ::Ragel::Bitmap::Array8.new(\"\\x01\\x02\")\n".toList
      = .error (.invalidSource ⟨1, 2⟩ .unterminatedHeredoc) ∧
    (ofText {} "f(self._a = [1])._b = [2]\n".toList).map Compaction.source
      = .ok "f(self._a = [1])._b = ::Ragel::Bitmap::Array8.new(\"\\x02\")\n".toList ∧
    (ofText {} "f(self._a = [1])._b = ::Ragel::Bitmap::Array8.new(\"\\x02\")\n".toList).map
        (fun c => c.packed.map Entry.name)
      = .ok ["_a".toList] := by
  decide +kernel

end Compaction

end TablePack
