/-
Components put into a document that was written.

In a document that was written the first data line is that of the written section
(`Receptive.foundTail?_write`), if neither a fence in the body nor the closing
fence of the front matter stands in front of a marker (`Receptive`).  So a tag put
into the text is a block put behind the others: the document is read back as it
was written, but that the last block, if it is a paragraph, now ends in a line
feed (`read_insertText_write`).
-/
import Formdoc.Proofs.Body.Settled
import Formdoc.Proofs.Document.Insertion
import Formdoc.Proofs.Document.RoundTrip

namespace Formdoc

open Text Regions

/-! ### Bodies with a component behind them -/

namespace Body

theorem shape_lineFeeds (n : Nat) (x : Text) : shape (List.replicate n '\n' ++ x) = shape x := by
  induction n with
  | zero => rfl
  | succ n ih => rw [List.replicate_succ, List.cons_append, shape_lineFeed, ih]

/-- A component behind a body and an empty line is read as one more block. -/
theorem shape_trim_write_append {bs : List Block} (h : ∀ b ∈ bs, ∃ last, b.Sound last)
    (ht : trim (write bs) = write bs) {c : Component} (hc : c.Legible) (n : Nat) :
    shape (trim (write bs ++ List.replicate n '\n' ++ ['\n', '\n'] ++ c.write)) =
      (bs.map fun b => b.ended.requoted).map Block.unplaced ++
        [.component c.requoted.unplaced] := by
  have hx := Document.bracketed_write hc
  have hcomp : shape c.write = [.component c.requoted.unplaced] := by
    rw [← List.append_nil c.write, shape_write_append hc, shape_nil]
  have hfeeds : List.replicate n '\n' ++ ['\n', '\n'] = List.replicate (n + 2) '\n' :=
    List.replicate_append_replicate (m := 2)
  rw [List.append_assoc (write bs), hfeeds]
  cases bs with
  | nil =>
    have hblank : ∀ d ∈ List.replicate (n + 2) '\n', isBlank d = true := fun d hd => by
      rw [List.eq_of_mem_replicate hd]
      decide
    rw [write_nil, List.nil_append, trim_blank_append _ hblank, hx.trim_eq, hcomp]
    rfl
  | cons b bs =>
    have hne : write (b :: bs) ≠ [] := fun hnil => by
      cases (write_eq_nil_iff h).1 hnil
    have htrim : trim (write (b :: bs) ++ List.replicate (n + 2) '\n' ++ c.write) =
        write (b :: bs) ++ List.replicate (n + 2) '\n' ++ c.write := by
      refine trim_eq_self_iff.2 ⟨fun d hd => ?_, fun d hd => ?_⟩
      · rw [List.append_assoc, List.head?_append_of_ne_nil _ hne] at hd
        exact (trim_eq_self_iff.1 ht).1 d hd
      · rw [List.getLast?_append, hx.last] at hd
        obtain rfl : ']' = d := Option.some_inj.1 hd
        decide
    rw [htrim, List.append_assoc, List.replicate_succ, List.cons_append,
      shape_ended_write_append h (.inr rfl), shape_lineFeeds, hcomp]

/-- In a canonical body only the last block may be a paragraph without a line feed at its end. -/
theorem Canonical.map_ended {bs : List Block} (h : Canonical bs) :
    (bs.map fun b => b.ended.requoted) = bs.modifyLast Block.ended := by
  have hrequoted {last : Bool} {b : Block} (hb : b.Canonical last) :
      b.ended.requoted = b.ended := by
    cases b with
    | heading level children p => rfl
    | paragraph children p => rfl
    | component c => exact requoted_of_canonical hb
  induction bs with
  | nil => rfl
  | cons b bs ih =>
    cases bs with
    | nil => exact congrArg (· :: []) (hrequoted h)
    | cons c cs =>
      rw [List.map_cons, hrequoted h.1, h.1.sound.ended_eq, ih h.2]
      exact (List.modifyLast_append_of_right_ne_nil Block.ended [b] (c :: cs) (by simp)).symm

end Body

/-! ### Where data lines stand in a document that was written -/

namespace Document

/-- No data line stands in written metadata on single lines, if no marker follows it. The line feed
that ends it may stand in front of one. -/
theorem foundTail?_write_append {m : Metadata} (h : m.entries ≠ []) (hk : m.Keyed) (hv : m.OneLine)
    {x : Text} (hx : ¬ Data.marker <+: x) :
    foundTail? (m.write ++ x) = foundTail? ('\n' :: x) := by
  have hcons (c : Char) (s : Text) (hc : isBreak c = false) : lineTail? (c :: s) = none :=
    lineTail?_eq_none (sectionStart?_cons c s hc)
  have hbreak {c d : Char} {s : Text} (hs : s.head? = some d) (hd : isBreak d = false)
      (hne : d ≠ '-') : lineTail? (c :: s) = none :=
    lineTail?_eq_none (sectionStart?_break_cons hs hd hne)
  have hfence (s : Text) : firstCut lineTail? (fence ++ s) =
      (firstCut lineTail? s).map fun p => (fence ++ p.1, p.2) :=
    firstCut_append_of_forall (p := fun c => isBreak c = false) hcons (by decide) s
  have hopening : lineTail? ('\n' :: (m.written ++ x)) = none := by
    obtain ⟨c, hc, hword⟩ := Metadata.head?_written h hk
    obtain ⟨r, hr⟩ := List.head?_eq_some_iff.1 hc
    have hsolid := isBreak_of_isBlank_false (isBlank_of_isWordChar hword)
    refine hbreak (d := c) (by rw [hr]; rfl) hsolid ?_
    rintro rfl
    exact absurd hword (by decide)
  have hclosing : lineTail? ('\n' :: (fence ++ '\n' :: x)) = none := by
    by_contra hne
    obtain ⟨t, ht⟩ := Option.ne_none_iff_exists'.1 hne
    obtain ⟨e, rfl | rfl, hs⟩ := lineTail?_eq_some_iff.1 ht
    · refine hx ⟨t, ?_⟩
      simpa using hs.symm
    · simp at hs
  have hls := Metadata.unfenced_of_mem_lines hk hv
  have hform : m.written ++ x = ['\n'].intercalate (m.entries.map Metadata.line) ++
      '\n' :: (fence ++ '\n' :: x) := by
    rw [Metadata.written_eq_intercalate h]
    simp
  rw [foundTail?, Metadata.write_eq h, List.append_assoc, hfence, List.cons_append,
    firstCut_cons_of_none hopening, hform, firstCut_lines hcons hbreak hls,
    firstCut_cons_of_none hclosing, hfence]
  simp only [Option.map_map]
  rfl

/-- The body of a document that is written, with line feeds behind it, stands in front of the text
of the section, if there is one. -/
theorem exists_behind_eq (d : Document) :
    ∃ w y, behind d = Body.write d.body ++ (w ++ y) ∧ (∀ c ∈ w, c = '\n') ∧
      ∀ c, y.head? = some c → isBlank c = false := by
  by_cases hd : d.data.entries = []
  · rw [behind_of_empty hd]
    split
    · rename_i hb
      exact ⟨[], [], by rw [hb]; rfl, by simp, by simp⟩
    · exact ⟨['\n'], [], rfl, by simp, by simp⟩
  · have hhead : ∀ c, (Data.sectionOf (d.data.entries.map Data.line)).head? = some c →
        isBlank c = false := by
      intro c hc
      obtain rfl : '-' = c := Option.some_inj.1 hc
      decide
    rw [behind_of_data hd, laidOut]
    split
    · rename_i hb
      exact ⟨[], _, by rw [hb]; rfl, by simp, hhead⟩
    · exact ⟨['\n', '\n'], _, List.append_assoc .., by simp, hhead⟩

namespace Canonical

variable {d : Document} (h : d.Canonical)

include h

theorem keyed : d.metadata.Keyed := fun e he => (h.metadata e he).1

theorem oneLine : d.metadata.OneLine := fun e he =>
  Metadata.oneLine_of_readable (h.metadata e he).2

theorem linear : d.data.Linear := fun e he => ⟨(h.data e he).1, (h.data e he).2.isScalar⟩

theorem isBlank_head : ∀ c, (Body.write d.body).head? = some c → isBlank c = false :=
  (trim_eq_self_iff.1 h.trimmed).1

theorem frontMatter?_write :
    frontMatter? (write d) = some ⟨fence ++ ['\n'], d.metadata.block, behind d⟩ := by
  rw [Document.frontMatter?_write h.metadata_ne h.keyed h.isBlank_head,
    Metadata.spill_of_oneLine h.metadata_ne h.keyed h.oneLine, List.nil_append]

/-- The regions of a canonical document are its parts. -/
theorem regions_read_write :
    Regions.read (write d) = ⟨d.metadata, Body.write d.body, d.data, []⟩ := by
  rw [read_write_of_closed h.metadata_ne h.keyed h.isBlank_head h.oneLine.unbroken
    (Metadata.spill_of_oneLine h.metadata_ne h.keyed h.oneLine) h.linear h.not_within h.not_front,
    Metadata.map_reread fun e he => (h.metadata e he).2, OrderedMap.ofList_entries, h.trimmed,
    Data.map_reread fun e he => (h.data e he).2, OrderedMap.ofList_entries]

/-- A text in front of the data section that is the body but for blanks around it is the body, with
line feeds behind it. -/
theorem exists_eq_append_lineFeeds {s : Text} (hs : s <+: behind d)
    (ht : trim s = Body.write d.body) : ∃ n, s = Body.write d.body ++ List.replicate n '\n' := by
  obtain ⟨a, b, ha, hblank, hsplit⟩ := exists_eq_append_trim s
  obtain ⟨w, y, hbehind, hw, hy⟩ := exists_behind_eq d
  obtain ⟨r, hr⟩ := hs
  rw [ht] at hsplit
  obtain rfl : a = [] := by
    cases a with
    | nil => rfl
    | cons c a =>
      have hhead := isBlank_head_behind h.isBlank_head c (by rw [← hr, hsplit]; rfl)
      rw [ha c List.mem_cons_self] at hhead
      cases hhead
  rw [List.nil_append] at hsplit
  -- The blanks at the end are some of the line feeds behind the body.
  have hbw : b <+: w := by
    rw [hbehind, hsplit, List.append_assoc] at hr
    have hfeeds : ∀ c ∈ w, isBlank c = true := fun c hc => by
      rw [hw c hc]
      decide
    have htake := congrArg (List.takeWhile isBlank) (List.append_cancel_left hr)
    rw [(span_append hfeeds hy).1, List.takeWhile_append_of_pos hblank] at htake
    exact ⟨_, htake⟩
  refine ⟨b.length, ?_⟩
  rw [hsplit, ← List.eq_replicate_of_mem fun c hc => hw c (hbw.subset hc)]

end Canonical

/-- A document in which a component can be put at the end of its body: canonical, and the front of
the body is not taken for a data section, nor for one whose fence is that of the front matter. -/
structure Receptive (d : Document) : Prop extends Canonical d where
  not_opening : ¬ OpensAtFront (Body.write d.body)
  not_marker : ¬ Data.marker <+: Body.write d.body

namespace Receptive

variable {d : Document} (h : d.Receptive)

include h

theorem not_marker_behind : ¬ Data.marker <+: behind d := by
  have hfeed (s : Text) : ¬ Data.marker <+: Body.write d.body ++ '\n' :: s := by
    rw [prefix_append_cons_iff (by decide)]
    exact h.not_marker
  by_cases hd : d.data.entries = []
  · rw [behind_of_empty hd]
    split
    · decide
    · exact hfeed []
  · rw [behind_of_data hd, laidOut]
    split
    · rintro ⟨t, ht⟩
      cases ht
    · rw [List.append_assoc]
      exact hfeed _

theorem not_opensWithin_append {w : Text} (hw : ∀ c ∈ w, isBreak c = true) :
    ¬ OpensWithin ('\n' :: (Body.write d.body ++ w)) := by
  rw [← List.cons_append]
  exact fun ho => (ho.of_append hw).of_cons.elim h.not_opening h.not_within

/-- The data line that is found is that of the written section, and without data there is none. -/
theorem foundTail?_write : foundTail? (write d) = sectionTail? (write d) := by
  rw [sectionTail?_eq h.frontMatter?_write, write_eq_behind,
    foundTail?_write_append h.metadata_ne h.keyed h.oneLine h.not_marker_behind]
  by_cases hd : d.data.entries = []
  · obtain ⟨w, hbehind, hw⟩ := exists_behind_of_empty hd
    have hnone : dataStart? (Body.write d.body ++ w) = none :=
      dataStart?_eq_none_iff.2 ⟨fun ho => h.not_within (ho.of_append hw),
        fun ho => h.not_opening (ho.of_append hw)⟩
    rw [hbehind, hnone]
    exact foundTail?_eq_none (firstCut_eq_none_of_not_opensWithin (h.not_opensWithin_append hw))
  · have hls := Data.unfenced_of_mem_lines h.linear.keyed
    have hne : d.data.entries.map Data.line ≠ [] := by simpa using hd
    obtain ⟨w, hlaid, hw⟩ := exists_laidOut (Body.write d.body)
    have hnone : firstCut sectionStart? ('\n' :: laidOut (Body.write d.body)) = none := by
      rw [hlaid]
      exact firstCut_eq_none_of_not_opensWithin (h.not_opensWithin_append hw)
    obtain ⟨p, hp⟩ : ∃ p, '\n' :: laidOut (Body.write d.body) = p ++ ['\n'] :=
      List.getLast?_eq_some_iff.1
        ((getLast?_append_laidOut (s := ['\n']) (.inr rfl) _).resolve_left (by simp))
    have hcut := firstCut_append_sectionOf hnone (by rw [hp, List.getLast?_concat])
      (d.data.entries.map Data.line)
    rw [behind_of_data hd, dataStart?_of_none (firstCut_laidOut h.not_within)
      (getLast?_laidOut _) hls hne, ← List.cons_append]
    rw [hp, List.append_assoc] at hcut ⊢
    refine foundTail?_of_firstCut ?_ hcut
    exact lineTail?_eq_some_iff.2 ⟨['\n'], .inl rfl, by simp [Data.sectionOf]⟩

/-- The regions of a document that was written, with a component put into it: the tag stands behind
the body, with line feeds and an empty line between them. -/
theorem exists_regions_insertText {c : Component} (hc : c.Legible) :
    ∃ n, trim (Body.write d.body ++ List.replicate n '\n') = Body.write d.body ∧
      Regions.read (insertText (write d) c.write) = ⟨d.metadata,
        trim (Body.write d.body ++ List.replicate n '\n' ++ ['\n', '\n'] ++ c.write), d.data,
        []⟩ := by
  have hsolid : ∃ b ∈ d.metadata.block, isBlank b = false :=
    Metadata.exists_solid_of_read (Metadata.read_block_ne_nil h.metadata_ne h.keyed 2)
  obtain ⟨s, ds, hs, ht, hds, hread⟩ := regions_insertText h.frontMatter?_write hsolid
    (bracketed_write hc) h.foundTail?_write
  rw [h.regions_read_write] at ht hds hread
  obtain rfl := hds rfl
  obtain ⟨n, rfl⟩ := h.exists_eq_append_lineFeeds hs ht
  exact ⟨n, ht, hread⟩

end Receptive

theorem receptive_letter : letter.Receptive :=
  { canonical_letter with
    not_opening := by decide +kernel
    not_marker := by decide +kernel }

/-- A component put into a document that was written is one more block behind the others: nothing
is said about the document, its metadata and data are read back, and so is its body, but that the
last block, if it is a paragraph, ends in a line feed. -/
theorem read_insertText_write {d : Document} (h : d.Receptive) {c : Component} (hc : c.Legible)
    (hq : c.Unquoted) :
    (read (insertText (write d) c.write)).diagnostics = [] ∧
      (read (insertText (write d) c.write)).document.metadata = d.metadata ∧
      (read (insertText (write d) c.write)).document.data = d.data ∧
      (read (insertText (write d) c.write)).document.body.map Block.unplaced =
        (d.body.modifyLast Block.ended ++ [Block.component c]).map Block.unplaced := by
  obtain ⟨n, ht, hread⟩ := h.exists_regions_insertText hc
  rw [diagnostics_read, metadata_read, data_read, body_read, hread]
  refine ⟨?_, rfl, rfl, ?_⟩
  · refine errors_trim_append_write ?_ ?_ hc
    · rw [ht]
      exact Body.terminated_write h.body.tidy
    · rw [ht]
      exact Body.errors_write h.body
  · rw [List.map_append, ← h.body.map_ended]
    have hshape := Body.shape_trim_write_append h.body.sound h.trimmed hc n
    rwa [hc.requoted_eq_self_iff.2 hq] at hshape

theorem read_letter_with_ageField : letter.Receptive ∧ ageField.Legible ∧ ageField.Unquoted ∧
    (read (insertText (write letter) ageField.write)).diagnostics = [] ∧
      (read (insertText (write letter) ageField.write)).document.metadata = letter.metadata ∧
      (read (insertText (write letter) ageField.write)).document.data = letter.data ∧
      (read (insertText (write letter) ageField.write)).document.body.map Block.unplaced =
        (letter.body.modifyLast Block.ended ++ [Block.component ageField]).map Block.unplaced :=
  have ⟨hc, hq⟩ := legible_ageField
  ⟨receptive_letter, hc, hq, read_insertText_write receptive_letter hc hq⟩

-- The conditions on the front of the body are needed: a body that starts with the marker makes the
-- closing fence of the front matter a data line, and a body that starts as a section does is one.
example : components (insertText (write (note ["data:"])) ageField.write) = [] := by
  decide +kernel

example : (read (insertText (write { note ["---\n", "data:"] with data := letter.data })
    ageField.write)).document.body.map Block.unplaced = [.component ageField] := by
  decide +kernel

end Document

end Formdoc
