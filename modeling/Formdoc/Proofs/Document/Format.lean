/-
Formatting a document twice.

Formatting reads a document and writes it again.  If nothing of the body is taken
for front matter or for a data section (`Enclosed`), then what was formatted is
formatted as the same text exactly if the document is `Settled`
(`format?_format?_iff`).

Behind the metadata it is lengths that show this.  What a round trip changes in
the body (`Body.rewritten`) and in the data makes the text longer, so that
nothing has changed if the text is the same (`eq_of_behind_eq`).  In the metadata
a change may make the text shorter, but there the text of a document and of what
is read from it can be compared line by line (`of_write_eq`).

Not all documents are settled: a quotation mark in a property gets a pair of its
own each time (`not_forall_format?_format?`).
-/
import Formdoc.Document.Edit
import Formdoc.Proofs.Body.Settled
import Formdoc.Proofs.Document.Kept

namespace Formdoc

open Text

namespace Metadata

/-- Metadata that was read again is written as it was exactly if each value is written as the same
text. -/
theorem written_map_reread_iff {m p : Metadata} (h : m.entries ≠ []) (hk : Keyed m)
    (hu : Unbroken m) (hkp : Keyed p) (hup : Unbroken p)
    (hp : p.entries = m.entries.map reread) :
    written p = written m ↔
      ∀ e ∈ m.entries, valueText (Scalar.read (' ' :: valueText e.2)) = valueText e.2 := by
  have hne : p.entries ≠ [] := by simpa [hp] using h
  have hline (e : Text × Scalar) : line (reread e) = line e ↔
      valueText (Scalar.read (' ' :: valueText e.2)) = valueText e.2 := by
    simp [line, reread]
  have hmap : (m.entries.map reread).map line = m.entries.map line ↔
      ∀ e ∈ m.entries, valueText (Scalar.read (' ' :: valueText e.2)) = valueText e.2 := by
    rw [List.map_map, List.map_inj_left]
    exact forall₂_congr fun e _ => hline e
  rw [← hmap, ← hp]
  constructor
  · intro heq
    have hlines := congrArg lines heq
    rw [lines_written hne hkp hup, lines_written h hk hu] at hlines
    exact List.append_cancel_right hlines
  · intro heq
    rw [written, heq, written]

end Metadata

/-- A value of metadata is read from the end of a line. -/
theorem Regions.of_mem_metadata {source : Text} {e : Text × Scalar}
    (h : e ∈ (read source).metadata.entries) : ∃ raw, e.2 = Scalar.read raw := by
  cases hf : frontMatter? source with
  | none =>
    rw [read_of_none hf] at h
    cases h
  | some front =>
    rw [(read_of_some hf).1] at h
    obtain ⟨l, -, hl⟩ := Metadata.exists_line_of_mem_read h
    obtain ⟨-, raw, -, hraw⟩ := Metadata.entry?_eq_some hl
    exact ⟨raw, hraw⟩

namespace Data

theorem length_sectionOf (ls : List Text) :
    (sectionOf ls).length = (ls.map fun l => l.length + 1).sum + 14 := by
  simp [sectionOf, ofLines, fence, marker, List.length_flatMap]

theorem map_reread_eq_iff {es : List (Text × Json)} :
    es.map reread = es ↔ ∀ e ∈ es, e.2.Lasting := by
  conv_lhs => rhs; rw [← List.map_id es]
  rw [List.map_inj_left]
  refine forall₂_congr fun e _ => ?_
  rw [← Field.read_write_eq_iff]
  exact Prod.ext_iff.trans (and_iff_right rfl)

/-- Data that was read again stays as it was if its section is no longer. -/
theorem map_reread_of_length_le {d : Data} (hd : ∀ e ∈ d.entries, ∃ raw, e.2 = Field.read raw)
    (hle : (sectionOf ((d.entries.map reread).map line)).length ≤
      (sectionOf (d.entries.map line)).length) : d.entries.map reread = d.entries := by
  have hsum (es : List (Text × Json)) : ((es.map line).map fun l => l.length + 1).sum =
      (es.map fun e => (line e).length + 1).sum := by
    rw [List.map_map]
    rfl
  rw [length_sectionOf, length_sectionOf, hsum, hsum] at hle
  refine eq_of_sum_le (w := fun e => (line e).length + 1) ?_ (Nat.le_of_add_le_add_right hle)
  refine List.forall₂_map_right_iff.2 (List.forall₂_same.2 fun e he => ?_)
  obtain ⟨raw, hraw⟩ := hd e he
  rcases Field.lasting_or_length_lt raw with h | h
  · left
    rw [← hraw] at h
    exact Prod.ext rfl (Field.read_write_eq_iff.2 h)
  · right
    rw [← hraw] at h
    simp only [line, reread, List.cons_append, List.length_cons, List.length_append]
    omega

end Data

namespace Document

theorem format?_eq_ok_iff {source text : Text} :
    format? source = .ok text ↔
      (read source).errors = [] ∧ text = write (read source).document := by
  unfold format? Reading.result
  cases h : (read source).errors with
  | nil => simp [eq_comm]
  | cons d ds => simp

/-- Documents whose bodies are written alike, with the same data, are written alike behind the
metadata. -/
theorem behind_congr {d e : Document} (hbody : Body.write d.body = Body.write e.body)
    (hdata : d.data.entries = e.data.entries) : behind d = behind e := by
  have heq : d.data = e.data := OrderedMap.ext hdata
  rw [behind, behind, hbody, heq]

theorem length_laidOut_lt {s t : Text} (h : s.length < t.length) :
    (laidOut s).length < (laidOut t).length := by
  have ht : t ≠ [] := by
    rintro rfl
    exact Nat.not_lt_zero _ h
  rw [laidOut, laidOut, if_neg ht]
  split
  · simp
  · simpa using h

/-- What stands behind the metadata stays the same only if neither the data nor the blocks of the
body have changed. -/
theorem eq_of_behind_eq {d e : Document} (hgrows : List.Forall₂ Block.Grows d.body e.body)
    (hd : ∀ p ∈ d.data.entries, ∃ raw, p.2 = Field.read raw)
    (he : e.data.entries = d.data.entries.map Data.reread) (h : behind e = behind d) :
    e.body = d.body ∧ e.data.entries = d.data.entries := by
  have hlen := congrArg List.length h
  by_cases hdata : d.data.entries = []
  · have hdata' : e.data.entries = [] := by rw [he, hdata, List.map_nil]
    refine ⟨Body.eq_of_length_write_le hgrows ?_, by rw [hdata', hdata]⟩
    rw [behind_of_empty hdata, behind_of_empty hdata'] at hlen
    split at hlen
    · rename_i hnil
      rw [hnil]
      exact Nat.zero_le _
    · split at hlen
      · simp at hlen
      · simpa using hlen.le
  · have hdata' : e.data.entries ≠ [] := by simpa [he] using hdata
    rw [behind_of_data hdata, behind_of_data hdata', List.length_append, List.length_append,
      he] at hlen
    -- The body and the data section would both be longer, if anything.
    have hbody : (Body.write e.body).length ≤ (Body.write d.body).length := by
      by_contra hlt
      have hlaid := length_laidOut_lt (Nat.lt_of_not_le hlt)
      have hsame := Data.map_reread_of_length_le hd (by omega)
      rw [hsame] at hlen
      omega
    have hsame := Body.eq_of_length_write_le hgrows hbody
    rw [hsame] at hlen
    exact ⟨hsame, he.trans (Data.map_reread_of_length_le hd (by omega))⟩

/-! ### Documents with metadata -/

/-- The body is written so that nothing of it is taken for front matter, or for the opening of a
data section behind front matter. -/
structure Enclosed (d : Document) : Prop where
  not_fence : d.metadata.entries = [] → ¬ fence <+: Body.write d.body
  not_within : d.metadata.entries ≠ [] → ¬ Regions.OpensWithin (Body.write d.body)
  not_front : d.metadata.entries ≠ [] → d.data.entries = [] →
    ¬ Regions.OpensAtFront (Body.write d.body)

/-- A document that is formatted as the same text again. Its data stands behind metadata, and its
paragraphs end in line feeds, but for the last block behind metadata. -/
structure Settled (d : Document) : Prop where
  spill : d.metadata.spill = []
  metadata : ∀ e ∈ d.metadata.entries, e.2.Settled
  data : ∀ e ∈ d.data.entries, d.metadata.entries ≠ [] ∧ e.2.Lasting
  unquoted : ∀ c ∈ componentsOf d.body, c.Unquoted
  ended : ∀ b ∈ (if d.metadata.entries = [] then d.body else d.body.dropLast), b.ended = b

/-! ### Documents with metadata -/

/-- Two documents are written alike, and the one has the metadata that is read from the block of the
other: then that one does not spill, and both are written alike in the metadata and behind it. -/
theorem of_write_eq {d e : Document} (hm : d.metadata.entries ≠ []) (hk : d.metadata.Keyed)
    (hu : d.metadata.Unbroken) (hb : ∀ c, (Body.write d.body).head? = some c → isBlank c = false)
    (hbe : ∀ c, (Body.write e.body).head? = some c → isBlank c = false)
    (hread : (Metadata.read d.metadata.block 2).1 = e.metadata) (h : write e = write d) :
    d.metadata.spill = [] ∧ e.metadata.written = d.metadata.written ∧ behind e = behind d := by
  have hme : e.metadata.entries ≠ [] := hread ▸ Metadata.read_block_ne_nil hm hk 2
  have hke : e.metadata.Keyed := hread ▸ Metadata.keyed_read _ _
  have hue : e.metadata.Unbroken := hread ▸ Metadata.unbroken_read _ _
  have hfront := frontMatter?_write hme hke hbe
  rw [h, frontMatter?_write hm hk hb, Option.some_inj, FrontMatter.mk.injEq] at hfront
  obtain ⟨-, hblock, hrest⟩ := hfront
  rw [write_eq_behind, write_eq_behind, Metadata.write_eq hm, Metadata.write_eq hme] at h
  have hwritten : e.metadata.written ++ behind e = d.metadata.written ++ behind d := by
    simpa using h
  rw [hblock] at hread
  have hspill := Metadata.spill_eq_nil_of_written_append_eq hm hk hu hme hke hread hblock.symm
    hwritten
  rw [hspill, Metadata.spill_eq_nil_of_read_block hme hke hue hread, List.nil_append,
    List.nil_append] at hrest
  rw [hrest] at hwritten
  exact ⟨hspill, List.append_cancel_right hwritten, hrest.symm⟩

/-- The document that is read from a written one, if that does not spill and its body opens no data
section, but for the places in the body. -/
def again (d : Document) : Document where
  metadata := .ofList (d.metadata.entries.map Metadata.reread)
  body := Body.rewritten d.body
  data := .ofList (d.data.entries.map Data.reread)

theorem entries_metadata_again (d : Document) :
    (again d).metadata.entries = d.metadata.entries.map Metadata.reread := by
  refine OrderedMap.entries_ofList ?_
  rw [List.map_map]
  exact d.metadata.nodup_keys

theorem entries_data_again (d : Document) :
    (again d).data.entries = d.data.entries.map Data.reread := by
  refine OrderedMap.entries_ofList ?_
  rw [List.map_map]
  exact d.data.nodup_keys

/-- A value of metadata that was read is written as the same text again exactly if it is settled. -/
theorem valueText_eq_iff_of_mem {source : Text} {e : Text × Scalar}
    (he : e ∈ (Regions.read source).metadata.entries) :
    Metadata.valueText (Scalar.read (' ' :: Metadata.valueText e.2)) = Metadata.valueText e.2 ↔
      e.2.Settled := by
  obtain ⟨raw, hraw⟩ := Regions.of_mem_metadata he
  rw [hraw]
  exact Metadata.valueText_read_eq_iff raw

section Read

variable {source : Text} (hm : (read source).document.metadata.entries ≠ [])
  (herr : (read source).errors = [])

include hm herr

omit herr in
/-- Metadata without a spill is written again as it was exactly if its values are settled. -/
theorem written_again_iff (hs : (read source).document.metadata.spill = []) :
    (again (read source).document).metadata.written = (read source).document.metadata.written ↔
      ∀ e ∈ (read source).document.metadata.entries, e.2.Settled := by
  have hread : (Metadata.read (read source).document.metadata.block 2).1 =
      (again (read source).document).metadata := congrArg Prod.fst
    (Metadata.read_block hm (Regions.keyed_read source) (Regions.unbroken_read source) hs 2)
  have hkey : (again (read source).document).metadata.Keyed := hread ▸ Metadata.keyed_read _ _
  have hunb : (again (read source).document).metadata.Unbroken :=
    hread ▸ Metadata.unbroken_read _ _
  rw [Metadata.written_map_reread_iff hm (Regions.keyed_read source)
    (Regions.unbroken_read source) hkey hunb (entries_metadata_again _)]
  exact forall₂_congr fun e he => valueText_eq_iff_of_mem he

/-- What was written without a spill and without an opening in the body is read again without an
error, and as `again` says. -/
theorem read_write_read (hs : (read source).document.metadata.spill = [])
    (hw : ¬ Regions.OpensWithin (Body.write (read source).document.body))
    (hf : (read source).document.data.entries = [] →
      ¬ Regions.OpensAtFront (Body.write (read source).document.body)) :
    (read (write (read source).document)).errors = [] ∧
      (read (write (read source).document)).document.metadata =
        (again (read source).document).metadata ∧
      (read (write (read source).document)).document.data = (again (read source).document).data ∧
      Body.write (read (write (read source).document)).document.body =
        Body.write (again (read source).document).body := by
  rw [errors_read] at herr
  have hsound : ∀ b ∈ (read source).document.body, ∃ last, b.Sound last := fun _ =>
    Body.sound_of_mem_read
  have htrim : trim (Body.write (read source).document.body) =
      Body.write (read source).document.body :=
    Body.trim_write_read (Regions.trim_body hm) herr
  have hregions := read_write_of_closed (d := (read source).document) hm
    (Regions.keyed_read source) (isBlank_head_write_read hm herr) (Regions.unbroken_read source) hs
    (Regions.linear_read source) hw hf
  rw [htrim] at hregions
  rw [errors_read, metadata_read, data_read, body_read, hregions]
  refine ⟨Body.errors_write_of_tidy (Body.tidy_of_sound hsound), rfl, rfl, ?_⟩
  exact Body.write_eq_of_unplaced (Body.shape_write_of_sound hsound)

/-- With metadata, and if its body opens no data section, a document that was formatted is formatted
as the same text exactly if it is settled. -/
theorem format?_write_eq_iff (hw : ¬ Regions.OpensWithin (Body.write (read source).document.body))
    (hf : (read source).document.data.entries = [] →
      ¬ Regions.OpensAtFront (Body.write (read source).document.body)) :
    format? (write (read source).document) = .ok (write (read source).document) ↔
      Settled (read source).document := by
  have hsound : ∀ b ∈ (read source).document.body, ∃ last, b.Sound last := fun _ =>
    Body.sound_of_mem_read
  have hvalues : ∀ e ∈ (read source).document.data.entries, ∃ raw, e.2 = Field.read raw :=
    fun e he => (Regions.of_mem_data he).2
  have hgrows := Body.forall₂_grows_rewritten hsound
  have hbody := Body.rewritten_eq_self_iff hsound
  constructor
  · intro h
    obtain ⟨herr', hwrite⟩ := format?_eq_ok_iff.1 h
    have hread := metadata_read_write (d := (read source).document) hm (Regions.keyed_read source)
      (isBlank_head_write_read hm (errors_read source ▸ herr))
    have hne : (Regions.read (write (read source).document)).metadata.entries ≠ [] := by
      rw [hread]
      exact Metadata.read_block_ne_nil hm (Regions.keyed_read source) 2
    obtain ⟨hs, hwritten, hbehind⟩ := of_write_eq hm (Regions.keyed_read source)
      (Regions.unbroken_read source) (isBlank_head_write_read hm (errors_read source ▸ herr))
      (isBlank_head_write_read hne (errors_read (write _) ▸ herr')) hread.symm hwrite.symm
    obtain ⟨-, hmeta, hdata, htext⟩ := read_write_read hm herr hs hw hf
    rw [hmeta, written_again_iff hm hs] at hwritten
    rw [behind_congr htext (congrArg OrderedMap.entries hdata)] at hbehind
    obtain ⟨hsame, hentries⟩ := eq_of_behind_eq hgrows hvalues (entries_data_again _) hbehind
    obtain ⟨hunquoted, hended⟩ := hbody.1 hsame
    rw [entries_data_again] at hentries
    have hlasting := Data.map_reread_eq_iff.1 hentries
    exact ⟨hs, hwritten, fun e he => ⟨hm, hlasting e he⟩, hunquoted, by rwa [if_neg hm]⟩
  · intro h
    obtain ⟨hnone, hmeta, hdata, htext⟩ := read_write_read hm herr h.spill hw hf
    have hmeta' : (again (read source).document).metadata.entries ≠ [] := by
      rw [entries_metadata_again]
      simpa using hm
    have hbehind : behind (again (read source).document) = behind (read source).document := by
      have hended := h.ended
      rw [if_neg hm] at hended
      refine behind_congr (congrArg Body.write (hbody.2 ⟨h.unquoted, hended⟩)) ?_
      rw [entries_data_again, Data.map_reread_eq_iff.2 fun e he => (h.data e he).2]
    refine format?_eq_ok_iff.2 ⟨hnone, ?_⟩
    rw [write_eq_behind (read (write _)).document, hmeta, behind_congr htext (congrArg _ hdata),
      hbehind, write_eq_behind, Metadata.write_eq hm, Metadata.write_eq hmeta',
      (written_again_iff hm h.spill).2 h.metadata]

end Read

/-! ### Documents without metadata -/

/-- A text that does not start with a fence is a body and nothing else. -/
theorem read_of_not_fence {s : Text} (h : ¬ fence <+: s) :
    read s = ⟨⟨.empty, (Body.read s).1, .empty⟩, (Body.read s).2⟩ := by
  have hnone : Regions.frontMatter? s = none := by
    rw [Regions.frontMatter?, after?_eq_none_iff.2 h]
    rfl
  unfold read
  rw [Regions.read_of_none hnone]
  rfl

theorem write_of_body (bs : List Block) :
    write ⟨.empty, bs, .empty⟩ = if Body.write bs = [] then [] else Body.write bs ++ ['\n'] := by
  rw [write_of_no_metadata rfl, behind_of_empty rfl]

section Body

variable {d : Document} (hm : d.metadata.entries = [])
  (hsound : ∀ b ∈ d.body, ∃ last, b.Sound last) (hf : ¬ fence <+: Body.write d.body)

include hm hsound

/-- A body alone is written without an error. -/
theorem errors_write_of_body (hd : d.data.entries = []) : (Body.read (write d)).2 = [] := by
  rw [write_of_no_metadata hm, behind_of_empty hd]
  split
  · exact Body.errors_write_of_tidy (List.forall_mem_nil _)
  · exact Body.errors_write_lineFeed hsound

include hf

/-- A body alone that was formatted is formatted as the same text exactly if no property holds a
quotation mark and each paragraph ends in a line feed. -/
theorem format?_write_of_body_iff (hd : d.data.entries = []) :
    format? (write d) = .ok (write d) ↔
      (∀ c ∈ componentsOf d.body, c.Unquoted) ∧ ∀ b ∈ d.body, b.ended = b := by
  have hwrite : write d = if Body.write d.body = [] then [] else Body.write d.body ++ ['\n'] := by
    rw [write_of_no_metadata hm, behind_of_empty hd]
  have hfence : ¬ fence <+: write d := by
    rw [write_of_no_metadata hm]
    exact not_fence_behind hf fun _ => hd
  have herr := errors_write_of_body hm hsound hd
  rw [format?_eq_ok_iff, read_of_not_fence hfence, Reading.errors, herr, List.filter_nil,
    and_iff_right rfl, write_of_body, ← Body.ended_eq_self_iff hsound]
  by_cases hb : Body.write d.body = []
  · have hbody := (Body.write_eq_nil_iff hsound).1 hb
    rw [hwrite, if_pos hb, hbody, Body.read_nil]
    exact iff_of_true rfl rfl
  · rw [if_neg hb] at hwrite
    have hshape := Body.shape_write_lineFeed hsound
    rw [hwrite, Body.write_eq_of_unplaced hshape]
    constructor
    · intro h
      split at h
      · simp at h
      · exact Body.eq_of_length_write_le (Body.forall₂_grows_ended hsound)
          (congrArg List.length (List.append_cancel_right h)).ge
    · intro h
      rw [h, if_neg hb]

omit hsound in
/-- Data behind a body without metadata is read as part of the body, and does not end as a body that
was formatted twice does. -/
theorem format?_write_ne_of_data (hd : d.data.entries ≠ []) (hb : Body.write d.body ≠ []) :
    format? (write d) ≠ .ok (write d) := by
  intro h
  obtain ⟨-, hwrite⟩ := format?_eq_ok_iff.1 h
  have hfence : ¬ fence <+: write d := by
    rw [write_of_no_metadata hm]
    exact not_fence_behind hf fun hnil => absurd hnil hb
  obtain ⟨s, hs⟩ : ∃ s, write d = s ++ '\n' :: fence ++ ['\n'] := by
    refine ⟨laidOut (Body.write d.body) ++ (fence ++ '\n' :: Data.marker ++
      '\n' :: ['\n'].intercalate (d.data.entries.map Data.line)), ?_⟩
    rw [write_of_no_metadata hm, behind_of_data hd, Regions.sectionOf_eq (by simpa using hd)]
    simp
  have hread : ∀ b ∈ (Body.read (write d)).1, ∃ last, b.Sound last := fun _ =>
    Body.sound_of_mem_read
  have hshape : Body.shape (write d) = (Body.read (write d)).1.map Block.unplaced := rfl
  rw [read_of_not_fence hfence, write_of_body] at hwrite
  generalize (Body.read (write d)).1 = cs at hwrite hread hshape
  split at hwrite
  · rw [hs] at hwrite
    simp at hwrite
  · -- The body is formatted as the same text, so that all its paragraphs are ended.
    rw [hwrite, Body.shape_write_lineFeed hread] at hshape
    have hsame := Body.eq_of_length_write_le (Body.forall₂_grows_ended hread)
      (Body.write_eq_of_unplaced hshape ▸ Nat.le_refl _)
    obtain ⟨-, hended⟩ := (Body.ended_eq_self_iff hread).1 hsame
    rw [hs] at hwrite
    refine Body.write_ne_append_fence (fun b hb => ?_) s (List.append_cancel_right hwrite).symm
    obtain ⟨last, hlast⟩ := hread b hb
    exact hended b hb ▸ hlast.ended

end Body

/-- A data section alone is read as metadata. -/
theorem read_sectionOf {ls : List Text} (hne : ls ≠ []) (hls : ∀ l ∈ ls, Regions.Unfenced l) :
    (read (Data.sectionOf ls)).document =
      ⟨(Regions.read (Data.sectionOf ls)).metadata, [], .empty⟩ := by
  have hnone : Regions.dataSection? [] = none := by decide
  have hregions : Regions.read (Data.sectionOf ls) =
      ⟨(Regions.read (Data.sectionOf ls)).metadata, [], .empty,
        (Regions.read (Data.sectionOf ls)).diagnostics⟩ := by
    rw [Regions.read, Regions.frontMatter?_sectionOf hne hls]
    simp only
    rw [hnone]
    rfl
  rw [read, hregions]
  simp only
  rw [Body.read_nil]

/-- No metadata is written as a data section: behind the word that marks the section stands a line
feed, and no blank. -/
theorem metadata_write_ne_sectionOf {m : Metadata} (hk : m.Keyed) (ls : List Text) :
    Metadata.write m ≠ Data.sectionOf ls := by
  intro h
  have hsection : Data.sectionOf ls =
      fence ++ '\n' :: ("data".toList ++ ':' :: '\n' :: (ofLines ls ++ fence ++ ['\n'])) := by
    simp [Data.sectionOf, Data.marker]
  by_cases hm : m.entries = []
  · rw [Metadata.write_of_empty hm] at h
    cases h
  · obtain ⟨k, t, hkey, ht⟩ := Metadata.exists_written_eq_key hm hk
    have hkeyed : keyed? (k ++ ':' :: ' ' :: t) = some (k, ' ' :: t) :=
      keyed?_eq_some_iff.2 ⟨hkey, rfl⟩
    rw [Metadata.write_eq hm, ht, hsection] at h
    rw [(List.cons.inj (List.append_cancel_left h)).2,
      keyed?_eq_some_iff.2 ⟨by decide, rfl⟩] at hkeyed
    cases hkeyed

/-- A data section alone is not formatted as it is. -/
theorem format?_write_ne_of_section {d : Document} (hm : d.metadata.entries = [])
    (hl : d.data.Linear) (hd : d.data.entries ≠ []) (hb : Body.write d.body = []) :
    format? (write d) ≠ .ok (write d) := by
  intro h
  obtain ⟨-, hwrite⟩ := format?_eq_ok_iff.1 h
  have hls := Data.unfenced_of_mem_lines hl.keyed
  have hne : d.data.entries.map Data.line ≠ [] := by simpa using hd
  have hsection : write d = Data.sectionOf (d.data.entries.map Data.line) := by
    rw [write_of_no_metadata hm, behind_of_data hd, laidOut, if_pos hb, List.nil_append]
  have hbehind (m : Metadata) : behind ⟨m, [], .empty⟩ = [] := rfl
  rw [hsection, read_sectionOf hne hls, write_eq_behind, hbehind, List.append_nil] at hwrite
  exact metadata_write_ne_sectionOf (Regions.keyed_read _) _ hwrite.symm

/-- Without metadata, and if its body does not start with a fence, a document that was formatted is
formatted as the same text exactly if it is settled. -/
theorem format?_write_eq_iff_of_no_metadata {d : Document} (hm : d.metadata.entries = [])
    (hsound : ∀ b ∈ d.body, ∃ last, b.Sound last) (hl : d.data.Linear)
    (hf : ¬ fence <+: Body.write d.body) :
    format? (write d) = .ok (write d) ↔ Settled d := by
  have hempty : d.metadata = .empty := OrderedMap.ext hm
  by_cases hd : d.data.entries = []
  · rw [format?_write_of_body_iff hm hsound hf hd]
    constructor
    · rintro ⟨hunquoted, hended⟩
      refine ⟨?_, by simp [hm], by simp [hd], hunquoted, by rwa [if_pos hm]⟩
      rw [hempty]
      decide
    · rintro ⟨-, -, -, hunquoted, hended⟩
      rw [if_pos hm] at hended
      exact ⟨hunquoted, hended⟩
  · refine iff_of_false ?_ fun h => ?_
    · by_cases hb : Body.write d.body = []
      · exact format?_write_ne_of_section hm hl hd hb
      · exact format?_write_ne_of_data hm hf hd hb
    · obtain ⟨e, he⟩ := List.exists_mem_of_ne_nil _ hd
      exact (h.data e he).1 hm

/-! ### Formatting twice -/

/-- A document that was formatted is read without an error if it does not spill and has no data
without metadata; and it is formatted as the same text exactly if it is settled. -/
theorem format?_format?_iff {source once : Text} (h : format? source = .ok once)
    (henclosed : Enclosed (read source).document) :
    (((read source).document.metadata.entries = [] → (read source).document.data.entries = []) →
        (read source).document.metadata.spill = [] → (read once).errors = []) ∧
      (format? once = .ok once ↔ Settled (read source).document) := by
  obtain ⟨herr, rfl⟩ := format?_eq_ok_iff.1 h
  have hsound : ∀ b ∈ (read source).document.body, ∃ last, b.Sound last := fun _ =>
    Body.sound_of_mem_read
  by_cases hm : (read source).document.metadata.entries = []
  · have hf := henclosed.not_fence hm
    refine ⟨fun hd _ => ?_, format?_write_eq_iff_of_no_metadata hm hsound
      (Regions.linear_read source) hf⟩
    have hfence : ¬ fence <+: write (read source).document := by
      rw [write_of_no_metadata hm]
      exact not_fence_behind hf fun _ => hd hm
    rw [read_of_not_fence hfence, Reading.errors, errors_write_of_body hm hsound (hd hm)]
    rfl
  · have hw := henclosed.not_within hm
    have hf := henclosed.not_front hm
    exact ⟨fun _ hs => (read_write_read hm herr hs hw hf).1, format?_write_eq_iff hm herr hw hf⟩

theorem settled_memo : Settled (read memo).document where
  spill := lasting_memo.spill
  metadata := fun e he => .inl (lasting_memo.metadata e he)
  data := fun e he => ⟨by decide +kernel, lasting_memo.data e he⟩
  unquoted := by
    have hnone : componentsOf (read memo).document.body = [] := by decide +kernel
    rw [hnone]
    simp
  ended := by
    have hm : (read memo).document.metadata.entries ≠ [] := by decide +kernel
    have hone : (read memo).document.body.dropLast = [] := by decide +kernel
    rw [if_neg hm, hone]
    simp

theorem format?_memo : ∃ once, format? memo = .ok once ∧ Enclosed (read memo).document ∧
    Settled (read memo).document ∧ (read once).errors = [] ∧ format? once = .ok once := by
  obtain ⟨once, honce⟩ : ∃ once, format? memo = .ok once :=
    ⟨_, format?_eq_ok_iff.2 ⟨by decide +kernel, rfl⟩⟩
  have hm : (read memo).document.metadata.entries ≠ [] := by decide +kernel
  have henclosed : Enclosed (read memo).document :=
    ⟨fun h => absurd h hm, fun _ => by decide +kernel,
      fun _ h => absurd h (by decide +kernel)⟩
  obtain ⟨hnone, hsame⟩ := format?_format?_iff honce henclosed
  exact ⟨once, honce, henclosed, settled_memo,
    hnone (fun h => absurd h hm) settled_memo.spill, hsame.2 settled_memo⟩

/-- A quotation mark in a property gets a pair of its own each time. -/
theorem not_forall_format?_format? : ¬ ∀ source once : Text, format? source = .ok once →
    (read once).errors = [] ∧ format? once = .ok once := by
  intro h
  have honce : format? "---\nt: x\n---\n[% A k='x\"y' /%]\n".toList =
      .ok "---\nt: x\n---\n[% A k=\"x\"y\" /%]\n".toList := by decide +kernel
  have htwice : format? "---\nt: x\n---\n[% A k=\"x\"y\" /%]\n".toList =
      .ok "---\nt: x\n---\n[% A k=\"\"x\"y\"\" /%]\n".toList := by decide +kernel
  have hsame := (h _ _ honce).2
  rw [htwice, Except.ok.injEq] at hsame
  exact absurd hsame (by decide)

end Document

end Formdoc
