/-
What formatting keeps of metadata and data.

A document is written and read again.  If it has metadata, then its metadata and
its data are kept exactly if it is `Lasting` (`kept_iff`): each value is read back
from the text in which it is written, no value of the metadata breaks out of the
metadata block, and nothing of the body is taken for entries that the document
does not have.  Without metadata only a document without data is kept
(`kept_iff_of_no_metadata`), since a data section counts only behind metadata.

Not all documents are lasting.  What quotation marks of its own are lost from a
text of the metadata, and a number of the data that is written with an exponent
is read back as a text (`not_forall_kept`).
-/
import Formdoc.Proofs.Document.Written
import Formdoc.Proofs.Regions.Spill

namespace Formdoc

open Text

/-! ### Entries behind others -/

/-- Entries that are read again behind others give the data that was written exactly if each value
is lasting, and the others have the first keys of that data. -/
theorem Data.foldl_reread_eq_iff {stray d : Data} :
    (d.entries.map reread).foldl (fun m p => m.insert p.1 p.2) stray = d ↔
      (∀ e ∈ d.entries, e.2.Lasting) ∧ stray.keys <+: d.keys := by
  have hmap : d.entries.map reread =
      (d.mapValues fun v => Field.read (' ' :: Field.write v)).entries := rfl
  rw [hmap, OrderedMap.foldl_mapValues_eq_iff, OrderedMap.mapValues_eq_self_iff]
  exact and_congr_left' (forall₂_congr fun e _ => Field.read_write_eq_iff)

namespace Regions

theorem unbroken_read (source : Text) : Metadata.Unbroken (read source).metadata := by
  cases hf : frontMatter? source with
  | none =>
    rw [read_of_none hf]
    intro e he
    cases he
  | some front =>
    rw [(read_of_some hf).1]
    exact Metadata.unbroken_read _ _

/-- A written data section that nothing stands in front of is taken for front matter, behind which
there is nothing. -/
theorem frontMatter?_sectionOf {ls : List Text} (hne : ls ≠ []) (hls : ∀ l ∈ ls, Unfenced l) :
    frontMatter? (Data.sectionOf ls) =
      some ⟨fence ++ ['\n'], ['\n'].intercalate (Data.marker :: ls), []⟩ := by
  obtain ⟨l, ks, rfl⟩ := List.exists_cons_of_ne_nil hne
  have hform : Data.sectionOf (l :: ks) = fence ++ '\n' ::
      (['\n'].intercalate (Data.marker :: l :: ks) ++ ('\n' :: fence ++ ['\n'])) := by
    rw [sectionOf_eq hne, List.intercalate_cons_cons]
    simp
  have hmarker : ∀ k ∈ Data.marker :: l :: ks, Unfenced k :=
    List.forall_mem_cons.2 ⟨⟨by decide, 'd', rfl, by decide⟩, hls⟩
  have hend : firstCut blockEnd? ('\n' :: fence ++ ['\n']) = some ([], []) :=
    firstCut_of_some (by decide)
  rw [hform, frontMatter?_fence_append (c := 'd') rfl (by decide),
    firstCut_lines blockEnd?_cons blockEnd?_break_cons hmarker, hend]
  simp

end Regions

namespace Document

/-! ### Documents with metadata -/

/-- Writing the document and reading it again keeps the metadata and the data. -/
def Kept (d : Document) : Prop :=
  (read (write d)).document.metadata = d.metadata ∧ (read (write d)).document.data = d.data

/-- The entries that are read in front of the written ones, where metadata is kept: those of a data
section that opens in the body. -/
def stray (d : Document) : Data :=
  if d.data.entries = [] then Regions.dataOf (behind d)
  else Data.read (Regions.swallowed (laidOut (Body.write d.body)))

/-- A document with values that are read back as they are written, and nothing around them that
would add to them. -/
structure Lasting (d : Document) : Prop where
  spill : d.metadata.spill = []
  metadata : ∀ e ∈ d.metadata.entries, e.2.Lasting
  data : ∀ e ∈ d.data.entries, e.2.Lasting
  stray : (stray d).keys <+: d.data.keys

/-- A body without openings adds no entries. -/
theorem stray_eq_empty {d : Document} (hw : ¬ Regions.OpensWithin (Body.write d.body))
    (hf : d.data.entries = [] → ¬ Regions.OpensAtFront (Body.write d.body)) :
    stray d = .empty := by
  unfold stray
  split
  · rename_i hd
    rw [Regions.dataOf, dataSection?_behind hd hw (hf hd)]
  · rw [Regions.swallowed_of_none (firstCut_laidOut hw)]
    rfl

theorem data_read_write_eq_iff {d : Document} (hm : d.metadata.entries ≠ [])
    (hk : d.metadata.Keyed) (hs : d.metadata.spill = []) (hl : d.data.Linear)
    (hb : ∀ c, (Body.write d.body).head? = some c → isBlank c = false) :
    (Regions.read (write d)).data = d.data ↔
      (∀ e ∈ d.data.entries, e.2.Lasting) ∧ (stray d).keys <+: d.data.keys := by
  by_cases hd : d.data.entries = []
  · have hempty : d.data = .empty := OrderedMap.ext hd
    rw [data_read_write hm hk hb, hs, List.nil_append, stray, if_pos hd, hempty]
    constructor
    · intro h
      rw [h]
      exact ⟨fun e he => absurd he List.not_mem_nil, List.prefix_rfl⟩
    · rintro ⟨-, hkeys⟩
      exact OrderedMap.ext (List.map_eq_nil_iff.1 (List.prefix_nil.1 hkeys))
  · rw [regions_read_write hm hk hb hd hl, hs, List.nil_append, stray, if_neg hd]
    exact Data.foldl_reread_eq_iff

/-- With metadata, exactly the lasting documents are kept. -/
theorem kept_iff_of_metadata {d : Document} (hm : d.metadata.entries ≠ []) (hk : d.metadata.Keyed)
    (hu : d.metadata.Unbroken) (hl : d.data.Linear)
    (hb : ∀ c, (Body.write d.body).head? = some c → isBlank c = false) : Kept d ↔ Lasting d := by
  rw [Kept, metadata_read, data_read, metadata_read_write hm hk hb,
    Metadata.read_block_eq_iff hm hk hu]
  constructor
  · rintro ⟨⟨hs, hmeta⟩, hdata⟩
    obtain ⟨hlasting, hstray⟩ := (data_read_write_eq_iff hm hk hs hl hb).1 hdata
    exact ⟨hs, hmeta, hlasting, hstray⟩
  · rintro ⟨hs, hmeta, hlasting, hstray⟩
    exact ⟨⟨hs, hmeta⟩, (data_read_write_eq_iff hm hk hs hl hb).2 ⟨hlasting, hstray⟩⟩

/-! ### Documents without metadata -/

/-- A body that does not start with a fence does not make the text behind metadata do so. -/
theorem not_fence_behind {d : Document} (hf : ¬ fence <+: Body.write d.body)
    (hd : Body.write d.body = [] → d.data.entries = []) : ¬ fence <+: behind d := by
  have hbreak : '\n' ∉ fence := by decide
  by_cases hbody : Body.write d.body = []
  · rw [behind_of_empty (hd hbody), if_pos hbody]
    decide
  · by_cases hdata : d.data.entries = []
    · rwa [behind_of_empty hdata, if_neg hbody, prefix_append_cons_iff hbreak]
    · rwa [behind_of_data hdata, laidOut, if_neg hbody, List.append_assoc, List.cons_append,
        prefix_append_cons_iff hbreak]

theorem write_of_no_metadata {d : Document} (hm : d.metadata.entries = []) :
    write d = behind d := by
  rw [write_eq_behind, Metadata.write_of_empty hm, List.nil_append]

/-- Without metadata, and if the body is not taken for metadata, exactly the documents without data
are kept. -/
theorem kept_iff_of_no_metadata {d : Document} (hm : d.metadata.entries = []) (hl : d.data.Linear)
    (hf : ¬ fence <+: Body.write d.body) : Kept d ↔ d.data.entries = [] := by
  have hmeta : d.metadata = .empty := OrderedMap.ext hm
  rw [Kept, metadata_read, data_read, write_of_no_metadata hm]
  by_cases hd : Body.write d.body = [] → d.data.entries = []
  · have hnone : Regions.frontMatter? (behind d) = none := by
      rw [Regions.frontMatter?, after?_eq_none_iff.2 (not_fence_behind hf hd)]
      rfl
    rw [Regions.read_of_none hnone, hmeta]
    exact ⟨fun h => congrArg OrderedMap.entries h.2.symm, fun h => ⟨rfl, (OrderedMap.ext h).symm⟩⟩
  · rw [Classical.not_imp] at hd
    obtain ⟨hbody, hdata⟩ := hd
    refine iff_of_false (fun h => hdata ?_) hdata
    -- The data section is read as metadata.
    have hfront := Regions.frontMatter?_sectionOf (by simpa using hdata)
      (Data.unfenced_of_mem_lines hl.keyed)
    rw [behind_of_data hdata, laidOut, if_pos hbody, List.nil_append,
      (Regions.read_of_some hfront).2.1] at h
    rw [← h.2]
    rfl

/-! ### Documents that were read -/

/-- A document that is read without an error and formatted keeps its metadata and its data exactly
if it is lasting, where it has metadata; and exactly if it has no data, where it has no metadata and
does not start with a fence. -/
theorem kept_iff {source : Text} (h : (read source).errors = []) :
    ((read source).document.metadata.entries ≠ [] →
        (Kept (read source).document ↔ Lasting (read source).document)) ∧
      ((read source).document.metadata.entries = [] →
        ¬ fence <+: Body.write (read source).document.body →
        (Kept (read source).document ↔ (read source).document.data.entries = [])) :=
  ⟨fun hm => kept_iff_of_metadata hm (Regions.keyed_read source) (Regions.unbroken_read source)
      (Regions.linear_read source) (isBlank_head_write_read hm (errors_read source ▸ h)),
    fun hm hf => kept_iff_of_no_metadata hm (Regions.linear_read source) hf⟩

/-- A document with values that look like something else, and are written so that they do not. -/
def memo : Text :=
  "---\ntitle: \"Re: #1\"\ndraft: true\n---\n# Memo\n---\ndata:\n  a: \"7\"\n  b: 7\n---\n".toList

theorem lasting_memo : Lasting (read memo).document where
  spill := by decide +kernel
  metadata := by
    have hentries : (read memo).document.metadata.entries =
        [("title".toList, .text "Re: #1".toList), ("draft".toList, .bool true)] := by
      decide +kernel
    rw [hentries]
    exact List.forall_mem_cons.2 ⟨.inl (by decide), List.forall_mem_singleton.2 trivial⟩
  data := by
    have hentries : (read memo).document.data.entries =
        [("a".toList, .text "7".toList), ("b".toList, .int 7)] := by
      rfl
    rw [hentries]
    exact List.forall_mem_cons.2 ⟨trivial, List.forall_mem_singleton.2 ⟨by decide, by decide⟩⟩
  stray := by
    rw [stray_eq_empty (by decide +kernel) fun h => absurd h (by decide +kernel)]
    exact List.nil_prefix

/-- A document of text alone. -/
def reminder : Text :=
  "Call back.\n".toList

theorem kept_memo : ((read memo).errors = [] ∧ (read memo).document.metadata.entries ≠ [] ∧
      Lasting (read memo).document ∧ Kept (read memo).document) ∧
    (read reminder).errors = [] ∧ (read reminder).document.metadata.entries = [] ∧
      ¬ fence <+: Body.write (read reminder).document.body ∧ Kept (read reminder).document := by
  constructor
  · have herr : (read memo).errors = [] := by decide +kernel
    have hm : (read memo).document.metadata.entries ≠ [] := by decide +kernel
    exact ⟨herr, hm, lasting_memo, ((kept_iff herr).1 hm).2 lasting_memo⟩
  · have herr : (read reminder).errors = [] := by decide +kernel
    have hm : (read reminder).document.metadata.entries = [] := by decide +kernel
    have hf : ¬ fence <+: Body.write (read reminder).document.body := by decide +kernel
    exact ⟨herr, hm, hf, ((kept_iff herr).2 hm hf).2 (by decide +kernel)⟩

/-- A text of the metadata loses the quotation marks that stand inside those around it. -/
theorem not_forall_kept :
    ¬ ∀ source : Text, (read source).diagnostics = [] → Kept (read source).document := by
  intro h
  have hmeta := (h "---\nt: \"'x'\"\n---\nHello\n\n---\ndata:\n  k: 1\n---\n".toList
    (by decide +kernel)).1
  have hget := congrArg (fun m => m.get? "t".toList) hmeta
  revert hget
  decide +kernel

end Document

end Formdoc
