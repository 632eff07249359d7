/-
Documents that are read back as they are written.

A document is `Canonical` if its metadata and data read back entry by entry, its
body block by block, and nothing in the written body looks like the opening of a
data section.  Such a document is read back without a word about it, but for the
places of its parts (`read_write_of_canonical`).
-/
import Formdoc.Proofs.Body.Rewritten
import Formdoc.Proofs.Document.Written

namespace Formdoc

open Text

namespace Metadata

theorem oneLine_of_readable {v : Scalar} (h : v.Readable) : v.OneLine := by
  cases v with
  | text s => exact h.1
  | _ => trivial

end Metadata

namespace Document

/-- A document that is read back as it is written. The last three conditions keep what stands around
the blocks from being taken for something else: blanks at the ends of a body are dropped, and an
opening in it would start the data section. -/
structure Canonical (d : Document) : Prop where
  metadata_ne : d.metadata.entries ≠ []
  metadata : ∀ e ∈ d.metadata.entries, isKey e.1 = true ∧ e.2.Readable
  data : ∀ e ∈ d.data.entries, isKey e.1 = true ∧ e.2.Readable
  body : Body.Canonical d.body
  trimmed : trim (Body.write d.body) = Body.write d.body
  not_within : ¬ Regions.OpensWithin (Body.write d.body)
  not_front : d.data.entries = [] → ¬ Regions.OpensAtFront (Body.write d.body)

/-- A canonical document is read back as it is written, but for the places of its parts, and
nothing is said about it. -/
theorem read_write_of_canonical {d : Document} (h : d.Canonical) :
    (read (write d)).diagnostics = [] ∧
      (read (write d)).document.metadata = d.metadata ∧
      (read (write d)).document.data = d.data ∧
      (read (write d)).document.body.map Block.unplaced = d.body.map Block.unplaced := by
  have hk : d.metadata.Keyed := fun e he => (h.metadata e he).1
  have hv : d.metadata.OneLine := fun e he => Metadata.oneLine_of_readable (h.metadata e he).2
  have hl : d.data.Linear := fun e he => ⟨(h.data e he).1, (h.data e he).2.isScalar⟩
  have hregions : Regions.read (write d) = ⟨d.metadata, Body.write d.body, d.data, []⟩ := by
    rw [read_write_of_closed h.metadata_ne hk (trim_eq_self_iff.1 h.trimmed).1 hv.unbroken
      (Metadata.spill_of_oneLine h.metadata_ne hk hv) hl h.not_within h.not_front,
      Metadata.map_reread fun e he => (h.metadata e he).2, OrderedMap.ofList_entries, h.trimmed,
      Data.map_reread fun e he => (h.data e he).2, OrderedMap.ofList_entries]
  rw [diagnostics_read, metadata_read, data_read, body_read, hregions]
  exact ⟨Body.errors_write h.body, rfl, rfl, Body.shape_write h.body⟩

/-- A document of one paragraph, without data. -/
def note (texts : List String) : Document where
  metadata := ⟨[("t".toList, .bool true)], by decide⟩
  body := [.paragraph (texts.map fun s => .text s.toList Position.first) Position.first]
  data := .empty

-- The last three conditions are needed: a blank at an end is dropped, and lines of a paragraph may
-- open a data section, behind other lines or at the front.
example : (read (write (note ["a "]))).document.body.map Block.unplaced ≠ (note ["a "]).body := by
  decide +kernel

example : (read (write (note ["a\n", "---\n", "data:"]))).document.body.map Block.unplaced ≠
    (note ["a\n", "---\n", "data:"]).body := by
  decide +kernel

example : (read (write (note ["---\n", "data:"]))).document.body.map Block.unplaced ≠
    (note ["---\n", "data:"]).body := by
  decide +kernel

/-! ### A document with a block of each kind -/

/-- A letter with a field, whose texts hold what elsewhere separates regions and entries. -/
def letter : Document where
  metadata := ⟨[("title".toList, .text "To: all".toList), ("draft".toList, .bool true)], by decide⟩
  body := [
    .heading 2 [.text "Dear # reader".toList Position.first] Position.first,
    .component ⟨"Field".toList, ⟨[("id".toList, .text "name".toList)], by decide⟩, Position.first⟩,
    .paragraph [.text "one\n".toList Position.first, .text "--- two".toList Position.first]
      Position.first]
  data := ⟨[("name".toList, .text "a\n---\n\"b\"".toList), ("age".toList, .int 7)], by decide⟩

theorem canonical_body_letter : Body.Canonical letter.body := by
  have hline {l : Text} {c : Char} (h : '\n' ∉ l ∧ ¬ openMark <:+: l ∧ trim l ≠ [])
      (hc : (trim l).head? = some c) (hne : c ≠ '#') : Markdown.ProseLine l :=
    ⟨h.1, h.2.1, h.2.2, Markdown.not_headingShaped_of_head hc hne⟩
  refine ⟨⟨by decide, by decide, _, _, rfl, ?_⟩, ⟨?_, ?_⟩, ?_⟩
  · exact ⟨by decide +kernel, by decide +kernel, by decide +kernel, by decide +kernel⟩
  · refine ⟨by decide +kernel, ⟨by decide +kernel, by decide +kernel⟩, by decide +kernel, ?_⟩
    intro e he
    obtain rfl := List.mem_singleton.1 he
    exact ⟨_, rfl, by decide +kernel, by decide +kernel⟩
  · intro e he s hs
    obtain rfl := List.mem_singleton.1 he
    cases hs
    decide +kernel
  · refine ⟨[.text "one\n".toList Position.first], _, rfl, fun i hi => ?_, ?_⟩
    · obtain rfl := List.mem_singleton.1 hi
      refine ⟨"one".toList, _, rfl, ?_⟩
      exact hline (c := 'o') (by decide +kernel) (by decide +kernel) (by decide)
    · refine ⟨"--- two".toList, _, rfl, ?_⟩
      exact hline (c := '-') (by decide +kernel) (by decide +kernel) (by decide)

theorem canonical_letter : letter.Canonical where
  metadata_ne := by decide +kernel
  metadata := by
    intro e he
    rcases List.mem_cons.1 he with rfl | he
    · exact ⟨by decide +kernel, by decide +kernel, .inl (by decide +kernel)⟩
    · obtain rfl := List.mem_singleton.1 he
      exact ⟨by decide +kernel, trivial⟩
  data := by
    intro e he
    rcases List.mem_cons.1 he with rfl | he
    · exact ⟨by decide +kernel, trivial⟩
    · obtain rfl := List.mem_singleton.1 he
      exact ⟨by decide +kernel, by decide, by decide⟩
  body := canonical_body_letter
  trimmed := by decide +kernel
  not_within := by decide +kernel
  not_front := fun h => absurd h (by decide +kernel)

theorem read_write_letter : letter.Canonical ∧
    (read (write letter)).diagnostics = [] ∧
      (read (write letter)).document.metadata = letter.metadata ∧
      (read (write letter)).document.data = letter.data ∧
      (read (write letter)).document.body.map Block.unplaced = letter.body.map Block.unplaced :=
  ⟨canonical_letter, read_write_of_canonical canonical_letter⟩

end Document

end Formdoc
