/-
Documents whose line feeds have carriage returns in front of them.

A document with metadata is read with carriage returns as it is without them: its
metadata, its data and all that is said about it are the same, and so are its
blocks, each at its place.  Only the texts of paragraphs stay as they are written,
and lose the carriage returns again when those in front of line feeds are taken
away (`reading_withReturns`).
-/
import Formdoc.Proofs.Body.Returns
import Formdoc.Proofs.Document.Written
import Formdoc.Proofs.Regions.Returns

namespace Formdoc

open Text

namespace Document

/-- A document with metadata is the same with carriage returns in front of its line feeds, but for
those in the texts of paragraphs. -/
theorem reading_withReturns {source : Text} (h : '\r' ∉ source)
    (hm : (read source).document.metadata.entries ≠ []) :
    (read (withReturns source)).document.metadata = (read source).document.metadata ∧
      (read (withReturns source)).document.data = (read source).document.data ∧
      (read (withReturns source)).diagnostics = (read source).diagnostics ∧
      (read (withReturns source)).document.body.map (Block.mapProse withoutReturns) =
        (read source).document.body := by
  obtain ⟨front, hfront, hsolid⟩ := Regions.exists_solid_of_metadata hm
  have hregions := Regions.read_withReturns_of_solid h hfront hsolid
  have hbody := Body.read_withReturns (Regions.read source).body
  simp only [metadata_read, data_read, diagnostics_read, body_read, hregions, hbody]
  refine ⟨trivial, trivial, trivial, ?_⟩
  rw [List.map_map]
  exact (List.map_congr_left fun b _ => Block.mapProse_mapProse_of_inverse
    withoutReturns_withReturns b).trans (List.map_id _)

/-- A document with a line that is no metadata, blocks of each kind, a tag that names nothing, and a
data section that does not close. -/
def circular : Text :=
  "---\nt: x\n\n--- y\n---\n\n# Title \nOne\n two\n".toList ++
    "[% A\n k=\"v\" /%][%\n/%]\n\n---\ndata:\n  a: 1".toList

theorem reading_withReturns_circular :
    ('\r' ∉ circular ∧ (read circular).document.metadata.entries ≠ []) ∧
      (read (withReturns circular)).document.metadata = (read circular).document.metadata ∧
        (read (withReturns circular)).document.data = (read circular).document.data ∧
        (read (withReturns circular)).diagnostics = (read circular).diagnostics ∧
        (read (withReturns circular)).document.body.map (Block.mapProse withoutReturns) =
          (read circular).document.body := by
  have hnone : '\r' ∉ circular := by decide +kernel
  have hm : (read circular).document.metadata.entries ≠ [] := by decide +kernel
  exact ⟨⟨hnone, hm⟩, reading_withReturns hnone hm⟩

end Document

end Formdoc
