/-
A field's value stays in its field.

Setting a field to one text or to another gives two documents that are read
alike but for the value of that field (`read_setField?_confined`): with the same
metadata, the same body in the same places, the same diagnostics, and the same
data under all other names.  No text can reach out of its field, whatever
quotation marks, line breaks, fences or marks of tags it holds, and whatever
stands in the document: the value enters the regions of the written document
only through its own entry (`regions_setField?`), and is read from it as it is.
-/
import Formdoc.Proofs.Document.Edit

namespace Formdoc

open Text

/-- Entries with one value or another under a key, read from a section behind what it has
swallowed: the keys are the same in the same order, and so are the values under other keys. -/
theorem Data.foldl_reread_congr (swallowed d : Data) (name : Text) (v w : Json) :
    (((d.insert name v).entries.map reread).foldl (fun m p => m.insert p.1 p.2) swallowed).keys =
        (((d.insert name w).entries.map reread).foldl
          (fun m p => m.insert p.1 p.2) swallowed).keys ∧
      ∀ k, k ≠ name →
        (((d.insert name v).entries.map reread).foldl
            (fun m p => m.insert p.1 p.2) swallowed).get? k =
          (((d.insert name w).entries.map reread).foldl
            (fun m p => m.insert p.1 p.2) swallowed).get? k := by
  -- Reading the entries again changes their values in place.
  have hmap (u : Json) : (d.insert name u).entries.map reread =
      ((d.insert name u).mapValues fun v => Field.read (' ' :: Field.write v)).entries := rfl
  have hkeys : (d.insert name v).keys = (d.insert name w).keys := by
    rw [OrderedMap.keys_insert, OrderedMap.keys_insert]
  rw [hmap, hmap]
  constructor
  · rw [OrderedMap.keys_foldl_insert (OrderedMap.nodup_keys _),
      OrderedMap.keys_foldl_insert (OrderedMap.nodup_keys _)]
    show swallowed.keys ++ ((d.insert name v).mapValues _).keys.filter _ =
      swallowed.keys ++ ((d.insert name w).mapValues _).keys.filter _
    rw [OrderedMap.keys_mapValues, OrderedMap.keys_mapValues, hkeys]
  · intro k hk
    rw [OrderedMap.get?_foldl_insert, OrderedMap.get?_foldl_insert, OrderedMap.ofList_entries,
      OrderedMap.ofList_entries, OrderedMap.get?_mapValues, OrderedMap.get?_mapValues,
      OrderedMap.get?_insert, OrderedMap.get?_insert, if_neg hk, if_neg hk]

namespace Document

/-- A text in a field is read back, and makes no difference anywhere else: two documents that
differ by it have the same metadata, the same body with all its places, the same diagnostics, the
same names of fields in the same order, and the same values in all other fields. -/
theorem read_setField?_confined {source name v w t u : Text} (hk : isKey name = true)
    (ht : setField? source name (.text v) = .ok t) (hu : setField? source name (.text w) = .ok u) :
    (read t).document.metadata = (read u).document.metadata ∧
      (read t).document.body = (read u).document.body ∧
      (read t).diagnostics = (read u).diagnostics ∧
      (read t).document.data.keys = (read u).document.data.keys ∧
      (∀ k, k ≠ name → (read t).document.data.get? k = (read u).document.data.get? k) ∧
      (read t).document.data.get? name = some (.text v) ∧
      (read u).document.data.get? name = some (.text w) := by
  have hrt := regions_setField? ht hk trivial
  have hru := regions_setField? hu hk trivial
  obtain ⟨hkeys, hvalues⟩ := Data.foldl_reread_congr (Data.read (Regions.swallowed
    ((Regions.read source).metadata.spill ++
      laidOut (Body.write (Body.read (Regions.read source).body).1))))
    (Regions.read source).data name (.text v) (.text w)
  have hback {x text : Text} (h : setField? source name (.text x) = .ok text) :
      (read text).document.data.get? name = some (.text x) := by
    rw [get?_setField?_of_isKey h hk trivial, Field.read_text x]
  refine ⟨?_, ?_, ?_, ?_, ?_, hback ht, hback hu⟩
  · rw [metadata_read, metadata_read, hrt, hru]
  · rw [body_read, body_read, hrt, hru]
  · rw [diagnostics_read, diagnostics_read, hrt, hru]
  · rw [data_read, data_read, hrt, hru]
    exact hkeys
  · intro k hne
    rw [data_read, data_read, hrt, hru]
    exact hvalues k hne

/-- A document with a field, whose body opens a data section by itself once it is laid out anew. -/
def crowded : Text :=
  "---\nt: x\n---\ny\n---\n \ndata:\n  a: 1\n\n---\ndata:\n  b: \"2\"\n---\n".toList

/-- A text with all that separates regions, tags and entries. -/
def unruly : Text :=
  "\"\n---\ndata:\n  b: 3\n---\n[% A /%]\\".toList

theorem read_crowded_confined :
    ∃ t u, setField? crowded "k".toList (.text unruly) = .ok t ∧
      setField? crowded "k".toList (.text []) = .ok u ∧
      (read t).document.metadata = (read u).document.metadata ∧
      (read t).document.body = (read u).document.body ∧
      (read t).diagnostics = (read u).diagnostics ∧
      (read t).document.data.keys = (read u).document.data.keys ∧
      (∀ k, k ≠ "k".toList → (read t).document.data.get? k = (read u).document.data.get? k) ∧
      (read t).document.data.get? "k".toList = some (.text unruly) ∧
      (read u).document.data.get? "k".toList = some (.text []) := by
  have hset (v : Json) : ∃ t, setField? crowded "k".toList v = .ok t := by
    have hclosed : ∀ t ∈ Body.tagsOf (Regions.read crowded).body, t.2 ≠ .missing := by
      decide +kernel
    exact ⟨_, setField?_eq_ok_iff.2 ⟨hclosed, by decide +kernel, by decide +kernel, rfl⟩⟩
  obtain ⟨t, ht⟩ := hset (.text unruly)
  obtain ⟨u, hu⟩ := hset (.text [])
  exact ⟨t, u, ht, hu, read_setField?_confined (by decide +kernel) ht hu⟩

end Document

end Formdoc
