/-
Fields set one after another.

A document is `Steady` if it has metadata on single lines, a body whose tags are
closed and say something and in which no fence stands, and data that reads back.
Setting a field to a value that reads back succeeds on such a document
(`Steady.setField?_eq`), inserts the value into the data
(`Steady.data_withField`), and gives such a document again
(`Steady.steady_withField`), although the body is laid out anew and metadata
values may lose quotation marks.

A document in which each carriage return stands before a line feed has its
metadata on single lines (`Regions.oneLine_metadata`).  By induction, fields can be set
one after another without end (`exists_foldlM_setField?`).
-/
import Formdoc.Proofs.Document.Edit

namespace Formdoc

open Text

namespace Metadata

theorem oneLine_read_block {block : Text} {n : Nat}
    (h : ∀ a b, block = a ++ '\r' :: b → b = [] ∨ b.head? = some '\n') :
    OneLine (read block n).1 := by
  intro e he
  obtain ⟨l, hl, hentry⟩ := exists_line_of_mem_read he
  obtain ⟨-, raw, hraw, hvalue⟩ := entry?_eq_some hentry
  have hone := oneLine_dropReturn h hl
  rw [hvalue]
  exact oneLine_read (hone.subset fun c hc => by rw [hraw]; simp [hc])

end Metadata

/-- A document in which each carriage return stands before a line feed has its metadata on single
lines. -/
theorem Regions.oneLine_metadata {source : Text} (h : source.ReturnsPaired) :
    (read source).metadata.OneLine := by
  cases hf : frontMatter? source with
  | none =>
    rw [read_of_none hf]
    intro e he
    cases he
  | some front =>
    obtain ⟨p, q, hs⟩ := Metadata.exists_eq_of_frontMatter? hf
    have hblock : ∀ a b, front.block = a ++ '\r' :: b → b = [] ∨ b.head? = some '\n' := by
      intro a b hab
      have := h (p ++ a) (b ++ q) (by rw [hs, hab]; simp)
      cases b with
      | nil => exact .inl rfl
      | cons c b => exact .inr this
    rw [(read_of_some hf).1]
    exact Metadata.oneLine_read_block hblock

namespace Document

/-! ### Steady documents -/

/-- A document whose fields can be set without loss. -/
structure Steady (source : Text) : Prop where
  metadata_ne : (Regions.read source).metadata.entries ≠ []
  oneLine : (Regions.read source).metadata.OneLine
  terminated : Body.Terminated (Regions.read source).body
  errors : (Body.read (Regions.read source).body).2 = []
  not_fence : ¬ fence <:+: (Regions.read source).body
  readable : ∀ e ∈ (Regions.read source).data.entries, e.2.Readable

section Step

variable {source name : Text} {value : Json}

theorem Steady.setField?_eq (hs : Steady source) :
    setField? source name value = .ok (write (withField source name value)) :=
  setField?_eq_ok_iff.2 ⟨hs.terminated, hs.errors, hs.metadata_ne, rfl⟩

/-- The regions of a steady document in which a field has been set. -/
theorem Steady.read_withField (hs : Steady source) (hk : isKey name = true) (hv : value.IsScalar) :
    Regions.read (write (withField source name value)) =
      ⟨.ofList ((Regions.read source).metadata.entries.map Metadata.reread),
        trim (Body.write (Body.read (Regions.read source).body).1),
        .ofList (((Regions.read source).data.insert name value).entries.map Data.reread), []⟩ :=
  read_write_of_closed (d := withField source name value) hs.metadata_ne
    (Regions.keyed_read source) (isBlank_head_body hs.setField?_eq) hs.oneLine.unbroken
    (Metadata.spill_of_oneLine hs.metadata_ne (Regions.keyed_read source) hs.oneLine)
    (linear_withField hk hv) (Regions.not_opensWithin (Body.not_fence_write_read hs.not_fence))
    fun h => absurd h entries_withField_ne_nil

theorem Steady.readable_insert (hs : Steady source) (hv : value.Readable) :
    ∀ e ∈ ((Regions.read source).data.insert name value).entries, e.2.Readable := by
  intro e he
  rcases OrderedMap.mem_entries_insert he with rfl | he
  · exact hv
  · exact hs.readable e he

/-- Setting a field of a steady document inserts the value. -/
theorem Steady.data_withField (hs : Steady source) (hk : isKey name = true) (hv : value.Readable) :
    (Regions.read (write (withField source name value))).data =
      (Regions.read source).data.insert name value := by
  rw [hs.read_withField hk hv.isScalar]
  simp only
  rw [Data.map_reread (hs.readable_insert hv), OrderedMap.ofList_entries]

/-- Setting a field of a steady document gives a steady document. -/
theorem Steady.steady_withField (hs : Steady source) (hk : isKey name = true)
    (hv : value.Readable) : Steady (write (withField source name value)) := by
  have hread := hs.read_withField hk hv.isScalar
  have hdata := hs.data_withField hk hv
  -- The keys are the same, so that no entry of the metadata is lost when its values are read again.
  have hentries : (Regions.read (write (withField source name value))).metadata.entries =
      (Regions.read source).metadata.entries.map Metadata.reread := by
    rw [hread]
    refine OrderedMap.entries_ofList ?_
    rw [List.map_map]
    exact (Regions.read source).metadata.nodup_keys
  -- What was written is a body of closed tags that say something.
  have htidy : ∀ b ∈ (Body.read (Regions.read source).body).1, b.Tidy := fun b =>
    Body.tidy_of_mem_read
  have htags := Body.tagsOf_trim (Body.terminated_write htidy)
  refine ⟨?_, ?_, ?_, ?_, ?_, ?_⟩
  · rw [hentries]
    simpa using hs.metadata_ne
  · intro e he
    rw [hentries] at he
    obtain ⟨d, hd, rfl⟩ := List.mem_map.1 he
    exact Metadata.oneLine_read
      (oneLine_cons.2 ⟨by decide, Metadata.oneLine_valueText (hs.oneLine d hd)⟩)
  · rw [hread]
    intro t ht
    rw [htags] at ht
    exact Body.terminated_write htidy t ht
  · rw [hread, Body.errors_read_eq_nil_iff]
    intro t ht
    rw [htags, Body.tagsOf_write htidy] at ht
    obtain ⟨c, hc, rfl⟩ := List.mem_map.1 ht
    exact (Body.legible_of_mem_componentsOf htidy hc).words_content_ne_nil
  · rw [hread]
    exact fun hi => Body.not_fence_write_read hs.not_fence (hi.trans (infix_trim _))
  · rw [hdata]
    exact hs.readable_insert hv

end Step

/-- Fields of a steady document can be set one after another, and the values are then inserted one
after another. -/
theorem Steady.exists_foldlM {source : Text} (hs : Steady source) {ps : List (Text × Json)}
    (hps : ∀ p ∈ ps, isKey p.1 = true ∧ p.2.Readable) :
    ∃ text, ps.foldlM (fun text p => setField? text p.1 p.2) source = .ok text ∧
      (Regions.read text).data =
        ps.foldl (fun data p => data.insert p.1 p.2) (Regions.read source).data := by
  induction ps generalizing source with
  | nil => exact ⟨source, rfl, rfl⟩
  | cons p ps ih =>
    obtain ⟨hk, hv⟩ := hps p List.mem_cons_self
    obtain ⟨text, hrun, hdata⟩ := ih (hs.steady_withField hk hv) fun q hq =>
      hps q (List.mem_cons_of_mem _ hq)
    refine ⟨text, ?_, ?_⟩
    · rw [List.foldlM_cons, hs.setField?_eq]
      exact hrun
    · rw [hdata, hs.data_withField hk hv]
      rfl

/-- Runs of field updates. In a document in which each carriage return stands before a line feed,
that has metadata, whose tags are closed and not blank, in whose body no fence stands, and none of
whose data is a binary64 number, fields can be set one after another: that always succeeds, and
the data that is read at last is the data at first with the values inserted in order. -/
theorem exists_foldlM_setField? {source : Text} (hreturns : source.ReturnsPaired)
    (hmeta : (read source).document.metadata.entries ≠ [])
    (hclosed : ∀ t ∈ Body.tagsOf (Regions.read source).body, t.2 ≠ .missing ∧ trim t.1 ≠ [])
    (hfence : ¬ fence <:+: (Regions.read source).body)
    (hfloat : ∀ e ∈ (read source).document.data.entries, ∀ x, e.2 ≠ .float x)
    {ps : List (Text × Json)} (hps : ∀ p ∈ ps, isKey p.1 = true ∧ p.2.Readable) :
    ∃ text, ps.foldlM (fun text p => setField? text p.1 p.2) source = .ok text ∧
      (read text).document.data =
        ps.foldl (fun data p => data.insert p.1 p.2) (read source).document.data := by
  have hsteady : Steady source :=
    { metadata_ne := hmeta
      oneLine := Regions.oneLine_metadata hreturns
      terminated := fun t ht => (hclosed t ht).1
      errors := Body.errors_read_eq_nil_iff.2 fun t ht hw =>
        (hclosed t ht).2 (words_eq_nil_iff.1 hw)
      not_fence := hfence
      readable := fun e he => by
        obtain ⟨-, raw, hraw⟩ := Regions.of_mem_data he
        rw [hraw]
        exact Field.readable_read (hraw ▸ hfloat e he) }
  exact hsteady.exists_foldlM hps

/-- A form with a tag and a field. -/
def form : Text :=
  "---\nt: \"x\"\n---\nHi [% A b='c' /%]\n---\ndata:\n  a: 1\n---\n".toList

/-- Values for two fields, the first of which is set twice. -/
def answers : List (Text × Json) :=
  [("a".toList, .int 2), ("b".toList, .text "x\ny".toList), ("a".toList, .null)]

theorem exists_foldlM_answers :
    ∃ text, answers.foldlM (fun text p => setField? text p.1 p.2) form = .ok text ∧
      (read text).document.data =
        answers.foldl (fun data p => data.insert p.1 p.2) (read form).document.data := by
  have hreturns : form.ReturnsPaired := by
    have hnone : '\r' ∉ form := by decide +kernel
    intro a b hab
    exact absurd (hab ▸ by simp) hnone
  have hdata : (read form).document.data.entries = [("a".toList, .int 1)] := by rfl
  refine exists_foldlM_setField? hreturns (by decide +kernel) (by decide +kernel)
    (by decide +kernel) ?_ ?_
  · rw [hdata]
    intro e he x hx
    obtain rfl := List.mem_singleton.1 he
    cases hx
  · intro p hp
    simp only [answers, List.mem_cons, List.not_mem_nil, or_false] at hp
    rcases hp with rfl | rfl | rfl
    · exact ⟨by decide +kernel, by decide, by decide⟩
    · exact ⟨by decide +kernel, trivial⟩
    · exact ⟨by decide +kernel, trivial⟩

end Document

end Formdoc
