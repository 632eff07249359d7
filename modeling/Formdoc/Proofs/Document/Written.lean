/-
A document that was written, cut into its regions again.

`regions_read_write` says what the regions of a written document with data are: the
metadata is that of its block, the body ends where the first opening of a data
section stands in the text before the written one, and the written entries are
the last of the section.  If the metadata does not spill and the body has no
opening, the regions are the parts of the document (`read_write_of_closed`).

What is read from any document is of the kind that can be written: its keys are
keys, the values of its data stand on lines (`Regions.linear_read`), its body
has no blank at an end, and its errors are those of its body (`errors_read`).
-/
import Formdoc.Document.Basic
import Formdoc.Proofs.Body.Written
import Formdoc.Proofs.Regions.FrontMatter
import Formdoc.Proofs.Regions.Opening
import Formdoc.Proofs.Regions.Section

namespace Formdoc

open Text

/-! ### What the regions of any document are like -/

namespace Metadata

/-- The keys that are read are keys. -/
theorem keyed_read (block : Text) (n : Nat) : Keyed (read block n).1 := by
  intro e he
  obtain ⟨l, -, hl⟩ := exists_line_of_mem_read he
  exact (entry?_eq_some hl).1

theorem isError_of_mem_warnings {block : Text} {n : Nat} {d : Diagnostic}
    (h : d ∈ (read block n).2) : d.isError = false := by
  obtain ⟨⟨l, i⟩, -, hl⟩ := List.mem_filterMap.1 h
  unfold warning? at hl
  split at hl
  · cases hl
    rfl
  · cases hl

end Metadata

namespace Regions

/-- Behind front matter the metadata is that of the block, the data is that of the rest, the body
has no blank at an end, and nothing but warnings is said. -/
theorem read_of_some {source : Text} {front : FrontMatter} (h : frontMatter? source = some front) :
    (read source).metadata = (Metadata.read front.block (breaks front.opening + 1)).1 ∧
      (read source).data = dataOf front.rest ∧
      (∃ s, (read source).body = trim s) ∧
      ∀ d ∈ (read source).diagnostics, d.isError = false := by
  unfold read dataOf
  rw [h]
  simp only
  cases dataSection? front.rest with
  | none => exact ⟨rfl, rfl, ⟨_, rfl⟩, fun d => Metadata.isError_of_mem_warnings⟩
  | some found =>
    refine ⟨rfl, rfl, ⟨_, rfl⟩, fun d hd => ?_⟩
    cases hclosed : found.closed with
    | true =>
      simp only [hclosed, if_true] at hd
      exact Metadata.isError_of_mem_warnings hd
    | false =>
      simp only [hclosed, Bool.false_eq_true, if_false] at hd
      rcases List.mem_append.1 hd with hd | hd
      · exact Metadata.isError_of_mem_warnings hd
      · obtain rfl := List.mem_singleton.1 hd
        rfl

theorem keyed_read (source : Text) : Metadata.Keyed (read source).metadata := by
  cases hf : frontMatter? source with
  | none =>
    rw [read_of_none hf]
    intro e he
    cases he
  | some front =>
    rw [(read_of_some hf).1]
    exact Metadata.keyed_read _ _

/-- An entry of the data has a key, and its value is read from the end of a line. -/
theorem of_mem_data {source : Text} {e : Text × Json} (h : e ∈ (read source).data.entries) :
    isKey e.1 = true ∧ ∃ raw, e.2 = Field.read raw := by
  cases hf : frontMatter? source with
  | none =>
    rw [read_of_none hf] at h
    cases h
  | some front =>
    rw [(read_of_some hf).2.1, dataOf] at h
    split at h
    · cases h
    · exact Data.of_mem_read h

theorem linear_read (source : Text) : Data.Linear (read source).data := by
  intro e he
  obtain ⟨hk, raw, hraw⟩ := of_mem_data he
  exact ⟨hk, hraw ▸ Field.isScalar_read raw⟩

/-- Behind front matter the body has no blank at an end. -/
theorem trim_body {source : Text} (h : (read source).metadata.entries ≠ []) :
    trim (read source).body = (read source).body := by
  cases hf : frontMatter? source with
  | none =>
    rw [read_of_none hf] at h
    exact absurd rfl h
  | some front =>
    obtain ⟨-, -, ⟨s, hs⟩, -⟩ := read_of_some hf
    rw [hs, trim_trim]

theorem isError_of_mem_diagnostics {source : Text} {d : Diagnostic}
    (h : d ∈ (read source).diagnostics) : d.isError = false := by
  cases hf : frontMatter? source with
  | none =>
    rw [read_of_none hf] at h
    cases h
  | some front =>
    obtain ⟨-, -, -, hw⟩ := read_of_some hf
    exact hw d h

theorem filter_isError_diagnostics (source : Text) :
    (read source).diagnostics.filter Diagnostic.isError = [] :=
  List.filter_eq_nil_iff.2 fun d hd => by simp [isError_of_mem_diagnostics hd]

end Regions

namespace Document

/-- The errors of a document are those of its body. -/
theorem errors_read (source : Text) :
    (read source).errors = (Body.read (Regions.read source).body).2 := by
  have hbody : ∀ d ∈ (Body.read (Regions.read source).body).2, d.isError = true := by
    intro d hd
    obtain ⟨t, -, ht⟩ := List.mem_filterMap.1 hd
    unfold Body.errorOf at ht
    split at ht
    · cases ht
    · split at ht
      · cases ht
        rfl
      · cases ht
  show ((Regions.read source).diagnostics ++
    (Body.read (Regions.read source).body).2).filter Diagnostic.isError = _
  rw [List.filter_append, Regions.filter_isError_diagnostics, List.nil_append,
    List.filter_eq_self.2 hbody]

theorem metadata_read (source : Text) :
    (read source).document.metadata = (Regions.read source).metadata := rfl

theorem data_read (source : Text) : (read source).document.data = (Regions.read source).data := rfl

theorem body_read (source : Text) :
    (read source).document.body = (Body.read (Regions.read source).body).1 := rfl

theorem diagnostics_read (source : Text) : (read source).diagnostics =
    (Regions.read source).diagnostics ++ (Body.read (Regions.read source).body).2 := rfl

/-- A body that was read behind metadata, without an error, is written without a blank in front. -/
theorem isBlank_head_write_read {source : Text} (hm : (Regions.read source).metadata.entries ≠ [])
    (herr : (Body.read (Regions.read source).body).2 = []) (c : Char)
    (hc : (Body.write (Body.read (Regions.read source).body).1).head? = some c) :
    isBlank c = false :=
  Body.isBlank_head_write_read (trim_eq_self_iff.1 (Regions.trim_body hm)).1 herr c hc

/-! ### The regions of a written document -/

/-- A body with the empty line that separates it from a data section. -/
def laidOut (body : Text) : Text :=
  if body = [] then [] else body ++ ['\n', '\n']

theorem exists_laidOut (body : Text) :
    ∃ w, laidOut body = body ++ w ∧ ∀ c ∈ w, isBreak c = true := by
  unfold laidOut
  split
  · rename_i h
    exact ⟨[], by simp [h], by simp⟩
  · exact ⟨['\n', '\n'], rfl, by decide⟩

/-- The text of a document behind its metadata. -/
def behind (d : Document) : Text :=
  let body := Body.write d.body
  let dataText := Data.write d.data
  (if body.isEmpty then [] else body ++ ['\n']) ++
    (if dataText.isEmpty || body.isEmpty then dataText else '\n' :: dataText)

theorem write_eq_behind (d : Document) : write d = Metadata.write d.metadata ++ behind d := by
  unfold write behind
  simp only [List.append_assoc]

theorem behind_of_data {d : Document} (h : d.data.entries ≠ []) :
    behind d = laidOut (Body.write d.body) ++ Data.sectionOf (d.data.entries.map Data.line) := by
  have hne : (Data.sectionOf (d.data.entries.map Data.line)).isEmpty = false := rfl
  unfold behind laidOut
  simp only
  rw [Data.write_eq h, hne]
  by_cases hb : Body.write d.body = []
  · simp [hb]
  · simp [hb]

theorem behind_of_empty {d : Document} (h : d.data.entries = []) :
    behind d = if Body.write d.body = [] then [] else Body.write d.body ++ ['\n'] := by
  have hdata : Data.write d.data = [] := by
    rw [Data.write, OrderedMap.isEmpty, h]
    rfl
  unfold behind
  simp only
  rw [hdata]
  by_cases hb : Body.write d.body = []
  · simp [hb]
  · simp [hb]

/-- Without data the text behind the metadata is the body, with a line feed behind it. -/
theorem exists_behind_of_empty {d : Document} (h : d.data.entries = []) :
    ∃ w, behind d = Body.write d.body ++ w ∧ ∀ c ∈ w, isBreak c = true := by
  rw [behind_of_empty h]
  split
  · rename_i hb
    exact ⟨[], by simp [hb], by simp⟩
  · exact ⟨['\n'], rfl, by decide⟩

/-- What follows the metadata starts with the body, or with the fence of the section. -/
theorem isBlank_head_behind {d : Document}
    (hb : ∀ c, (Body.write d.body).head? = some c → isBlank c = false) (c : Char)
    (hc : (behind d).head? = some c) : isBlank c = false := by
  by_cases hbody : Body.write d.body = []
  · by_cases hd : d.data.entries = []
    · rw [behind_of_empty hd, if_pos hbody] at hc
      cases hc
    · rw [behind_of_data hd, laidOut, if_pos hbody] at hc
      obtain rfl : '-' = c := Option.some_inj.1 hc
      decide
  · refine hb c ?_
    by_cases hd : d.data.entries = []
    · rwa [behind_of_empty hd, if_neg hbody, List.head?_append_of_ne_nil _ hbody] at hc
    · rwa [behind_of_data hd, laidOut, if_neg hbody, List.append_assoc,
        List.head?_append_of_ne_nil _ hbody] at hc

/-- The empty line behind a body makes no opening in it. -/
theorem firstCut_laidOut {body : Text} (h : ¬ Regions.OpensWithin body) :
    Regions.firstCut Regions.sectionStart? (laidOut body) = none := by
  obtain ⟨w, hlaid, hw⟩ := exists_laidOut body
  rw [hlaid]
  exact Regions.firstCut_eq_none_of_not_opensWithin fun ho => h (ho.of_append hw)

theorem trim_laidOut (body : Text) : trim (laidOut body) = trim body := by
  obtain ⟨w, hlaid, hw⟩ := exists_laidOut body
  rw [hlaid]
  exact trim_append_blank body fun c hc => isBlank_of_isBreak (hw c hc)

theorem getLast?_laidOut (body : Text) :
    laidOut body = [] ∨ (laidOut body).getLast? = some '\n' := by
  unfold laidOut
  split
  · exact .inl rfl
  · exact .inr (List.getLast?_append_of_ne_nil _ (by simp))

theorem getLast?_append_laidOut {s : Text} (hs : s = [] ∨ s.getLast? = some '\n') (body : Text) :
    s ++ laidOut body = [] ∨ (s ++ laidOut body).getLast? = some '\n' := by
  rcases getLast?_laidOut body with h | h
  · rw [h, List.append_nil]
    exact hs
  · right
    rw [List.getLast?_append_of_ne_nil _ (by rintro hnil; rw [hnil] at h; cases h), h]

/-- A body without an opening has no data section, if none is written behind it. -/
theorem dataSection?_behind {d : Document} (hd : d.data.entries = [])
    (hw : ¬ Regions.OpensWithin (Body.write d.body))
    (hf : ¬ Regions.OpensAtFront (Body.write d.body)) :
    Regions.dataSection? (behind d) = none := by
  obtain ⟨w, hbehind, hbreak⟩ := exists_behind_of_empty hd
  -- The line feed behind the body makes no opening in it.
  rw [hbehind, Regions.dataSection?, Regions.dataStart?_eq,
    Regions.firstCut_eq_none_of_not_opensWithin fun h => hw (h.of_append hbreak),
    Regions.opening?_eq_none_of_not_opensAtFront fun h => hf (h.of_append hbreak)]
  rfl

section Metadata

variable {d : Document} (hm : d.metadata.entries ≠ []) (hk : d.metadata.Keyed)
  (hb : ∀ c, (Body.write d.body).head? = some c → isBlank c = false)

include hm hk hb

theorem frontMatter?_write :
    Regions.frontMatter? (write d) =
      some ⟨fence ++ ['\n'], d.metadata.block, d.metadata.spill ++ behind d⟩ := by
  rw [write_eq_behind]
  exact Metadata.frontMatter?_write_append hm hk (isBlank_head_behind hb)

/-- The metadata that is read from a written document is that of its block. -/
theorem metadata_read_write :
    (Regions.read (write d)).metadata = (Metadata.read d.metadata.block 2).1 :=
  (Regions.read_of_some (frontMatter?_write hm hk hb)).1

theorem data_read_write :
    (Regions.read (write d)).data = Regions.dataOf (d.metadata.spill ++ behind d) :=
  (Regions.read_of_some (frontMatter?_write hm hk hb)).2.1

/-- The regions of a written document with data. -/
theorem regions_read_write (hd : d.data.entries ≠ []) (hl : d.data.Linear) :
    Regions.read (write d) =
      ⟨(Metadata.read d.metadata.block 2).1,
        trim (Regions.bodyPart (d.metadata.spill ++ laidOut (Body.write d.body))),
        (d.data.entries.map Data.reread).foldl (fun m p => m.insert p.1 p.2)
          (Data.read (Regions.swallowed (d.metadata.spill ++ laidOut (Body.write d.body)))),
        (Metadata.read d.metadata.block 2).2⟩ := by
  obtain ⟨before, tail, hsec, hbefore⟩ := Regions.dataSection?_append
    (getLast?_append_laidOut (Metadata.getLast?_spill hm) (Body.write d.body)) hd hl.keyed
  unfold Regions.read
  rw [frontMatter?_write hm hk hb, behind_of_data hd, ← List.append_assoc]
  simp only
  rw [hsec]
  simp only
  rw [hbefore, Data.read_append_lines _ hd hl.keyed]
  rfl

/-- The regions of a written document whose metadata does not spill and whose body opens no data
section: they are the parts of the document, with the values read again. -/
theorem read_write_of_closed (hu : d.metadata.Unbroken) (hs : d.metadata.spill = [])
    (hl : d.data.Linear) (hw : ¬ Regions.OpensWithin (Body.write d.body))
    (hf : d.data.entries = [] → ¬ Regions.OpensAtFront (Body.write d.body)) :
    Regions.read (write d) =
      ⟨.ofList (d.metadata.entries.map Metadata.reread), trim (Body.write d.body),
        .ofList (d.data.entries.map Data.reread), []⟩ := by
  by_cases hd : d.data.entries = []
  · obtain ⟨w, hbehind, hbreak⟩ := exists_behind_of_empty hd
    have htrim : trim (behind d) = trim (Body.write d.body) := by
      rw [hbehind, trim_append_blank _ fun c hc => isBlank_of_isBreak (hbreak c hc)]
    unfold Regions.read
    rw [frontMatter?_write hm hk hb, hs, List.nil_append]
    simp only
    rw [dataSection?_behind hd hw (hf hd), htrim, Metadata.read_block hm hk hu hs, hd]
    rfl
  · have hnone := firstCut_laidOut hw
    rw [regions_read_write hm hk hb hd hl, hs, List.nil_append, Regions.swallowed_of_none hnone,
      Metadata.read_block hm hk hu hs, Regions.bodyPart, hnone]
    simp only
    rw [trim_laidOut]
    rfl

end Metadata

end Document

end Formdoc
