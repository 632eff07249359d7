/-
Components put into a document.

In a document with metadata and closed tags a component is added at the end of
the body, and all else is kept, exactly if the first data line is that of the data
section, or there is neither, but for a document without components whose section
opens right behind the front matter and once more behind that
(`read_insertText_iff`).
-/
import Formdoc.Proofs.Document.Addition
import Formdoc.Proofs.Document.Components

namespace Formdoc

open Text Regions

namespace Document

theorem bracketed_write {c : Component} (h : c.Legible) : Bracketed c.write := by
  rw [Component.write_eq]
  refine ⟨rfl, ?_, fun d hd => ?_⟩
  · rw [← List.append_assoc]
    exact List.getLast?_concat
  · by_contra hb
    have hcontent := Body.not_mem_content h (b := d) (by simpa using hb)
    simp only [List.mem_append, hcontent, false_or] at hd
    rcases hd with hd | hd | hd
    · exact hb ((by decide : ∀ d ∈ openMark, isBreak d = false) d hd)
    · exact hb ((by decide : ∀ d ∈ closeMark, isBreak d = false) d hd)
    · exact hb ((by decide : ∀ d ∈ [']'], isBreak d = false) d hd)

/-- A component behind a text whose tags are all closed adds its tag. -/
theorem tagsOf_trim_append_write {s : Text} (hs : Body.Terminated (trim s)) {c : Component}
    (hc : c.Legible) :
    Body.tagsOf (trim (s ++ ['\n', '\n'] ++ c.write)) =
      Body.tagsOf (trim s) ++ [(c.content, .bracket)] := by
  obtain ⟨a, b, ha, hb, hs'⟩ := exists_eq_append_trim s
  have hblank : ∀ d ∈ b ++ ['\n', '\n'], isBlank d = true := fun d hd =>
    (List.mem_append.1 hd).elim (hb d) ((by decide : ∀ d ∈ ['\n', '\n'], isBlank d = true) d)
  have hhead {d : Char} (hd : isBlank d = false) :
      (b ++ ['\n', '\n'] ++ c.write).head? ≠ some d := by
    rw [List.head?_append_of_ne_nil _ (by simp)]
    exact Body.head?_ne_of_blank hblank hd
  have htags : Body.tagsOf (trim s ++ (b ++ ['\n', '\n'] ++ c.write)) =
      Body.tagsOf (trim s) ++ [(c.content, .bracket)] := by
    rw [Body.tagsOf_append hs (hhead (by decide)) (hhead (by decide)),
      Body.tagsOf_blank_append _ hblank, hc.tagsOf_write]
  have hterm : Body.Terminated (trim s ++ (b ++ ['\n', '\n'] ++ c.write)) := by
    intro t ht
    rw [htags] at ht
    rcases List.mem_append.1 ht with ht | ht
    · exact hs t ht
    · rw [List.mem_singleton.1 ht]
      simp
  have hform : s ++ ['\n', '\n'] ++ c.write =
      a ++ (trim s ++ (b ++ ['\n', '\n'] ++ c.write)) := by
    conv_lhs => rw [hs']
    simp
  rw [hform, trim_blank_append _ ha, Body.tagsOf_trim hterm, htags]

/-- A component behind a text without an error brings in none. -/
theorem errors_trim_append_write {s : Text} (hs : Body.Terminated (trim s))
    (herr : (Body.read (trim s)).2 = []) {c : Component} (hc : c.Legible) :
    (Body.read (trim (s ++ ['\n', '\n'] ++ c.write))).2 = [] := by
  rw [Body.errors_read_eq_nil_iff, tagsOf_trim_append_write hs hc]
  intro t ht
  rcases List.mem_append.1 ht with ht | ht
  · exact Body.errors_read_eq_nil_iff.1 herr t ht
  · rw [List.mem_singleton.1 ht]
    exact hc.words_content_ne_nil

theorem components_eq (source : Text) :
    components source =
      (Body.tagsOf (Regions.read source).body).filterMap fun t => Tag.named? t.1 := by
  rw [components, body_read, Body.unplaced_components_read]

/-- The tag of a component is put at the end of the body, and all else is kept, exactly if the data
line in front of which it is put is that of the data section, or there is neither. There is one more
case: if a data section opens right behind the front matter and another one later, the first one
takes the place of the other, and that may be as good if the document has no components. -/
theorem read_insertText_iff {source : Text} {c : Component}
    (hm : (read source).document.metadata.entries ≠ [])
    (ht : Body.Terminated (Regions.read source).body) (hc : c.Legible) (hq : c.Unquoted) :
    ((read (insertText source c.write)).document.metadata = (read source).document.metadata ∧
        (read (insertText source c.write)).document.data = (read source).document.data ∧
        components (insertText source c.write) = components source ++ [c.unplaced]) ↔
      foundTail? source = sectionTail? source ∨
        ∃ t, FoundAtFront source t ∧ components source = [] ∧
          dataFrom t = (read source).document.data := by
  obtain ⟨front, hf⟩ : ∃ front, frontMatter? source = some front := by
    refine Option.ne_none_iff_exists'.1 fun hnone => hm ?_
    rw [metadata_read, read_of_none hnone]
    rfl
  have hb : ∃ d ∈ front.block, isBlank d = false := by
    rw [metadata_read, (read_of_some hf).1] at hm
    exact Metadata.exists_solid_of_read hm
  have hx := bracketed_write hc
  have hname : Tag.named? c.content = some c.unplaced := by
    rw [hc.named?_content, hc.requoted_eq_self_iff.2 hq]
  have hfront (t : Text) (h : FoundAtFront source t) :
      (read (insertText source c.write)).document.metadata = (read source).document.metadata ∧
        (read (insertText source c.write)).document.data = dataFrom t ∧
        components (insertText source c.write) = [c.unplaced] := by
    obtain ⟨hmeta, hdata, hbody⟩ := regions_insertText_of_front hf hb hx h
    refine ⟨hmeta, hdata, ?_⟩
    rw [components_eq, hbody, hc.tagsOf_write, List.filterMap_cons, hname]
    rfl
  constructor
  · rintro ⟨hmeta, hdata, hcomp⟩
    by_contra hn
    obtain ⟨hne, hnot⟩ := not_or.1 hn
    by_cases hat : ∃ t, FoundAtFront source t
    · obtain ⟨t, hat⟩ := hat
      obtain ⟨-, hdata', hcomp'⟩ := hfront t hat
      refine hnot ⟨t, hat, ?_, hdata' ▸ hdata⟩
      rw [hcomp'] at hcomp
      exact List.append_cancel_right (hcomp.symm.trans (List.nil_append _).symm)
    · rcases regions_insertText_of_ne hf hb hx hne (not_exists.1 hat) with hempty | hbody
      · rw [metadata_read] at hmeta
        exact hm (hmeta ▸ hempty)
      · rw [components_eq, hbody, ← components_eq] at hcomp
        simp at hcomp
  · rintro (h | ⟨t, hat, hnil, hdata⟩)
    · obtain ⟨s, ds, -, hs, -, hread⟩ := regions_insertText hf hb hx h
      refine ⟨by rw [metadata_read, hread]; rfl, by rw [data_read, hread]; rfl, ?_⟩
      rw [components_eq, components_eq, hread]
      simp only
      rw [tagsOf_trim_append_write (hs ▸ ht) hc, hs, List.filterMap_append, List.filterMap_cons,
        hname]
      rfl
    · obtain ⟨hmeta, hdata', hcomp⟩ := hfront t hat
      exact ⟨hmeta, hdata'.trans hdata, by rw [hcomp, hnil]; rfl⟩

/-- A document with text, a tag and a data section. -/
def survey : Text :=
  "---\nt: x\n---\nName: [% Field id='name' /%]\n---\ndata:\n  name: \"A\"\n---\n".toList

/-- A component with a property. -/
def ageField : Component :=
  ⟨"Field".toList, ⟨[("id".toList, .text "age".toList)], by decide⟩, Position.first⟩

theorem legible_ageField : ageField.Legible ∧ ageField.Unquoted := by
  have hprops {e : Text × Property} (he : e ∈ ageField.props.entries) :
      e = ("id".toList, .text "age".toList) := List.mem_singleton.1 he
  refine ⟨⟨by decide +kernel, ⟨by decide +kernel, by decide +kernel⟩, ?_, ?_⟩, ?_⟩
  · intro e he
    rw [hprops he]
    decide +kernel
  · intro e he
    rw [hprops he]
    exact ⟨_, rfl, by decide +kernel, by decide +kernel⟩
  · intro e he s hs
    rw [hprops he] at hs
    cases hs
    decide +kernel

theorem read_survey_with_ageField : (read survey).document.metadata.entries ≠ [] ∧
    Body.Terminated (Regions.read survey).body ∧ ageField.Legible ∧ ageField.Unquoted ∧
    foundTail? survey = sectionTail? survey ∧
    (read (insertText survey ageField.write)).document.metadata =
        (read survey).document.metadata ∧
      (read (insertText survey ageField.write)).document.data = (read survey).document.data ∧
      components (insertText survey ageField.write) =
        components survey ++ [ageField.unplaced] := by
  have hm : (read survey).document.metadata.entries ≠ [] := by decide +kernel
  have ht : ∀ t ∈ Body.tagsOf (Regions.read survey).body, t.2 ≠ .missing := by decide +kernel
  have hfound : foundTail? survey = sectionTail? survey := by decide +kernel
  obtain ⟨hc, hq⟩ := legible_ageField
  exact ⟨hm, ht, hc, hq, hfound, (read_insertText_iff hm ht hc hq).2 (.inl hfound)⟩

/-- In front of a data section with an empty line behind its fence no data line is found, and the
tag is put behind the section, where nothing is read. -/
theorem not_forall_read_insertText : ¬ ∀ (source : Text) (c : Component),
    (read source).document.metadata.entries ≠ [] →
      (∀ t ∈ Body.tagsOf (Regions.read source).body, t.2 ≠ .missing ∧ trim t.1 ≠ []) →
        c.Legible → c.Unquoted →
        (read (insertText source c.write)).document.metadata = (read source).document.metadata ∧
          (read (insertText source c.write)).document.data = (read source).document.data ∧
          components (insertText source c.write) = components source ++ [c.unplaced] := by
  intro h
  have hcomp := (h "---\nt: x\n---\nBody\n---\n\ndata:\n  a: 1\n---\n".toList
    ⟨"A".toList, .empty, Position.first⟩ (by decide +kernel) (by decide +kernel)
    ⟨by decide, ⟨by decide, by decide⟩, by simp [OrderedMap.empty], by simp [OrderedMap.empty]⟩
    (by simp [Component.Unquoted, OrderedMap.empty])).2.2
  revert hcomp
  decide +kernel

end Document

end Formdoc
