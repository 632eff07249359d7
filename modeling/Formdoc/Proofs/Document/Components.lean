/-
What setting a field does to the components.

The body is written anew, behind what spills from the metadata, and is cut at
the first opening of a data section.  The components that are then read are
those of the tags in front of that opening.  If no tag opens in the spill, they
are the components of the document before exactly if no text among their
properties holds a quotation mark, and no tag stands behind an opening of a data
section in the body (`components_setField?`).
-/
import Formdoc.Proofs.Document.Edit

namespace Formdoc

open Text

namespace Body

/-- The components that the tags of components name are the components themselves exactly if no
text in them holds a quotation mark. -/
theorem filterMap_named?_contents_eq_iff {cs : List Component} (h : ∀ c ∈ cs, c.Legible) :
    ((cs.map fun c => (c.content, Closing.bracket)).filterMap fun t => Tag.named? t.1) =
      cs.map Component.unplaced ↔ ∀ c ∈ cs, c.Unquoted := by
  induction cs with
  | nil => simp
  | cons c cs ih =>
    have hc := h c List.mem_cons_self
    simp only [List.map_cons, List.filterMap_cons, hc.named?_content, List.cons.injEq]
    rw [ih fun e he => h e (List.mem_cons_of_mem _ he), List.forall_mem_cons,
      ← hc.named?_content_eq_iff, hc.named?_content, Option.some_inj]

/-- Each tag of a component names a component. -/
theorem length_filterMap_named? {cs : List Component} (h : ∀ c ∈ cs, c.Legible)
    {ts : List (Text × Closing)}
    (hts : ∀ t ∈ ts, t ∈ cs.map fun c => (c.content, Closing.bracket)) :
    (ts.filterMap fun t => Tag.named? t.1).length = ts.length := by
  rw [List.length_filterMap_eq_countP, List.countP_eq_length]
  intro t ht
  obtain ⟨c, hc, rfl⟩ := List.mem_map.1 (hts t ht)
  rw [(h c hc).named?_content]
  rfl

/-- No character of a component's tag is a line break. -/
theorem not_mem_content {c : Component} (h : c.Legible) {b : Char} (hb : isBreak b = true) :
    b ∉ c.content := by
  have hblank := isBlank_of_isBreak hb
  have hsolid {s : Text} (hs : Solid s) : b ∉ s := fun hm => by
    rw [hs.not_blank b hm] at hblank
    cases hblank
  have hone {s : Text} (hs : OneLine s) : b ∉ s := fun hm => by
    rw [hs b hm] at hb
    cases hb
  intro hm
  simp only [Component.content, Component.propsText, List.cons_append, List.mem_cons,
    List.mem_append, List.mem_flatMap, List.not_mem_nil, or_false] at hm
  rcases hm with rfl | hm | ⟨e, he, hm⟩ | rfl
  · exact absurd hb (by decide)
  · exact hsolid h.name_solid hm
  · obtain ⟨s, hs, hss⟩ := h.solid_of_mem e he
    rw [hs, Property.write] at hm
    simp only [List.cons_append, List.mem_cons, List.mem_append, List.not_mem_nil, or_false] at hm
    rcases hm with rfl | ((hm | rfl | rfl) | hm) | rfl
    · exact absurd hb (by decide)
    · exact hone (oneLine_of_isKey (h.isKey_of_mem e he)) hm
    · exact absurd hb (by decide)
    · exact absurd hb (by decide)
    · exact hsolid hss hm
    · exact absurd hb (by decide)
  · exact absurd hb (by decide)

/-- In front of a line break, a text whose tags are those of components has all its tags closed: an
open one would take in the line break. -/
theorem terminated_of_append_break {a x : Text} {c : Char} (hc : isBreak c = true)
    {cs : List Component} (h : ∀ c ∈ cs, c.Legible)
    (hs : tagsOf (a ++ c :: x) = cs.map fun c => (c.content, .bracket)) : Terminated a := by
  have hne {d : Char} (hd : isBreak d = false) : c ≠ d := by
    rintro rfl
    rw [hc] at hd
    cases hd
  by_contra hn
  obtain ⟨p, hp, hcp⟩ := exists_mem_tagsOf_of_not_terminated (x := x) hn (hne (by decide))
    (hne (by decide)) (hne (by decide))
  rw [hs] at hp
  obtain ⟨e, he, rfl⟩ := List.mem_map.1 hp
  exact not_mem_content (h e he) hc hcp

/-- A text whose tags are those of components, cut at the opening of a data section: the tags
before it and the tags behind it are the tags of the text. -/
theorem tagsOf_cut {s a t : Text} {cs : List Component} (h : ∀ c ∈ cs, c.Legible)
    (hs : tagsOf s = cs.map fun c => (c.content, .bracket))
    (hcut : Regions.firstCut Regions.sectionStart? s = some (a, t)) :
    Terminated a ∧ tagsOf s = tagsOf a ++ tagsOf t := by
  obtain ⟨u, rfl, hu, -⟩ := Regions.firstCut_eq_some_iff.1 hcut
  obtain ⟨x, v, rfl, hne, hx, hv⟩ := Regions.sectionStart?_eq_some_iff.1 hu
  obtain ⟨y, rfl, -, hy⟩ := Regions.opening?_eq_some_iff.1 hv
  obtain ⟨c, x, rfl⟩ := List.exists_cons_of_ne_nil hne
  -- All that stands between the two cuts are line breaks, the fence and the marker.
  have hterm := terminated_of_append_break (hx c List.mem_cons_self) h hs
  have hbreaks {m : Text} (hm : ∀ d ∈ m, isBreak d = true) : '[' ∉ m := fun hmem =>
    absurd (hm '[' hmem) (by decide)
  have hhead {d : Char} (hd : isBreak d = false) :
      (c :: x ++ (fence ++ y ++ Data.marker ++ t)).head? ≠ some d := by
    rintro heq
    obtain rfl : c = d := Option.some_inj.1 heq
    rw [hx c List.mem_cons_self] at hd
    cases hd
  refine ⟨hterm, ?_⟩
  rw [tagsOf_append hterm (hhead (by decide)) (hhead (by decide)),
    tagsOf_append_of_not_mem (hbreaks hx), List.append_assoc, List.append_assoc,
    tagsOf_append_of_not_mem (by decide), tagsOf_append_of_not_mem (hbreaks hy),
    tagsOf_append_of_not_mem (by decide)]

/-- A text whose tags are those of components, cut at the opening of a data section, still names
the components exactly if no text in them holds a quotation mark and no tag stands behind the
opening. -/
theorem filterMap_named?_bodyPart_eq_iff {s : Text} {cs : List Component}
    (h : ∀ c ∈ cs, c.Legible) (hs : tagsOf s = cs.map fun c => (c.content, .bracket)) :
    ((tagsOf (trim (Regions.bodyPart s))).filterMap fun t => Tag.named? t.1) =
        cs.map Component.unplaced ↔
      (∀ c ∈ cs, c.Unquoted) ∧
        ∀ a t, Regions.firstCut Regions.sectionStart? s = some (a, t) → ¬ openMark <:+: t := by
  cases hcut : Regions.firstCut Regions.sectionStart? s with
  | none =>
    have hterm : Terminated s := by
      intro t ht
      rw [hs] at ht
      obtain ⟨_, -, rfl⟩ := List.mem_map.1 ht
      simp
    rw [Regions.bodyPart, hcut]
    simp only
    rw [tagsOf_trim hterm, hs, filterMap_named?_contents_eq_iff h]
    simp
  | some p =>
    obtain ⟨a, t⟩ := p
    obtain ⟨hterm, hsplit⟩ := tagsOf_cut h hs hcut
    have hlast : (∀ a' t', some (a, t) = some (a', t') → ¬ openMark <:+: t') ↔
        ¬ openMark <:+: t := by simp
    rw [Regions.bodyPart, hcut]
    simp only
    rw [tagsOf_trim hterm, hlast, ← tagsOf_eq_nil_iff]
    rw [hs] at hsplit
    by_cases ht : tagsOf t = []
    · rw [ht, List.append_nil] at hsplit
      rw [← hsplit, filterMap_named?_contents_eq_iff h]
      simp [ht]
    · -- Fewer tags stand before the opening than there were components.
      refine iff_of_false (fun heq => ht ?_) (fun hboth => ht hboth.2)
      have hsub : ∀ u ∈ tagsOf a, u ∈ cs.map fun c => (c.content, Closing.bracket) :=
        fun u hu => hsplit ▸ List.mem_append_left _ hu
      have hlen := congrArg List.length heq
      rw [length_filterMap_named? h hsub, List.length_map] at hlen
      have hsum := congrArg List.length hsplit
      rw [List.length_map, List.length_append] at hsum
      exact List.eq_nil_of_length_eq_zero (by omega)

end Body

namespace Document

/-- The text that stands between the metadata block and the data section when a document is
written. -/
def middle (source : Text) : Text :=
  (Regions.read source).metadata.spill ++ laidOut (Body.write (read source).document.body)

/-- The components of a document, without their places. -/
def components (source : Text) : List Component :=
  (componentsOf (read source).document.body).map Component.unplaced

theorem tagsOf_middle {source : Text} (hm : (Regions.read source).metadata.entries ≠ [])
    (hspill : ¬ openMark <:+: (Regions.read source).metadata.spill) :
    Body.tagsOf (middle source) =
      (componentsOf (read source).document.body).map fun c => (c.content, .bracket) := by
  have htidy : ∀ b ∈ (read source).document.body, b.Tidy := fun b => Body.tidy_of_mem_read
  rw [middle, Body.tagsOf_lines_append hspill (Metadata.getLast?_spill hm),
    ← Body.tagsOf_write htidy]
  unfold laidOut
  split
  · rename_i hnil
    rw [hnil]
  · rw [Body.tagsOf_append (Body.terminated_write htidy) (by simp) (by simp)]
    have : Body.tagsOf ['\n', '\n'] = [] := Body.tagsOf_of_not_open (by decide)
    rw [this, List.append_nil]

/-- What setting a field leaves of the components: those of the tags before the first opening of a
data section. They are the components before exactly if no text in them holds a quotation mark
and no tag stands behind such an opening, provided that no tag opens in what spills from the
metadata. -/
theorem components_setField? {source name s text : Text} (hk : isKey name = true)
    (h : setField? source name (.text s) = .ok text) :
    components text = (Body.tagsOf (trim (Regions.bodyPart (middle source)))).filterMap
        (fun t => Tag.named? t.1) ∧
      (¬ openMark <:+: (Regions.read source).metadata.spill →
        (components text = components source ↔
          (∀ c ∈ componentsOf (read source).document.body, c.Unquoted) ∧
            ∀ a t, Regions.firstCut Regions.sectionStart? (middle source) = some (a, t) →
              ¬ openMark <:+: t)) := by
  obtain ⟨content, hread, -⟩ := read_setField? h hk trivial
  have hbody : (Regions.read text).body = trim (Regions.bodyPart (middle source)) := by
    rw [hread]
    rfl
  have hgeneral : components text =
      (Body.tagsOf (trim (Regions.bodyPart (middle source)))).filterMap fun t => Tag.named? t.1 := by
    rw [components, body_read, Body.unplaced_components_read, hbody]
  refine ⟨hgeneral, fun hspill => ?_⟩
  obtain ⟨-, -, hm, -⟩ := setField?_eq_ok_iff.1 h
  have hlegible : ∀ c ∈ componentsOf (read source).document.body, c.Legible := fun c hc =>
    Body.legible_of_mem_componentsOf (fun b => Body.tidy_of_mem_read) hc
  rw [hgeneral, components]
  exact Body.filterMap_named?_bodyPart_eq_iff hlegible (tagsOf_middle hm hspill)

/-- A document with a tag, whose property stands between single quotation marks. -/
def tagged : Text :=
  "---\nt: x\n---\n[% A b='c' /%]".toList

/-- The document with a field set. -/
def taggedWithField : Text :=
  "---\nt: x\n---\n[% A b=\"c\" /%]\n\n---\ndata:\n  k: \"v\"\n---\n".toList

theorem components_taggedWithField :
    setField? tagged "k".toList (.text "v".toList) = .ok taggedWithField ∧
      ¬ openMark <:+: (Regions.read tagged).metadata.spill ∧
      (components taggedWithField = components tagged ↔
        (∀ c ∈ componentsOf (read tagged).document.body, c.Unquoted) ∧
          ∀ a t, Regions.firstCut Regions.sectionStart? (middle tagged) = some (a, t) →
            ¬ openMark <:+: t) :=
  have hset : setField? tagged "k".toList (.text "v".toList) = .ok taggedWithField := by
    decide +kernel
  have hspill : ¬ openMark <:+: (Regions.read tagged).metadata.spill := by decide +kernel
  ⟨hset, hspill, (components_setField? (by decide +kernel) hset).2 hspill⟩

/-- A value between single quotation marks that holds a double one gets two more marks. -/
theorem not_forall_components_setField? : ¬ ∀ source name s text : Text, isKey name = true →
    setField? source name (.text s) = .ok text → components text = components source := by
  intro h
  have hset : setField? "---\nt: x\n---\n[% A k='x\"y' /%]".toList "a".toList (.text "b".toList) =
      .ok "---\nt: x\n---\n[% A k=\"x\"y\" /%]\n\n---\ndata:\n  a: \"b\"\n---\n".toList := by
    decide +kernel
  exact absurd (h _ _ _ _ (by decide +kernel) hset) (by decide +kernel)

end Document

end Formdoc
