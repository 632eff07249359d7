/-
What is to be said about a document.

A tag of a body that says nothing is an error at its place and names no
component.  Each other tag is no error and names one component (`Names`).  Text
between tags gives neither (`componentsOf_blocksOf_text`).

So what is said about a document are the warnings about its regions and then one
error for each blank tag of its body, while its components are those that the
other tags name, all in the order of the tags (`read_tags`).  A document is
refused exactly if a tag of its body is blank, with the errors and without the
warnings.
-/
import Formdoc.Proofs.Document.Written
import Formdoc.Proofs.Text.Words

namespace Formdoc

open Text

/-- The token is a tag. -/
def Token.isTag : Token → Bool
  | text _ => false
  | tag _ _ => true

namespace Body

/-! ### Tags of a body -/

/-- The tags of a body, each with the place where it starts. -/
def locatedTags (s : Text) : List (Located Token) :=
  (locatedTokens s).filter fun t => t.value.isTag

/-- The tags of a body that say nothing. -/
def blankTags (s : Text) : List (Located Token) :=
  (locatedTags s).filter fun t => t.value.value = []

/-- The tags of a body that say something. -/
def namingTags (s : Text) : List (Located Token) :=
  (locatedTags s).filter fun t => t.value.value ≠ []

/-- The component stands where the tag does, and has the first segment of the tag for its name. -/
def Names (t : Located Token) (c : Component) : Prop :=
  c.position = t.position ∧ ∃ rest, segments t.value.value = c.name :: rest

section Tag

variable {content : Text} {closing : Closing} {p : Position}

theorem errorOf_tag :
    errorOf ⟨.tag content closing, p⟩ = if trim content = [] then some (.emptyTag p) else none := by
  simp only [errorOf, Tag.isNone_component?, List.isEmpty_iff, words_eq_nil_iff]

theorem componentsOf_blocksOf_text (s : Text) : componentsOf (blocksOf ⟨.text s, p⟩) = [] :=
  Markdown.components_group _

theorem componentsOf_blocksOf_blank (h : trim content = []) :
    componentsOf (blocksOf ⟨.tag content closing, p⟩) = [] := by
  have hnone : Tag.component? content p = none := by
    rw [Tag.component?, words_eq_nil_iff.2 h]
  simp only [blocksOf, hnone]
  rfl

theorem componentsOf_blocksOf_tag (h : trim content ≠ []) :
    ∃ c, componentsOf (blocksOf ⟨.tag content closing, p⟩) = [c] ∧
      Names ⟨.tag content closing, p⟩ c := by
  obtain ⟨name, rest, hwords⟩ :=
    List.exists_cons_of_ne_nil fun hnil => h (words_eq_nil_iff.1 hnil)
  have hsome : Tag.component? content p =
      some ⟨name, .ofList (rest.filterMap Tag.property?), p⟩ := by
    rw [Tag.component?, hwords]
  refine ⟨⟨name, .ofList (rest.filterMap Tag.property?), p⟩, ?_, rfl, rest, ?_⟩
  · simp only [blocksOf, hsome]
    rfl
  · rw [Token.value, segments_trim, ← words_eq_segments, hwords]

end Tag

/-! ### All tokens -/

/-- The errors in tokens are their blank tags. -/
theorem filterMap_errorOf (ts : List (Located Token)) :
    ts.filterMap errorOf =
      ((ts.filter fun t => t.value.isTag).filter fun t => t.value.value = []).map
        fun t => .emptyTag t.position := by
  induction ts with
  | nil => rfl
  | cons t ts ih =>
    obtain ⟨token, p⟩ := t
    cases token with
    | text s => exact ih
    | tag content closing =>
      rw [List.filterMap_cons, errorOf_tag, List.filter_cons_of_pos rfl, List.filter_cons]
      by_cases h : trim content = []
      · simp [h, ih, Token.value]
      · simp [h, ih, Token.value]

/-- The components that tokens give are those that the other tags name. -/
theorem forall₂_names (ts : List (Located Token)) :
    List.Forall₂ Names ((ts.filter fun t => t.value.isTag).filter fun t => t.value.value ≠ [])
      (componentsOf (ts.flatMap blocksOf)) := by
  induction ts with
  | nil => exact .nil
  | cons t ts ih =>
    have hcons : componentsOf ((t :: ts).flatMap blocksOf) =
        componentsOf (blocksOf t) ++ componentsOf (ts.flatMap blocksOf) :=
      List.flatMap_append
    obtain ⟨token, p⟩ := t
    rw [hcons]
    cases token with
    | text s =>
      rw [componentsOf_blocksOf_text]
      exact ih
    | tag content closing =>
      rw [List.filter_cons_of_pos rfl]
      by_cases h : trim content = []
      · rw [componentsOf_blocksOf_blank h, List.filter_cons_of_neg (by simp [Token.value, h])]
        exact ih
      · obtain ⟨c, hc, hnames⟩ :
            ∃ c, componentsOf (blocksOf ⟨.tag content closing, p⟩) = [c] ∧ Names _ c :=
          componentsOf_blocksOf_tag h
        rw [hc, List.filter_cons_of_pos (by simp [Token.value, h])]
        exact .cons hnames ih

theorem errors_read_eq (s : Text) : (read s).2 = (blankTags s).map fun t => .emptyTag t.position :=
  filterMap_errorOf _

theorem names_read (s : Text) : List.Forall₂ Names (namingTags s) (componentsOf (read s).1) :=
  forall₂_names _

end Body

/-- There is an error among the diagnostics exactly if the errors are not none. -/
theorem Reading.any_isError_iff {r : Reading} :
    r.diagnostics.any Diagnostic.isError = true ↔ r.errors ≠ [] := by
  rw [errors, ne_eq, List.filter_eq_nil_iff]
  simp

namespace Document

theorem result_read (source : Text) :
    (read source).result =
      if Body.blankTags (Regions.read source).body = [] then .ok (read source).document
      else .error ((Body.blankTags (Regions.read source).body).map fun t => .emptyTag t.position) := by
  rw [Reading.result, errors_read, Body.errors_read_eq]
  simp only [List.isEmpty_iff, List.map_eq_nil_iff]

/-- The errors of a document are the blank tags of its body. They follow the warnings about its
regions, and the document is refused with them if there is one. Each other tag names a component of
the document. -/
theorem read_tags (source : Text) :
    (read source).diagnostics = (Regions.read source).diagnostics ++
        (Body.blankTags (Regions.read source).body).map (fun t => .emptyTag t.position) ∧
      (Regions.read source).diagnostics.filter Diagnostic.isError = [] ∧
      List.Forall₂ Body.Names (Body.namingTags (Regions.read source).body)
        (componentsOf (read source).document.body) ∧
      ((read source).diagnostics.any Diagnostic.isError = true ↔
        ∃ t ∈ Body.locatedTags (Regions.read source).body, t.value.value = []) ∧
      (read source).result =
        if (read source).diagnostics.any Diagnostic.isError then
          .error ((Body.blankTags (Regions.read source).body).map fun t => .emptyTag t.position)
        else .ok (read source).document := by
  have hdiagnostics : (read source).diagnostics = (Regions.read source).diagnostics ++
      (Body.blankTags (Regions.read source).body).map fun t => .emptyTag t.position := by
    rw [diagnostics_read, Body.errors_read_eq]
  have hany : (read source).diagnostics.any Diagnostic.isError = true ↔
      Body.blankTags (Regions.read source).body ≠ [] := by
    rw [Reading.any_isError_iff, errors_read, Body.errors_read_eq, ne_eq, ne_eq,
      List.map_eq_nil_iff]
  refine ⟨hdiagnostics, Regions.filter_isError_diagnostics source, Body.names_read _, ?_, ?_⟩
  · rw [hany, Body.blankTags, ne_eq, List.filter_eq_nil_iff]
    simp
  · rw [result_read]
    simp only [hany, ne_eq, ite_not]

end Document

end Formdoc
