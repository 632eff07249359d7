/-
Bodies without their places, and what their tags settle.

`Block.unplaced` forgets where the parts of a block stand.  The components of
a body, its errors and whether it has a tag that runs to the end are functions
of the tags of its text alone:

* `unplaced_components_read` — one component for each tag that names one;
* `errors_read_eq_nil_iff` — no error exactly when every tag names one;
* `unterminatedTag?_eq_none_iff` — no open tag exactly when all are closed.
-/
import Formdoc.Proofs.Body.Tags

namespace Formdoc

/-! ### Forgetting places -/

/-- The component at the first place. -/
def Component.unplaced (c : Component) : Component :=
  { c with position := Position.first }

/-- The inline with all places forgotten. -/
def Inline.unplaced : Inline → Inline
  | text s _ => .text s Position.first
  | component c => .component c.unplaced

/-- The block with all places forgotten. -/
def Block.unplaced : Block → Block
  | heading level children _ => .heading level (children.map Inline.unplaced) Position.first
  | paragraph children _ => .paragraph (children.map Inline.unplaced) Position.first
  | component c => .component c.unplaced

/-- The component that a tag with the given content names, wherever the tag stands. -/
def Tag.named? (content : Text) : Option Component :=
  Tag.component? content Position.first

namespace Tag

theorem component?_map_unplaced (content : Text) (p : Position) :
    (component? content p).map Component.unplaced = named? content := by
  unfold named? component?
  cases Text.words content with
  | nil => rfl
  | cons name rest => rfl

theorem isNone_component? (content : Text) (p : Position) :
    (component? content p).isNone = (Text.words content).isEmpty := by
  unfold component?
  cases Text.words content with
  | nil => rfl
  | cons name rest => rfl

end Tag

/-! ### Text runs hold no component -/

theorem Markdown.components_group (ls : List (Located Text)) :
    componentsOf (Markdown.group ls) = [] := by
  fun_induction Markdown.group ls with
  | case1 => rfl
  | case2 line rest h ih => exact ih
  | case3 line rest level title h ih =>
    rw [componentsOf, List.flatMap_cons]
    exact ih
  | case4 line rest h ih =>
    rw [componentsOf, List.flatMap_cons]
    refine List.append_eq_nil_iff.2 ⟨?_, ih⟩
    simp [Block.components, Markdown.proseText, Inline.component?]

namespace Body

open Text

theorem unplaced_components_blocks (p : Position) (ts : List Token) :
    (componentsOf ((Located.spread Token.raw p ts).flatMap blocksOf)).map Component.unplaced =
      (ts.filterMap Token.tag?).filterMap fun t => Tag.named? t.1 := by
  induction ts generalizing p with
  | nil => rfl
  | cons t ts ih =>
    rw [Located.spread, List.flatMap_cons, componentsOf, List.flatMap_append, List.map_append,
      List.filterMap_cons]
    show (componentsOf (blocksOf ⟨t, p⟩)).map Component.unplaced ++
      (componentsOf _).map Component.unplaced = _
    rw [ih]
    cases t with
    | text s =>
      show (componentsOf (Markdown.group _)).map Component.unplaced ++ _ = _
      rw [Markdown.components_group]
      rfl
    | tag content closing =>
      simp only [blocksOf, Token.tag?, List.filterMap_cons, ← Tag.component?_map_unplaced content p]
      cases Tag.component? content p with
      | none => rfl
      | some c => rfl

/-- The components of a body are those that its tags name, in order. -/
theorem unplaced_components_read (s : Text) :
    (componentsOf (read s).1).map Component.unplaced =
      (tagsOf s).filterMap fun t => Tag.named? t.1 :=
  unplaced_components_blocks _ _

theorem errors_blocks_eq_nil_iff (p : Position) (ts : List Token) :
    (Located.spread Token.raw p ts).filterMap errorOf = [] ↔
      ∀ t ∈ ts.filterMap Token.tag?, words t.1 ≠ [] := by
  induction ts generalizing p with
  | nil => simp [Located.spread]
  | cons t ts ih =>
    rw [Located.spread, List.filterMap_cons, List.filterMap_cons]
    cases t with
    | text s => exact ih _
    | tag content closing =>
      simp only [errorOf, Token.tag?, Tag.isNone_component?, List.isEmpty_iff]
      by_cases h : words content = []
      · simp [h]
      · simp [h, ih]

/-- A body has no error exactly when each of its tags has a word. -/
theorem errors_read_eq_nil_iff {s : Text} : (read s).2 = [] ↔ ∀ t ∈ tagsOf s, words t.1 ≠ [] :=
  errors_blocks_eq_nil_iff _ _

theorem find?_spread_eq_none_iff (p : Position) (ts : List Token) :
    (Located.spread Token.raw p ts).find? (fun t => t.value.isUnterminated) = none ↔
      ∀ t ∈ ts.filterMap Token.tag?, t.2 ≠ .missing := by
  induction ts generalizing p with
  | nil => simp [Located.spread]
  | cons t ts ih =>
    rw [Located.spread, List.find?_cons, List.filterMap_cons]
    cases t with
    | text s => exact ih _
    | tag content closing =>
      show _ ↔ ∀ u ∈ (content, closing) :: ts.filterMap Token.tag?, u.2 ≠ Closing.missing
      rw [List.forall_mem_cons, ← ih (p.after (Token.tag content closing).raw)]
      cases closing <;> simp only [Token.isUnterminated, ne_eq, reduceCtorEq, not_false_eq_true,
        not_true_eq_false, true_and, false_and]

/-- No tag runs to the end of a body exactly when all its tags are closed. -/
theorem unterminatedTag?_eq_none_iff {s : Text} :
    Document.unterminatedTag? s = none ↔ Terminated s := by
  rw [Document.unterminatedTag?, Option.map_eq_none_iff]
  exact find?_spread_eq_none_iff _ _

end Body

end Formdoc
