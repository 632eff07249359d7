/-
The form of the blocks that are read.

Whatever the text of a document, the blocks of its body are well-formed
(`Block.WellFormed`): a heading has a level from one to six and one title, a
paragraph has texts of one line each, of which at most the last lacks its line
feed, and a component has a name and properties that can stand in a tag.
Headings and paragraphs hold texts alone, so that the components of a body are
those of its blocks that are components (`componentsOf_eq_filterMap`).

This is what the writer relies on.  It follows from the blocks being sound, which
ties the form of a paragraph to the place where it stands among the others
(`Block.Sound.wellFormed`).
-/
import Formdoc.Proofs.Body.Rewritten

namespace Formdoc

open Text

namespace Markdown

/-- A text of a paragraph: one line that says something and opens no tag, without the form of a
heading, and with a line feed nowhere but at its end. -/
structure ParagraphText (s : Text) : Prop where
  not_blank : trim s ≠ []
  not_heading : ¬ HeadingShaped (trim s)
  not_open : ¬ openMark <:+: s
  not_lineFeed : '\n' ∉ s.dropLast

theorem ProseLine.paragraphText_lineFeed {l : Text} (h : ProseLine l) :
    ParagraphText (l ++ ['\n']) where
  not_blank := by
    rw [trim_append_blank l (by decide)]
    exact h.not_blank
  not_heading := by
    rw [trim_append_blank l (by decide)]
    exact h.not_heading
  not_open := by
    rw [infix_append_cons_iff (by decide) (by decide)]
    exact not_or.2 ⟨h.not_open, by decide⟩
  not_lineFeed := by
    rw [List.dropLast_concat]
    exact h.not_lineFeed

theorem ProseLine.paragraphText {l : Text} (h : ProseLine l) : ParagraphText l where
  not_blank := h.not_blank
  not_heading := h.not_heading
  not_open := h.not_open
  not_lineFeed := fun hm => h.not_lineFeed ((List.dropLast_sublist l).subset hm)

end Markdown

/-- The inline is a text of a paragraph. -/
def Inline.IsParagraphText (i : Inline) : Prop :=
  ∃ s p, i = .text s p ∧ Markdown.ParagraphText s

/-- The inline is a text that ends in a line feed. -/
def Inline.EndsLine (i : Inline) : Prop :=
  ∃ s p, i = .text s p ∧ s.getLast? = some '\n'

theorem Inline.Line.isParagraphText {last : Bool} {i : Inline} (h : i.Line (Block.ending last)) :
    i.IsParagraphText := by
  obtain ⟨l, p, rfl, hl⟩ := h
  refine ⟨_, p, rfl, ?_⟩
  cases last with
  | true =>
    rw [Block.ending, if_pos rfl, List.append_nil]
    exact hl.paragraphText
  | false => exact hl.paragraphText_lineFeed

theorem Inline.Line.endsLine {i : Inline} (h : i.Line ['\n']) : i.EndsLine := by
  obtain ⟨l, p, rfl, -⟩ := h
  exact ⟨_, p, rfl, List.getLast?_concat⟩

namespace Block

/-- A block of the form that reading gives. The empty map of properties stands for a component that
has none. -/
def WellFormed : Block → Prop
  | heading level children _ =>
    1 ≤ level ∧ level ≤ 6 ∧ ∃ s p, children = [.text s p] ∧ Markdown.Title s
  | paragraph children _ =>
    children ≠ [] ∧ (∀ i ∈ children, i.IsParagraphText) ∧ ∀ i ∈ children.dropLast, i.EndsLine
  | component c => c.Legible

theorem Sound.wellFormed {last : Bool} {b : Block} (h : b.Sound last) : b.WellFormed := by
  cases b with
  | heading level children p => exact h
  | paragraph children p =>
    obtain ⟨front, final, rfl, hfront, hfinal⟩ := h
    refine ⟨by simp, fun i hi => ?_, fun i hi => ?_⟩
    · rcases List.mem_append.1 hi with hi | hi
      · have hline : i.Line (ending false) := hfront i hi
        exact hline.isParagraphText
      · rw [List.mem_singleton.1 hi]
        exact hfinal.isParagraphText
    · rw [List.dropLast_concat] at hi
      exact (hfront i hi).endsLine
  | component c => exact h

/-- The component that a block is, if it is one. -/
def component? : Block → Option Component
  | component c => some c
  | heading _ _ _ => none
  | paragraph _ _ => none

/-- No inline of a well-formed block is a component. -/
theorem WellFormed.components_eq {b : Block} (h : b.WellFormed) :
    b.components = b.component?.toList := by
  cases b with
  | heading level children p =>
    obtain ⟨-, -, s, q, rfl, -⟩ := h
    rfl
  | paragraph children p =>
    obtain ⟨-, hall, -⟩ := h
    refine List.filterMap_eq_nil_iff.2 fun i hi => ?_
    obtain ⟨s, q, rfl, -⟩ := hall i hi
    rfl
  | component c => rfl

end Block

/-- The components in well-formed blocks are the blocks that are components. -/
theorem componentsOf_eq_filterMap {bs : List Block} (h : ∀ b ∈ bs, b.WellFormed) :
    componentsOf bs = bs.filterMap Block.component? := by
  induction bs with
  | nil => rfl
  | cons b bs ih =>
    obtain ⟨hb, hbs⟩ := List.forall_mem_cons.1 h
    rw [componentsOf, List.flatMap_cons, ← componentsOf, ih hbs, hb.components_eq,
      List.filterMap_cons]
    cases b.component? <;> rfl

namespace Document

/-- The body of a document that was read is well-formed, and its components are those of its blocks
that are components. -/
theorem wellFormed_read (source : Text) :
    (∀ b ∈ (read source).document.body, b.WellFormed) ∧
      componentsOf (read source).document.body =
        (read source).document.body.filterMap Block.component? := by
  have hall : ∀ b ∈ (read source).document.body, b.WellFormed := fun b hb => by
    obtain ⟨last, hs⟩ := Body.sound_of_mem_read hb
    exact hs.wellFormed
  exact ⟨hall, componentsOf_eq_filterMap hall⟩

/-- A document with two tags, of which the first breaks a line in two and the second has no end. -/
def draft : Text :=
  "---\nt: x\n---\n#a b\nc [% A k='v' /%] d [% B".toList

theorem wellFormed_draft :
    .paragraph [.text "#a b\n".toList ⟨1, 1⟩, .text "c ".toList ⟨2, 1⟩] ⟨1, 1⟩ ∈
        (read draft).document.body ∧
      (Block.paragraph [.text "#a b\n".toList ⟨1, 1⟩, .text "c ".toList ⟨2, 1⟩]
        ⟨1, 1⟩).WellFormed ∧
    .component ⟨['A'], .ofList [(['k'], .text ['v'])], ⟨2, 3⟩⟩ ∈ (read draft).document.body ∧
      (Block.component ⟨['A'], .ofList [(['k'], .text ['v'])], ⟨2, 3⟩⟩).WellFormed ∧
    componentsOf (read draft).document.body =
      (read draft).document.body.filterMap Block.component? := by
  have hparagraph : .paragraph [.text "#a b\n".toList ⟨1, 1⟩, .text "c ".toList ⟨2, 1⟩] ⟨1, 1⟩ ∈
      (read draft).document.body := by decide +kernel
  have hcomponent : .component ⟨['A'], .ofList [(['k'], .text ['v'])], ⟨2, 3⟩⟩ ∈
      (read draft).document.body := by decide +kernel
  obtain ⟨hall, hcomponents⟩ := wellFormed_read draft
  exact ⟨hparagraph, hall _ hparagraph, hcomponent, hall _ hcomponent, hcomponents⟩

end Document

end Formdoc
