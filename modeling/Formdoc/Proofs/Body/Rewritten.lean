/-
Bodies that are written and read again.

A body that was read, written anew and read again has the same blocks, but for
two changes (`unplaced_read_write_read`): in front of another block, a paragraph
that lacks the line feed at its end has gained one, and a property value that
holds a quotation mark stands between two more.  `rewritten` is the body with
these changes.

What makes this so is that the blocks of any body are `Sound`
(`sound_of_mem_read`), and that sound blocks, written one after another, are read
back one by one (`shape_write_of_sound`).  In a canonical body there is nothing to
change, so that it is read back as it is written (`shape_write`).  A component by
itself is read back just if it is canonical (`read_write_component_iff`).
-/
import Formdoc.Proofs.Body.Blocks
import Mathlib.Data.List.ModifyLast

namespace Formdoc

open Text

/-! ### Line feeds at the ends of blocks -/

/-- The inline with a line feed at its end, if it is a text. -/
def Inline.ended : Inline → Inline
  | text s p => text (if s.getLast? = some '\n' then s else s ++ ['\n']) p
  | component c => component c

theorem Markdown.ProseLine.ended_text {l : Text} (h : ProseLine l) (last : Bool) (p : Position) :
    (Inline.text (l ++ Block.ending last) p).ended = .text (l ++ ['\n']) p := by
  cases last with
  | true =>
    have hlast : l.getLast? ≠ some '\n' := fun hl => h.not_lineFeed (List.mem_of_getLast? hl)
    rw [Inline.ended, Block.ending, if_pos rfl, List.append_nil, if_neg hlast]
  | false =>
    have hlast : (l ++ Block.ending false).getLast? = some '\n' := List.getLast?_concat
    rw [Inline.ended, if_pos hlast]
    rfl

namespace Inline.Line

variable {last : Bool} {i : Inline}

theorem ended (h : i.Line (Block.ending last)) : i.ended.Line ['\n'] := by
  obtain ⟨l, p, rfl, hl⟩ := h
  exact ⟨l, p, hl.ended_text last p, hl⟩

theorem write_ended (h : i.Line (Block.ending last)) :
    i.ended.write = i.write ++ Block.ending (!last) := by
  obtain ⟨l, p, rfl, hl⟩ := h
  rw [hl.ended_text last p]
  cases last <;> simp [Inline.write, Block.ending]

theorem ended_eq (h : i.Line ['\n']) : i.ended = i := by
  obtain ⟨l, p, rfl, hl⟩ := h
  exact hl.ended_text false p

end Inline.Line

namespace Block

/-- The block with a line feed at its end, if it is a paragraph. -/
def ended : Block → Block
  | paragraph children p => paragraph (children.modifyLast Inline.ended) p
  | b => b

/-- A sound block stays sound with a line feed at its end. -/
theorem Sound.ended {last : Bool} {b : Block} (h : b.Sound last) : b.ended.Sound false := by
  cases b with
  | heading level children p => exact h
  | paragraph children p =>
    obtain ⟨front, final, rfl, hfront, hfinal⟩ := h
    exact ⟨front, final.ended, List.modifyLast_concat _ _ _, hfront, hfinal.ended⟩
  | component c => exact h

theorem Sound.ended_eq {b : Block} (h : b.Sound false) : b.ended = b := by
  cases b with
  | heading level children p => rfl
  | paragraph children p =>
    obtain ⟨front, final, rfl, hfront, hfinal⟩ := h
    rw [Block.ended, List.modifyLast_concat, hfinal.ended_eq]
  | component c => rfl

/-- With a line feed at its end, a block is written as it was, or with one line feed more. -/
theorem Sound.write_ended {last : Bool} {b : Block} (h : b.Sound last) :
    b.ended = b ∨ b.ended.write = b.write ++ ['\n'] := by
  cases last with
  | false => exact .inl h.ended_eq
  | true =>
    cases b with
    | heading level children p => exact .inl rfl
    | paragraph children p =>
      obtain ⟨front, final, rfl, hfront, hfinal⟩ := h
      refine .inr ?_
      rw [Block.ended, List.modifyLast_concat, write, write, List.flatMap_append,
        List.flatMap_append, List.flatMap_singleton, List.flatMap_singleton, hfinal.write_ended,
        List.append_assoc]
      rfl
    | component c => exact .inl rfl

end Block

namespace Body

/-- The body as it is read from the text in which it is written. -/
def rewritten : List Block → List Block
  | [] => []
  | [b] => [b.requoted]
  | b :: c :: bs => b.ended.requoted :: rewritten (c :: bs)

/-- A sound block with an empty line, or nothing, behind its line feed is read back with the line
feed at its end. -/
theorem shape_ended_append {last : Bool} {b : Block} (h : b.Sound last) {x : Text}
    (hx : x = [] ∨ x.head? = some '\n') :
    shape (b.write ++ '\n' :: x) = b.ended.requoted.unplaced :: shape x := by
  rcases h.write_ended with heq | hwrite
  · have hs := h.ended
    rw [heq] at hs ⊢
    exact shape_sound_append hs x
  · -- The line feed becomes part of the paragraph.
    have hform : b.write ++ '\n' :: x = b.ended.write ++ x := by simp [hwrite]
    rw [hform]
    rcases hx with rfl | hx
    · rw [List.append_nil, shape_sound h.ended, shape_nil]
    · obtain ⟨y, rfl⟩ := List.head?_eq_some_iff.1 hx
      rw [shape_sound_append h.ended, shape_lineFeed]

/-- Sound blocks, written one after another, are read back one by one. -/
theorem shape_write_of_sound {bs : List Block} (h : ∀ b ∈ bs, ∃ last, b.Sound last) :
    shape (write bs) = (rewritten bs).map Block.unplaced := by
  induction bs with
  | nil => exact shape_nil
  | cons b bs ih =>
    obtain ⟨last, hb⟩ := h b List.mem_cons_self
    cases bs with
    | nil =>
      rw [write_singleton]
      exact shape_sound hb
    | cons c cs =>
      rw [write_cons_cons, shape_ended_append hb (.inr rfl), shape_lineFeed,
        ih fun d hd => h d (List.mem_cons_of_mem _ hd)]
      rfl

/-- Tidy blocks are written without an error. -/
theorem errors_write_of_tidy {bs : List Block} (h : ∀ b ∈ bs, b.Tidy) :
    (read (write bs)).2 = [] := by
  rw [errors_read_eq_nil_iff]
  intro t ht
  rw [tagsOf_write h] at ht
  obtain ⟨c, hc, rfl⟩ := List.mem_map.1 ht
  exact (legible_of_mem_componentsOf h hc).words_content_ne_nil

/-! ### Canonical bodies -/

/-- A body that is read back as it is written: its blocks are canonical, and the last one is
canonical as the last. -/
def Canonical : List Block → Prop
  | [] => True
  | [b] => b.Canonical true
  | b :: bs => b.Canonical false ∧ Canonical bs

theorem Canonical.sound {bs : List Block} (h : Canonical bs) :
    ∀ b ∈ bs, ∃ last, b.Sound last := by
  induction bs with
  | nil => simp
  | cons b bs ih =>
    intro c hc
    cases bs with
    | nil =>
      obtain rfl := List.mem_singleton.1 hc
      exact ⟨true, Block.Canonical.sound h⟩
    | cons d ds =>
      rcases List.mem_cons.1 hc with rfl | hc
      · exact ⟨false, h.1.sound⟩
      · exact ih h.2 c hc

theorem Canonical.tidy {bs : List Block} (h : Canonical bs) : ∀ b ∈ bs, b.Tidy := fun b hb => by
  obtain ⟨last, hs⟩ := h.sound b hb
  exact hs.tidy

theorem requoted_of_canonical {last : Bool} {b : Block} (h : b.Canonical last) :
    b.requoted = b := by
  cases b with
  | heading level children p => rfl
  | paragraph children p => rfl
  | component c => rw [Block.requoted, h.1.requoted_eq_self_iff.2 h.2]

/-- In a canonical body there is nothing to change. -/
theorem Canonical.rewritten_eq {bs : List Block} (h : Canonical bs) : rewritten bs = bs := by
  induction bs with
  | nil => rfl
  | cons b bs ih =>
    cases bs with
    | nil => rw [rewritten, requoted_of_canonical h]
    | cons c cs => rw [rewritten, h.1.sound.ended_eq, requoted_of_canonical h.1, ih h.2]

/-- A canonical body is read back, but for the places of its parts. -/
theorem shape_write {bs : List Block} (h : Canonical bs) :
    shape (write bs) = bs.map Block.unplaced := by
  rw [shape_write_of_sound h.sound, h.rewritten_eq]

/-- A canonical body has no error. -/
theorem errors_write {bs : List Block} (h : Canonical bs) : (read (write bs)).2 = [] :=
  errors_write_of_tidy h.tidy

/-! ### Bodies that were read -/

end Body

namespace Markdown

/-- The title of a line that is a heading. -/
theorem title_of_kind {line title : Text} {level : Nat} (h : kind line = .heading level title)
    (hn : '\n' ∉ trim line) (ho : ¬ openMark <:+: line) : Title title where
  ne_nil := (trim_title h).1
  trim_eq := (trim_title h).2
  not_lineFeed := fun hm => hn ((infix_title h).subset hm)
  not_open := fun hi => ho (hi.trans ((infix_title h).trans (infix_trim _)))

section Pieces

variable {r : Text} (hr : ¬ openMark <:+: r)

include hr

theorem not_open_of_mem_pieces {l : Text} (h : l ∈ pieces r) : ¬ openMark <:+: l := fun hi => by
  have hl := List.infix_of_mem_flatten h
  rw [flatten_pieces] at hl
  exact hr (hi.trans hl)

theorem title_of_mem_pieces {l title : Text} {level : Nat} (h : l ∈ pieces r)
    (hk : kind l = .heading level title) : Title title := by
  refine title_of_kind hk ?_ (not_open_of_mem_pieces hr h)
  obtain ⟨a, b, hsplit⟩ := List.append_of_mem h
  obtain ⟨k, hn, hl⟩ := of_pieces_eq hsplit
  have hsub : '\n' ∉ trim k := fun hm => hn ((infix_trim k).subset hm)
  rcases hl with rfl | ⟨rfl, -⟩
  · rwa [trim_append_blank k (by decide)]
  · exact hsub

/-- A piece that is prose is a line of a paragraph, and only the last piece may lack the line
feed. -/
theorem line_of_pieces_eq {l : Located Text} {a b : List Text} (h : pieces r = a ++ l.value :: b)
    (hk : kind l.value = .prose) :
    (proseText l).Line ['\n'] ∨ ((proseText l).Line [] ∧ b = []) := by
  have ho := not_open_of_mem_pieces hr (h ▸ List.mem_append_right _ List.mem_cons_self)
  have hprose {k : Text} (hk : kind k = .prose) (hn : '\n' ∉ k) (ho : ¬ openMark <:+: k) :
      ProseLine k := ⟨hn, ho, (of_kind_prose hk).1, (of_kind_prose hk).2⟩
  obtain ⟨k, hn, heq | ⟨heq, hb⟩⟩ := of_pieces_eq h
  · rw [heq] at hk ho
    rw [kind_append_lineFeed] at hk
    refine .inl ⟨k, l.position, by rw [proseText, heq], hprose hk hn fun hi => ho ?_⟩
    exact hi.trans (List.prefix_append ..).isInfix
  · rw [heq] at hk ho
    exact .inr ⟨⟨k, l.position, by rw [proseText, heq, List.append_nil], hprose hk hn ho⟩, hb⟩

/-- The blocks of a run of text in which no tag opens are sound. -/
theorem sound_of_mem_run {p : Position} {b : Block} (hb : b ∈ read p r) :
    ∃ last, b.Sound last := by
  have hvalues : (Located.spread id p (pieces r)).map Located.value = pieces r :=
    Located.map_value_spread ..
  cases ofLines_of_mem_group hb with
  | heading q q' hl hk =>
    have hmem := hvalues ▸ List.mem_map_of_mem (f := Located.value) hl
    obtain ⟨h1, hmax, -⟩ := of_kind_heading hk
    exact ⟨true, h1, hmax, _, _, rfl, title_of_mem_pieces hr hmem hk⟩
  | paragraph q hpart hne hk =>
    rename_i part
    obtain ⟨a, c, hac⟩ := hpart
    obtain ⟨front, final, rfl⟩ := (List.eq_nil_or_concat part).resolve_left hne
    rw [List.concat_eq_append] at hac hk ⊢
    have hline {u v : List (Located Text)} {i : Located Text} (hi : i ∈ front ++ [final])
        (hsplit : a ++ (front ++ [final]) ++ c = u ++ i :: v) :
        (proseText i).Line ['\n'] ∨ ((proseText i).Line [] ∧ v = []) := by
      rw [← hac, hsplit, List.map_append, List.map_cons] at hvalues
      exact (line_of_pieces_eq hr hvalues.symm (hk i hi)).imp_right
        (And.imp_right List.map_eq_nil_iff.1)
    -- Behind each line but the last one stands another, so that it ends in a line feed.
    have hfront : ∀ i ∈ front.map proseText, i.Line ['\n'] := by
      intro i hi
      obtain ⟨l, hl, rfl⟩ := List.mem_map.1 hi
      obtain ⟨u, v, rfl⟩ := List.append_of_mem hl
      refine (hline (u := a ++ u) (v := v ++ [final] ++ c) ?_ ?_).resolve_right ?_
      · simp
      · simp
      · simp
    have hfinal := hline (i := final) (u := a ++ front) (v := c) (by simp) (by simp)
    rw [List.map_append, List.map_singleton]
    rcases hfinal with hfinal | ⟨hfinal, -⟩
    · exact ⟨false, _, _, rfl, hfront, hfinal⟩
    · exact ⟨true, _, _, rfl, hfront, hfinal⟩

end Pieces

end Markdown

namespace Body

/-- The blocks of a body that was read are sound. -/
theorem sound_of_mem_read {s : Text} {b : Block} (h : b ∈ (read s).1) : ∃ last, b.Sound last := by
  obtain ⟨t, ht, p, hb⟩ := exists_of_mem_read h
  have hpure := Token.pure_of_mem_tokens ht
  cases t with
  | text r => exact Markdown.sound_of_mem_run hpure hb
  | tag content closing =>
    obtain ⟨c, rfl, hc⟩ := exists_of_component_mem hb
    exact ⟨true, legible_congr (Tag.legible_of_named? hc hpure).1 rfl rfl⟩

/-- What one round trip does to a body: without an error, the blocks come back in order, but that a
paragraph in front of another block now ends in a line feed, and that the values of properties with
a quotation mark stand between two more. -/
theorem unplaced_read_write_read (s : Text) :
    (read (write (read s).1)).2 = [] ∧
      (read (write (read s).1)).1.map Block.unplaced =
        (rewritten (read s).1).map Block.unplaced :=
  ⟨errors_write_of_tidy fun _ => tidy_of_mem_read,
    shape_write_of_sound fun _ => sound_of_mem_read⟩

/-! ### A single component -/

/-- A component is read back from its tag, alone and without an error, exactly when it is legible
and no value of its properties holds a quotation mark. -/
theorem read_write_component_iff (c : Component) :
    ((read c.write).2 = [] ∧
      ∃ d, (read c.write).1 = [.component d] ∧ d.name = c.name ∧ d.props = c.props) ↔
      c.Legible ∧ c.Unquoted := by
  constructor
  · rintro ⟨-, d, hd, hname, hprops⟩
    -- Whatever is read from a tag is legible, and so is what it has the name and properties of.
    have hlegible : c.Legible := by
      have htidy : (Block.component d).Tidy := tidy_of_mem_read (hd ▸ List.mem_singleton_self _)
      exact legible_congr htidy hname hprops
    have hsound : (Block.component c).Sound true := hlegible
    have hshape : shape c.write = [.component c.requoted.unplaced] := shape_sound hsound
    rw [shape, hd, List.map_singleton, List.singleton_inj, Block.unplaced,
      Block.component.injEq] at hshape
    refine ⟨hlegible, hlegible.requoted_eq_self_iff.1 ?_⟩
    have hrequoted : c.props.mapValues Property.requoted = d.props :=
      (congrArg Component.props hshape).symm
    rw [Component.requoted, hrequoted, hprops]
  · rintro ⟨hlegible, hunquoted⟩
    have hcanonical : Canonical [.component c] := ⟨hlegible, hunquoted⟩
    have herrors := errors_write hcanonical
    have hshape := shape_write hcanonical
    rw [write_singleton, Block.write] at herrors hshape
    obtain ⟨b, hb, hunplaced⟩ := List.map_eq_singleton_iff.1 hshape
    -- Only a component is one without its place.
    cases b with
    | component d =>
      rw [Block.unplaced, Block.unplaced, Block.component.injEq] at hunplaced
      have hname : d.unplaced.name = c.unplaced.name := by rw [hunplaced]
      have hprops : d.unplaced.props = c.unplaced.props := by rw [hunplaced]
      exact ⟨herrors, d, hb, hname, hprops⟩
    | _ => cases hunplaced

end Body

end Formdoc
