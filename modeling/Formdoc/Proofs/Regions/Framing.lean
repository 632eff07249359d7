/-
The front matter of a document, told from its text alone.

A `Framing` takes a text apart as front matter and what follows it.  A text that
cannot be taken apart so has no front matter (`frontMatter?_eq_none_iff`).  Of
the ways to take a text apart the one that counts has the longest blanks behind
the opening fence, then the shortest block, then the longest blanks behind the
closing fence; front matter that is found is of this kind (`exists_foremost`),
and there is only one way of this kind (`Framing.Foremost.eq`).

So the metadata, the body and the data of a document are those of the parts of
its foremost framing (`read_framing`).
-/
import Formdoc.Proofs.Regions.Opening

namespace Formdoc.Regions

open Text

/-- Line breaks in front of a fence go on to the fence. -/
theorem breaks_fence_inj {b b' x x' : Text} (hb : ∀ c ∈ b, isBreak c = true)
    (hb' : ∀ c ∈ b', isBreak c = true) (h : b ++ (fence ++ x) = b' ++ (fence ++ x')) :
    b = b' ∧ x = x' := by
  have hstop (y : Text) (c : Char) (hc : (fence ++ y).head? = some c) : isBreak c = false := by
    obtain rfl : '-' = c := Option.some_inj.1 hc
    decide
  have htake := congrArg (List.takeWhile isBreak) h
  rw [(span_append hb (hstop x)).1, (span_append hb' (hstop x')).1] at htake
  rw [htake, List.append_cancel_left_eq] at h
  exact ⟨htake, List.append_cancel_left h⟩

/-! ### Framings -/

/-- A text taken apart as front matter and what follows it: the blanks behind the opening fence, the
block, the line breaks behind it, the blanks behind the closing fence, and the rest. -/
structure Framing where
  blanks : Text
  block : Text
  gap : Text
  closing : Text
  rest : Text

namespace Framing

/-- The parts, with the two fences between them, make up the text. -/
structure Of (f : Framing) (source : Text) : Prop where
  eq : source = fence ++ f.blanks ++ f.block ++ f.gap ++ fence ++ f.closing ++ f.rest
  blanks : EndsInBreak f.blanks
  gap_ne : f.gap ≠ []
  isBreak_gap : ∀ c ∈ f.gap, isBreak c = true
  closing : EndsInBreak f.closing

/-- Among the ways to take the text apart this has the longest blanks behind the opening fence, then
the shortest block, then the longest blanks behind the closing fence. -/
structure Foremost (f : Framing) (source : Text) : Prop where
  of : f.Of source
  blanks_le : ∀ g : Framing, g.Of source → g.blanks.length ≤ f.blanks.length
  block_le : ∀ g : Framing, g.Of source → g.blanks = f.blanks → f.block.length ≤ g.block.length
  closing_le : ∀ g : Framing, g.Of source → g.blanks = f.blanks → g.block = f.block →
    g.closing.length ≤ f.closing.length

/-- The text behind the opening fence. -/
theorem Of.after? {f : Framing} {source : Text} (h : f.Of source) :
    after? fence source =
      some (f.blanks ++ (f.block ++ (f.gap ++ fence ++ (f.closing ++ f.rest)))) := by
  rw [after?_eq_some_iff, h.eq]
  simp

/-- The text behind the blanks behind the opening fence. -/
theorem Of.mem_blankCuts {f : Framing} {source s : Text} (h : f.Of source)
    (hs : Text.after? fence source = some s) :
    (f.blanks, f.block ++ (f.gap ++ fence ++ (f.closing ++ f.rest))) ∈ blankCuts s := by
  rw [h.after?, Option.some_inj] at hs
  exact mem_blankCuts_iff.2 ⟨hs.symm, h.blanks⟩

theorem Of.blockEnd?_ne_none {f : Framing} {source : Text} (h : f.Of source) :
    blockEnd? (f.gap ++ fence ++ (f.closing ++ f.rest)) ≠ none :=
  Regions.blockEnd?_ne_none h.gap_ne h.isBreak_gap h.closing

end Framing

/-- Front matter is missing exactly if the text cannot be taken apart. -/
theorem frontMatter?_eq_none_iff {source : Text} :
    frontMatter? source = none ↔ ¬ ∃ f : Framing, f.Of source := by
  unfold frontMatter?
  simp only [Option.bind_eq_bind, Option.bind_eq_none_iff, List.findSome?_eq_none_iff,
    Option.map_eq_none_iff]
  constructor
  · rintro hnone ⟨f, hf⟩
    have hcut := hnone _ hf.after? _ (hf.mem_blankCuts hf.after?)
    exact hf.blockEnd?_ne_none (firstCut_eq_none_iff.1 hcut f.block _ rfl)
  · rintro hf s hs ⟨a, t⟩ hcut
    rw [firstCut_eq_none_iff]
    rintro u v rfl
    by_contra hend
    obtain ⟨r, hr⟩ := Option.ne_none_iff_exists'.1 hend
    obtain ⟨rfl, ha⟩ := mem_blankCuts_iff.1 hcut
    obtain ⟨b, w, rfl, hne, hb, hw⟩ := blockEnd?_eq_some_iff.1 hr
    obtain ⟨-, hw⟩ := mem_blankCuts_iff.1 (List.mem_of_head? hw)
    exact hf ⟨⟨a, u, b, w, r⟩, by rw [after?_eq_some_iff.1 hs]; simp, ha, hne, hb, hw⟩

/-- Front matter that is found takes the text apart in the foremost way. -/
theorem exists_foremost {source : Text} {front : FrontMatter}
    (h : frontMatter? source = some front) :
    ∃ f : Framing, f.Foremost source ∧ front = ⟨fence ++ f.blanks, f.block, f.rest⟩ := by
  unfold frontMatter? at h
  simp only [Option.bind_eq_bind, Option.bind_eq_some_iff] at h
  obtain ⟨s, hs, h⟩ := h
  obtain ⟨longer, ⟨a, t⟩, shorter, hcuts, hfound, hlonger⟩ := List.findSome?_eq_some_iff.1 h
  obtain ⟨⟨block, rest⟩, hfirst, rfl⟩ := Option.map_eq_some_iff.1 hfound
  obtain ⟨hst, ha⟩ := mem_blankCuts_iff.1 (show (a, t) ∈ blankCuts s by simp [hcuts])
  obtain ⟨e, rfl, hend, -⟩ := firstCut_eq_some_iff.1 hfirst
  obtain ⟨b, w, rfl, hne, hb, hclosing⟩ := blockEnd?_eq_some_iff.1 hend
  obtain ⟨-, hw, hmax⟩ := head?_blankCuts_eq_some_iff.1 hclosing
  subst hst
  refine ⟨⟨a, block, b, w, rest⟩, ⟨⟨?_, ha, hne, hb, hw⟩, fun g hg => ?_, fun g hg hblanks => ?_,
    fun g hg hblanks hblock => ?_⟩, rfl⟩
  · rw [after?_eq_some_iff.1 hs]
    simp
  · -- Behind the longer cuts, which come first, no block ends.
    refine (mem_or_length_le_of_blankCuts_eq hcuts (hg.mem_blankCuts hs)).resolve_left fun hmem => ?_
    have hcut := Option.map_eq_none_iff.1 (hlonger _ hmem)
    exact hg.blockEnd?_ne_none (firstCut_eq_none_iff.1 hcut g.block _ rfl)
  · have heq := hg.after?
    rw [hs, Option.some_inj, hblanks, List.append_cancel_left_eq] at heq
    exact length_le_of_firstCut hfirst heq hg.blockEnd?_ne_none
  · -- The line breaks behind the block go on to the fence, so that they are the same.
    have heq := hg.after?
    rw [hs, Option.some_inj, hblanks, hblock, List.append_cancel_left_eq,
      List.append_cancel_left_eq] at heq
    simp only [List.append_assoc] at heq
    exact hmax _ _ (breaks_fence_inj hb hg.isBreak_gap heq).2 hg.closing

/-- There is one foremost way at most. -/
theorem Framing.Foremost.eq {f g : Framing} {source : Text} (hf : f.Foremost source)
    (hg : g.Foremost source) : f = g := by
  have heq := hf.of.eq.symm.trans hg.of.eq
  simp only [List.append_assoc, List.append_cancel_left_eq] at heq
  obtain ⟨hblanks, heq⟩ := List.append_inj heq
    (Nat.le_antisymm (hg.blanks_le f hf.of) (hf.blanks_le g hg.of))
  obtain ⟨hblock, heq⟩ := List.append_inj heq
    (Nat.le_antisymm (hf.block_le g hg.of hblanks.symm) (hg.block_le f hf.of hblanks))
  obtain ⟨hgap, heq⟩ := breaks_fence_inj hf.of.isBreak_gap hg.of.isBreak_gap heq
  obtain ⟨hclosing, hrest⟩ := List.append_inj heq
    (Nat.le_antisymm (hg.closing_le f hf.of hblanks hblock)
      (hf.closing_le g hg.of hblanks.symm hblock.symm))
  cases f
  cases g
  simp only at hblanks hblock hgap hclosing hrest
  rw [hblanks, hblock, hgap, hclosing, hrest]

/-! ### The regions of a document -/

/-- The body that is read from the text behind front matter. -/
def bodyOf (rest : Text) : Text :=
  match dataSection? rest with
  | none => trim rest
  | some found => trim found.before

/-- The warning about a data section, in a document with the given text behind its front matter. -/
def warningOf (source rest : Text) : List Diagnostic :=
  match dataSection? rest with
  | none => []
  | some found => if found.closed then [] else [.unclosedData (lineOf source found.tail)]

theorem read_of_frontMatter {source : Text} {front : FrontMatter}
    (h : frontMatter? source = some front) :
    read source = ⟨(Metadata.read front.block (breaks front.opening + 1)).1, bodyOf front.rest,
      dataOf front.rest,
      (Metadata.read front.block (breaks front.opening + 1)).2 ++ warningOf source front.rest⟩ := by
  unfold read bodyOf dataOf warningOf
  rw [h]
  simp only
  cases dataSection? front.rest with
  | none => simp
  | some found => cases hclosed : found.closed <;> simp [hclosed]

/-- A document that cannot be taken apart is all body. Of any other one there is one foremost
framing, whose block is read as the metadata and whose rest is read as body and data. -/
theorem read_framing (source : Text) :
    ((¬ ∃ f : Framing, f.Of source) → read source = ⟨.empty, source, .empty, []⟩) ∧
      ((∃ f : Framing, f.Of source) →
        ∃ f : Framing, f.Foremost source ∧ (∀ g : Framing, g.Foremost source → g = f) ∧
          read source = ⟨(Metadata.read f.block (breaks (fence ++ f.blanks) + 1)).1, bodyOf f.rest,
            dataOf f.rest,
            (Metadata.read f.block (breaks (fence ++ f.blanks) + 1)).2 ++
              warningOf source f.rest⟩) := by
  constructor
  · intro h
    exact read_of_none (frontMatter?_eq_none_iff.2 h)
  · intro h
    obtain ⟨front, hfront⟩ := Option.ne_none_iff_exists'.1 fun hnone =>
      frontMatter?_eq_none_iff.1 hnone h
    obtain ⟨f, hf, rfl⟩ := exists_foremost hfront
    exact ⟨f, hf, fun g hg => hg.eq hf, read_of_frontMatter hfront⟩

/-- A document that can be taken apart in several ways, each of the three runs of blanks and line
breaks being longer than it has to be. -/
def spaced : Text :=
  "--- \n\nt: x\r\n\n---\n \n\nBody\n---\ndata:\n  a: 1\n---\n".toList

/-- A document whose closing fence has no line break behind it. -/
def unclosed : Text :=
  "---\nt: x\n---".toList

theorem read_framing_spaced :
    ((∃ f : Framing, f.Of spaced) ∧
        ∃ f : Framing, f.Foremost spaced ∧ (∀ g : Framing, g.Foremost spaced → g = f) ∧
          read spaced = ⟨(Metadata.read f.block (breaks (fence ++ f.blanks) + 1)).1, bodyOf f.rest,
            dataOf f.rest,
            (Metadata.read f.block (breaks (fence ++ f.blanks) + 1)).2 ++
              warningOf spaced f.rest⟩) ∧
      ((¬ ∃ f : Framing, f.Of unclosed) ∧ read unclosed = ⟨.empty, unclosed, .empty, []⟩) := by
  have hspaced : ∃ f : Framing, f.Of spaced :=
    ⟨⟨" \n".toList, "\nt: x".toList, "\r\n\n".toList, "\n".toList,
      " \n\nBody\n---\ndata:\n  a: 1\n---\n".toList⟩, by decide, ⟨by decide, '\n', by decide⟩,
      by decide, by decide, ⟨by decide, '\n', by decide⟩⟩
  have hunclosed : ¬ ∃ f : Framing, f.Of unclosed := frontMatter?_eq_none_iff.1 (by decide +kernel)
  exact ⟨⟨hspaced, (read_framing spaced).2 hspaced⟩, hunclosed, (read_framing unclosed).1 hunclosed⟩

end Formdoc.Regions
