/-
Openings of data sections.

A text opens a data section at its front, or within, behind a line break
(`OpensAtFront`, `OpensWithin`).  This is what the searches of a document find
(`opensAtFront_iff`, `opensWithin_iff`), so that both can be decided.  What a
document is read as depends on its front matter and on the opening that is found
behind it (`read_of_none`, `read_of_no_section`, `read_of_section`).

Line breaks behind a text make no opening in it (`OpensAtFront.of_append`,
`OpensWithin.of_append`), no text behind it takes one away
(`OpensWithin.append`), and without a fence there is none (`not_opensWithin`).
-/
import Formdoc.Proofs.Regions.Cut

namespace Formdoc.Regions

open Text

/-- A data section opens at the front of the text: a fence, line breaks and the marker. -/
def OpensAtFront (s : Text) : Prop :=
  ∃ b r, s = fence ++ b ++ Data.marker ++ r ∧ b ≠ [] ∧ ∀ c ∈ b, isBreak c = true

/-- A data section opens in the text, behind a line break. -/
def OpensWithin (s : Text) : Prop :=
  ∃ a c t, s = a ++ c :: t ∧ isBreak c = true ∧ OpensAtFront t

/-! ### The searches find openings -/

theorem opening?_eq_some_iff {s r : Text} :
    opening? s = some r ↔
      ∃ b, s = fence ++ b ++ Data.marker ++ r ∧ b ≠ [] ∧ ∀ c ∈ b, isBreak c = true := by
  unfold opening?
  simp only [Option.bind_eq_bind, Option.bind_eq_some_iff]
  constructor
  · rintro ⟨w, hw, v, hv, hr⟩
    obtain ⟨b, hb, hne, hall, -⟩ := afterBreaks?_eq_some_iff.1 hv
    refine ⟨b, ?_, hne, hall⟩
    rw [after?_eq_some_iff.1 hw, hb, after?_eq_some_iff.1 hr]
    simp
  · rintro ⟨b, rfl, hne, hall⟩
    refine ⟨b ++ (Data.marker ++ r), ?_, Data.marker ++ r, ?_, after?_append ..⟩
    · rw [after?_eq_some_iff]
      simp
    · refine afterBreaks?_eq_some_iff.2 ⟨b, rfl, hne, hall, fun c hc => ?_⟩
      obtain rfl : 'd' = c := Option.some_inj.1 hc
      decide

theorem sectionStart?_eq_some_iff {s r : Text} :
    sectionStart? s = some r ↔
      ∃ a t, s = a ++ t ∧ a ≠ [] ∧ (∀ c ∈ a, isBreak c = true) ∧ opening? t = some r := by
  unfold sectionStart?
  rw [Option.bind_eq_some_iff]
  constructor
  · rintro ⟨t, ht, hr⟩
    obtain ⟨a, rfl, hne, ha, -⟩ := afterBreaks?_eq_some_iff.1 ht
    exact ⟨a, t, rfl, hne, ha, hr⟩
  · rintro ⟨a, t, rfl, hne, ha, hr⟩
    obtain ⟨b, rfl, -⟩ := opening?_eq_some_iff.1 hr
    refine ⟨_, afterBreaks?_eq_some_iff.2 ⟨a, rfl, hne, ha, fun c hc => ?_⟩, hr⟩
    obtain rfl : '-' = c := Option.some_inj.1 hc
    decide

theorem opensAtFront_iff {s : Text} : OpensAtFront s ↔ (opening? s).isSome = true := by
  rw [Option.isSome_iff_exists]
  constructor
  · rintro ⟨b, r, h⟩
    exact ⟨r, opening?_eq_some_iff.2 ⟨b, h⟩⟩
  · rintro ⟨r, h⟩
    obtain ⟨b, hb⟩ := opening?_eq_some_iff.1 h
    exact ⟨b, r, hb⟩

theorem opensWithin_iff {s : Text} : OpensWithin s ↔ (firstCut sectionStart? s).isSome = true := by
  constructor
  · rintro ⟨a, c, t, rfl, hc, ht⟩
    obtain ⟨r, hr⟩ := Option.isSome_iff_exists.1 (opensAtFront_iff.1 ht)
    have hstart : sectionStart? (c :: t) = some r :=
      sectionStart?_eq_some_iff.2 ⟨[c], t, rfl, by simp, by simpa using hc, hr⟩
    rw [Option.isSome_iff_ne_none]
    intro hnone
    rw [firstCut_eq_none_iff.1 hnone a (c :: t) rfl] at hstart
    cases hstart
  · intro h
    obtain ⟨p, hp⟩ := Option.isSome_iff_exists.1 h
    obtain ⟨u, rfl, hu, -⟩ := firstCut_eq_some_iff.1 hp
    obtain ⟨x, t, rfl, hne, hx, ht⟩ := sectionStart?_eq_some_iff.1 hu
    rcases List.eq_nil_or_concat x with rfl | ⟨x, c, rfl⟩
    · exact absurd rfl hne
    · refine ⟨p.1 ++ x, c, t, by simp, hx c (by simp), opensAtFront_iff.2 ?_⟩
      rw [ht]
      rfl

instance (s : Text) : Decidable (OpensAtFront s) :=
  decidable_of_iff _ opensAtFront_iff.symm

instance (s : Text) : Decidable (OpensWithin s) :=
  decidable_of_iff _ opensWithin_iff.symm

/-! ### The section that is read -/

theorem dataStart?_of_firstCut {s b t : Text} (h : firstCut sectionStart? s = some (b, t)) :
    dataStart? s = some (b, t) := by
  rw [dataStart?_eq, h]
  rfl

theorem dataStart?_eq_none_iff {s : Text} :
    dataStart? s = none ↔ ¬ OpensWithin s ∧ ¬ OpensAtFront s := by
  rw [dataStart?_eq, opensWithin_iff, opensAtFront_iff]
  cases firstCut sectionStart? s <;> cases opening? s <;> simp

theorem firstCut_of_dataStart? {s b t : Text} (h : dataStart? s = some (b, t))
    (hs : OpensWithin s) : firstCut sectionStart? s = some (b, t) := by
  obtain ⟨p, hp⟩ := Option.isSome_iff_exists.1 (opensWithin_iff.1 hs)
  rw [dataStart?_eq, hp] at h
  rw [hp]
  exact h

theorem read_of_none {source : Text} (h : frontMatter? source = none) :
    read source = ⟨.empty, source, .empty, []⟩ := by
  rw [read, h]

/-- The data that is read from the text behind front matter. -/
def dataOf (rest : Text) : Data :=
  match dataSection? rest with
  | none => .empty
  | some found => Data.read found.content

/-- The data of the section whose marker stands in front of the text. -/
def dataFrom (tail : Text) : Data :=
  match firstCut closing? tail with
  | some (content, _) => Data.read content
  | none => Data.read tail

theorem read_of_no_section {source : Text} {front : FrontMatter}
    (hf : frontMatter? source = some front) (hd : dataStart? front.rest = none) :
    read source = ⟨(Metadata.read front.block (breaks front.opening + 1)).1, trim front.rest,
      .empty, (Metadata.read front.block (breaks front.opening + 1)).2⟩ := by
  unfold read dataSection?
  rw [hf]
  simp only
  rw [hd]
  rfl

theorem read_of_section {source : Text} {front : FrontMatter} {before tail : Text}
    (hf : frontMatter? source = some front) (hd : dataStart? front.rest = some (before, tail)) :
    read source = ⟨(Metadata.read front.block (breaks front.opening + 1)).1, trim before,
      dataFrom tail, (Metadata.read front.block (breaks front.opening + 1)).2 ++
        if (firstCut closing? tail).isSome then [] else [.unclosedData (lineOf source tail)]⟩ := by
  unfold read dataSection? dataFrom
  rw [hf]
  simp only [hd, Option.map_some]
  cases firstCut closing? tail with
  | none => rfl
  | some p => simp

/-! ### Texts without openings -/

theorem OpensAtFront.of_append {s w : Text} (h : OpensAtFront (s ++ w))
    (hw : ∀ c ∈ w, isBreak c = true) : OpensAtFront s := by
  obtain ⟨b, r, hs, hne, hb⟩ := h
  -- The opening ends in a colon, which is no line break.
  have hlast : (fence ++ b ++ Data.marker).getLast? = some ':' :=
    List.getLast?_append_of_ne_nil _ (by decide)
  obtain ⟨q, hq⟩ := exists_of_append_breaks hs hw hlast (by decide)
  exact ⟨b, q, hq, hne, hb⟩

theorem OpensWithin.of_append {s w : Text} (h : OpensWithin (s ++ w))
    (hw : ∀ c ∈ w, isBreak c = true) : OpensWithin s := by
  obtain ⟨a, c, t, hs, hc, b, r, rfl, hne, hb⟩ := h
  have hsplit : s ++ w = (a ++ c :: (fence ++ b ++ Data.marker)) ++ r := by
    rw [hs]
    simp
  have hlast : (a ++ c :: (fence ++ b ++ Data.marker)).getLast? = some ':' := by
    rw [← List.cons_append, ← List.append_assoc]
    exact List.getLast?_append_of_ne_nil _ (by decide)
  obtain ⟨q, hq⟩ := exists_of_append_breaks hsplit hw hlast (by decide)
  exact ⟨a, c, fence ++ b ++ Data.marker ++ q, by rw [hq]; simp, hc, b, q, rfl, hne, hb⟩

/-- What opens behind a character opens at the front of what follows, or within that. -/
theorem OpensWithin.of_cons {c : Char} {s : Text} (h : OpensWithin (c :: s)) :
    OpensAtFront s ∨ OpensWithin s := by
  obtain ⟨a, d, t, hs, hd, ht⟩ := h
  cases a with
  | nil => exact .inl ((List.cons.inj hs).2 ▸ ht)
  | cons _ a => exact .inr ⟨a, d, t, (List.cons.inj hs).2, hd, ht⟩

theorem OpensAtFront.append {s : Text} (h : OpensAtFront s) (x : Text) : OpensAtFront (s ++ x) := by
  obtain ⟨b, r, rfl, hne, hb⟩ := h
  exact ⟨b, r ++ x, by simp, hne, hb⟩

theorem OpensWithin.append {s : Text} (h : OpensWithin s) (x : Text) : OpensWithin (s ++ x) := by
  obtain ⟨a, c, t, rfl, hc, ht⟩ := h
  exact ⟨a, c, t ++ x, by simp, hc, ht.append x⟩

theorem firstCut_eq_none_of_not_opensWithin {s : Text} (h : ¬ OpensWithin s) :
    firstCut sectionStart? s = none := by
  rw [opensWithin_iff, Option.not_isSome_iff_eq_none] at h
  exact h

theorem opening?_eq_none_of_not_opensAtFront {s : Text} (h : ¬ OpensAtFront s) :
    opening? s = none := by
  rw [opensAtFront_iff, Option.not_isSome_iff_eq_none] at h
  exact h

/-- A text without a fence opens no data section. -/
theorem not_opensWithin {s : Text} (h : ¬ fence <:+: s) : ¬ OpensWithin s := by
  rintro ⟨a, c, t, rfl, -, b, r, rfl, -⟩
  exact h ⟨a ++ [c], b ++ Data.marker ++ r, by simp⟩

end Formdoc.Regions
