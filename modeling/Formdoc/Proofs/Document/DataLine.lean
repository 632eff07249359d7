/-
Where text is put into a document.

Text is put in front of the first data line, or else at the end
(`insertText_of_some`, `insertText_of_none`).  A data line is an opening of a
data section, but not every opening is one.

In a document with front matter whose block is not blank a data line stands in
one of four places (`Layout.place`): the opening fence or the closing fence of
the front matter ends it, or it starts right behind the closing fence, or within
the text behind that.  For each of them, and for a document without a data line,
the front matter of the document with an addition is given here
(`Layout.frontMatter?_insertText_of_none` and those that follow).
-/
import Formdoc.Proofs.Regions.Layout

namespace Formdoc

open Text Regions

/-- What is found at the first place, changed by a function. -/
theorem Regions.firstCut_map {α β : Type} (f : Text → Option α) (g : α → β) (s : Text) :
    firstCut (fun s => (f s).map g) s = (firstCut f s).map fun p => (p.1, g p.2) := by
  induction s with
  | nil =>
    unfold firstCut
    cases f [] <;> rfl
  | cons c s ih =>
    cases hc : f (c :: s) with
    | some a =>
      rw [firstCut_of_some (f := fun s => (f s).map g) (x := g a) (by simp [hc]),
        firstCut_of_some hc]
      rfl
    | none =>
      rw [firstCut_cons_of_none (f := fun s => (f s).map g) (by simp [hc]),
        firstCut_cons_of_none hc, ih, Option.map_map, Option.map_map]
      rfl

namespace Document

/-! ### Data lines -/

/-- The text behind the marker of a data line at the front. -/
def lineTail? (s : Text) : Option Text := do
  let s ← after? ('\n' :: fence) s
  let s := (after? ['\r'] s).getD s
  let s ← after? ['\n'] s
  after? Data.marker s

theorem dataLine?_eq (s : Text) : dataLine? s = (lineTail? s).map fun _ => () := by
  unfold dataLine? lineTail?
  cases after? ('\n' :: fence) s with
  | none => rfl
  | some s =>
    simp only [Option.bind_eq_bind, Option.bind_some]
    cases after? ['\n'] ((after? ['\r'] s).getD s) <;> rfl

/-- What ends the line of a fence in front of a marker. -/
def LineEnd (e : Text) : Prop :=
  e = ['\n'] ∨ e = ['\r', '\n']

theorem LineEnd.isBreak {e : Text} (h : LineEnd e) : ∀ c ∈ e, isBreak c = true := by
  rcases h with rfl | rfl <;> decide

theorem LineEnd.ne_nil {e : Text} (h : LineEnd e) : e ≠ [] := by
  rcases h with rfl | rfl <;> simp

theorem LineEnd.length_le {e : Text} (h : LineEnd e) : e.length ≤ 2 := by
  rcases h with rfl | rfl <;> simp

theorem lineTail?_eq_some_iff {s t : Text} :
    lineTail? s = some t ↔
      ∃ e, LineEnd e ∧ s = '\n' :: (fence ++ e ++ Data.marker ++ t) := by
  unfold lineTail?
  simp only [Option.bind_eq_bind, Option.bind_eq_some_iff]
  constructor
  · rintro ⟨p, hp, q, hq, ht⟩
    rw [after?_eq_some_iff] at hp ht
    subst hp ht
    cases hr : after? ['\r'] p with
    | none =>
      rw [hr, Option.getD_none, after?_eq_some_iff] at hq
      exact ⟨['\n'], .inl rfl, by rw [hq]; simp⟩
    | some r =>
      rw [hr, Option.getD_some, after?_eq_some_iff] at hq
      exact ⟨['\r', '\n'], .inr rfl, by rw [after?_eq_some_iff.1 hr, hq]; simp⟩
  · rintro ⟨e, he, rfl⟩
    refine ⟨e ++ Data.marker ++ t, by simp [after?_eq_some_iff], Data.marker ++ t, ?_,
      after?_append ..⟩
    rcases he with rfl | rfl <;> rfl

theorem exists_eq_of_lineTail? {s t : Text} (h : lineTail? s = some t) :
    ∃ y, s = '\n' :: (fence ++ y) := by
  obtain ⟨e, -, rfl⟩ := lineTail?_eq_some_iff.1 h
  exact ⟨e ++ Data.marker ++ t, by simp⟩

/-- A data line is an opening of a data section. -/
theorem sectionStart?_of_lineTail? {s t : Text} (h : lineTail? s = some t) :
    sectionStart? s = some t := by
  obtain ⟨e, he, rfl⟩ := lineTail?_eq_some_iff.1 h
  exact sectionStart?_eq_some_iff.2 ⟨['\n'], _, rfl, by simp, by decide,
    opening?_eq_some_iff.2 ⟨e, rfl, he.ne_nil, he.isBreak⟩⟩

/-- A metadata block ends in front of a data line, and of line breaks in front of one. -/
theorem blockEnd?_ne_none_of_lineTail? {s t b : Text} (h : lineTail? s = some t)
    (hb : ∀ c ∈ b, isBreak c = true) : blockEnd? (b ++ s) ≠ none := by
  obtain ⟨e, he, rfl⟩ := lineTail?_eq_some_iff.1 h
  have hbreaks : ∀ c ∈ b ++ ['\n'], isBreak c = true :=
    List.forall_mem_append.2 ⟨hb, by decide⟩
  have hend := blockEnd?_ne_none (r := Data.marker ++ t) (by simp) hbreaks
    (endsInBreak_of_isBreak he.ne_nil he.isBreak)
  simpa using hend

theorem firstCut_dataLine? (source : Text) :
    firstCut dataLine? source = (firstCut lineTail? source).map fun p => (p.1, ()) := by
  rw [show dataLine? = fun s => (lineTail? s).map fun _ => () from funext dataLine?_eq,
    firstCut_map]

theorem insertText_of_none {source : Text} (h : firstCut lineTail? source = none) (x : Text) :
    insertText source x = trimEnd source ++ ['\n', '\n'] ++ x ++ ['\n'] := by
  unfold insertText
  rw [firstCut_dataLine?, h]
  rfl

theorem insertText_of_some {source before t : Text}
    (h : firstCut lineTail? source = some (before, t)) (x : Text) :
    ∃ u, source = before ++ u ∧ lineTail? u = some t ∧
      insertText source x = before ++ ['\n', '\n'] ++ x ++ '\n' :: u := by
  obtain ⟨u, hu, ht, -⟩ := firstCut_eq_some_iff.1 h
  refine ⟨u, hu, ht, ?_⟩
  unfold insertText
  rw [firstCut_dataLine?, h]
  simp only [Option.map_some]
  rw [hu, List.drop_left]

/-! ### Where data lines stand -/

theorem eq_append_lineFeed {p z before v : Text} (h : p ++ z = before ++ '\n' :: v) :
    (∃ q, p = before ++ '\n' :: q ∧ v = q ++ z) ∨ ∃ q, before = p ++ q ∧ z = q ++ '\n' :: v := by
  rcases List.append_eq_append_iff.1 h with ⟨q, hq, hz⟩ | ⟨q, hq, hz⟩
  · exact .inr ⟨q, hq, hz⟩
  · cases q with
    | nil => exact .inr ⟨[], by simpa using hq.symm, hz.symm⟩
    | cons c q =>
      obtain ⟨rfl, rfl⟩ := List.cons.inj hz
      exact .inl ⟨q, hq, rfl⟩

theorem eq_append_lineFeed_of_not_mem {p z before v : Text} (hp : '\n' ∉ p)
    (h : p ++ z = before ++ '\n' :: v) : ∃ q, before = p ++ q ∧ z = q ++ '\n' :: v :=
  (eq_append_lineFeed h).resolve_left fun ⟨q, hq, _⟩ => hp (hq ▸ by simp)

/-- A line feed in front of a fence is the last of the blanks that it stands among. -/
theorem eq_append_lineFeed_of_blank {p z before y : Text} (hp : ∀ c ∈ p, isBlank c = true)
    (h : p ++ z = before ++ '\n' :: (fence ++ y)) :
    (p = before ++ ['\n'] ∧ z = fence ++ y) ∨
      ∃ q, before = p ++ q ∧ z = q ++ '\n' :: (fence ++ y) := by
  rcases eq_append_lineFeed h with ⟨q, rfl, hz⟩ | hq
  · cases q with
    | nil => exact .inl ⟨rfl, hz.symm⟩
    | cons c q =>
      obtain ⟨rfl, -⟩ := List.cons.inj hz
      exact absurd (hp '-' (by simp)) (by decide)
  · exact .inr hq

/-- Where a data line can stand in a document with front matter: the opening fence or the closing
fence of the front matter may stand in front of it or be its own, or it stands in front of the text
behind the front matter, or within that. -/
inductive Place (front : FrontMatter) (breaks closing : Text) : Text → Text → Prop
  | opening (a : Text) (h : front.opening = fence ++ a ++ ['\n']) :
    Place front breaks closing (fence ++ a)
      ('\n' :: (front.block ++ breaks ++ fence ++ closing ++ front.rest))
  | closing (a : Text) (h : breaks = a ++ ['\n']) :
    Place front breaks closing (front.opening ++ front.block ++ a)
      ('\n' :: (fence ++ closing ++ front.rest))
  | front (a : Text) (h : closing = a ++ ['\n']) :
    Place front breaks closing (front.opening ++ front.block ++ breaks ++ fence ++ a)
      ('\n' :: front.rest)
  | within (r u : Text) (h : front.rest = r ++ u) :
    Place front breaks closing (front.opening ++ front.block ++ breaks ++ fence ++ closing ++ r) u

end Document

namespace Regions.Layout

open Document

variable {source : Text} {front : FrontMatter} {breaks closing : Text}
  (L : Layout source front breaks closing)

include L

theorem place {before u t : Text} (hs : source = before ++ u) (hu : lineTail? u = some t) :
    Place front breaks closing before u := by
  obtain ⟨y, rfl⟩ := exists_eq_of_lineTail? hu
  have hline : '\n' ∉ fence := by decide
  obtain ⟨a, ha, hab, -⟩ := L.opening
  -- The line feed in front of the fence stands in one of the parts of the document.
  have hform : fence ++ (a ++ (front.block ++ (breaks ++ (fence ++ (closing ++ front.rest))))) =
      before ++ '\n' :: (fence ++ y) := by
    rw [← hs, L.eq, ha]
    simp
  obtain ⟨p, rfl, h1⟩ := eq_append_lineFeed_of_not_mem hline hform
  rcases eq_append_lineFeed_of_blank hab h1 with ⟨rfl, hz⟩ | ⟨p, rfl, h2⟩
  · have hplace : Place front breaks closing (fence ++ p)
        ('\n' :: (front.block ++ breaks ++ fence ++ closing ++ front.rest)) :=
      .opening p (by rw [ha]; simp)
    rw [← hz]
    simpa using hplace
  rcases eq_append_lineFeed h2 with ⟨q, hblock, hq⟩ | ⟨p, rfl, h3⟩
  · -- The block would end there.
    obtain ⟨c, b, hcb⟩ := List.exists_cons_of_ne_nil L.breaks_ne
    have hc : isBreak c = true := L.isBreak_breaks c (by rw [hcb]; exact List.mem_cons_self)
    have hnone := L.not_end p ('\n' :: q) hblock (by simp) c
      (b ++ (fence ++ (closing ++ front.rest))) hc
    have hform : '\n' :: q ++ c :: (b ++ (fence ++ (closing ++ front.rest))) =
        '\n' :: (fence ++ y) := by
      rw [hq, hcb]
      simp
    rw [hform] at hnone
    exact absurd hnone (blockEnd?_ne_none_of_lineTail? (b := []) hu (by simp))
  have hbreaks : ∀ c ∈ breaks, isBlank c = true := fun c hc =>
    isBlank_of_isBreak (L.isBreak_breaks c hc)
  rcases eq_append_lineFeed_of_blank hbreaks h3 with ⟨hb, hz⟩ | ⟨p, rfl, h4⟩
  · have hplace : Place front breaks closing (front.opening ++ front.block ++ p)
        ('\n' :: (fence ++ closing ++ front.rest)) := .closing p hb
    rw [ha] at hplace
    rw [← hz]
    simpa using hplace
  obtain ⟨p, rfl, h5⟩ := eq_append_lineFeed_of_not_mem hline h4
  rcases eq_append_lineFeed_of_blank L.isBlank_closing h5 with ⟨hw, hz⟩ | ⟨p, rfl, h6⟩
  · have hplace : Place front breaks closing (front.opening ++ front.block ++ breaks ++ fence ++ p)
        ('\n' :: front.rest) := .front p hw
    rw [ha] at hplace
    rw [← hz]
    simpa using hplace
  · have hplace : Place front breaks closing
        (front.opening ++ front.block ++ breaks ++ fence ++ closing ++ p) _ := .within p _ h6
    rw [ha] at hplace
    simpa using hplace

/-! ### The front matter of a document with an addition -/

/-- In front of a data line within the text behind the front matter. -/
theorem frontMatter?_insert_within {r u t x : Text} (hu : lineTail? u = some t)
    (hr : front.rest = r ++ u) :
    frontMatter? (front.opening ++ front.block ++ breaks ++ fence ++ closing ++ r ++
        ['\n', '\n'] ++ x ++ '\n' :: u) =
      some ⟨front.opening, front.block, r ++ ['\n', '\n'] ++ x ++ '\n' :: u⟩ := by
  have hcut := L.closing_cut
  have hsolid : ∃ c ∈ closing ++ r, isBlank c = false := by
    -- Otherwise the blanks behind the closing fence would go on to the data line.
    obtain ⟨e, -, rfl⟩ := lineTail?_eq_some_iff.1 hu
    by_contra hn
    have hblank : ∀ c ∈ closing ++ r, isBlank c = true := fun c hc => by
      by_contra hc'
      exact hn ⟨c, hc, by simpa using hc'⟩
    have hlong : (blankCuts (closing ++ r ++ '\n' :: (fence ++ e ++ Data.marker ++ t))).head? =
        some (closing ++ r ++ ['\n'], fence ++ e ++ Data.marker ++ t) := by
      refine head?_blankCuts hblank (by decide) fun d hd => ?_
      obtain rfl : '-' = d := Option.some_inj.1 hd
      decide
    rw [hr, ← List.append_assoc, hlong] at hcut
    have hlen := congrArg List.length (Prod.mk.inj (Option.some_inj.1 hcut)).1
    simp at hlen
  rw [hr, ← List.append_assoc] at hcut
  have := L.frontMatter?_append
    (head?_blankCuts_append hsolid hcut (['\n', '\n'] ++ x ++ '\n' :: u))
  simpa only [List.append_assoc] using this

variable {x : Text} (hx : Bracketed x)

include hx

/-- Without a data line the text goes to the end: behind an empty line, or right behind the front
matter if nothing but blanks follows that. -/
theorem frontMatter?_insertText_of_none (h : firstCut lineTail? source = none) :
    ∃ sep, (sep = ['\n', '\n'] ∨ sep = [] ∧ trimEnd front.rest = []) ∧
      frontMatter? (insertText source x) =
        some ⟨front.opening, front.block, trimEnd front.rest ++ sep ++ x ++ ['\n']⟩ := by
  rw [insertText_of_none h, L.eq]
  by_cases hrest : ∃ c ∈ front.rest, isBlank c = false
  · refine ⟨['\n', '\n'], .inl rfl, ?_⟩
    obtain ⟨z, hz, hzb⟩ := exists_eq_dropEndWhile_append isBlank front.rest
    rw [← trimEnd] at hz
    have hsolid : ∃ c ∈ closing ++ trimEnd front.rest, isBlank c = false := by
      obtain ⟨c, hc, hcb⟩ := hrest
      refine ⟨c, List.mem_append_right _ ?_, hcb⟩
      rw [hz] at hc
      refine (List.mem_append.1 hc).resolve_right fun hm => ?_
      rw [hzb c hm] at hcb
      cases hcb
    have hcut := L.closing_cut
    rw [hz, ← List.append_assoc] at hcut
    have := L.frontMatter?_append (head?_blankCuts_append hsolid hcut (['\n', '\n'] ++ x ++ ['\n']))
    rw [trimEnd_append _ hrest]
    simpa only [List.append_assoc] using this
  · have hblank : ∀ c ∈ front.rest, isBlank c = true := fun c hc => by
      by_contra hn
      exact hrest ⟨c, hc, by simpa using hn⟩
    have hnil : trimEnd front.rest = [] := dropEndWhile_append_of_forall [] hblank
    have htrim :
        trimEnd (front.opening ++ front.block ++ breaks ++ fence ++ closing ++ front.rest) =
          front.opening ++ front.block ++ breaks ++ fence := by
      have hlast : (front.opening ++ front.block ++ breaks ++ fence).getLast? = some '-' :=
        List.getLast?_append_of_ne_nil _ (by decide)
      rw [List.append_assoc _ closing, trimEnd, dropEndWhile_append_of_forall,
        dropEndWhile_of_getLast? hlast (by decide)]
      intro c hc
      exact (List.mem_append.1 hc).elim (L.isBlank_closing c) (hblank c)
    have hcut : (blankCuts (['\n'] ++ '\n' :: (x ++ ['\n']))).head? =
        some (['\n', '\n'], x ++ ['\n']) :=
      head?_blankCuts (by decide) (by decide) (hx.isBlank_head _)
    have := L.frontMatter?_append hcut
    refine ⟨[], .inr ⟨rfl, hnil⟩, ?_⟩
    rw [htrim, hnil]
    simpa using this

/-- In front of a data line right behind the closing fence. -/
theorem frontMatter?_insert_front {a : Text} (ha : closing = a ++ ['\n']) :
    frontMatter? (front.opening ++ front.block ++ breaks ++ fence ++ a ++ ['\n', '\n'] ++ x ++
        '\n' :: '\n' :: front.rest) =
      some ⟨front.opening, front.block, x ++ '\n' :: '\n' :: front.rest⟩ := by
  have hblank : ∀ c ∈ a ++ ['\n'], isBlank c = true := ha ▸ L.isBlank_closing
  have := L.frontMatter?_append
    (head?_blankCuts (x := x ++ '\n' :: '\n' :: front.rest) hblank (c := '\n') (by decide)
      (hx.isBlank_head _))
  simpa [List.append_assoc] using this

/-- In front of a data line whose fence is the closing fence the text becomes part of the block. -/
theorem frontMatter?_insert_closing {a : Text} (ha : breaks = a ++ ['\n']) :
    frontMatter? (front.opening ++ front.block ++ a ++ ['\n', '\n'] ++ x ++
        '\n' :: '\n' :: (fence ++ closing ++ front.rest)) =
      some ⟨front.opening, front.block ++ a ++ ['\n', '\n'] ++ x, front.rest⟩ := by
  have hend : blockEnd? ('\n' :: '\n' :: (fence ++ closing ++ front.rest)) = some front.rest := by
    exact blockEnd?_eq_some_iff.2 ⟨['\n', '\n'], closing, by simp, by simp, by decide,
      L.closing_cut⟩
  have hbreaks : ∀ c ∈ a ++ ['\n', '\n'], isBreak c = true := by
    intro c hc
    rcases List.mem_append.1 hc with hc | hc
    · exact L.isBreak_breaks c (by rw [ha]; exact List.mem_append_left _ hc)
    · exact (by decide : ∀ c ∈ ['\n', '\n'], isBreak c = true) c hc
  -- No block ends at a place of the old block, nor in the line breaks behind it, nor in the text.
  have hfirst : firstCut blockEnd? (front.block ++ ((a ++ ['\n', '\n']) ++
      (x ++ '\n' :: '\n' :: (fence ++ closing ++ front.rest)))) =
      some (front.block ++ ((a ++ ['\n', '\n']) ++ x), front.rest) := by
    rw [firstCut_append_of_none, firstCut_append_of_none, hx.firstCut_append blockEnd?_cons,
      firstCut_of_some hend]
    · simp
    · intro u v huv hv
      have hvb : ∀ c ∈ v, isBreak c = true := fun c hc =>
        hbreaks c (huv ▸ List.mem_append_right _ hc)
      rw [blockEnd?_eq, hx.fenced?_append hv hvb]
      rfl
    · intro u v huv hv
      obtain ⟨c, b, hcb⟩ := List.exists_cons_of_ne_nil (l := a ++ ['\n', '\n']) (by simp)
      rw [hcb] at hbreaks ⊢
      exact L.not_end u v huv hv c _ (hbreaks c List.mem_cons_self)
  have := L.frontMatter?_block_append hfirst (by
    obtain ⟨c, hc, hcb⟩ := L.solid
    exact ⟨c, List.mem_append_left _ hc, hcb⟩)
  simpa only [List.append_assoc] using this

/-- In front of a data line whose fence is the opening fence the text becomes the block. -/
theorem exists_frontMatter?_insert_opening {a u t : Text}
    (ha : front.opening = fence ++ a ++ ['\n']) (hu : lineTail? u = some t) :
    ∃ rest, frontMatter? (fence ++ a ++ ['\n', '\n'] ++ x ++ '\n' :: u) =
      some ⟨fence ++ (a ++ ['\n', '\n']), x, rest⟩ := by
  obtain ⟨b, hb, hblank, -⟩ := L.opening
  have hab : ∀ c ∈ a ++ ['\n'], isBlank c = true := by
    obtain rfl : a ++ ['\n'] = b := by simpa [ha] using hb
    exact hblank
  obtain ⟨rest, hrest⟩ : ∃ rest, blockEnd? ('\n' :: u) = some rest :=
    Option.ne_none_iff_exists'.1 (blockEnd?_ne_none_of_lineTail? (b := ['\n']) hu (by decide))
  have hfirst : firstCut blockEnd? (x ++ '\n' :: u) = some (x, rest) := by
    rw [hx.firstCut_append blockEnd?_cons, firstCut_of_some hrest]
    simp
  have hcut : (blankCuts (a ++ ['\n'] ++ '\n' :: (x ++ '\n' :: u))).head? =
      some (a ++ ['\n'] ++ ['\n'], x ++ '\n' :: u) :=
    head?_blankCuts hab (by decide) (hx.isBlank_head _)
  have hsolid : ∃ c ∈ x, isBlank c = false := ⟨'[', List.mem_of_head? hx.head, by decide⟩
  refine ⟨rest, ?_⟩
  have := (frontMatter?_eq_some_iff hsolid).2 ⟨_, _, rfl, hcut, hfirst⟩
  simpa using this

end Regions.Layout

end Formdoc
