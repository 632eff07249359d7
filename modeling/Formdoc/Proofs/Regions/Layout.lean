/-
What stays of the regions when other text stands behind them.

Front matter whose block is not blank has as many blanks behind its opening
fence as possible (`frontMatter?_eq_some_iff`).  `Layout` takes such a document
apart; it is found again with other text behind the closing fence
(`Layout.frontMatter?_append`), or behind the block
(`Layout.frontMatter?_block_append`).

The first opening of a data section depends on the text in front of it alone
(`firstCut_sectionStart?_eq_some_iff`).  A text on one line between brackets,
such as a tag, brings in no opening (`OpensWithin.of_append_bracketed`).
-/
import Formdoc.Proofs.Regions.Opening

namespace Formdoc.Regions

open Text

/-- A text at none of whose places anything is found is skipped. -/
theorem firstCut_append_of_none {α : Type} {f : Text → Option α} {l s : Text}
    (h : ∀ u v, l = u ++ v → v ≠ [] → f (v ++ s) = none) :
    firstCut f (l ++ s) = (firstCut f s).map fun q => (l ++ q.1, q.2) := by
  induction l with
  | nil => simp
  | cons c l ih =>
    obtain ⟨hc, hl⟩ := forall_eq_append_cons.1 h
    rw [List.cons_append, firstCut_cons_of_none (by simpa using hc), ih hl, Option.map_map]
    rfl

/-! ### Runs of blanks -/

/-- Blanks can be cut off if a line break stands in the blanks at the front. -/
theorem blankCuts_ne_nil_iff {s : Text} :
    blankCuts s ≠ [] ↔
      ∃ a c t, s = a ++ c :: t ∧ (∀ d ∈ a, isBlank d = true) ∧ isBreak c = true := by
  constructor
  · intro h
    obtain ⟨⟨a, t⟩, hmem⟩ := List.exists_mem_of_ne_nil _ h
    obtain ⟨rfl, hall, c, hc, hbreak⟩ := mem_blankCuts_iff.1 hmem
    obtain ⟨b, rfl⟩ := List.getLast?_eq_some_iff.1 hc
    exact ⟨b, c, t, by simp, fun d hd => hall d (List.mem_append_left _ hd), hbreak⟩
  · rintro ⟨a, c, t, rfl, ha, hc⟩
    exact List.ne_nil_of_mem (mem_blankCuts_iff.2 ⟨List.append_cons .., endsInBreak_concat ha hc⟩)

theorem exists_head?_blankCuts {c : Char} (hc : isBreak c = true) (s : Text) :
    ∃ p, (blankCuts (c :: s)).head? = some p :=
  Option.ne_none_iff_exists'.1 (mt List.head?_eq_none_iff.1
    (blankCuts_ne_nil_iff.2 ⟨[], c, s, rfl, by simp, hc⟩))

/-- A text that is not blank settles by itself how blanks can be cut off its front. -/
theorem blankCuts_append_of_solid {s : Text} (h : ∃ c ∈ s, isBlank c = false) (x : Text) :
    blankCuts (s ++ x) = (blankCuts s).map fun p => (p.1, p.2 ++ x) := by
  induction s with
  | nil => simp at h
  | cons c s ih =>
    cases hc : isBlank c with
    | false => simp [blankCuts, hc]
    | true =>
      have hs : ∃ d ∈ s, isBlank d = false := by
        obtain ⟨d, hd, hdb⟩ := h
        rcases List.mem_cons.1 hd with rfl | hd
        · rw [hc] at hdb
          cases hdb
        · exact ⟨d, hd, hdb⟩
      simp only [List.cons_append, blankCuts, hc, if_true, ih hs]
      rw [List.map_append, List.map_map, List.map_map]
      congr 1
      split <;> rfl

theorem head?_blankCuts_append {s x : Text} (hs : ∃ c ∈ s, isBlank c = false) {a t : Text}
    (h : (blankCuts (s ++ x)).head? = some (a, t ++ x)) (y : Text) :
    (blankCuts (s ++ y)).head? = some (a, t ++ y) := by
  rw [blankCuts_append_of_solid hs, List.head?_map, Option.map_eq_some_iff] at h ⊢
  obtain ⟨p, hp, he⟩ := h
  obtain ⟨rfl, ht⟩ := Prod.mk.inj he
  exact ⟨p, hp, by rw [List.append_cancel_right ht]⟩

/-- All blanks up to the last line break are cut off first. -/
theorem head?_blankCuts {a x : Text} {c : Char} (ha : ∀ d ∈ a, isBlank d = true)
    (hc : isBreak c = true) (hx : ∀ d, x.head? = some d → isBlank d = false) :
    (blankCuts (a ++ c :: x)).head? = some (a ++ [c], x) := by
  rw [List.append_cons]
  refine head?_blankCuts_eq_some_iff.2 ⟨rfl, endsInBreak_concat ha hc, fun b t hs hb => ?_⟩
  -- A longer cut would take off the first character behind the blanks.
  rcases List.append_eq_append_iff.1 hs with ⟨u, rfl, hu⟩ | ⟨u, hu, -⟩
  · cases u with
    | nil => simp
    | cons d u =>
      have hd := hx d (by rw [hu]; rfl)
      rw [hb.1 d (by simp)] at hd
      cases hd
  · rw [hu, List.length_append]
    omega

/-- What the longest cut leaves stands at the end of what any other one leaves. -/
theorem exists_of_mem_blankCuts {s : Text} {p q : Text × Text}
    (hp : (blankCuts s).head? = some p) (hq : q ∈ blankCuts s) :
    ∃ y, q.2 = y ++ p.2 ∧ ∀ c ∈ y, isBlank c = true := by
  have hle := length_le_of_mem_blankCuts hp hq
  have hp := mem_blankCuts_iff.1 (List.mem_of_head? hp)
  have hq := mem_blankCuts_iff.1 hq
  obtain ⟨y, hy⟩ := List.prefix_of_prefix_length_le (hq.1 ▸ List.prefix_append ..)
    (hp.1 ▸ List.prefix_append ..) hle
  refine ⟨y, ?_, fun c hc => hp.2.1 c (by rw [← hy]; exact List.mem_append_right _ hc)⟩
  have hs := hq.1.symm.trans hp.1
  rwa [← hy, List.append_assoc, List.append_cancel_left_eq] at hs

/-! ### Front matter with a block that is not blank -/

theorem exists_eq_fence_append {source : Text} {front : FrontMatter}
    (h : frontMatter? source = some front) : ∃ s, source = fence ++ s := by
  cases hs : after? fence source with
  | none => simp [frontMatter?, hs] at h
  | some s => exact ⟨s, after?_eq_some_iff.1 hs⟩

/-- Front matter whose block is not blank starts behind all blanks that can be cut off. -/
theorem frontMatter?_eq_some_iff {s block rest : Text} {opening : Text}
    (hb : ∃ c ∈ block, isBlank c = false) :
    frontMatter? (fence ++ s) = some ⟨opening, block, rest⟩ ↔
      ∃ a t, opening = fence ++ a ∧ (blankCuts s).head? = some (a, t) ∧
        firstCut blockEnd? t = some (block, rest) := by
  have hopen : frontMatter? (fence ++ s) = (blankCuts s).findSome? fun cut =>
      (firstCut blockEnd? cut.2).map fun p => ⟨fence ++ cut.1, p.1, p.2⟩ := by
    unfold frontMatter?
    rw [after?_append]
    rfl
  rw [hopen]
  constructor
  · intro h
    obtain ⟨cut, hcut, hfound⟩ := List.exists_of_findSome?_eq_some h
    cases hcuts : blankCuts s with
    | nil =>
      rw [hcuts] at hcut
      cases hcut
    | cons p ps =>
      obtain ⟨y, hy, hyb⟩ := exists_of_mem_blankCuts (p := p) (by rw [hcuts]; rfl) hcut
      -- The end of the block stands behind the blanks, where the longest cut leaves it.
      obtain ⟨⟨block', rest'⟩, hfirst, he⟩ := Option.map_eq_some_iff.1 hfound
      obtain ⟨-, rfl, rfl⟩ := FrontMatter.mk.inj he
      obtain ⟨u, hu, hend, -⟩ := firstCut_eq_some_iff.1 hfirst
      obtain ⟨v, hv⟩ : ∃ v, p.2 = v ++ u := by
        rw [hy, List.append_eq_append_iff] at hu
        rcases hu with ⟨v, -, hv⟩ | ⟨v, rfl, -⟩
        · exact ⟨v, hv⟩
        · obtain ⟨c, hc, hcb⟩ := hb
          rw [hyb c (List.mem_append_left _ hc)] at hcb
          cases hcb
      rw [hcuts, List.findSome?_cons] at h
      cases hp : firstCut blockEnd? p.2 with
      | none =>
        rw [firstCut_eq_none_iff.1 hp v u hv] at hend
        cases hend
      | some r =>
        rw [hp] at h
        obtain ⟨rfl, rfl, rfl⟩ := FrontMatter.mk.inj (Option.some_inj.1 h)
        exact ⟨p.1, p.2, rfl, rfl, hp⟩
  · rintro ⟨a, t, rfl, hcut, hfirst⟩
    obtain ⟨ps, hps⟩ := List.head?_eq_some_iff.1 hcut
    rw [hps, List.findSome?_cons, hfirst]
    rfl

theorem fenced?_append_break {s : Text} (hs : ∃ d ∈ s, isBreak d = false) {c : Char}
    (hc : isBreak c = true) (x : Text) : fenced? (s ++ c :: x) = (fenced? s).map (· ++ c :: x) := by
  have hbreaks : afterBreaks? (s ++ c :: x) = (afterBreaks? s).map (· ++ c :: x) := by
    cases s with
    | nil => simp at hs
    | cons e s =>
      cases he : isBreak e with
      | false => rw [List.cons_append, afterBreaks?_cons _ he, afterBreaks?_cons _ he]; rfl
      | true =>
        have hdrop : (s ++ c :: x).dropWhile isBreak = s.dropWhile isBreak ++ c :: x := by
          rw [List.dropWhile_append, if_neg]
          rw [List.isEmpty_iff, List.dropWhile_eq_nil_iff]
          intro hall
          obtain ⟨d, hd, hdb⟩ := hs
          rcases List.mem_cons.1 hd with rfl | hd
          · rw [he] at hdb
            cases hdb
          · rw [hall d hd] at hdb
            cases hdb
        simp only [List.cons_append, afterBreaks?, he, if_true, hdrop, Option.map_some]
  unfold fenced?
  rw [hbreaks]
  cases afterBreaks? s with
  | none => rfl
  | some r =>
    simp only [Option.map_some, Option.bind_some]
    cases hr : after? fence r with
    | some q => exact after?_append_of_some hr _
    | none =>
      rw [Option.map_none, after?_eq_none_iff, prefix_append_cons_iff (not_mem_fence hc)]
      exact after?_eq_none_iff.1 hr

/-- Whether a block ends at the front of a text in front of a line break is settled by the text, if
it is not made of line breaks alone. -/
theorem blockEnd?_append_break {s : Text} (hs : ∃ d ∈ s, isBreak d = false) {c d : Char}
    (hc : isBreak c = true) (hd : isBreak d = true) {x : Text} (h : blockEnd? (s ++ c :: x) = none)
    (y : Text) : blockEnd? (s ++ d :: y) = none := by
  rw [blockEnd?_eq, fenced?_append_break hs hc] at h
  rw [blockEnd?_eq, fenced?_append_break hs hd]
  cases hf : fenced? s with
  | none => rfl
  | some q =>
    rw [hf] at h
    simp only [Option.map_some, Option.bind_some, Option.map_eq_none_iff,
      List.head?_eq_none_iff] at h ⊢
    by_cases hq : ∃ e ∈ q, isBlank e = false
    · rw [blankCuts_append_of_solid hq, List.map_eq_nil_iff] at h ⊢
      exact h
    · -- Blanks up to the line break could be cut off.
      have hall : ∀ e ∈ q, isBlank e = true := fun e he => by
        by_contra hn
        exact hq ⟨e, he, by simpa using hn⟩
      exact absurd h (blankCuts_ne_nil_iff.2 ⟨q, c, x, rfl, hall, hc⟩)

/-- A document with front matter whose block is not blank, taken apart: the line breaks behind the
block and the blanks behind the closing fence. -/
structure Layout (source : Text) (front : FrontMatter) (breaks closing : Text) : Prop where
  eq : source = front.opening ++ front.block ++ breaks ++ fence ++ closing ++ front.rest
  opening : ∃ a, front.opening = fence ++ a ∧ (∀ c ∈ a, isBlank c = true) ∧
    ∀ y, (blankCuts (a ++ (front.block ++ y))).head? = some (a, front.block ++ y)
  solid : ∃ c ∈ front.block, isBlank c = false
  not_end : ∀ u v, front.block = u ++ v → v ≠ [] → ∀ c x, isBreak c = true →
    blockEnd? (v ++ c :: x) = none
  breaks_ne : breaks ≠ []
  isBreak_breaks : ∀ c ∈ breaks, isBreak c = true
  isBlank_closing : ∀ c ∈ closing, isBlank c = true
  closing_cut : (blankCuts (closing ++ front.rest)).head? = some (closing, front.rest)

theorem exists_layout {source : Text} {front : FrontMatter} (h : frontMatter? source = some front)
    (hb : ∃ c ∈ front.block, isBlank c = false) : ∃ b w, Layout source front b w := by
  obtain ⟨opening, block, rest⟩ := front
  obtain ⟨s, rfl⟩ := exists_eq_fence_append h
  obtain ⟨a, t, rfl, hcut, hfirst⟩ := (frontMatter?_eq_some_iff hb).1 h
  have hmem := List.mem_of_head? hcut
  obtain rfl : s = a ++ t := eq_of_mem_blankCuts hmem
  obtain ⟨e, rfl, hend, hnone⟩ := firstCut_eq_some_iff.1 hfirst
  obtain ⟨b, w, rfl, hbne, hbreak, hw⟩ := blockEnd?_eq_some_iff.1 hend
  obtain ⟨c, b, rfl⟩ := List.exists_cons_of_ne_nil hbne
  have hc := hbreak c List.mem_cons_self
  refine ⟨c :: b, w, ?_, ⟨a, rfl, isBlank_of_mem_blankCuts hmem, fun y => ?_⟩, hb, ?_, by simp,
    hbreak, isBlank_of_mem_blankCuts (List.mem_of_head? hw), hw⟩
  · simp [List.append_assoc]
  · have hsolid : ∃ c ∈ a ++ block, isBlank c = false := by
      obtain ⟨d, hd, hdb⟩ := hb
      exact ⟨d, List.mem_append_right _ hd, hdb⟩
    rw [← List.append_assoc] at hcut ⊢
    exact head?_blankCuts_append hsolid hcut y
  · intro u v huv hv d x hd
    have hvnone := hnone u v huv hv
    refine blockEnd?_append_break ?_ hc hd (by simpa using hvnone) x
    -- With line breaks alone in front of it, the fence would end the block earlier.
    by_contra hall
    have hend : blockEnd? (v ++ ((c :: b) ++ fence ++ (w ++ rest))) = some rest := by
      refine blockEnd?_eq_some_iff.2 ⟨v ++ c :: b, w, by simp, by simp, fun e he => ?_, hw⟩
      rcases List.mem_append.1 he with he | he
      · by_contra hne
        exact hall ⟨e, he, by simpa using hne⟩
      · exact hbreak e he
    rw [hend] at hvnone
    cases hvnone

namespace Layout

variable {source : Text} {front : FrontMatter} {breaks closing : Text}
  (L : Layout source front breaks closing)

include L

/-- The opening and the front of the block settle where the block starts. -/
theorem frontMatter?_block_append {y block rest : Text}
    (h : firstCut blockEnd? (front.block ++ y) = some (block, rest))
    (hb : ∃ c ∈ block, isBlank c = false) :
    frontMatter? (front.opening ++ front.block ++ y) = some ⟨front.opening, block, rest⟩ := by
  obtain ⟨a, ha, -, hcut⟩ := L.opening
  rw [ha, List.append_assoc, List.append_assoc]
  exact (frontMatter?_eq_some_iff hb).2 ⟨a, front.block ++ y, rfl, hcut y, h⟩

/-- The front matter is found again, with other text behind its closing fence. -/
theorem frontMatter?_append {q w rest : Text} (hq : (blankCuts q).head? = some (w, rest)) :
    frontMatter? (front.opening ++ front.block ++ breaks ++ fence ++ q) =
      some ⟨front.opening, front.block, rest⟩ := by
  have hcut := eq_of_mem_blankCuts (List.mem_of_head? hq)
  have hend : blockEnd? (breaks ++ fence ++ q) = some rest :=
    blockEnd?_eq_some_iff.2 ⟨breaks, w, by rw [hcut], L.breaks_ne, L.isBreak_breaks, by rwa [← hcut]⟩
  have hfirst : firstCut blockEnd? (front.block ++ (breaks ++ fence ++ q)) =
      some (front.block, rest) := by
    refine firstCut_eq_some_iff.2 ⟨_, rfl, hend, fun u v huv hv => ?_⟩
    obtain ⟨c, b, hb⟩ := List.exists_cons_of_ne_nil L.breaks_ne
    have hc : isBreak c = true := L.isBreak_breaks c (by rw [hb]; exact List.mem_cons_self)
    rw [hb, List.append_assoc, List.cons_append]
    exact L.not_end u v huv hv c _ hc
  have := L.frontMatter?_block_append hfirst L.solid
  simpa only [List.append_assoc] using this

end Layout

/-! ### The first opening of a data section -/

/-- The first opening stands behind a text in which there is none, and that does not end in a line
break; what follows it makes no difference. -/
theorem firstCut_sectionStart?_eq_some_iff {s b t : Text} :
    firstCut sectionStart? s = some (b, t) ↔
      ∃ x y, s = b ++ (x ++ fence ++ y ++ Data.marker) ++ t ∧ x ≠ [] ∧ y ≠ [] ∧
        (∀ c ∈ x, isBreak c = true) ∧ (∀ c ∈ y, isBreak c = true) ∧ ¬ OpensWithin b ∧
        ∀ c, b.getLast? = some c → isBreak c = false := by
  constructor
  · intro h
    obtain ⟨u, rfl, hu, hnone⟩ := firstCut_eq_some_iff.1 h
    obtain ⟨x, v, rfl, hx, hxb, hv⟩ := sectionStart?_eq_some_iff.1 hu
    obtain ⟨y, rfl, hy, hyb⟩ := opening?_eq_some_iff.1 hv
    refine ⟨x, y, by simp, hx, hy, hxb, hyb, ?_, fun c hc => ?_⟩
    · rintro ⟨p, c, q, rfl, hc, z, r, rfl, hz, hzb⟩
      have hopen : sectionStart? (c :: (fence ++ z ++ Data.marker ++ r) ++
          (x ++ (fence ++ y ++ Data.marker ++ t))) =
          some (r ++ (x ++ (fence ++ y ++ Data.marker ++ t))) :=
        sectionStart?_eq_some_iff.2 ⟨[c], fence ++ z ++ Data.marker ++ (r ++ _), by simp, by simp,
          by simpa using hc, opening?_eq_some_iff.2 ⟨z, rfl, hz, hzb⟩⟩
      rw [hnone p _ rfl (by simp)] at hopen
      cases hopen
    · -- Line breaks in front of the opening would be part of it.
      obtain ⟨p, rfl⟩ := List.getLast?_eq_some_iff.1 hc
      by_contra hcb
      have hopen : sectionStart? ([c] ++ (x ++ (fence ++ y ++ Data.marker ++ t))) = some t :=
        sectionStart?_eq_some_iff.2 ⟨c :: x, _, rfl, by simp,
          List.forall_mem_cons.2 ⟨by simpa using hcb, hxb⟩, hv⟩
      rw [hnone p [c] rfl (by simp)] at hopen
      cases hopen
  · rintro ⟨x, y, rfl, hx, hy, hxb, hyb, hb, hlast⟩
    have hopen : sectionStart? (x ++ fence ++ y ++ Data.marker ++ t) = some t :=
      sectionStart?_eq_some_iff.2 ⟨x, fence ++ y ++ Data.marker ++ t, by simp, hx, hxb,
        opening?_eq_some_iff.2 ⟨y, rfl, hy, hyb⟩⟩
    refine firstCut_eq_some_iff.2 ⟨x ++ fence ++ y ++ Data.marker ++ t, by simp, hopen, ?_⟩
    rintro u v rfl hv
    -- An earlier opening would be one of the text in front, with the line breaks behind it.
    have hbx : ¬ OpensWithin (u ++ (v ++ x)) := fun ho =>
      hb (OpensWithin.of_append (w := x) (by rwa [List.append_assoc]) hxb)
    have hnone := firstCut_eq_none_iff.1 (firstCut_eq_none_of_not_opensWithin hbx) u (v ++ x) rfl
    have hform : v ++ (x ++ fence ++ y ++ Data.marker ++ t) =
        (v ++ x) ++ (fence ++ y ++ Data.marker ++ t) := by simp
    obtain ⟨z, c, rfl⟩ := (List.eq_nil_or_concat x).resolve_left hx
    have hvlast : isBreak (v.getLast hv) = false :=
      hlast _ (by rw [List.getLast?_append_of_ne_nil _ hv, List.getLast?_eq_some_getLast hv])
    rw [hform, sectionStart?_append (c := c) (by simp) (hxb c (by simp))
      ⟨v.getLast hv, List.mem_append_left _ (List.getLast_mem hv), hvlast⟩ rfl, hnone]
    rfl

/-! ### Text on one line, between brackets -/

/-- A text on one line that starts with an opening bracket and ends with a closing one. -/
structure Bracketed (x : Text) : Prop where
  head : x.head? = some '['
  last : x.getLast? = some ']'
  oneLine : OneLine x

namespace Bracketed

variable {x : Text} (hx : Bracketed x)

include hx

theorem isBlank_head (s : Text) (c : Char) (hc : (x ++ s).head? = some c) : isBlank c = false := by
  obtain ⟨r, hr⟩ := List.head?_eq_some_iff.1 hx.head
  rw [hr] at hc
  obtain rfl := Option.some_inj.1 hc
  decide

/-- Nothing is found in a bracketed text, where a search finds nothing in front of a character that
is no line break. -/
theorem firstCut_append {α : Type} {f : Text → Option α}
    (hf : ∀ c s, isBreak c = false → f (c :: s) = none) (s : Text) :
    firstCut f (x ++ s) = (firstCut f s).map fun q => (x ++ q.1, q.2) :=
  firstCut_append_of_forall (p := fun c => isBreak c = false) hf hx.oneLine s

/-- Behind line breaks a bracketed text is no fence. -/
theorem fenced?_append {b : Text} (hb : b ≠ []) (hbreak : ∀ c ∈ b, isBreak c = true) (s : Text) :
    fenced? (b ++ (x ++ s)) = none := by
  obtain ⟨r, rfl⟩ := List.head?_eq_some_iff.1 hx.head
  have hbreaks : afterBreaks? (b ++ ('[' :: r ++ s)) = some ('[' :: r ++ s) :=
    afterBreaks?_eq_some_iff.2 ⟨b, rfl, hb, hbreak,
      fun c hc => isBreak_of_isBlank_false (hx.isBlank_head s c hc)⟩
  rw [fenced?, hbreaks]
  rfl

theorem trim_eq : trim x = x := by
  refine trim_eq_self_iff.2 ⟨fun c hc => hx.isBlank_head [] c (by simpa using hc), fun c hc => ?_⟩
  rw [hx.last, Option.some_inj] at hc
  subst hc
  decide

/-- What stands at the front of a text with a bracketed one behind it, and holds no bracket, stands
at the front of the text. -/
theorem exists_of_append_eq {s p r : Text} (h : s ++ x = p ++ r) (hp : '[' ∉ p) :
    ∃ q, s = p ++ q := by
  rw [List.append_eq_append_iff] at h
  rcases h with ⟨q, rfl, hq⟩ | ⟨q, rfl, -⟩
  · cases q with
    | nil => exact ⟨[], by simp⟩
    | cons c q =>
      have hc := hx.head
      rw [hq] at hc
      obtain rfl := Option.some_inj.1 hc
      simp at hp
  · exact ⟨q, rfl⟩

end Bracketed

theorem not_mem_opening {b : Text} (hb : ∀ c ∈ b, isBreak c = true) :
    '[' ∉ fence ++ b ++ Data.marker := by
  intro hm
  rcases List.mem_append.1 hm with hm | hm
  · rcases List.mem_append.1 hm with hm | hm
    · exact absurd hm (by decide)
    · exact absurd (hb _ hm) (by decide)
  · exact absurd hm (by decide)

theorem OpensAtFront.of_append_bracketed {s x : Text} (hx : Bracketed x)
    (h : OpensAtFront (s ++ x)) : OpensAtFront s := by
  obtain ⟨b, r, hs, hne, hb⟩ := h
  obtain ⟨q, hq⟩ := hx.exists_of_append_eq hs (not_mem_opening hb)
  exact ⟨b, q, hq, hne, hb⟩

theorem OpensWithin.of_append_bracketed {s x : Text} (hx : Bracketed x)
    (h : OpensWithin (s ++ x)) : OpensWithin s := by
  obtain ⟨a, c, t, hs, hc, ht⟩ := h
  rw [List.append_eq_append_iff] at hs
  rcases hs with ⟨p, -, hp⟩ | ⟨p, rfl, hp⟩
  · -- There is no line break in the bracketed text.
    have := hx.oneLine c (by rw [hp]; simp)
    rw [hc] at this
    cases this
  · cases p with
    | nil =>
      have := hx.head
      rw [← List.nil_append x, ← hp] at this
      obtain rfl := Option.some_inj.1 this
      exact absurd hc (by decide)
    | cons d p =>
      obtain ⟨rfl, rfl⟩ := List.cons.inj hp
      exact ⟨a, c, p, rfl, hc, ht.of_append_bracketed hx⟩

end Formdoc.Regions
