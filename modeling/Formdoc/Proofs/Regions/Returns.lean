/-
Regions of a document whose line feeds have carriage returns in front of them.

The searches of a document take both characters of a line break for line breaks,
so that they find the same places in the text with carriage returns
(`firstCut_withReturns`).  Front matter with a block that is not blank is
therefore found again, and there is no other such front matter
(`frontMatter?_withReturns_iff`); metadata, data and warnings stay as they are,
and the body is the old one with carriage returns (`read_withReturns_of_solid`).

With a block that is blank it may be otherwise.  A fence and a fence on the next
line need a line break to belong to each of them: one line feed is not enough, but
its carriage return makes it two.  So a text that `ClosesAtOnce` has front matter,
without metadata, as soon as it has carriage returns (`frontMatter?_withReturns`).
-/
import Formdoc.Proofs.Regions.FirstOpening
import Formdoc.Proofs.Regions.Framing
import Formdoc.Proofs.Regions.Spill
import Formdoc.Proofs.Text.Returns

namespace Formdoc

open Text

/-! ### Lines of metadata and of data -/

theorem Metadata.read_withReturns {block : Text} (h : '\r' ∉ block) (n : Nat) :
    read (withReturns block) n = read block n := by
  unfold read numbered
  rw [map_dropReturn_lines_withReturns h]

theorem Data.read_withReturns {content : Text} (h : '\r' ∉ content) :
    read (withReturns content) = read content := by
  unfold read
  rw [map_dropReturn_lines_withReturns h]

/-- The data section of the text with carriage returns. -/
def DataSection.withReturns (found : DataSection) : DataSection :=
  ⟨Text.withReturns found.before, Text.withReturns found.tail, Text.withReturns found.content,
    found.closed⟩

/-- The front matter of the text with carriage returns. -/
def FrontMatter.withReturns (front : FrontMatter) : FrontMatter :=
  ⟨Text.withReturns front.opening, Text.withReturns front.block, Text.withReturns front.rest⟩

namespace Regions

/-! ### The searches -/

theorem afterBreaks?_withReturns (s : Text) :
    afterBreaks? (withReturns s) = (afterBreaks? s).map withReturns := by
  cases s with
  | nil => rfl
  | cons c s =>
    have hdrop := dropWhile_withReturns (p := isBreak) (by decide) s
    by_cases hc : c = '\n'
    · subst hc
      show some ((withReturns s).dropWhile isBreak) = _
      rw [hdrop]
      rfl
    · rw [withReturns_cons hc, afterBreaks?, afterBreaks?, hdrop]
      split <;> rfl

theorem fenced?_withReturns (s : Text) :
    fenced? (withReturns s) = (fenced? s).map withReturns := by
  unfold fenced?
  rw [afterBreaks?_withReturns]
  cases afterBreaks? s with
  | none => rfl
  | some r => exact after?_withReturns (by decide) r

theorem head?_blankCuts_cons (c : Char) (s : Text) :
    (blankCuts (c :: s)).head? =
      if isBlank c then ((blankCuts s).head?.map fun p => (c :: p.1, p.2)).or
        (if isBreak c then some ([c], s) else none) else none := by
  rw [blankCuts]
  split
  · rw [List.head?_append, List.head?_map]
    congr 1
    split <;> rfl
  · rfl

theorem head?_blankCuts_withReturns (s : Text) :
    (blankCuts (withReturns s)).head? =
      (blankCuts s).head?.map fun p => (withReturns p.1, withReturns p.2) := by
  induction s with
  | nil => rfl
  | cons c s ih =>
    by_cases hc : c = '\n'
    · subst hc
      have hn : isBlank '\n' = true ∧ isBreak '\n' = true := by decide
      have hr : isBlank '\r' = true := by decide
      rw [withReturns_lineFeed, head?_blankCuts_cons, if_pos hr, head?_blankCuts_cons, if_pos hn.1,
        if_pos hn.2, head?_blankCuts_cons, if_pos hn.1, if_pos hn.2, ih]
      cases (blankCuts s).head? <;> rfl
    · rw [withReturns_cons hc, head?_blankCuts_cons, head?_blankCuts_cons, ih]
      split
      · cases (blankCuts s).head? with
        | some p => simp [withReturns_cons hc]
        | none =>
          split
          · simp [withReturns_cons hc]
          · rfl
      · rfl

theorem blockEnd?_withReturns (s : Text) :
    blockEnd? (withReturns s) = (blockEnd? s).map withReturns := by
  rw [blockEnd?_eq, blockEnd?_eq, fenced?_withReturns]
  cases fenced? s with
  | none => rfl
  | some q =>
    show (blankCuts (withReturns q)).head?.map Prod.snd = _
    rw [head?_blankCuts_withReturns, Option.bind_some, Option.map_map, Option.map_map]
    rfl

theorem opening?_withReturns (s : Text) :
    opening? (withReturns s) = (opening? s).map withReturns := by
  unfold opening?
  rw [after?_withReturns (by decide)]
  cases after? fence s with
  | none => rfl
  | some r =>
    show (afterBreaks? (withReturns r)).bind (after? Data.marker) =
      ((afterBreaks? r).bind (after? Data.marker)).map withReturns
    rw [afterBreaks?_withReturns]
    cases afterBreaks? r with
    | none => rfl
    | some q => exact after?_withReturns (by decide) q

theorem sectionStart?_withReturns (s : Text) :
    sectionStart? (withReturns s) = (sectionStart? s).map withReturns := by
  unfold sectionStart?
  rw [afterBreaks?_withReturns]
  cases afterBreaks? s with
  | none => rfl
  | some r => exact opening?_withReturns r

theorem closing?_withReturns (s : Text) : closing? (withReturns s) = closing? s := by
  rw [closing?_eq, closing?_eq, fenced?_withReturns]
  cases fenced? s with
  | none => rfl
  | some q =>
    show (if isBlankText (withReturns q) then some () else none) = _
    rw [isBlankText_withReturns]
    rfl

/-- A search that finds the same with carriage returns, and does not tell a line feed from a line
feed with one, finds the same place. -/
theorem firstCut_withReturns {α : Type} {f : Text → Option α} {g : α → α}
    (hf : ∀ s, f (withReturns s) = (f s).map g)
    (hreturn : ∀ s, f ('\r' :: '\n' :: s) = f ('\n' :: s)) (s : Text) :
    firstCut f (withReturns s) = (firstCut f s).map fun p => (withReturns p.1, g p.2) := by
  induction s with
  | nil =>
    have hnil := hf []
    rw [withReturns_nil] at hnil ⊢
    rw [firstCut]
    cases h : f [] with
    | some x =>
      rw [h] at hnil
      exact congrArg (Option.map fun a => ([], a)) hnil
    | none => rfl
  | cons c s ih =>
    have hfront := hf (c :: s)
    cases h : f (c :: s) with
    | some x =>
      rw [h] at hfront
      rw [firstCut_of_some h, firstCut_of_some hfront]
      rfl
    | none =>
      rw [h, Option.map_none] at hfront
      rw [firstCut_cons_of_none h, Option.map_map]
      by_cases hc : c = '\n'
      · subst hc
        rw [withReturns_lineFeed] at hfront ⊢
        rw [firstCut_cons_of_none hfront, firstCut_cons_of_none ((hreturn _).symm.trans hfront), ih,
          Option.map_map, Option.map_map]
        rfl
      · rw [withReturns_cons hc] at hfront ⊢
        rw [firstCut_cons_of_none hfront, ih, Option.map_map]
        congr 1
        funext p
        simp [withReturns_cons hc]

theorem cutAt_eq_firstCut (m s : Text) : cutAt m s = firstCut (after? m) s := by
  induction s with
  | nil => cases m <;> rfl
  | cons c s ih =>
    cases h : after? m (c :: s) with
    | some r => rw [cutAt_of_after? h, firstCut_of_some h]
    | none => rw [cutAt_cons_of_none h, firstCut_cons_of_none h, ih]

theorem cutAt_withReturns {m : Text} (hm : OneLine m) (hne : m ≠ []) (s : Text) :
    cutAt m (withReturns s) = (cutAt m s).map fun p => (withReturns p.1, withReturns p.2) := by
  obtain ⟨a, m, rfl⟩ := List.exists_cons_of_ne_nil hne
  -- Neither character of a line break starts the mark.
  have hbreak {c : Char} (hc : isBreak c = true) (t : Text) : after? (a :: m) (c :: t) = none := by
    rw [after?, if_neg]
    rintro rfl
    rw [(oneLine_cons.1 hm).1] at hc
    cases hc
  rw [cutAt_eq_firstCut, cutAt_eq_firstCut]
  exact firstCut_withReturns (after?_withReturns hm)
    (fun t => (hbreak (by decide) _).trans (hbreak (by decide) t).symm) s

theorem firstCut_blockEnd?_withReturns (s : Text) :
    firstCut blockEnd? (withReturns s) =
      (firstCut blockEnd? s).map fun p => (withReturns p.1, withReturns p.2) :=
  firstCut_withReturns blockEnd?_withReturns (fun _ => rfl) s

theorem dataStart?_withReturns (s : Text) :
    dataStart? (withReturns s) =
      (dataStart? s).map fun p => (withReturns p.1, withReturns p.2) := by
  rw [dataStart?_eq, dataStart?_eq, opening?_withReturns,
    firstCut_withReturns sectionStart?_withReturns fun _ => rfl]
  cases firstCut sectionStart? s with
  | some p => rfl
  | none => cases opening? s <;> rfl

theorem firstCut_closing?_withReturns (s : Text) :
    firstCut closing? (withReturns s) =
      (firstCut closing? s).map fun p => (withReturns p.1, p.2) :=
  firstCut_withReturns (g := id) (fun s => by rw [closing?_withReturns, Option.map_id_apply])
    (fun _ => rfl) s

/-! ### The data section -/

theorem dataSection?_withReturns (rest : Text) :
    dataSection? (withReturns rest) = (dataSection? rest).map DataSection.withReturns := by
  unfold dataSection?
  rw [dataStart?_withReturns]
  cases dataStart? rest with
  | none => rfl
  | some p =>
    simp only [Option.map_some]
    rw [firstCut_closing?_withReturns]
    cases firstCut closing? p.2 <;> rfl

/-- The content of a section stands in the text, at the front of all that stands behind the
marker. -/
theorem exists_of_dataSection? {rest : Text} {found : DataSection}
    (h : dataSection? rest = some found) :
    (∃ a, rest = a ++ found.tail) ∧ ∃ b, found.tail = found.content ++ b := by
  obtain ⟨⟨before, tail⟩, hstart, hfound⟩ := Option.map_eq_some_iff.1 h
  obtain ⟨_, ⟨⟨b, hb, -⟩, -⟩⟩ := exists_opensAt_of_dataStart? hstart
  cases hclose : firstCut closing? tail with
  | none =>
    simp only [hclose] at hfound
    subst hfound
    exact ⟨⟨_, hb⟩, [], (List.append_nil _).symm⟩
  | some p =>
    obtain ⟨t, ht, -⟩ := firstCut_eq_some_iff.1 hclose
    simp only [hclose] at hfound
    subst hfound
    exact ⟨⟨_, hb⟩, t, ht⟩

theorem bodyOf_withReturns (rest : Text) :
    bodyOf (withReturns rest) = withReturns (bodyOf rest) := by
  unfold bodyOf
  rw [dataSection?_withReturns]
  cases dataSection? rest with
  | none => exact trim_withReturns rest
  | some found => exact trim_withReturns found.before

theorem dataOf_withReturns {rest : Text} (h : '\r' ∉ rest) :
    dataOf (withReturns rest) = dataOf rest := by
  unfold dataOf
  rw [dataSection?_withReturns]
  cases hs : dataSection? rest with
  | none => rfl
  | some found =>
    obtain ⟨⟨a, ha⟩, b, hb⟩ := exists_of_dataSection? hs
    refine Data.read_withReturns fun hr => h ?_
    rw [ha, hb]
    simp [hr]

/-- The line on which the end of a text starts is told by the line feeds in front of it. -/
theorem lineOf_append (a t : Text) : lineOf (a ++ t) t = breaks a + 1 := by
  rw [lineOf, List.length_append, Nat.add_sub_cancel, List.take_left]

theorem warningOf_withReturns {source a rest : Text} (h : source = a ++ rest) :
    warningOf (withReturns source) (withReturns rest) = warningOf source rest := by
  unfold warningOf
  rw [dataSection?_withReturns]
  cases hs : dataSection? rest with
  | none => rfl
  | some found =>
    obtain ⟨⟨b, hb⟩, -⟩ := exists_of_dataSection? hs
    have hline :
        lineOf (withReturns source) (withReturns found.tail) = lineOf source found.tail := by
      rw [h, hb, ← List.append_assoc, withReturns_append, lineOf_append, lineOf_append,
        breaks_withReturns]
    simp only [Option.map_some, DataSection.withReturns, hline]

/-! ### Front matter with a block that is not blank -/

theorem exists_isBlank_withReturns_iff {s : Text} :
    (∃ c ∈ withReturns s, isBlank c = false) ↔ ∃ c ∈ s, isBlank c = false := by
  have h := not_congr (all_withReturns_iff (p := isBlank) (by decide) (s := s))
  simpa using h

@[simp] theorem withReturns_fence : withReturns fence = fence := rfl

theorem exists_eq_fence_append_of_withReturns {source : Text} {front : FrontMatter}
    (h : frontMatter? (withReturns source) = some front) : ∃ s, source = fence ++ s := by
  obtain ⟨t, ht⟩ := exists_eq_fence_append h
  have hfence := after?_withReturns (m := fence) (by decide) source
  rw [ht, after?_append] at hfence
  obtain ⟨s, hs, -⟩ := Option.map_eq_some_iff.1 hfence.symm
  exact ⟨s, after?_eq_some_iff.1 hs⟩

/-- A block that is not blank is found with carriage returns as it is without them. -/
theorem frontMatter?_withReturns_iff {source : Text} {front : FrontMatter}
    (hb : ∃ c ∈ front.block, isBlank c = false) :
    frontMatter? (withReturns source) = some front ↔
      ∃ old, frontMatter? source = some old ∧ front = old.withReturns := by
  obtain ⟨opening, block, rest⟩ := front
  constructor
  · intro h
    obtain ⟨s, rfl⟩ := exists_eq_fence_append_of_withReturns h
    rw [withReturns_append, withReturns_fence, frontMatter?_eq_some_iff hb,
      head?_blankCuts_withReturns] at h
    obtain ⟨_, _, rfl, hcut, hfirst⟩ := h
    obtain ⟨⟨a, t⟩, hold, he⟩ := Option.map_eq_some_iff.1 hcut
    obtain ⟨rfl, rfl⟩ := Prod.mk.inj he
    rw [firstCut_blockEnd?_withReturns] at hfirst
    obtain ⟨⟨block, rest⟩, hend, he⟩ := Option.map_eq_some_iff.1 hfirst
    obtain ⟨rfl, rfl⟩ := Prod.mk.inj he
    have hsolid := exists_isBlank_withReturns_iff.1 hb
    refine ⟨⟨fence ++ a, block, rest⟩,
      (frontMatter?_eq_some_iff hsolid).2 ⟨a, t, rfl, hold, hend⟩, ?_⟩
    rw [FrontMatter.withReturns, withReturns_append, withReturns_fence]
  · rintro ⟨⟨opening, block, rest⟩, hold, he⟩
    obtain ⟨rfl, rfl, rfl⟩ := FrontMatter.mk.inj he
    have hsolid := exists_isBlank_withReturns_iff.1 hb
    obtain ⟨s, rfl⟩ := exists_eq_fence_append hold
    obtain ⟨a, t, rfl, hcut, hfirst⟩ := (frontMatter?_eq_some_iff hsolid).1 hold
    rw [withReturns_append, withReturns_append, withReturns_fence, frontMatter?_eq_some_iff hb]
    refine ⟨withReturns a, withReturns t, rfl, ?_, ?_⟩
    · rw [head?_blankCuts_withReturns, hcut]
      rfl
    · rw [firstCut_blockEnd?_withReturns, hfirst]
      rfl

/-- Front matter from which metadata is read has a block that is not blank. -/
theorem exists_solid_of_metadata {source : Text} (h : (read source).metadata.entries ≠ []) :
    ∃ front, frontMatter? source = some front ∧ ∃ c ∈ front.block, isBlank c = false := by
  cases hf : frontMatter? source with
  | none =>
    rw [read_of_none hf] at h
    exact absurd rfl h
  | some front =>
    rw [read_of_frontMatter hf] at h
    exact ⟨front, rfl, Metadata.exists_solid_of_read h⟩

/-- With carriage returns the regions of a document stay as they are, but for those that come into
its body. -/
theorem read_withReturns_of_solid {source : Text} (h : '\r' ∉ source) {front : FrontMatter}
    (hf : frontMatter? source = some front) (hb : ∃ c ∈ front.block, isBlank c = false) :
    read (withReturns source) =
      ⟨(read source).metadata, withReturns (read source).body, (read source).data,
        (read source).diagnostics⟩ := by
  obtain ⟨b, w, L⟩ := exists_layout hf hb
  have hrest := L.eq
  have hnot {s : Text} (hs : s <:+: source) : '\r' ∉ s := fun hm => h (hs.subset hm)
  have hblock : '\r' ∉ front.block :=
    hnot ⟨front.opening, b ++ fence ++ w ++ front.rest, by rw [hrest]; simp⟩
  have hnotrest : '\r' ∉ front.rest := hnot ⟨_, [], by rw [List.append_nil, ← hrest]⟩
  have hfound : frontMatter? (withReturns source) = some front.withReturns :=
    (frontMatter?_withReturns_iff (exists_isBlank_withReturns_iff.2 hb)).2 ⟨front, hf, rfl⟩
  have hlines : breaks front.withReturns.opening = breaks front.opening := breaks_withReturns _
  rw [read_of_frontMatter hf, read_of_frontMatter hfound, hlines]
  simp only [FrontMatter.withReturns]
  rw [Metadata.read_withReturns hblock, bodyOf_withReturns, dataOf_withReturns hnotrest,
    warningOf_withReturns hrest]

theorem metadata_withReturns {source : Text} (h : '\r' ∉ source) :
    (read (withReturns source)).metadata = (read source).metadata := by
  by_cases hold : (read source).metadata.entries = []
  · by_cases hnew : (read (withReturns source)).metadata.entries = []
    · exact OrderedMap.ext (hnew.trans hold.symm)
    · -- The block of the new metadata would have been found without the carriage returns.
      obtain ⟨front, hf, hb⟩ := exists_solid_of_metadata hnew
      obtain ⟨old, hf', rfl⟩ := (frontMatter?_withReturns_iff hb).1 hf
      rw [read_withReturns_of_solid h hf' (exists_isBlank_withReturns_iff.1 hb)]
  · obtain ⟨front, hf, hb⟩ := exists_solid_of_metadata hold
    rw [read_withReturns_of_solid h hf hb]

/-! ### Front matter of any kind -/

/-- A fence on its line is followed by a line with another one: a block without a line in it. -/
def ClosesAtOnce (source : Text) : Prop :=
  ∃ x w r, source = fence ++ x ++ '\n' :: fence ++ w ++ r ∧ (∀ c ∈ x, isBlank c = true) ∧
    '\n' ∉ x ∧ EndsInBreak w

theorem endsInBreak_withReturns_iff {s : Text} : EndsInBreak (withReturns s) ↔ EndsInBreak s := by
  unfold EndsInBreak
  rw [all_withReturns_iff (by decide), getLast?_withReturns]

/-- Two fences with line breaks of their own make front matter, whatever stands between them. -/
theorem frontMatter?_ne_none {x b w : Text} (block r : Text) (hx : EndsInBreak x) (hne : b ≠ [])
    (hb : ∀ c ∈ b, isBreak c = true) (hw : EndsInBreak w) :
    frontMatter? (fence ++ x ++ block ++ b ++ fence ++ w ++ r) ≠ none := fun hnone =>
  frontMatter?_eq_none_iff.1 hnone ⟨⟨x, block, b, w, r⟩, rfl, hx, hne, hb, hw⟩

/-- Behind a fence and blanks of its own a block may end anywhere. -/
theorem frontMatter?_ne_none_of_firstCut {a t : Text} (ha : EndsInBreak a)
    (ht : firstCut blockEnd? t ≠ none) : frontMatter? (fence ++ (a ++ t)) ≠ none := by
  obtain ⟨⟨block, r⟩, hp⟩ := Option.ne_none_iff_exists'.1 ht
  obtain ⟨u, rfl, hu, -⟩ := firstCut_eq_some_iff.1 hp
  obtain ⟨b, w, rfl, hne, hb, hw⟩ := blockEnd?_eq_some_iff.1 hu
  have := frontMatter?_ne_none block r ha hne hb (mem_blankCuts_iff.1 (List.mem_of_head? hw)).2
  simpa only [List.append_assoc] using this

/-- A line feed in front of which a block ends is as good as two of them, unless it is the only one
behind the opening fence. -/
theorem frontMatter?_ne_none_or_closesAtOnce {a t r : Text} (ha : ∀ c ∈ a, isBlank c = true)
    (h : blockEnd? ('\n' :: t) = some r) :
    frontMatter? (fence ++ (a ++ '\n' :: t)) ≠ none ∨ ClosesAtOnce (fence ++ (a ++ '\n' :: t)) := by
  obtain ⟨b, w, heq, hne, hb, hcut⟩ := blockEnd?_eq_some_iff.1 h
  have hw := (mem_blankCuts_iff.1 (List.mem_of_head? hcut)).2
  obtain ⟨c, b, rfl⟩ := List.exists_cons_of_ne_nil hne
  obtain ⟨rfl, rfl⟩ := List.cons.inj heq
  rcases eq_or_ne b [] with rfl | hbne
  · by_cases hn : '\n' ∈ a
    · -- A line feed among the blanks leaves this one to the closing fence.
      obtain ⟨x, y, rfl, -⟩ := List.eq_append_cons_of_mem hn
      have hx := endsInBreak_concat (fun d hd => ha d (List.mem_append_left _ hd))
        (show isBreak '\n' = true by decide)
      have := frontMatter?_ne_none (b := ['\n']) y r hx (by simp) (by decide) hw
      exact .inl (by simpa using this)
    · exact .inr ⟨a, w, r, by simp, ha, hn, hw⟩
  · have hend : firstCut blockEnd? (b ++ fence ++ (w ++ r)) ≠ none := by
      intro hnone
      exact blockEnd?_ne_none hbne (fun d hd => hb d (List.mem_cons_of_mem _ hd)) hw
        (firstCut_eq_none_iff.1 hnone [] _ rfl)
    have := frontMatter?_ne_none_of_firstCut
      (endsInBreak_concat ha (show isBreak '\n' = true by decide)) hend
    exact .inl (by simpa using this)

/-- With carriage returns a text has front matter exactly if it has some without them or closes at
once. The metadata is the same in any case. -/
theorem frontMatter?_withReturns {source : Text} (h : '\r' ∉ source) :
    (frontMatter? (withReturns source) ≠ none ↔
        frontMatter? source ≠ none ∨ ClosesAtOnce source) ∧
      (read (withReturns source)).metadata = (read source).metadata := by
  refine ⟨⟨fun hnew => ?_, ?_⟩, metadata_withReturns h⟩
  · obtain ⟨front, hfront⟩ := Option.ne_none_iff_exists'.1 hnew
    obtain ⟨s, rfl⟩ := exists_eq_fence_append_of_withReturns hfront
    obtain ⟨f, ⟨⟨heq, hblanks, hne, hb, hw⟩, -⟩, -⟩ := exists_foremost hfront
    have hend : firstCut blockEnd? (f.block ++ (f.gap ++ fence ++ (f.closing ++ f.rest))) ≠ none :=
      fun hnone => blockEnd?_ne_none hne hb hw (firstCut_eq_none_iff.1 hnone f.block _ rfl)
    have hsplit : withReturns s =
        f.blanks ++ (f.block ++ (f.gap ++ fence ++ (f.closing ++ f.rest))) := by
      rw [withReturns_append, withReturns_fence] at heq
      simpa using heq
    rcases withReturns_eq_append hsplit with ⟨a, t, rfl, ha, ht⟩ | ⟨a, t, rfl, ha, ht⟩
    · rw [ht, firstCut_blockEnd?_withReturns, ne_eq, Option.map_eq_none_iff] at hend
      exact .inl (frontMatter?_ne_none_of_firstCut (endsInBreak_withReturns_iff.1 (ha ▸ hblanks))
        hend)
    · -- The blanks take the carriage return of a line break and leave its line feed.
      have hblank : ∀ c ∈ a, isBlank c = true := by
        refine (all_withReturns_iff (by decide)).1 fun c hc => hblanks.1 c ?_
        rw [ha]
        exact List.mem_append_left _ hc
      have hbreak : blockEnd? ('\n' :: withReturns t) = (blockEnd? ('\n' :: t)).map withReturns :=
        blockEnd?_withReturns ('\n' :: t)
      cases hr : blockEnd? ('\n' :: t) with
      | some r => exact frontMatter?_ne_none_or_closesAtOnce hblank hr
      | none =>
        rw [hr, Option.map_none] at hbreak
        rw [ht, firstCut_cons_of_none hbreak, firstCut_blockEnd?_withReturns, ne_eq,
          Option.map_eq_none_iff, Option.map_eq_none_iff] at hend
        have := frontMatter?_ne_none_of_firstCut
          (endsInBreak_concat hblank (show isBreak '\n' = true by decide)) hend
        exact .inl (by simpa using this)
  · rintro (hold | ⟨x, w, r, rfl, hx, -, hw⟩)
    · obtain ⟨front, hfront⟩ := Option.ne_none_iff_exists'.1 hold
      obtain ⟨f, ⟨⟨heq, hblanks, hne, hb, hw⟩, -⟩, -⟩ := exists_foremost hfront
      have := frontMatter?_ne_none (withReturns f.block) (withReturns f.rest)
        (endsInBreak_withReturns_iff.2 hblanks) (mt withReturns_eq_nil_iff.1 hne)
        ((all_withReturns_iff (by decide)).2 hb) (endsInBreak_withReturns_iff.2 hw)
      rw [heq]
      simpa only [List.append_assoc, withReturns_append, withReturns_fence] using this
    · have := frontMatter?_ne_none (b := ['\n']) [] (withReturns r)
        (endsInBreak_concat ((all_withReturns_iff (by decide)).2 hx)
          (show isBreak '\r' = true by decide)) (by simp) (by decide)
        (endsInBreak_withReturns_iff.2 hw)
      simpa using this

/-- A text that closes at once. -/
def blankCard : Text :=
  "---\n---\nBody".toList

/-- A text with a block that is blank, behind a fence with blanks of its own. -/
def spacedCard : Text :=
  "--- \n \n---\n".toList

theorem frontMatter?_withReturns_cards :
    ('\r' ∉ blankCard ∧
        (frontMatter? (withReturns blankCard) ≠ none ↔
          frontMatter? blankCard ≠ none ∨ ClosesAtOnce blankCard) ∧
        (read (withReturns blankCard)).metadata = (read blankCard).metadata) ∧
      ('\r' ∉ spacedCard ∧
        (frontMatter? (withReturns spacedCard) ≠ none ↔
          frontMatter? spacedCard ≠ none ∨ ClosesAtOnce spacedCard) ∧
        (read (withReturns spacedCard)).metadata = (read spacedCard).metadata) := by
  have hblank : '\r' ∉ blankCard := by decide
  have hspaced : '\r' ∉ spacedCard := by decide
  exact ⟨⟨hblank, frontMatter?_withReturns hblank⟩, hspaced, frontMatter?_withReturns hspaced⟩

theorem not_forall_frontMatter?_withReturns :
    ¬ ∀ source : Text, '\r' ∉ source →
      (frontMatter? (withReturns source) ≠ none ↔ frontMatter? source ≠ none) ∧
        (frontMatter? source ≠ none →
          (read (withReturns source)).metadata = (read source).metadata) := by
  intro h
  have hnew : frontMatter? (withReturns blankCard) ≠ none := by decide +kernel
  exact (h blankCard (by decide)).1.1 hnew (by decide +kernel)

end Regions

end Formdoc
