/-
Text put into a document, and its regions.

Where the first data line stands decides where the addition lands.  If the line
belongs to the data section that is read, or if there is neither, the addition is
the last of the body, and all else is kept (`regions_insertText`).  Otherwise it
takes the place of the metadata or is no part of the body
(`regions_insertText_of_ne`), but for a section that opens right behind the front
matter, in front of which the addition is the body (`regions_insertText_of_front`).

A data line and an opening of the splitter agree on the text behind the marker,
or the opening stands in front of the line, where no text behind it changes what
is found (`opening_of_lineTail?`).
-/
import Formdoc.Proofs.Document.DataLine
import Formdoc.Proofs.Document.Written
import Formdoc.Proofs.Regions.Spill

namespace Formdoc

open Text Regions

namespace Metadata

/-- A bracketed text is no entry. -/
theorem entries_read_bracketed {x : Text} (hx : Bracketed x) (n : Nat) :
    (read x n).1.entries = [] := by
  by_contra hne
  obtain ⟨e, he⟩ := List.exists_mem_of_ne_nil _ hne
  obtain ⟨l, hl, hentry⟩ := exists_line_of_mem_read he
  rw [lines_of_not_mem hx.oneLine.not_mem_lineFeed, List.mem_singleton] at hl
  rw [hl, dropReturn_of_oneLine hx.oneLine] at hentry
  obtain ⟨hk, raw, hraw, -⟩ := entry?_eq_some hentry
  obtain ⟨c, hc, hhead⟩ := exists_head?_of_isKey hk
  have := hx.head
  rw [hraw, hhead, Option.some_inj] at this
  rw [this] at hc
  exact absurd hc (by decide)

end Metadata

namespace Regions

/-! ### Regions from the opening of the data section -/

/-- The text behind the marker of the data section that is read. -/
def sectionTail? (source : Text) : Option Text :=
  (frontMatter? source).bind fun front => (dataStart? front.rest).map Prod.snd

theorem sectionTail?_eq {source : Text} {front : FrontMatter}
    (hf : frontMatter? source = some front) :
    sectionTail? source = (dataStart? front.rest).map Prod.snd := by
  rw [sectionTail?, hf, Option.bind_some]

/-- Documents with the same front matter in which the same text follows the marker differ in the
body, and in the place of the warning that the section is not closed. -/
theorem read_eq_of_tail {s s' rest before before' tail : Text} {front : FrontMatter}
    (hf : frontMatter? s = some front) (hd : dataStart? front.rest = some (before, tail))
    (hf' : frontMatter? s' = some ⟨front.opening, front.block, rest⟩)
    (hd' : dataStart? rest = some (before', tail)) :
    ∃ ds, ((read s).diagnostics = [] → ds = []) ∧
      read s' = ⟨(read s).metadata, trim before', (read s).data, ds⟩ := by
  rw [read_of_section hf hd, read_of_section hf' hd']
  refine ⟨_, fun h => ?_, rfl⟩
  obtain ⟨hw, hc⟩ := List.append_eq_nil_iff.1 h
  rw [hw, List.nil_append]
  split
  · rfl
  · rename_i hopen
    rw [if_neg hopen] at hc
    cases hc

/-- What stands in front of the fence of an opening at the front is nothing. -/
theorem eq_nil_of_opening_eq {p b e t : Text} (hb : ∀ c ∈ b, isBreak c = true)
    (he : ∀ c ∈ e, isBreak c = true)
    (h : fence ++ b ++ Data.marker ++ t = p ++ (fence ++ e ++ Data.marker ++ t)) : p = [] := by
  have hform : [] ++ fence ++ b ++ (Data.marker ++ t) = p ++ fence ++ e ++ (Data.marker ++ t) := by
    simpa [List.append_assoc] using h
  exact (fence_append_inj (by decide) hb he (List.append_cancel_right hform)).symm

/-- The section stays where it is when the blanks at the end of the text are replaced, if that makes
no opening behind the line breaks of the text. -/
theorem exists_dataStart?_trimEnd_append {s b t y : Text} (h : dataStart? s = some (b, t))
    (hy : ¬ OpensWithin s → ¬ OpensWithin (trimEnd s ++ y)) :
    ∃ t', dataStart? (trimEnd s ++ y) = some (b, t') := by
  have htrim (m r : Text) : ∃ u, trimEnd (m ++ Data.marker ++ r) = m ++ Data.marker ++ u :=
    exists_trimEnd_append (List.getLast?_append_of_ne_nil _ (by decide) : _ = some ':')
      (by decide) r
  rw [dataStart?_eq] at h
  cases hs : firstCut sectionStart? s with
  | some p =>
    rw [hs] at h
    obtain rfl := Option.some_inj.1 h
    obtain ⟨v, w, rfl, hv, hw, hvb, hwb, hb, hlast⟩ := firstCut_sectionStart?_eq_some_iff.1 hs
    obtain ⟨u, hu⟩ := htrim (b ++ (v ++ fence ++ w)) t
    have hcut : firstCut sectionStart? (trimEnd (b ++ (v ++ fence ++ w ++ Data.marker) ++ t) ++ y) =
        some (b, u ++ y) := by
      refine firstCut_sectionStart?_eq_some_iff.2 ⟨v, w, ?_, hv, hw, hvb, hwb, hb, hlast⟩
      rw [← List.append_assoc b, hu]
      simp
    exact ⟨u ++ y, dataStart?_of_firstCut hcut⟩
  | none =>
    rw [hs] at h
    obtain ⟨t', ht', he⟩ := Option.map_eq_some_iff.1 h
    obtain ⟨rfl, rfl⟩ := Prod.mk.inj he
    have hnone : firstCut sectionStart? (trimEnd s ++ y) = none :=
      firstCut_eq_none_of_not_opensWithin (hy (by rw [opensWithin_iff, hs]; simp))
    obtain ⟨w, rfl, hw, hwb⟩ := opening?_eq_some_iff.1 ht'
    obtain ⟨u, hu⟩ := htrim (fence ++ w) t'
    have hopen : opening? (trimEnd (fence ++ w ++ Data.marker ++ t') ++ y) = some (u ++ y) :=
      opening?_eq_some_iff.2 ⟨w, by rw [hu, List.append_assoc], hw, hwb⟩
    exact ⟨u ++ y, by rw [dataStart?_eq, hnone, hopen]; rfl⟩

theorem length_of_opening? {s t : Text} (h : opening? s = some t) : t.length + 9 ≤ s.length := by
  obtain ⟨b, rfl, hb, -⟩ := opening?_eq_some_iff.1 h
  have := List.length_pos_iff.2 hb
  simp only [List.length_append, fence, Data.marker, List.length_cons, List.length_nil]
  omega

theorem length_of_dataStart? {s b t : Text} (h : dataStart? s = some (b, t)) :
    t.length + 9 ≤ s.length := by
  rw [dataStart?_eq] at h
  cases hs : firstCut sectionStart? s with
  | some p =>
    rw [hs] at h
    obtain rfl := Option.some_inj.1 h
    obtain ⟨x, y, rfl, -, hy, -⟩ := firstCut_sectionStart?_eq_some_iff.1 hs
    have := List.length_pos_iff.2 hy
    simp only [List.length_append, fence, Data.marker, List.length_cons, List.length_nil]
    omega
  | none =>
    rw [hs] at h
    obtain ⟨t', ht', he⟩ := Option.map_eq_some_iff.1 h
    cases he
    exact length_of_opening? ht'

end Regions

namespace Document

/-! ### A data line and the first opening -/

theorem opensWithin_of_lineTail? {u t : Text} (hu : lineTail? u = some t) (r : Text) :
    OpensWithin (r ++ u) := by
  rw [opensWithin_iff, Option.isSome_iff_ne_none]
  intro hnone
  have hopen := sectionStart?_of_lineTail? hu
  rw [firstCut_eq_none_iff.1 hnone r u rfl] at hopen
  cases hopen

/-- A section whose opening is the data line right at the front has nothing in front of it. -/
theorem eq_nil_of_dataStart? {s b t : Text} (hu : lineTail? ('\n' :: s) = some t)
    (h : dataStart? s = some (b, t)) : b = [] := by
  obtain ⟨e, he, hs⟩ := lineTail?_eq_some_iff.1 hu
  obtain ⟨-, rfl⟩ := List.cons.inj hs
  rw [dataStart?_eq] at h
  cases hcut : firstCut sectionStart? (fence ++ e ++ Data.marker ++ t) with
  | some p =>
    rw [hcut] at h
    obtain rfl := Option.some_inj.1 h
    obtain ⟨x, y, hxy, hx, -, -, hyb, -⟩ := firstCut_sectionStart?_eq_some_iff.1 hcut
    have hnil : b ++ x = [] := eq_nil_of_opening_eq he.isBreak hyb (by simpa using hxy)
    exact absurd (List.append_eq_nil_iff.1 hnil).2 hx
  | none =>
    rw [hcut] at h
    obtain ⟨t', -, he⟩ := Option.map_eq_some_iff.1 h
    exact (Prod.mk.inj he).1.symm

theorem length_of_lineTail? {s t : Text} (h : lineTail? s = some t) : s.length ≤ t.length + 11 := by
  obtain ⟨e, he, rfl⟩ := lineTail?_eq_some_iff.1 h
  have := he.length_le
  simp only [List.length_cons, List.length_append, fence, Data.marker, List.length_nil]
  omega

/-- A data line does not stand behind its own marker. -/
theorem ne_append_of_lineTail? {u t : Text} (hu : lineTail? u = some t) (p : Text) :
    t ≠ p ++ u := by
  obtain ⟨e, -, rfl⟩ := lineTail?_eq_some_iff.1 hu
  intro h
  have hlen := congrArg List.length h
  simp only [List.length_append, List.length_cons] at hlen
  omega

/-- In front of a data line, the first opening is the line's own, with line breaks in front of it,
or stands in the text before the line, and is then found whatever follows that. -/
theorem opening_of_lineTail? {r u b t t' : Text} (hu : lineTail? u = some t)
    (h : firstCut sectionStart? (r ++ u) = some (b, t')) :
    (t' = t ∧ ∃ w, r = b ++ w ∧ ∀ c ∈ w, isBreak c = true) ∨
      ∃ p, t' = p ++ u ∧ ∀ y, firstCut sectionStart? (r ++ y) = some (b, p ++ y) := by
  obtain ⟨v, hv, -, hnone⟩ := firstCut_eq_some_iff.1 h
  obtain ⟨x, y, hs, hx, hy, hxb, hyb, hb, hlast⟩ := firstCut_sectionStart?_eq_some_iff.1 h
  have hopen := sectionStart?_of_lineTail? hu
  obtain ⟨e, he, rfl⟩ := lineTail?_eq_some_iff.1 hu
  have hsplit : b ++ (x ++ (fence ++ (y ++ (Data.marker ++ t')))) =
      r ++ '\n' :: (fence ++ (e ++ (Data.marker ++ t))) := by
    simpa [List.append_assoc] using hs.symm
  rcases eq_append_lineFeed hsplit with ⟨q, rfl, hq⟩ | ⟨p, rfl, h1⟩
  · -- The line would be an opening in front of the first one.
    rw [List.append_assoc r, List.append_cancel_left_eq] at hv
    rw [hv, hnone r ('\n' :: q) rfl (by simp)] at hopen
    cases hopen
  have hxblank : ∀ c ∈ x, isBlank c = true := fun c hc => isBlank_of_isBreak (hxb c hc)
  rcases eq_append_lineFeed_of_blank hxblank h1 with ⟨rfl, hz⟩ | ⟨p, rfl, h2⟩
  · -- What follows the fence of the line is what follows that of the opening.
    have hd (s : Text) (c : Char) (hc : (Data.marker ++ s).head? = some c) : isBreak c = false := by
      obtain rfl : 'd' = c := Option.some_inj.1 hc
      decide
    have hdrop := congrArg (List.dropWhile isBreak) (List.append_cancel_left hz)
    rw [(span_append he.isBreak (hd t)).2, (span_append hyb (hd t')).2] at hdrop
    exact .inl ⟨List.append_cancel_left hdrop, p, rfl, fun c hc => hxb c (by simp [hc])⟩
  obtain ⟨p, rfl, h3⟩ := eq_append_lineFeed_of_not_mem (by decide) h2
  have hyblank : ∀ c ∈ y, isBlank c = true := fun c hc => isBlank_of_isBreak (hyb c hc)
  rcases eq_append_lineFeed_of_blank hyblank h3 with ⟨-, hz⟩ | ⟨p, rfl, h4⟩
  · cases hz
  obtain ⟨p, rfl, h5⟩ := eq_append_lineFeed_of_not_mem (by decide) h4
  exact .inr ⟨p, by rw [h5]; simp, fun z =>
    firstCut_sectionStart?_eq_some_iff.2 ⟨x, y, by simp, hx, hy, hxb, hyb, hb, hlast⟩⟩

/-- In front of a data line, and behind a text without an opening, the section opens at the line. -/
theorem dataStart?_of_lineTail? {x z u t : Text} (hx : Bracketed x) (hz : ¬ OpensWithin z)
    (hu : lineTail? u = some t) : dataStart? (z ++ x ++ '\n' :: u) = some (z ++ x, t) := by
  obtain ⟨e, he, rfl⟩ := lineTail?_eq_some_iff.1 hu
  have hcut : firstCut sectionStart? (z ++ x ++ '\n' :: '\n' :: (fence ++ e ++ Data.marker ++ t)) =
      some (z ++ x, t) := by
    refine firstCut_sectionStart?_eq_some_iff.2 ⟨['\n', '\n'], e, by simp, by simp, he.ne_nil,
      by decide, he.isBreak, fun ho => hz (ho.of_append_bracketed hx), fun c hc => ?_⟩
    rw [List.getLast?_append, hx.last] at hc
    obtain rfl : ']' = c := Option.some_inj.1 hc
    decide
  exact dataStart?_of_firstCut hcut

end Document

namespace Regions.Layout

open Document

variable {source : Text} {front : FrontMatter} {breaks closing : Text}
  (L : Layout source front breaks closing)

include L

/-- A data line with no more behind its marker than a section behind the front matter has room for
stands in front of the text there or within it. -/
theorem front_or_within {before u t : Text} (hs : source = before ++ u) (hu : lineTail? u = some t)
    (ht : t.length + 9 ≤ front.rest.length) :
    (∃ a, closing = a ++ ['\n'] ∧
        before = front.opening ++ front.block ++ breaks ++ fence ++ a ∧ u = '\n' :: front.rest) ∨
      ∃ r, before = front.opening ++ front.block ++ breaks ++ fence ++ closing ++ r ∧
        front.rest = r ++ u := by
  have hlen := length_of_lineTail? hu
  cases L.place hs hu with
  | opening a ha =>
    simp only [List.length_cons, List.length_append, fence, List.length_nil] at hlen
    omega
  | closing a ha =>
    simp only [List.length_cons, List.length_append, fence, List.length_nil] at hlen
    omega
  | front a ha => exact .inl ⟨a, ha, rfl, rfl⟩
  | within r u hr => exact .inr ⟨r, rfl, hr⟩

/-! ### The regions of a document with an addition -/

variable (hf : frontMatter? source = some front) {x : Text} (hx : Bracketed x)

include hf hx

/-- Without a data line and without a data section the text is the last of the body. -/
theorem read_insertText_of_no_section (h : firstCut lineTail? source = none)
    (hd : dataStart? front.rest = none) :
    read (insertText source x) = ⟨(read source).metadata,
      trim (trimEnd front.rest ++ ['\n', '\n'] ++ x), (read source).data,
      (read source).diagnostics⟩ := by
  obtain ⟨sep, hsep, hfront⟩ := L.frontMatter?_insertText_of_none hx h
  have hbreaks : ∀ c ∈ sep, isBreak c = true := by
    rcases hsep with rfl | ⟨rfl, -⟩ <;> decide
  obtain ⟨z, hz, -⟩ := exists_eq_dropEndWhile_append isBlank front.rest
  rw [← trimEnd] at hz
  have hnone : dataStart? (trimEnd front.rest ++ sep ++ x ++ ['\n']) = none := by
    obtain ⟨hwithin, hat⟩ := dataStart?_eq_none_iff.1 hd
    rw [hz] at hwithin hat
    refine dataStart?_eq_none_iff.2 ⟨fun ho => hwithin ?_, fun ho => hat ?_⟩
    · exact (((ho.of_append (by decide)).of_append_bracketed hx).of_append hbreaks).append z
    · exact (((ho.of_append (by decide)).of_append_bracketed hx).of_append hbreaks).append z
  have htrim : trim (trimEnd front.rest ++ sep ++ x ++ ['\n']) =
      trim (trimEnd front.rest ++ ['\n', '\n'] ++ x) := by
    rw [trim_append_blank _ (by decide)]
    rcases hsep with rfl | ⟨rfl, hnil⟩
    · rfl
    · rw [hnil, List.nil_append, List.nil_append, List.nil_append,
        trim_blank_append (s := ['\n', '\n']) x (by decide)]
  rw [read_of_no_section hfront hnone, htrim, read_of_no_section hf hd]

/-- Without a data line the text is no part of the body, if there is a data section. -/
theorem body_insertText_of_section (h : firstCut lineTail? source = none) {b t : Text}
    (hd : dataStart? front.rest = some (b, t)) :
    (read (insertText source x)).body = (read source).body := by
  obtain ⟨sep, hsep, hfront⟩ := L.frontMatter?_insertText_of_none hx h
  have hbreaks : ∀ c ∈ sep, isBreak c = true := by
    rcases hsep with rfl | ⟨rfl, -⟩ <;> decide
  obtain ⟨z, hz, -⟩ := exists_eq_dropEndWhile_append isBlank front.rest
  rw [← trimEnd] at hz
  obtain ⟨t', ht'⟩ : ∃ t', dataStart? (trimEnd front.rest ++ (sep ++ x ++ ['\n'])) =
      some (b, t') := by
    refine exists_dataStart?_trimEnd_append hd fun hwithin ho => hwithin ?_
    rw [← List.append_assoc, ← List.append_assoc] at ho
    rw [hz]
    exact (((ho.of_append (by decide)).of_append_bracketed hx).of_append hbreaks).append z
  rw [List.append_assoc, List.append_assoc, ← List.append_assoc sep] at hfront
  rw [read_of_section hfront ht', read_of_section hf hd]

/-- In front of the data line at which the section opens the text is the last of the body. -/
theorem read_insert_within {r u b t : Text} (hr : front.rest = r ++ u) (hu : lineTail? u = some t)
    (hs : firstCut sectionStart? front.rest = some (b, t)) :
    trim r = trim b ∧ ∃ ds, ((read source).diagnostics = [] → ds = []) ∧
      read (front.opening ++ front.block ++ breaks ++ fence ++ closing ++ r ++ ['\n', '\n'] ++ x ++
          '\n' :: u) =
        ⟨(read source).metadata, trim (r ++ ['\n', '\n'] ++ x), (read source).data, ds⟩ := by
  have hd := dataStart?_of_firstCut hs
  obtain ⟨-, -, -, -, -, -, -, hb, -⟩ := firstCut_sectionStart?_eq_some_iff.1 hs
  rw [hr] at hs
  obtain ⟨-, w, rfl, hw⟩ := (opening_of_lineTail? hu hs).resolve_right fun ⟨p, hp, _⟩ =>
    ne_append_of_lineTail? hu p hp
  have hopen : ¬ OpensWithin (b ++ w ++ ['\n', '\n']) := fun ho =>
    hb ((ho.of_append (by decide)).of_append hw)
  exact ⟨trim_append_blank b fun c hc => isBlank_of_isBreak (hw c hc),
    read_eq_of_tail hf hd (L.frontMatter?_insert_within hu hr)
      (dataStart?_of_lineTail? hx hopen hu)⟩

omit hx in
/-- In front of a later data line the text is no part of the body. -/
theorem body_insert_within_of_ne {r u b t t' : Text} (hr : front.rest = r ++ u)
    (hu : lineTail? u = some t) (hs : firstCut sectionStart? front.rest = some (b, t'))
    (hne : t' ≠ t) :
    (read (front.opening ++ front.block ++ breaks ++ fence ++ closing ++ r ++ ['\n', '\n'] ++ x ++
      '\n' :: u)).body = (read source).body := by
  have hd := dataStart?_of_firstCut hs
  rw [hr] at hs
  obtain ⟨p, -, hfound⟩ := (opening_of_lineTail? hu hs).resolve_left fun h => hne h.1
  have ht := hfound (['\n', '\n'] ++ x ++ '\n' :: u)
  rw [← List.append_assoc, ← List.append_assoc] at ht
  rw [read_of_section (L.frontMatter?_insert_within hu hr) (dataStart?_of_firstCut ht),
    read_of_section hf hd]

/-- In front of a data line whose fence is the closing fence the text is no part of the body. -/
theorem body_insert_closing {a : Text} (ha : breaks = a ++ ['\n']) :
    (read (front.opening ++ front.block ++ a ++ ['\n', '\n'] ++ x ++
      '\n' :: '\n' :: (fence ++ closing ++ front.rest))).body = (read source).body := by
  have hfront := L.frontMatter?_insert_closing hx ha
  cases hd : dataStart? front.rest with
  | none => rw [read_of_no_section hfront hd, read_of_no_section hf hd]
  | some p => rw [read_of_section hfront hd, read_of_section hf hd]

omit hf in
/-- In front of a data line whose fence is the opening fence the text takes the place of the
metadata. -/
theorem metadata_insert_opening {a u t : Text} (ha : front.opening = fence ++ a ++ ['\n'])
    (hu : lineTail? u = some t) :
    (read (fence ++ a ++ ['\n', '\n'] ++ x ++ '\n' :: u)).metadata.entries = [] := by
  obtain ⟨rest, hfront⟩ := L.exists_frontMatter?_insert_opening hx ha hu
  rw [(read_of_some hfront).1]
  exact Metadata.entries_read_bracketed hx _

end Regions.Layout

namespace Document

/-! ### Where the addition lands -/

/-- The text behind the marker of the data line in front of which text is put. -/
def foundTail? (source : Text) : Option Text :=
  (firstCut lineTail? source).map Prod.snd

/-- The data line in front of which text is put stands right behind the front matter, where a data
section opens, and the given text stands behind its marker. -/
def FoundAtFront (source tail : Text) : Prop :=
  foundTail? source = some tail ∧
    (frontMatter? source).bind (fun front => opening? front.rest) = some tail

theorem lineTail?_eq_none {s : Text} (h : sectionStart? s = none) : lineTail? s = none := by
  by_contra hne
  obtain ⟨t, ht⟩ := Option.ne_none_iff_exists'.1 hne
  rw [sectionStart?_of_lineTail? ht] at h
  cases h

theorem foundTail?_eq_none {s : Text} (h : firstCut sectionStart? s = none) :
    foundTail? s = none := by
  rw [foundTail?, Option.map_eq_none_iff, firstCut_eq_none_iff]
  exact fun u v huv => lineTail?_eq_none (firstCut_eq_none_iff.1 h u v huv)

/-- A data line that is the first opening is the first data line. -/
theorem foundTail?_of_firstCut {p u b t : Text} (hu : lineTail? u = some t)
    (h : firstCut sectionStart? (p ++ u) = some (b, t)) : foundTail? (p ++ u) = some t := by
  cases hcut : firstCut lineTail? (p ++ u) with
  | none =>
    rw [firstCut_eq_none_iff.1 hcut p u rfl] at hu
    cases hu
  | some q =>
    obtain ⟨before, t'⟩ := q
    obtain ⟨v, hv, ht', hfirst⟩ := firstCut_eq_some_iff.1 hcut
    have hopen := h
    rw [hv] at hopen
    rcases opening_of_lineTail? ht' hopen with ⟨rfl, -⟩ | ⟨w, rfl, -⟩
    · rw [foundTail?, hcut]
      rfl
    · -- The line would stand behind its own marker, since the first one is not behind it.
      exfalso
      rcases List.append_eq_append_iff.1 hv with ⟨a, rfl, rfl⟩ | ⟨a, rfl, rfl⟩
      · cases a with
        | nil => exact ne_append_of_lineTail? hu w rfl
        | cons c a =>
          rw [hfirst p (c :: a) rfl (by simp)] at hu
          cases hu
      · exact ne_append_of_lineTail? hu (w ++ a) (List.append_assoc ..).symm

section Addition

variable {source : Text} {front : FrontMatter} (hf : frontMatter? source = some front)
  (hb : ∃ c ∈ front.block, isBlank c = false) {x : Text} (hx : Bracketed x)

include hf hb hx

/-- If text is put in front of the section that is read, or there is none and no data line, then
it is the last of the body, and all else is kept. -/
theorem regions_insertText (h : foundTail? source = sectionTail? source) :
    ∃ s ds, s <+: front.rest ∧ trim s = (Regions.read source).body ∧
      ((Regions.read source).diagnostics = [] → ds = []) ∧
      Regions.read (insertText source x) = ⟨(Regions.read source).metadata,
        trim (s ++ ['\n', '\n'] ++ x), (Regions.read source).data, ds⟩ := by
  obtain ⟨breaks, closing, L⟩ := exists_layout hf hb
  rw [foundTail?, sectionTail?_eq hf] at h
  cases hcut : firstCut lineTail? source with
  | none =>
    rw [hcut, Option.map_none, eq_comm, Option.map_eq_none_iff] at h
    obtain ⟨z, hz, -⟩ := exists_eq_dropEndWhile_append isBlank front.rest
    refine ⟨trimEnd front.rest, _, ⟨z, hz.symm⟩, ?_, id,
      L.read_insertText_of_no_section hf hx hcut h⟩
    rw [read_of_no_section hf h, trim_trimEnd]
  | some p =>
    obtain ⟨before, t⟩ := p
    rw [hcut, Option.map_some, eq_comm, Option.map_eq_some_iff] at h
    obtain ⟨⟨b, t'⟩, hd, rfl⟩ := h
    obtain ⟨u, hs, hu, htext⟩ := insertText_of_some hcut x
    rw [htext]
    rcases L.front_or_within hs hu (length_of_dataStart? hd) with ⟨a, ha, rfl, rfl⟩ | ⟨r, rfl, hr⟩
    · obtain rfl := eq_nil_of_dataStart? hu hd
      have hd' := dataStart?_of_lineTail? (z := []) hx (by decide) hu
      obtain ⟨ds, hds, hread⟩ := read_eq_of_tail hf hd (L.frontMatter?_insert_front hx ha) hd'
      refine ⟨[], ds, List.nil_prefix, by rw [read_of_section hf hd], hds, ?_⟩
      rw [hread, List.nil_append, List.nil_append,
        trim_blank_append (s := ['\n', '\n']) x (by decide)]
    · have hcut := firstCut_of_dataStart? hd (by rw [hr]; exact opensWithin_of_lineTail? hu r)
      obtain ⟨htrim, ds, hds, hread⟩ := L.read_insert_within hf hx hr hu hcut
      exact ⟨r, ds, ⟨u, hr.symm⟩, by rw [read_of_section hf hd, htrim], hds, hread⟩

/-- Otherwise, and if no data section opens at the front, the text takes the place of the metadata
or is no part of the body. -/
theorem regions_insertText_of_ne (h : foundTail? source ≠ sectionTail? source)
    (hfront : ∀ t, ¬ FoundAtFront source t) :
    (Regions.read (insertText source x)).metadata.entries = [] ∨
      (Regions.read (insertText source x)).body = (Regions.read source).body := by
  obtain ⟨breaks, closing, L⟩ := exists_layout hf hb
  rw [foundTail?, sectionTail?_eq hf] at h
  cases hcut : firstCut lineTail? source with
  | none =>
    rw [hcut, Option.map_none, ne_comm, ne_eq, Option.map_eq_none_iff] at h
    obtain ⟨⟨b, t⟩, hd⟩ := Option.ne_none_iff_exists'.1 h
    exact .inr (L.body_insertText_of_section hf hx hcut hd)
  | some p =>
    obtain ⟨before, t⟩ := p
    rw [hcut] at h
    obtain ⟨u, hs, hu, htext⟩ := insertText_of_some hcut x
    rw [htext]
    cases L.place hs hu with
    | opening a ha => exact .inl (L.metadata_insert_opening hx ha hu)
    | closing a ha => exact .inr (L.body_insert_closing hf hx ha)
    | front a ha =>
      obtain ⟨e, he, hrest⟩ := lineTail?_eq_some_iff.1 hu
      refine absurd ⟨by rw [foundTail?, hcut]; rfl, ?_⟩ (hfront t)
      rw [hf, Option.bind_some, (List.cons.inj hrest).2]
      exact opening?_eq_some_iff.2 ⟨e, rfl, he.ne_nil, he.isBreak⟩
    | within r u hr =>
      obtain ⟨⟨b, t'⟩, hb⟩ := Option.isSome_iff_exists.1
        (opensWithin_iff.1 (hr ▸ opensWithin_of_lineTail? hu r))
      refine .inr (L.body_insert_within_of_ne hf hr hu hb fun ht => h ?_)
      rw [dataStart?_of_firstCut hb, ht]
      rfl

/-- In front of an opening right behind the front matter the text is the body. -/
theorem regions_insertText_of_front {t : Text} (h : FoundAtFront source t) :
    (Regions.read (insertText source x)).metadata = (Regions.read source).metadata ∧
      (Regions.read (insertText source x)).data = dataFrom t ∧
      (Regions.read (insertText source x)).body = x := by
  obtain ⟨breaks, closing, L⟩ := exists_layout hf hb
  obtain ⟨hfound, hopen⟩ := h
  rw [hf, Option.bind_some] at hopen
  obtain ⟨⟨before, t'⟩, hcut, rfl⟩ := Option.map_eq_some_iff.1 hfound
  obtain ⟨u, hs, hu, htext⟩ := insertText_of_some hcut x
  rw [htext]
  rcases L.front_or_within hs hu (length_of_opening? hopen) with ⟨a, ha, rfl, rfl⟩ | ⟨r, rfl, hr⟩
  · rw [read_of_section (L.frontMatter?_insert_front hx ha)
      (dataStart?_of_lineTail? (z := []) hx (by decide) hu), (read_of_some hf).1]
    exact ⟨rfl, rfl, hx.trim_eq⟩
  · -- The line stands behind the opening.
    exfalso
    obtain ⟨y, hy, -, hyb⟩ := opening?_eq_some_iff.1 hopen
    obtain ⟨e, he, rfl⟩ := lineTail?_eq_some_iff.1 hu
    have hnil : r ++ ['\n'] = [] := by
      refine eq_nil_of_opening_eq (t := t') hyb he.isBreak ?_
      rw [← hy, hr]
      simp
    simp at hnil

end Addition

end Document

end Formdoc
