/-
Which data section of a document is read.

An opening stands at the front of the text behind the front matter or behind a
line break there (`OpensAt`).  Without one the text is all body.  The first one
behind a line break is always the one that is read, with the text in front of it
as body and the text behind its marker, up to a closing delimiter, as data
(`ReadsSection`, `readsSection_of_opensFirstBehind`).

An opening at the front is read only if there is no other one: else the section
and all that follows it up to the next opening become body
(`not_readsSection_of_opensWithin`).
-/
import Formdoc.Proofs.Regions.Layout
import Formdoc.Proofs.Regions.Section

namespace Formdoc

open Text

theorem Metadata.ne_unclosedData_of_mem_warnings {block : Text} {n : Nat} {d : Diagnostic}
    (h : d ∈ (read block n).2) (m : Nat) : d ≠ .unclosedData m := by
  obtain ⟨⟨l, i⟩, -, hl⟩ := List.mem_filterMap.1 h
  unfold warning? at hl
  split at hl
  · cases hl
    intro he
    -- The two messages differ in their first character.
    have hhead := congrArg List.head? (congrArg Diagnostic.message he)
    cases hhead
  · cases hl

theorem Diagnostic.unclosedData_inj {m n : Nat} :
    unclosedData m = unclosedData n ↔ m = n := by
  simp [unclosedData, warningOn]

namespace Regions

/-! ### Openings -/

/-- A data section opens between the two texts: its fence stands at the front or behind a line break,
and is followed by line breaks and the marker. -/
structure OpensAt (s before tail : Text) : Prop where
  eq : ∃ b, s = before ++ fence ++ b ++ Data.marker ++ tail ∧ b ≠ [] ∧ ∀ c ∈ b, isBreak c = true
  behind : ∀ c, before.getLast? = some c → isBreak c = true

/-- The first opening in the text. -/
def OpensFirstAt (s before tail : Text) : Prop :=
  OpensAt s before tail ∧ ∀ b t, OpensAt s b t → before.length ≤ b.length

/-- The first opening in the text that is not at its front. -/
def OpensFirstBehind (s before tail : Text) : Prop :=
  OpensAt s before tail ∧ before ≠ [] ∧
    ∀ b t, OpensAt s b t → b ≠ [] → before.length ≤ b.length

theorem opensAt_nil_iff {s tail : Text} : OpensAt s [] tail ↔ opening? s = some tail := by
  rw [opening?_eq_some_iff]
  constructor
  · intro h
    simpa using h.eq
  · intro h
    exact ⟨by simpa using h, by simp⟩

theorem opensAt_concat_iff {s before tail : Text} {c : Char} :
    OpensAt s (before ++ [c]) tail ↔
      ∃ t, s = before ++ c :: t ∧ isBreak c = true ∧ opening? t = some tail := by
  simp only [opening?_eq_some_iff]
  constructor
  · rintro ⟨⟨b, rfl, hb⟩, hbehind⟩
    exact ⟨fence ++ b ++ Data.marker ++ tail, by simp, hbehind c List.getLast?_concat, b, rfl, hb⟩
  · rintro ⟨t, rfl, hc, b, rfl, hb⟩
    refine ⟨⟨b, by simp, hb⟩, fun d hd => ?_⟩
    rw [List.getLast?_concat, Option.some_inj] at hd
    rwa [← hd]

theorem opensWithin_iff_opensAt {s : Text} :
    OpensWithin s ↔ ∃ before tail, OpensAt s before tail ∧ before ≠ [] := by
  constructor
  · rintro ⟨a, c, t, hs, hc, ht⟩
    obtain ⟨tail, htail⟩ := Option.isSome_iff_exists.1 (opensAtFront_iff.1 ht)
    exact ⟨a ++ [c], tail, opensAt_concat_iff.2 ⟨t, hs, hc, htail⟩, by simp⟩
  · rintro ⟨before, tail, h, hne⟩
    obtain ⟨a, c, rfl⟩ := List.eq_nil_or_concat before |>.resolve_left hne
    rw [List.concat_eq_append] at h
    obtain ⟨t, hs, hc, ht⟩ := opensAt_concat_iff.1 h
    exact ⟨a, c, t, hs, hc, opensAtFront_iff.2 (by simp [ht])⟩

/-- The section that is found opens somewhere in the text. -/
theorem exists_opensAt_of_dataStart? {s b tail : Text} (h : dataStart? s = some (b, tail)) :
    ∃ before, OpensAt s before tail := by
  by_cases hs : OpensWithin s
  · obtain ⟨u, rfl, hu, -⟩ := firstCut_eq_some_iff.1 (firstCut_of_dataStart? h hs)
    obtain ⟨x, t, rfl, hne, hx, ht⟩ := sectionStart?_eq_some_iff.1 hu
    obtain ⟨x, c, rfl⟩ := (List.eq_nil_or_concat x).resolve_left hne
    exact ⟨b ++ x ++ [c], opensAt_concat_iff.2 ⟨t, by simp, hx c (by simp), ht⟩⟩
  · rw [dataStart?_eq, firstCut_eq_none_of_not_opensWithin hs] at h
    obtain ⟨r, hr, he⟩ := Option.map_eq_some_iff.1 h
    obtain ⟨-, rfl⟩ := Prod.mk.inj he
    exact ⟨[], opensAt_nil_iff.2 hr⟩

/-- No opening behind a line break stands in front of the one that the search finds. -/
theorem length_lt_of_opensAt {s b t before tail : Text}
    (hcut : firstCut sectionStart? s = some (b, t)) (h : OpensAt s before tail)
    (hne : before ≠ []) : b.length < before.length := by
  obtain ⟨a, c, rfl⟩ := List.eq_nil_or_concat before |>.resolve_left hne
  rw [List.concat_eq_append] at h ⊢
  obtain ⟨u, hs, hc, hu⟩ := opensAt_concat_iff.1 h
  have hstart : sectionStart? (c :: u) = some tail :=
    sectionStart?_eq_some_iff.2 ⟨[c], u, rfl, by simp, by simpa using hc, hu⟩
  have hle := length_le_of_firstCut hcut hs (by simp [hstart])
  rw [List.length_append, List.length_singleton]
  omega

/-- The search for an opening behind a line break finds the first one. -/
theorem firstCut_of_opensFirstBehind {s before tail : Text} (h : OpensFirstBehind s before tail) :
    firstCut sectionStart? s = some (dropEndWhile isBreak before, tail) := by
  obtain ⟨⟨⟨y, hs, hy, hyb⟩, hbehind⟩, hne, hmin⟩ := h
  obtain ⟨x, hx, hxb⟩ := exists_eq_dropEndWhile_append isBreak before
  have hxne : x ≠ [] := by
    rintro rfl
    rw [List.append_nil] at hx
    obtain ⟨c, hlast⟩ := Option.ne_none_iff_exists'.1 (mt List.getLast?_eq_none_iff.1 hne)
    have hbreak := hbehind c hlast
    rw [hx] at hlast
    rw [getLast?_dropEndWhile hlast] at hbreak
    cases hbreak
  refine firstCut_sectionStart?_eq_some_iff.2 ⟨x, y, ?_, hxne, hy, hxb, hyb, fun hopen => ?_,
    fun c hc => getLast?_dropEndWhile hc⟩
  · rw [hs]
    conv_lhs => rw [hx]
    simp
  · -- An opening in front of the line breaks would be an earlier one.
    obtain ⟨b, t, hbt, hb⟩ := opensWithin_iff_opensAt.1 hopen
    obtain ⟨⟨z, hz, hzb⟩, hbreak⟩ := hbt
    have hearlier : OpensAt s b (t ++ x ++ fence ++ y ++ Data.marker ++ tail) := by
      refine ⟨⟨z, ?_, hzb⟩, hbreak⟩
      rw [hs]
      conv_lhs => rw [hx, hz]
      simp
    have hle := hmin b _ hearlier hb
    have hlen := congrArg List.length hx
    rw [hz] at hlen
    simp only [List.length_append, fence, List.length_cons] at hlen
    omega

/-! ### The section that is read -/

/-- The document is read with the given body and a data section behind whose marker the given text
stands: the data is that of the content in front of the closing delimiter, and if there is none, it
is that of the whole text, with a warning. -/
structure ReadsSection (source before tail : Text) : Prop where
  body : (read source).body = trim before
  data_of_closes : ∀ content, ClosesBehind tail content → (read source).data = Data.read content
  data_of_not_closes : (¬ ∃ content, ClosesBehind tail content) →
    (read source).data = Data.read tail
  warned : ∀ n, .unclosedData n ∈ (read source).diagnostics ↔
    (¬ ∃ content, ClosesBehind tail content) ∧ n = lineOf source tail

section Front

variable {source : Text} {front : FrontMatter} (hf : frontMatter? source = some front)

include hf

theorem readsSection_of_dataStart? {before tail : Text}
    (hd : dataStart? front.rest = some (before, tail)) : ReadsSection source before tail := by
  have hread := read_of_section hf hd
  refine ⟨by rw [hread], fun content hc => ?_, fun hnone => ?_, fun n => ?_⟩
  · rw [hread, dataFrom, firstCut_closing?_eq_some_iff.2 hc]
  · rw [hread, dataFrom, firstCut_closing?_eq_none_iff.2 hnone]
  · rw [hread, ← firstCut_closing?_eq_none_iff]
    have hfront : .unclosedData n ∉ (Metadata.read front.block (breaks front.opening + 1)).2 :=
      fun hmem => Metadata.ne_unclosedData_of_mem_warnings hmem n rfl
    cases firstCut closing? tail with
    | some p => simp [hfront]
    | none => simp [hfront, Diagnostic.unclosedData_inj]

theorem readsSection_of_opensFirstBehind {before tail : Text}
    (h : OpensFirstBehind front.rest before tail) : ReadsSection source before tail := by
  have hread := readsSection_of_dataStart? hf (dataStart?_of_firstCut (firstCut_of_opensFirstBehind h))
  -- The line breaks in front of the opening are blanks at the end of the body.
  obtain ⟨x, hx, hxb⟩ := exists_eq_dropEndWhile_append isBreak before
  have htrim : trim before = trim (dropEndWhile isBreak before) := by
    conv_lhs => rw [hx, trim_append_blank _ fun c hc => isBlank_of_isBreak (hxb c hc)]
  exact { hread with body := hread.body.trans htrim.symm }

/-- With another opening behind it, one at the front becomes body. -/
theorem not_readsSection_of_opensWithin {tail : Text} (h : OpensAt front.rest [] tail)
    (hw : OpensWithin front.rest) : ¬ ReadsSection source [] tail := by
  intro hread
  obtain ⟨p, hp⟩ := Option.isSome_iff_exists.1 (opensWithin_iff.1 hw)
  have hbody := (readsSection_of_dataStart? hf (dataStart?_of_firstCut hp)).body
  rw [hread.body] at hbody
  -- The text in front of the other opening starts with the fence of this one.
  obtain ⟨b, hb, -⟩ := opening?_eq_some_iff.1 (opensAt_nil_iff.1 h)
  obtain ⟨x, y, hs, hx, -, hxb, -⟩ := firstCut_sectionStart?_eq_some_iff.1 hp
  have hhead := congrArg List.head? (hb.symm.trans hs)
  cases hbefore : p.1 with
  | nil =>
    obtain ⟨c, x, rfl⟩ := List.exists_cons_of_ne_nil hx
    rw [hbefore] at hhead
    obtain rfl : '-' = c := Option.some_inj.1 hhead
    exact absurd (hxb '-' List.mem_cons_self) (by decide)
  | cons c q =>
    rw [hbefore] at hhead hbody
    obtain rfl : '-' = c := Option.some_inj.1 hhead
    exact absurd (trim_eq_nil_iff.1 hbody.symm '-' List.mem_cons_self) (by decide)

/-- The first opening behind a line break is the one that is read. The first opening of all is read
unless it stands at the front and has another one behind it. Without an opening the text behind the
front matter is the body, and there is no data. -/
theorem readsSection_iff :
    (∀ before tail, OpensFirstAt front.rest before tail →
        (ReadsSection source before tail ↔ (before = [] → ¬ OpensWithin front.rest))) ∧
      (∀ before tail, OpensFirstBehind front.rest before tail → ReadsSection source before tail) ∧
      ((¬ ∃ before tail, OpensAt front.rest before tail) →
        (read source).body = trim front.rest ∧ (read source).data = .empty ∧
          ∀ n, .unclosedData n ∉ (read source).diagnostics) := by
  refine ⟨fun before tail h => ?_, fun before tail => readsSection_of_opensFirstBehind hf,
    fun h => ?_⟩
  · obtain rfl | hne := eq_or_ne before []
    · constructor
      · exact fun hread _ hw => not_readsSection_of_opensWithin hf h.1 hw hread
      · intro hw
        refine readsSection_of_dataStart? hf ?_
        rw [dataStart?_eq, firstCut_eq_none_of_not_opensWithin (hw rfl), opensAt_nil_iff.1 h.1]
        rfl
    · exact iff_of_true (readsSection_of_opensFirstBehind hf ⟨h.1, hne, fun b t hb _ => h.2 b t hb⟩)
        fun hnil => absurd hnil hne
  · have hnone : dataStart? front.rest = none := by
      refine dataStart?_eq_none_iff.2 ⟨fun hw => ?_, fun hfront => ?_⟩
      · obtain ⟨before, tail, hopen, -⟩ := opensWithin_iff_opensAt.1 hw
        exact h ⟨before, tail, hopen⟩
      · obtain ⟨tail, htail⟩ := Option.isSome_iff_exists.1 (opensAtFront_iff.1 hfront)
        exact h ⟨[], tail, opensAt_nil_iff.2 htail⟩
    rw [read_of_no_section hf hnone]
    exact ⟨rfl, rfl, fun n hmem => Metadata.ne_unclosedData_of_mem_warnings hmem n rfl⟩

end Front

/-- A document with a line of metadata and the given text behind it. -/
def titled (rest : Text) : Text :=
  "---\nt: x\n---\n".toList ++ rest

/-- The front matter of a document with a line of metadata. -/
def title (rest : Text) : FrontMatter :=
  ⟨"---\n".toList, "t: x".toList, rest⟩

/-- A data section right behind the front matter, without a closing delimiter. -/
def register : Text :=
  "---\r\n\ndata:\n  a: 1".toList

/-- A body and two openings behind line breaks, with a closing delimiter behind each. -/
def ledger : Text :=
  "Body\n---\ndata:\n  a: 1\n---\n---\ndata:\n  b: 2\n\n--- \n".toList

/-- A body with a marker and a fence, but no opening. -/
def leaflet : Text :=
  " data:\n--- \n".toList

theorem readsSection_iff_titled :
    (frontMatter? (titled register) = some (title register) ∧
        OpensFirstAt register [] "\n  a: 1".toList ∧
        (ReadsSection (titled register) [] "\n  a: 1".toList ↔
          (([] : Text) = [] → ¬ OpensWithin register))) ∧
      (frontMatter? (titled ledger) = some (title ledger) ∧
        OpensFirstBehind ledger "Body\n".toList (ledger.drop 14) ∧
        ReadsSection (titled ledger) "Body\n".toList (ledger.drop 14)) ∧
      (frontMatter? (titled leaflet) = some (title leaflet) ∧
        (¬ ∃ before tail, OpensAt leaflet before tail) ∧
        (read (titled leaflet)).body = trim leaflet ∧ (read (titled leaflet)).data = .empty ∧
        ∀ n, .unclosedData n ∉ (read (titled leaflet)).diagnostics) := by
  have hregister : frontMatter? (titled register) = some (title register) := by decide +kernel
  have hfirst : OpensFirstAt register [] "\n  a: 1".toList :=
    ⟨opensAt_nil_iff.2 (by decide), fun _ _ _ => Nat.zero_le _⟩
  have hledger : frontMatter? (titled ledger) = some (title ledger) := by decide +kernel
  have hbehind : OpensFirstBehind ledger "Body\n".toList (ledger.drop 14) := by
    have hcut : firstCut sectionStart? ledger = some ("Body".toList, ledger.drop 14) := by
      decide +kernel
    refine ⟨⟨⟨['\n'], by decide, by simp, by decide⟩, fun c hc => by cases hc; rfl⟩, by decide,
      fun b t hopen hb => ?_⟩
    have hlt := length_lt_of_opensAt hcut hopen hb
    exact Nat.le_trans (by decide) hlt
  have hleaflet : frontMatter? (titled leaflet) = some (title leaflet) := by decide +kernel
  have hnone : ¬ ∃ before tail, OpensAt leaflet before tail := by
    rintro ⟨before, tail, h⟩
    obtain rfl | hne := eq_or_ne before []
    · exact absurd (opensAt_nil_iff.1 h) (by simp [show opening? leaflet = none by decide])
    · exact absurd (opensWithin_iff_opensAt.2 ⟨before, tail, h, hne⟩) (by decide +kernel)
  exact ⟨⟨hregister, hfirst, (readsSection_iff hregister).1 _ _ hfirst⟩,
    ⟨hledger, hbehind, (readsSection_iff hledger).2.1 _ _ hbehind⟩,
    hleaflet, hnone, (readsSection_iff hleaflet).2.2 hnone⟩

/-- A data section right behind the front matter, with another opening in its content. -/
def twofold : Text :=
  "---\ndata:\n  a: 1\n---\ndata:\n  b: 2\n---\n".toList

theorem not_forall_readsSection :
    ¬ ∀ source front before tail, frontMatter? source = some front →
      OpensFirstAt front.rest before tail → ReadsSection source before tail := by
  intro h
  have hfront : frontMatter? (titled twofold) = some (title twofold) := by decide +kernel
  have hfirst : OpensFirstAt twofold [] (twofold.drop 9) :=
    ⟨opensAt_nil_iff.2 (by decide +kernel), fun _ _ _ => Nat.zero_le _⟩
  exact absurd (h _ _ _ _ hfront hfirst).body (by decide +kernel)

end Regions

end Formdoc
