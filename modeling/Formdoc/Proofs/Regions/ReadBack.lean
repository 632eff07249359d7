/-
Which metadata and which data are read back.

Metadata whose values are truth values, integers and texts on one line is read
back from its text, whatever follows it, exactly if each value is readable; its
keys are read back in any case (`read_write_append_metadata`).  Nothing is said
about its lines: the only warning there can be is about a data section that opens
in the text behind it and does not close (`exists_of_mem_warningOf`).

Data behind a body without a fence is read value by value, whatever its values
hold (`dataOf_append_write`): the written section is the only one, since no value
is written with a line break.  So it is read back exactly if each value is
readable, arrays, objects and negative integers are read as texts, and integers
past the greatest one with a sign as binary64 numbers (`read_append_write_data`).
-/
import Formdoc.Proofs.Regions.FirstOpening
import Formdoc.Proofs.Regions.Framing
import Formdoc.Proofs.Regions.Spill

namespace Formdoc

open Text

/-! ### Values -/

/-- The metadata values that have an exact text on one line: truth values, signed integers of 64
bits, and texts without a line break. -/
def Scalar.Exact : Scalar → Prop
  | .bool _ => True
  | .int n => n ≤ maxInteger
  | .float _ => False
  | .text s => Text.OneLine s

/-- The field values that are no binary64 numbers themselves. Integers have 64 bits, with a sign or
without one. -/
def Json.Exact : Json → Prop
  | .int n => n ≤ 2 * maxInteger + 1
  | .float _ => False
  | _ => True

theorem Scalar.Exact.oneLine {v : Scalar} (h : v.Exact) : v.OneLine := by
  cases v with
  | text s => exact h
  | _ => trivial

/-- Among the exact values the lasting ones are those that are readable. -/
theorem Scalar.Exact.lasting_iff {v : Scalar} (h : v.Exact) : v.Lasting ↔ v.Readable := by
  cases v with
  | bool b => exact Iff.rfl
  | int n => exact Iff.rfl
  | float x => exact h.elim
  | text s =>
    have hs : Text.OneLine s := h
    show (_ ∨ _ ∨ _) ↔ _ ∧ (_ ∨ _ ∨ _)
    rw [Numeral.read?_eq_none_iff, keyword?_eq_none_iff, and_iff_right hs, and_assoc]

theorem Json.Exact.lasting_iff {v : Json} (h : v.Exact) : v.Lasting ↔ v.Readable := by
  cases v with
  | float x => exact h.elim
  | _ => exact Iff.rfl

namespace Regions

/-! ### Metadata -/

/-- What opens in a text opens in a longer one, behind a line break. -/
theorem OpensAt.append {s before tail w : Text} (h : OpensAt s before tail) (hw : EndsInBreak w) :
    OpensAt (w ++ s) (w ++ before) tail := by
  obtain ⟨⟨b, rfl, hb⟩, hbehind⟩ := h
  refine ⟨⟨b, by simp, hb⟩, fun c hc => ?_⟩
  rcases eq_or_ne before [] with rfl | hne
  · obtain ⟨-, d, hd, hbreak⟩ := hw
    rw [List.append_nil, hd, Option.some_inj] at hc
    exact hc ▸ hbreak
  · rw [List.getLast?_append_of_ne_nil _ hne] at hc
    exact hbehind c hc

/-- There is a warning only about a section that opens in the text and does not close. -/
theorem exists_of_mem_warningOf {source rest : Text} {d : Diagnostic}
    (h : d ∈ warningOf source rest) : ∃ before tail, OpensAt rest before tail ∧
      (¬ ∃ content, ClosesBehind tail content) ∧ d = .unclosedData (lineOf source tail) := by
  unfold warningOf dataSection? at h
  cases hstart : dataStart? rest with
  | none =>
    rw [hstart] at h
    cases h
  | some p =>
    obtain ⟨b, tail⟩ := p
    obtain ⟨before, hopen⟩ := exists_opensAt_of_dataStart? hstart
    rw [hstart] at h
    cases hclose : firstCut closing? tail with
    | some q => simp [hclose] at h
    | none =>
      simp only [Option.map_some, hclose, Bool.false_eq_true, if_false, List.mem_singleton] at h
      exact ⟨before, tail, hopen, firstCut_closing?_eq_none_iff.1 hclose, h⟩

/-- Metadata with exact values is read back, whatever follows it, exactly if each value is readable.
Its keys are always read back, and a warning can only be about an unclosed data section in what
follows. -/
theorem read_write_append_metadata {m : Metadata} (h : m.entries ≠ []) (hk : m.Keyed)
    (hv : ∀ e ∈ m.entries, e.2.Exact) (r : Text) :
    ((read (m.write ++ r)).metadata = m ↔ ∀ e ∈ m.entries, e.2.Readable) ∧
      (read (m.write ++ r)).metadata.keys = m.keys ∧
      ∀ d ∈ (read (m.write ++ r)).diagnostics, ∃ before tail, OpensAt ('\n' :: r) before tail ∧
        (¬ ∃ content, ClosesBehind tail content) ∧
        d = .unclosedData (lineOf (m.write ++ r) tail) := by
  have hone : m.OneLine := fun e he => (hv e he).oneLine
  have hspill := Metadata.spill_of_oneLine h hk hone
  obtain ⟨⟨w, rest⟩, hr⟩ := exists_head?_blankCuts (c := '\n') (by decide) r
  have hread := read_of_frontMatter (Metadata.frontMatter?_write_append_of_oneLine h hk hone hr)
  have hblock := Metadata.read_block h hk hone.unbroken hspill (breaks (fence ++ ['\n']) + 1)
  have hiff := Metadata.read_block_eq_iff h hk hone.unbroken (breaks (fence ++ ['\n']) + 1)
  rw [hread]
  refine ⟨?_, ?_, fun d hd => ?_⟩
  · exact hiff.trans ((and_iff_right hspill).trans
      (forall₂_congr fun e he => (hv e he).lasting_iff))
  · show (Metadata.read (Metadata.block m) _).1.keys = _
    rw [hblock, Metadata.ofList_map_reread, OrderedMap.keys_mapValues]
  · obtain ⟨hcut, hw⟩ := mem_blankCuts_iff.1 (List.mem_of_head? hr)
    have hwarning : d ∈ warningOf (m.write ++ r) rest := by
      simpa only [hblock, List.nil_append] using hd
    obtain ⟨before, tail, hopen, hclose⟩ := exists_of_mem_warningOf hwarning
    exact ⟨w ++ before, tail, hcut ▸ hopen.append hw, hclose⟩

/-- The metadata of a title. -/
def label : Metadata :=
  ⟨[("t".toList, .text "x".toList)], by decide⟩

theorem keyed_label : label.Keyed :=
  (by decide : ∀ e ∈ label.entries, isKey e.1 = true)

theorem exact_label : ∀ e ∈ label.entries, e.2.Exact := by
  intro e he
  obtain rfl := List.mem_singleton.1 he
  exact (by decide : Text.OneLine "x".toList)

theorem titled_eq (rest : Text) : titled rest = label.write ++ rest := rfl

/-- Metadata of a text that is quoted when it is written, and an integer. -/
def caption : Metadata :=
  ⟨[("title".toList, .text "Form: \"A\"".toList), ("count".toList, .int 3)], by decide⟩

theorem read_write_append_caption :
    (caption.entries ≠ [] ∧ caption.Keyed ∧ ∀ e ∈ caption.entries, e.2.Exact) ∧
      ((read (caption.write ++ register)).metadata = caption ↔
          ∀ e ∈ caption.entries, e.2.Readable) ∧
        (read (caption.write ++ register)).metadata.keys = caption.keys ∧
        ∀ d ∈ (read (caption.write ++ register)).diagnostics, ∃ before tail,
          OpensAt ('\n' :: register) before tail ∧ (¬ ∃ content, ClosesBehind tail content) ∧
          d = .unclosedData (lineOf (caption.write ++ register) tail) := by
  have hne : caption.entries ≠ [] := by decide
  have hk : ∀ e ∈ caption.entries, isKey e.1 = true := by decide +kernel
  have hv : ∀ e ∈ caption.entries, e.2.Exact := by
    intro e he
    rcases List.mem_cons.1 he with rfl | he
    · exact (by decide : Text.OneLine "Form: \"A\"".toList)
    · obtain rfl := List.mem_singleton.1 he
      exact (by decide : (3 : Int) ≤ maxInteger)
  exact ⟨⟨hne, hk, hv⟩, read_write_append_metadata hne hk hv register⟩

theorem not_forall_read_write_append_metadata :
    ¬ ∀ (m : Metadata) (r : Text), m.entries ≠ [] → m.Keyed → (∀ e ∈ m.entries, e.2.Exact) →
      ((read (m.write ++ r)).metadata = m ↔ ∀ e ∈ m.entries, e.2.Readable) ∧
        (read (m.write ++ r)).metadata.keys = m.keys ∧
        (read (m.write ++ r)).diagnostics = [] := by
  intro h
  exact absurd (h label register (by decide) keyed_label exact_label).2.2 (by decide +kernel)

/-! ### Data -/

/-- Data behind a body without a fence is read value by value. -/
theorem dataOf_append_write {d : Data} (h : d.entries ≠ []) (hk : d.Keyed) {s : Text}
    (hl : s = [] ∨ s.getLast? = some '\n') (hs : ¬ fence <:+: s) :
    dataOf (s ++ d.write) = d.mapValues fun v => Field.read (' ' :: Field.write v) := by
  obtain ⟨before, tail, hsection, -⟩ := dataSection?_append hl h hk
  have hcut := firstCut_eq_none_of_not_opensWithin (not_opensWithin hs)
  have hmap : d.entries.map Data.reread =
      (d.mapValues fun v => Field.read (' ' :: Field.write v)).entries := rfl
  rw [dataOf, Data.write_eq h, hsection]
  simp only
  rw [swallowed_of_none hcut, Data.read_append_lines [] h hk, hmap]
  exact OrderedMap.ofList_entries _

/-- The text behind a title whose body has no fence, up to the data behind the body. -/
theorem exists_frontMatter?_titled {b x : Text} (hb : ¬ fence <:+: b) (hx : x.head? = some '-') :
    ∃ s opening block, frontMatter? (titled (b ++ ['\n', '\n'] ++ x)) =
        some ⟨opening, block, s ++ x⟩ ∧
      (s = [] ∨ s.getLast? = some '\n') ∧ ¬ fence <:+: s := by
  obtain ⟨⟨w, s⟩, hcut⟩ := exists_head?_blankCuts (c := '\n') (by decide) (b ++ ['\n', '\n'])
  have hsplit := eq_of_mem_blankCuts (List.mem_of_head? hcut)
  have hlong : (blankCuts ('\n' :: (b ++ ['\n', '\n'] ++ x))).head? = some (w, s ++ x) := by
    rw [← List.cons_append, blankCuts_append _ fun c hc => ?_, List.head?_map, hcut,
      Option.map_some]
    rw [hx, Option.some_inj] at hc
    rw [← hc]
    decide
  refine ⟨s, fence ++ ['\n'], label.block, ?_, ?_, fun hs => ?_⟩
  · rw [titled_eq]
    exact Metadata.frontMatter?_write_append_of_oneLine (by decide) keyed_label
      (fun e he => (exact_label e he).oneLine) hlong
  · rcases List.eq_nil_or_concat s with rfl | ⟨t, c, rfl⟩
    · exact .inl rfl
    · have hlast := congrArg List.getLast? hsplit
      rw [List.getLast?_append_of_ne_nil _ (by simp)] at hlast
      exact .inr (hlast.symm.trans (List.getLast?_append_of_ne_nil ('\n' :: b) (by simp)))
  · -- The fence has no line break, so that it would stand in the body.
    have hall : fence <:+: '\n' :: (b ++ ['\n', '\n']) := by
      rw [hsplit]
      exact hs.trans (List.suffix_append w s).isInfix
    rw [infix_cons_iff_of_not_mem (by decide) (by decide),
      infix_append_cons_iff (by decide) (by decide)] at hall
    exact hall.elim hb (by decide)

/-- Data with exact values is read back behind a body without a fence exactly if each value is
readable. Its keys are always read back; arrays, objects and negative integers are read as texts,
and integers past the greatest one with a sign as the nearest binary64 numbers. -/
theorem read_append_write_data {d : Data} (h : d.entries ≠ []) (hk : d.Keyed)
    (hv : ∀ e ∈ d.entries, e.2.Exact) {b : Text} (hb : ¬ fence <:+: b) :
    (read (titled (b ++ ['\n', '\n'] ++ d.write))).data.keys = d.keys ∧
      ((read (titled (b ++ ['\n', '\n'] ++ d.write))).data = d ↔
        ∀ e ∈ d.entries, e.2.Readable) ∧
      (∀ e ∈ d.entries, (¬ e.2.IsScalar ∨ ∃ n < 0, e.2 = .int n) →
        (read (titled (b ++ ['\n', '\n'] ++ d.write))).data.get? e.1 = some (.text e.2.compact)) ∧
      ∀ e ∈ d.entries, ∀ n : Nat, maxInteger < n → e.2 = .int n →
        (read (titled (b ++ ['\n', '\n'] ++ d.write))).data.get? e.1 =
          some (.float (Binary64.ofDecimal false n 0)) := by
  have hx : d.write.head? = some '-' := by
    rw [Data.write_eq h]
    rfl
  obtain ⟨s, opening, block, hfront, hl, hs⟩ := exists_frontMatter?_titled hb hx
  have hdata : (read (titled (b ++ ['\n', '\n'] ++ d.write))).data =
      d.mapValues fun v => Field.read (' ' :: Field.write v) := by
    rw [read_of_frontMatter hfront]
    exact dataOf_append_write h hk hl hs
  have hget {e : Text × Json} (he : e ∈ d.entries) :
      (d.mapValues fun v => Field.read (' ' :: Field.write v)).get? e.1 =
        some (Field.read (' ' :: Field.write e.2)) := by
    rw [OrderedMap.get?_mapValues, OrderedMap.get?_of_mem he, Option.map_some]
  rw [hdata]
  refine ⟨OrderedMap.keys_mapValues _ d, ?_, fun e he hor => ?_, fun e he n hn hint => ?_⟩
  · rw [OrderedMap.mapValues_eq_self_iff]
    exact forall₂_congr fun e he => Field.read_write_eq_iff.trans (hv e he).lasting_iff
  · rw [hget he]
    rcases hor with hnot | ⟨n, hn, hint⟩
    · rw [Field.read_write_of_not_isScalar hnot]
    · rw [hint, Field.read_write_negative hn, Json.compact]
  · have hexact := hv e he
    rw [hint] at hexact
    have hle : (n : Int) ≤ 2 * maxInteger + 1 := hexact
    have hmax : maxInteger = 2 ^ (63 : Nat) - 1 := rfl
    rw [hget he, hint, Field.read_write_large hn (by omega)]

/-- Data with a value of each kind: one that is nested, with a line break and a fence in it, a
negative integer, the greatest integer of 64 bits, and a text. -/
def inventory : Data :=
  ⟨[("tags".toList, .array [.text "a\n---\n".toList, .float (.infinity true)]),
    ("low".toList, .int (-5)), ("high".toList, .int (2 * maxInteger + 1)),
    ("note".toList, .text "\n---\n".toList)], by decide⟩

theorem read_append_write_inventory :
    (inventory.entries ≠ [] ∧ inventory.Keyed ∧ (∀ e ∈ inventory.entries, e.2.Exact) ∧
        ¬ fence <:+: "-- \r\n".toList) ∧
      (read (titled ("-- \r\n".toList ++ ['\n', '\n'] ++ inventory.write))).data.keys =
          inventory.keys ∧
        ((read (titled ("-- \r\n".toList ++ ['\n', '\n'] ++ inventory.write))).data = inventory ↔
          ∀ e ∈ inventory.entries, e.2.Readable) ∧
        (∀ e ∈ inventory.entries, (¬ e.2.IsScalar ∨ ∃ n < 0, e.2 = .int n) →
          (read (titled ("-- \r\n".toList ++ ['\n', '\n'] ++ inventory.write))).data.get? e.1 =
            some (.text e.2.compact)) ∧
        ∀ e ∈ inventory.entries, ∀ n : Nat, maxInteger < n → e.2 = .int n →
          (read (titled ("-- \r\n".toList ++ ['\n', '\n'] ++ inventory.write))).data.get? e.1 =
            some (.float (Binary64.ofDecimal false n 0)) := by
  have hne : inventory.entries ≠ [] := List.cons_ne_nil _ _
  have hk : ∀ e ∈ inventory.entries, isKey e.1 = true := by decide +kernel
  have hv : ∀ e ∈ inventory.entries, e.2.Exact := by
    intro e he
    simp only [inventory, List.mem_cons, List.not_mem_nil, or_false] at he
    rcases he with rfl | rfl | rfl | rfl
    · trivial
    · exact (by decide : (-5 : Int) ≤ 2 * maxInteger + 1)
    · exact Int.le_refl _
    · trivial
  have hb : ¬ fence <:+: "-- \r\n".toList := by decide
  exact ⟨⟨hne, hk, hv, hb⟩, read_append_write_data hne hk hv hb⟩

end Regions

end Formdoc
