/-
Metadata that is read back from its block.

A value with a carriage return and a fence in it ends the block early.  The
metadata that is then read cannot be the metadata that was written: its values
hold no more carriage returns than the block (`countValues_read_le`), and some of
those that were written stand behind it (`spill_eq_nil_of_read_block`).  So
metadata is read back exactly if nothing spills and each of its values is lasting
(`read_block_eq_iff`).
-/
import Formdoc.Proofs.Regions.FrontMatter
import Formdoc.Proofs.Value.Lasting

namespace Formdoc

open Text

/-! ### Counting characters -/

namespace Text

theorem dropReturn_sublist (l : Text) : (dropReturn l).Sublist l := by
  unfold dropReturn
  split
  · exact List.dropLast_sublist l
  · exact List.Sublist.refl l

theorem unquote_sublist (s : Text) : (unquote s).Sublist s := by
  unfold unquote
  split
  · split
    · exact (List.dropLast_sublist _).trans (List.sublist_cons_self _ _)
    · exact List.Sublist.refl _
  · exact List.Sublist.refl _

theorem OneLine.count_eq_zero {s : Text} (h : OneLine s) {c : Char} (hc : isBreak c = true) :
    s.count c = 0 := by
  rw [List.count_eq_zero]
  intro hm
  rw [h c hm] at hc
  cases hc

/-- The characters of the lines are characters of the text. -/
theorem sum_count_lines_le (c : Char) (s : Text) :
    ((lines s).map (List.count c)).sum ≤ s.count c := by
  unfold lines
  induction s with
  | nil => simp [split]
  | cons d s ih =>
    rw [split, List.count_cons]
    split
    · rw [List.map_cons, List.sum_cons, List.count_nil]
      omega
    · cases hs : split '\n' s with
      | nil => simp
      | cons l ls =>
        rw [hs, List.map_cons, List.sum_cons] at ih
        rw [List.modifyHead_cons, List.map_cons, List.sum_cons, List.count_cons]
        omega

end Text

namespace Metadata

/-- A value that is read is written with no more line breaks than it was read from. -/
theorem count_valueText_read_le {c : Char} (hc : isBreak c = true) (raw : Text) :
    (valueText (Scalar.read raw)).count c ≤ raw.count c := by
  have hone {v : Scalar} (hv : v.OneLine) : (valueText v).count c ≤ raw.count c := by
    rw [(oneLine_valueText hv).count_eq_zero hc]
    exact Nat.zero_le _
  rcases Scalar.read_cases raw with ⟨n, -, h⟩ | ⟨b, -, h⟩ | ⟨-, -, h⟩
  · rw [h]
    cases n <;> exact hone trivial
  · rw [h]
    exact hone trivial
  · -- The quotation marks are no line breaks.
    have hquote : c ≠ '"' := by
      rintro rfl
      exact absurd hc (by decide)
    have htext (s : Text) : (valueText (.text s)).count c = s.count c := by
      show (if needsQuotes s then '"' :: s ++ ['"'] else s).count c = _
      split
      · simp [Ne.symm hquote]
      · rfl
    rw [h, htext]
    exact ((unquote_sublist _).trans (infix_trim raw).sublist).count_le c

theorem count_of_entry? {c : Char} (hc : isBreak c = true) {l : Text} {e : Text × Scalar}
    (h : entry? (dropReturn l) = some e) : (valueText e.2).count c ≤ l.count c := by
  obtain ⟨-, raw, hl, hv⟩ := entry?_eq_some h
  have hraw : raw.count c ≤ (dropReturn l).count c := by
    rw [hl, List.count_append, List.count_cons]
    omega
  rw [hv]
  exact (count_valueText_read_le hc raw).trans (hraw.trans ((dropReturn_sublist l).count_le c))

/-- The occurrences of a character in the values of metadata, as they are written. -/
def countValues (c : Char) (m : Metadata) : Nat :=
  (m.entries.map fun e => (valueText e.2).count c).sum

/-- The metadata of a block holds no more line breaks than the block. -/
theorem countValues_read_le {c : Char} (hc : isBreak c = true) (block : Text) (n : Nat) :
    countValues c (read block n).1 ≤ block.count c := by
  have hlines (ls : List Text) (n : Nat) :
      ((((ls.map dropReturn).zipIdx n).filterMap fun l => entry? l.1).map
        fun e => (valueText e.2).count c).sum ≤ (ls.map (List.count c)).sum := by
    induction ls generalizing n with
    | nil => simp
    | cons l ls ih =>
      have hrest := ih (n + 1)
      rw [List.map_cons, List.zipIdx_cons, List.filterMap_cons, List.map_cons, List.sum_cons]
      cases he : entry? (dropReturn l) with
      | none =>
        simp only
        omega
      | some e =>
        have := count_of_entry? hc he
        simp only [List.map_cons, List.sum_cons]
        omega
  exact (OrderedMap.sum_entries_ofList_le _ _).trans
    ((hlines _ _).trans (sum_count_lines_le c block))

/-- A block from which something is read is not blank. -/
theorem exists_solid_of_read {block : Text} {n : Nat} (h : (read block n).1.entries ≠ []) :
    ∃ c ∈ block, isBlank c = false := by
  obtain ⟨e, he⟩ := List.exists_mem_of_ne_nil _ h
  obtain ⟨l, hl, hentry⟩ := exists_line_of_mem_read he
  obtain ⟨-, raw, hraw, -⟩ := entry?_eq_some hentry
  -- There is a colon in the line of an entry.
  have hcolon : ':' ∈ dropReturn l := by
    rw [hraw]
    simp
  obtain ⟨-, a, b, rfl, -⟩ := of_mem_lines hl
  exact ⟨':', by simp [(dropReturn_sublist l).subset hcolon], by decide⟩

/-- The values of metadata that was read are written without a line feed. -/
theorem unbroken_read (block : Text) (n : Nat) : Unbroken (read block n).1 := by
  intro e he hm
  obtain ⟨l, hl, hentry⟩ := exists_line_of_mem_read he
  have hcount := count_of_entry? (c := '\n') (by decide) hentry
  rw [List.count_eq_zero.2 (of_mem_lines hl).1, Nat.le_zero, List.count_eq_zero] at hcount
  exact hcount hm

/-- The carriage returns of written metadata are those of its values. -/
theorem count_written {m : Metadata} (hk : Keyed m) :
    (written m).count '\r' = countValues '\r' m := by
  have hlines : ∀ es : List (Text × Scalar), (∀ e ∈ es, isKey e.1 = true) →
      (ofLines (es.map line)).count '\r' = (es.map fun e => (valueText e.2).count '\r').sum := by
    intro es hes
    induction es with
    | nil => rfl
    | cons e es ih =>
      have hkey := (oneLine_of_isKey (hes e List.mem_cons_self)).count_eq_zero (c := '\r')
        (by decide)
      have hrest := ih fun d hd => hes d (List.mem_cons_of_mem _ hd)
      rw [ofLines] at hrest ⊢
      rw [List.map_cons, List.flatMap_cons, List.count_append, hrest, List.map_cons, List.sum_cons,
        line]
      simp [hkey]
  have hend : (fence ++ ['\n']).count '\r' = 0 := by decide
  rw [written, List.append_assoc, List.count_append, hlines _ hk, hend]
  rfl

/-! ### Where nothing spills -/

theorem lines_written {m : Metadata} (h : m.entries ≠ []) (hk : Keyed m) (hu : Unbroken m) :
    lines (written m) = m.entries.map line ++ [fence, []] := by
  have hlines : lines (['\n'].intercalate (m.entries.map line)) = m.entries.map line := by
    refine lines_intercalate (by simpa using h) fun l hl => ?_
    obtain ⟨e, he, rfl⟩ := List.mem_map.1 hl
    exact not_mem_entryLine (d := (e.1, valueText e.2)) (hk e he) (hu e he)
  have hend : lines (fence ++ ['\n']) = [fence, []] := by decide
  rw [written_eq_intercalate h, List.append_assoc, List.cons_append, lines_append_cons, hlines,
    hend]

/-- A block does not end at a line feed in front of an entry. -/
theorem lines_ne_line_cons {t q : Text} (hend : Regions.blockEnd? ('\n' :: t) = some q)
    {e : Text × Scalar} (he : isKey e.1 = true) (ls : List Text) : lines t ≠ line e :: ls := by
  intro heq
  obtain ⟨c, hc, hhead⟩ := exists_head?_of_isKey he
  obtain ⟨r, hr⟩ : ∃ r, t = c :: r := by
    have hjoin := intercalate_lines t
    obtain ⟨r, hr⟩ := List.head?_eq_some_iff.1 (hhead (':' :: ' ' :: valueText e.2))
    rw [heq, line, hr] at hjoin
    cases ls with
    | nil => exact ⟨r, by rw [← hjoin, List.intercalate_singleton]⟩
    | cons k ls => exact ⟨_, by rw [← hjoin, List.intercalate_cons_cons]; rfl⟩
  rw [Regions.blockEnd?_eq, Option.bind_eq_some_iff] at hend
  obtain ⟨p, hp, -⟩ := hend
  have hb : isBreak c = false := isBreak_of_isBlank_false (isBlank_of_isWordChar hc)
  rw [hr, Regions.fenced?_break_cons (c := '\n') (d := c) rfl hb] at hp
  · cases hp
  · rintro rfl
    exact absurd hc (by decide)

/-- A fence at the front of a line of written metadata is the last one. -/
theorem spill_eq_nil_of_lineFeed {m : Metadata} (h : m.entries ≠ []) (hk : Keyed m)
    (hu : Unbroken m) {t : Text} (ht : written m = block m ++ '\n' :: t) : spill m = [] := by
  obtain ⟨u, hu', hend, -⟩ := Regions.firstCut_eq_some_iff.1 (cut?_eq h)
  obtain rfl : u = '\n' :: t := List.append_cancel_left (hu'.symm.trans ht)
  have hlines := lines_written h hk hu
  rw [ht, lines_append_cons] at hlines
  -- What follows the line feed starts with a line break or with the fence, so not as an entry does.
  have hfront {l : Text} {ls : List Text} (hl : l ∈ m.entries.map line) : lines t ≠ l :: ls := by
    obtain ⟨e, he, rfl⟩ := List.mem_map.1 hl
    exact lines_ne_line_cons hend (hk e he) ls
  have hlast : lines t = [fence, []] := by
    rcases List.append_eq_append_iff.1 hlines with ⟨a, ha, hb⟩ | ⟨a, ha, hb⟩
    · cases a with
      | nil => exact hb
      | cons l a => exact absurd hb (hfront (ha ▸ List.mem_append_right _ List.mem_cons_self))
    · rcases a with _ | ⟨l, _ | ⟨k, _ | ⟨j, a⟩⟩⟩
      · exact hb.symm
      · -- Nothing would follow the line feed, not even a fence.
        have hrest : lines t = [[]] := (List.cons.inj hb).2.symm
        have hnil : t = [] := by
          rw [← intercalate_lines t, hrest]
          rfl
        rw [hnil] at hend
        cases hend
      · exact absurd (List.cons.inj (List.cons.inj hb).2).2.symm (lines_ne_nil t)
      · cases (List.cons.inj (List.cons.inj hb).2).2
  have hfence : t = fence ++ ['\n'] := by
    rw [← intercalate_lines t, hlast]
    rfl
  have hcut : Regions.blockEnd? ('\n' :: (fence ++ ['\n'])) = some [] := by decide
  rw [hfence, hcut] at hend
  exact (Option.some_inj.1 hend).symm

/-- What stands behind the block of metadata starts with a line break. -/
theorem exists_written_eq {m : Metadata} (h : m.entries ≠ []) :
    ∃ c t, written m = block m ++ c :: t ∧ isBreak c = true := by
  obtain ⟨t, ht, hend, -⟩ := Regions.firstCut_eq_some_iff.1 (cut?_eq h)
  rw [Regions.blockEnd?_eq, Option.bind_eq_some_iff] at hend
  obtain ⟨q, hq, -⟩ := hend
  obtain ⟨b, hb, hne, hall⟩ := Regions.fenced?_eq_some_iff.1 hq
  obtain ⟨c, b, rfl⟩ := List.exists_cons_of_ne_nil hne
  exact ⟨c, b ++ fence ++ q, by rw [ht, hb]; rfl, hall c List.mem_cons_self⟩

/-- Behind the block of metadata that is read back from it stands a line feed. -/
theorem exists_written_eq_of_read_block {m : Metadata} (h : m.entries ≠ []) (hk : Keyed m)
    {n : Nat} (hread : (read (block m) n).1 = m) : ∃ t, written m = block m ++ '\n' :: t := by
  obtain ⟨c, t, ht, hc⟩ := exists_written_eq h
  -- All carriage returns are in the block.
  have hcount := countValues_read_le (c := '\r') (by decide) (block m) n
  rw [hread, ← count_written hk, ht, List.count_append] at hcount
  have hnone : '\r' ∉ c :: t := List.count_eq_zero.1 (by omega)
  have hbreak : c = '\n' ∨ c = '\r' := by simpa [isBreak] using hc
  obtain rfl := hbreak.resolve_right fun hr => hnone (hr ▸ List.mem_cons_self)
  exact ⟨t, ht⟩

/-- Metadata that is read back from its block does not spill. -/
theorem spill_eq_nil_of_read_block {m : Metadata} (h : m.entries ≠ []) (hk : Keyed m)
    (hu : Unbroken m) {n : Nat} (hread : (read (block m) n).1 = m) : spill m = [] := by
  obtain ⟨t, ht⟩ := exists_written_eq_of_read_block h hk hread
  exact spill_eq_nil_of_lineFeed h hk hu ht

/-- Metadata that is written as other metadata is, up to what follows, does not spill if that is
read back from the block of both. -/
theorem spill_eq_nil_of_written_append_eq {m p : Metadata} (h : m.entries ≠ []) (hk : Keyed m)
    (hu : Unbroken m) (hp : p.entries ≠ []) (hkp : Keyed p) {n : Nat}
    (hread : (read (block p) n).1 = p) (hblock : block p = block m) {x y : Text}
    (heq : written p ++ x = written m ++ y) : spill m = [] := by
  obtain ⟨t, ht⟩ := exists_written_eq_of_read_block hp hkp hread
  obtain ⟨c, r, hr, -⟩ := exists_written_eq h
  rw [ht, hr, hblock, List.append_assoc, List.append_assoc] at heq
  obtain rfl : '\n' = c := (List.cons.inj (List.append_cancel_left heq)).1
  exact spill_eq_nil_of_lineFeed h hk hu hr

/-- Written metadata starts with a key, a colon and a blank. -/
theorem exists_written_eq_key {m : Metadata} (h : m.entries ≠ []) (hk : Keyed m) :
    ∃ k t, isKey k = true ∧ written m = k ++ ':' :: ' ' :: t := by
  obtain ⟨e, es, hes⟩ := List.exists_cons_of_ne_nil h
  refine ⟨e.1, valueText e.2 ++ '\n' :: (ofLines (es.map line) ++ fence ++ ['\n']),
    hk e (by rw [hes]; exact List.mem_cons_self), ?_⟩
  rw [written, hes, ofLines, List.map_cons, List.flatMap_cons, line]
  simp [ofLines]

/-- The block of metadata starts as the first line does. -/
theorem exists_block_eq {m : Metadata} (h : m.entries ≠ []) (hk : Keyed m) :
    ∃ k v, isKey k = true ∧ block m = entryLine (k, v) := by
  obtain ⟨k, t, hkey, ht⟩ := exists_written_eq_key h hk
  have hform : written m = (k ++ [':', ' ']) ++ t := by simp [ht]
  have hskip : ∀ c ∈ k ++ [':', ' '], isBreak c = false :=
    oneLine_append.2 ⟨oneLine_of_isKey hkey, by decide⟩
  have hcut := cut?_eq h
  rw [cut?, hform, Regions.firstCut_append_of_forall (p := fun c => isBreak c = false)
    Regions.blockEnd?_cons hskip, Option.map_eq_some_iff] at hcut
  obtain ⟨p, -, hp⟩ := hcut
  refine ⟨k, p.1, hkey, ?_⟩
  rw [← (Prod.mk.inj hp).1]
  simp [entryLine]

/-- Something is read from the block of metadata. -/
theorem read_block_ne_nil {m : Metadata} (h : m.entries ≠ []) (hk : Keyed m) (n : Nat) :
    (read (block m) n).1.entries ≠ [] := by
  obtain ⟨k, v, hkey, hblock⟩ := exists_block_eq h hk
  obtain ⟨w, ls, hls⟩ : ∃ w ls, lines (block m) = entryLine (k, w) :: ls := by
    by_cases hv : '\n' ∈ v
    · obtain ⟨w, r, rfl, hw⟩ := List.eq_append_cons_of_mem hv
      refine ⟨w, lines r, ?_⟩
      rw [hblock, show entryLine (k, w ++ '\n' :: r) = entryLine (k, w) ++ '\n' :: r by
        simp [entryLine], lines_append_cons, lines_of_not_mem (not_mem_entryLine hkey hw)]
      rfl
    · exact ⟨v, [], by rw [hblock, lines_of_not_mem (not_mem_entryLine hkey hv)]⟩
  refine OrderedMap.entries_ofList_ne_nil (List.ne_nil_of_mem (a := readEntry (k, w)) ?_)
  refine List.mem_filterMap.2 ⟨(dropReturn (entryLine (k, w)), n), ?_, ?_⟩
  · rw [numbered, hls, List.map_cons, List.zipIdx_cons]
    exact List.mem_cons_self
  · unfold entry?
    rw [kind_dropReturn (d := (k, w)) hkey]
    rfl

theorem ofList_map_reread (m : Metadata) :
    .ofList (m.entries.map reread) = m.mapValues fun v => Scalar.read (' ' :: valueText v) :=
  OrderedMap.ofList_entries (m.mapValues fun v => Scalar.read (' ' :: valueText v))

/-- Metadata is read back exactly if nothing spills and each value is lasting. -/
theorem read_block_eq_iff {m : Metadata} (h : m.entries ≠ []) (hk : Keyed m) (hu : Unbroken m)
    (n : Nat) : (read (block m) n).1 = m ↔ spill m = [] ∧ ∀ e ∈ m.entries, e.2.Lasting := by
  have hvalues : .ofList (m.entries.map reread) = m ↔ ∀ e ∈ m.entries, e.2.Lasting := by
    rw [ofList_map_reread, OrderedMap.mapValues_eq_self_iff]
    exact forall₂_congr fun e _ => read_valueText_eq_iff
  constructor
  · intro hread
    have hs := spill_eq_nil_of_read_block h hk hu hread
    rw [read_block h hk hu hs] at hread
    exact ⟨hs, hvalues.1 hread⟩
  · rintro ⟨hs, hl⟩
    rw [read_block h hk hu hs]
    exact hvalues.2 hl

end Metadata

end Formdoc
