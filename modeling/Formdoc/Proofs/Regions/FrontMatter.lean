/-
The front matter of a document that was written.

The metadata of a document is written as lines between two fences.  It is found
again as front matter, whatever follows it (`frontMatter?_write_append`), if its
keys are keys; but a value with a carriage return and a fence in it makes the
block end early.  `Metadata.block` is the block that is then read, and
`Metadata.spill` what of the written metadata stands behind it.  If all values
are on one line there is no such value, and what follows may then also start
with blanks (`frontMatter?_write_append_of_oneLine`).

If there is no spill, and no line feed in the values, reading gives the entries
with their values read again (`read_block`).  So it is if all values are on one
line (`spill_of_oneLine`).
-/
import Formdoc.Proofs.Map
import Formdoc.Proofs.Regions.Cut
import Formdoc.Proofs.Text.Lines
import Formdoc.Proofs.Value.Written

namespace Formdoc

open Text

/-- Behind a fence on its line the front matter's block starts with the next line, unless that
starts with a blank. -/
theorem Regions.frontMatter?_fence_append {t : Text} {c : Char} (hc : t.head? = some c)
    (hb : isBlank c = false) :
    frontMatter? (fence ++ '\n' :: t) =
      (firstCut blockEnd? t).map fun p => ⟨fence ++ ['\n'], p.1, p.2⟩ := by
  obtain ⟨r, rfl⟩ := List.head?_eq_some_iff.1 hc
  have hcuts : blankCuts ('\n' :: c :: r) = [(['\n'], c :: r)] := by
    have hnl : isBlank '\n' = true := by decide
    simp [blankCuts, hb, hnl, isBreak]
  unfold frontMatter?
  rw [after?_append]
  simp only [Option.bind_eq_bind, Option.bind_some]
  rw [hcuts]
  cases hcut : firstCut blockEnd? (c :: r) with
  | none => simp [hcut]
  | some p => simp [hcut]

namespace Metadata

/-! ### Metadata as lines -/

/-- Keys that a metadata line can have. -/
def Keyed (m : Metadata) : Prop :=
  ∀ e ∈ m.entries, isKey e.1 = true

/-- An entry as a line. -/
def line (e : Text × Scalar) : Text :=
  e.1 ++ ':' :: ' ' :: valueText e.2

theorem entry?_eq_some {l : Text} {e : Text × Scalar} (h : entry? l = some e) :
    isKey e.1 = true ∧ ∃ raw, l = e.1 ++ ':' :: raw ∧ e.2 = Scalar.read raw := by
  unfold entry? at h
  split at h
  · rename_i key value hk
    cases h
    unfold kind at hk
    split at hk
    · cases hk
    · split at hk
      · rename_i k raw hkv
        cases hk
        obtain ⟨hkey, hl⟩ := keyed?_eq_some_iff.1 (Option.filter_eq_some_iff.1 hkv).1
        exact ⟨hkey, raw, hl, rfl⟩
      · cases hk
  · cases h

/-- An entry that is read is that of a line of the block. -/
theorem exists_line_of_mem_read {block : Text} {n : Nat} {e : Text × Scalar}
    (h : e ∈ (read block n).1.entries) : ∃ l ∈ lines block, entry? (dropReturn l) = some e := by
  obtain ⟨⟨l, i⟩, hl, he⟩ := List.mem_filterMap.1 (OrderedMap.mem_of_mem_entries_ofList h)
  obtain ⟨k, hk, rfl⟩ := List.mem_map.1 (List.fst_mem_of_mem_zipIdx hl)
  exact ⟨k, hk, he⟩

/-- The written metadata behind the opening fence. -/
def written (m : Metadata) : Text :=
  ofLines (m.entries.map line) ++ fence ++ ['\n']

theorem write_of_empty {m : Metadata} (h : m.entries = []) : write m = [] := by
  rw [write, OrderedMap.isEmpty, h]
  rfl

theorem write_eq {m : Metadata} (h : m.entries ≠ []) : write m = fence ++ '\n' :: written m := by
  have he : m.isEmpty = false := by simpa [OrderedMap.isEmpty] using h
  have hl : m.entries.flatMap entryText = ofLines (m.entries.map line) := by
    rw [ofLines, List.flatMap_map]
    rfl
  rw [write, he, if_neg (by simp), hl, written]
  simp

theorem written_eq_intercalate {m : Metadata} (h : m.entries ≠ []) :
    written m = ['\n'].intercalate (m.entries.map line) ++ '\n' :: fence ++ ['\n'] := by
  rw [written, ofLines_eq_intercalate (by simpa using h)]
  simp

/-- The block that is read from written metadata, and what stands behind it. -/
def cut? (m : Metadata) : Option (Text × Text) :=
  Regions.firstCut Regions.blockEnd? (written m)

/-- The block that is read from written metadata. -/
def block (m : Metadata) : Text :=
  match cut? m with
  | some p => p.1
  | none => []

/-- What of the written metadata stands behind the block that is read. -/
def spill (m : Metadata) : Text :=
  match cut? m with
  | some p => p.2
  | none => []

theorem cut?_eq {m : Metadata} (h : m.entries ≠ []) : cut? m = some (block m, spill m) := by
  have hc : cut? m ≠ none := by
    intro hn
    have := Regions.firstCut_eq_none_iff.1 hn (['\n'].intercalate (m.entries.map line))
      ('\n' :: fence ++ ['\n']) (by rw [written_eq_intercalate h]; simp)
    revert this
    decide
  unfold block spill
  cases hp : cut? m with
  | none => exact absurd hp hc
  | some p => rfl

theorem getLast?_written (m : Metadata) : (written m).getLast? = some '\n' :=
  List.getLast?_concat

/-- What stands behind the block ends in a line feed, if there is anything. -/
theorem getLast?_spill {m : Metadata} (h : m.entries ≠ []) :
    spill m = [] ∨ (spill m).getLast? = some '\n' := by
  obtain ⟨t, ht, hs, -⟩ := Regions.firstCut_eq_some_iff.1 (cut?_eq h)
  rcases List.eq_nil_or_concat (spill m) with hnil | ⟨l, c, hlast⟩
  · exact .inl hnil
  · refine .inr ?_
    obtain ⟨b, hb⟩ := Regions.exists_eq_append_of_blockEnd? hs
    have hl := getLast?_written m
    rw [ht, hb, ← List.append_assoc, List.getLast?_append_of_ne_nil _ (by rw [hlast]; simp)] at hl
    exact hl

theorem head?_written {m : Metadata} (h : m.entries ≠ []) (hk : Keyed m) :
    ∃ c, (written m).head? = some c ∧ isWordChar c = true := by
  obtain ⟨e, es, hes⟩ := List.exists_cons_of_ne_nil h
  obtain ⟨c, hc, hhead⟩ := exists_head?_of_isKey (hk e (by rw [hes]; exact List.mem_cons_self))
  refine ⟨c, ?_, hc⟩
  rw [written, hes, ofLines, List.map_cons, List.flatMap_cons, line]
  simp only [List.append_assoc]
  exact hhead _

/-- Written metadata is found as front matter, whatever follows it. -/
theorem frontMatter?_write_append {m : Metadata} (h : m.entries ≠ []) (hk : Keyed m) {x : Text}
    (hx : ∀ c, x.head? = some c → isBlank c = false) :
    Regions.frontMatter? (write m ++ x) = some ⟨fence ++ ['\n'], block m, spill m ++ x⟩ := by
  obtain ⟨c, hc, hw⟩ := head?_written h hk
  -- The first key keeps the blanks behind the opening fence to one line feed.
  have hhead : (written m ++ x).head? = some c := by
    obtain ⟨r, hr⟩ := List.head?_eq_some_iff.1 hc
    rw [hr]
    rfl
  rw [write_eq h, List.append_assoc, List.cons_append,
    Regions.frontMatter?_fence_append hhead (isBlank_of_isWordChar hw),
    Regions.firstCut_blockEnd?_append (cut?_eq h) (getLast?_written m) hx]
  rfl

/-- A block of front matter stands in the document. -/
theorem exists_eq_of_frontMatter? {source : Text} {front : FrontMatter}
    (h : Regions.frontMatter? source = some front) : ∃ a b, source = a ++ front.block ++ b := by
  unfold Regions.frontMatter? at h
  simp only [Option.bind_eq_bind, Option.bind_eq_some_iff] at h
  obtain ⟨s, hs, h⟩ := h
  obtain ⟨cut, hcut, h⟩ := List.exists_of_findSome?_eq_some h
  obtain ⟨⟨block, rest⟩, hp, rfl⟩ := Option.map_eq_some_iff.1 h
  obtain ⟨t, ht, -, -⟩ := Regions.firstCut_eq_some_iff.1 hp
  refine ⟨fence ++ cut.1, t, ?_⟩
  rw [after?_eq_some_iff.1 hs, Regions.eq_of_mem_blankCuts hcut, ht]
  simp

/-! ### Values without a line feed -/

/-- Metadata whose values are written without a line feed. -/
def Unbroken (m : Metadata) : Prop :=
  ∀ e ∈ m.entries, '\n' ∉ valueText e.2

/-- An entry with its value written and read again. -/
def reread (e : Text × Scalar) : Text × Scalar :=
  (e.1, Scalar.read (' ' :: valueText e.2))

/-- Entries that read back are the entries that are read. -/
theorem map_reread {es : List (Text × Scalar)} (h : ∀ e ∈ es, e.2.Readable) :
    es.map reread = es := by
  refine (List.map_congr_left fun e he => ?_).trans (List.map_id es)
  rw [reread, read_valueText (h e he)]
  rfl

/-- The line of a key and the text of its value. -/
def entryLine (d : Text × Text) : Text :=
  d.1 ++ ':' :: ' ' :: d.2

theorem not_mem_entryLine {d : Text × Text} (hk : isKey d.1 = true) (hv : '\n' ∉ d.2) :
    '\n' ∉ entryLine d := by
  have hkey := (oneLine_of_isKey hk).not_mem_lineFeed
  simp [entryLine, hkey, hv]

theorem read_append_blank (v : Text) {w : Text} (hw : ∀ c ∈ w, isBlank c = true) :
    Scalar.read (v ++ w) = Scalar.read v := by
  rw [Scalar.read, Scalar.read, trim_append_blank v hw]

/-- The entry that a line of a key and a text denotes. -/
def readEntry (d : Text × Text) : Text × Scalar :=
  (d.1, Scalar.read (' ' :: d.2))

theorem kind_entryLine {d : Text × Text} (hk : isKey d.1 = true) :
    kind (entryLine d) = .entry d.1 (readEntry d).2 := by
  have hkv : keyedValue? (entryLine d) = some (d.1, ' ' :: d.2) := by
    rw [keyedValue?, entryLine, keyed?_eq_some_iff.2 ⟨hk, rfl⟩]
    rfl
  have hs : isSilent (entryLine d) = false := isSilent_of_isKey hk _
  unfold kind
  rw [hs, if_neg (by simp), hkv]
  rfl

/-- A carriage return at the end of an entry's line makes no difference. -/
theorem kind_dropReturn {d : Text × Text} (hk : isKey d.1 = true) :
    kind (dropReturn (entryLine d)) = .entry d.1 (readEntry d).2 := by
  obtain ⟨k, v⟩ := d
  unfold dropReturn
  split
  · rename_i hl
    rcases List.eq_nil_or_concat v with rfl | ⟨v, c, rfl⟩
    · have hlast : (entryLine (k, [])).getLast? = some ' ' :=
        List.getLast?_append_of_ne_nil _ (by simp)
      rw [hlast, Option.some_inj] at hl
      exact absurd hl (by decide)
    · have hform : entryLine (k, v.concat c) = entryLine (k, v) ++ [c] := by simp [entryLine]
      rw [hform, List.getLast?_concat, Option.some_inj] at hl
      subst hl
      rw [hform, List.dropLast_concat, kind_entryLine (d := (k, v)) hk, readEntry, readEntry,
        List.concat_eq_append, ← List.cons_append, read_append_blank _ (by decide)]
  · exact kind_entryLine hk

theorem filterMap_entryLines {ds : List (Text × Text)} (h : ∀ d ∈ ds, isKey d.1 = true) (n : Nat) :
    (((ds.map entryLine).map dropReturn).zipIdx n).filterMap (fun l => entry? l.1) =
        ds.map readEntry ∧
      (((ds.map entryLine).map dropReturn).zipIdx n).filterMap (fun l => warning? l.1 l.2) =
        [] := by
  induction ds generalizing n with
  | nil => exact ⟨rfl, rfl⟩
  | cons d ds ih =>
    have hkind := kind_dropReturn (h d List.mem_cons_self)
    obtain ⟨hentries, hwarnings⟩ := ih (fun e he => h e (List.mem_cons_of_mem _ he)) (n + 1)
    rw [List.map_cons, List.map_cons, List.zipIdx_cons, List.filterMap_cons, List.filterMap_cons,
      entry?, warning?, hkind, hentries, hwarnings]
    exact ⟨rfl, rfl⟩

/-- If nothing of the written metadata is left behind the block, the block is the lines, but for
carriage returns at the end. -/
theorem exists_append_block {m : Metadata} (h : m.entries ≠ []) (hs : spill m = []) :
    ∃ w, block m ++ w = ['\n'].intercalate (m.entries.map line) ∧ ∀ c ∈ w, isBreak c = true := by
  obtain ⟨t, ht, hend, -⟩ := Regions.firstCut_eq_some_iff.1 (cut?_eq h)
  rw [hs] at hend
  obtain ⟨b, w, rfl, hne, hb, hcut⟩ := Regions.blockEnd?_eq_some_iff.1 hend
  have hblank := Regions.isBlank_of_mem_blankCuts (List.mem_of_head? hcut)
  have hform : written m =
      (['\n'].intercalate (m.entries.map line) ++ ['\n']) ++ fence ++ ['\n'] := by
    rw [written_eq_intercalate h]
    simp
  have hform' : written m = (block m ++ b) ++ fence ++ w := by
    rw [ht]
    simp
  have hlines :=
    Regions.fence_append_inj (by decide) (by decide) hblank (hform.symm.trans hform')
  obtain ⟨w, c, rfl⟩ := (List.eq_nil_or_concat b).resolve_left hne
  rw [List.concat_eq_append, ← List.append_assoc] at hlines
  refine ⟨w, (List.append_inj_left' hlines rfl).symm, fun d hd => hb d ?_⟩
  simp [hd]

/-- If nothing of the written metadata is left behind the block, its lines are those of the entries,
but for carriage returns behind the last value. -/
theorem exists_lines_block {m : Metadata} (h : m.entries ≠ []) (hk : Keyed m) (hu : Unbroken m)
    (hs : spill m = []) :
    ∃ ds : List (Text × Text), lines (block m) = ds.map entryLine ∧
      (∀ d ∈ ds, isKey d.1 = true) ∧ ds.map readEntry = m.entries.map reread := by
  obtain ⟨w, hw, hall⟩ := exists_append_block h hs
  obtain ⟨es, e, hes⟩ := (List.eq_nil_or_concat m.entries).resolve_left h
  rw [List.concat_eq_append] at hes
  rw [Keyed, hes] at hk
  rw [Unbroken, hes] at hu
  rw [hes, List.map_append, List.map_singleton, intercalate_concat] at hw
  -- The line breaks at the end belong to the value of the last entry.
  obtain ⟨v, hv⟩ : ∃ v, block m = (ofLines (es.map line) ++ e.1 ++ [':', ' ']) ++ v := by
    refine exists_of_append_breaks (r := valueText e.2) (c := ' ') ?_ hall ?_ (by decide)
    · rw [hw]
      simp [line]
    · exact List.getLast?_append_of_ne_nil _ (by simp)
  have hvw : v ++ w = valueText e.2 := by
    rw [hv, line] at hw
    simpa using hw
  have hlast : readEntry (e.1, v) = reread e := by
    rw [readEntry, reread, ← hvw, ← List.cons_append,
      read_append_blank _ fun c hc => isBlank_of_isBreak (hall c hc)]
  have hfront : (es.map fun e => entryLine (e.1, valueText e.2)) = es.map line := rfl
  refine ⟨(es.map fun e => (e.1, valueText e.2)) ++ [(e.1, v)], ?_, ?_, ?_⟩
  · have hblock : block m = ['\n'].intercalate (es.map line ++ [entryLine (e.1, v)]) := by
      rw [intercalate_concat, hv, entryLine]
      simp
    rw [hblock, lines_intercalate (by simp), List.map_append, List.map_map]
    · rfl
    · intro l hl
      rcases List.mem_append.1 hl with hl | hl
      · obtain ⟨f, hf, rfl⟩ := List.mem_map.1 hl
        exact not_mem_entryLine (d := (f.1, valueText f.2)) (hk f (by simp [hf]))
          (hu f (by simp [hf]))
      · rw [List.mem_singleton.1 hl]
        refine not_mem_entryLine (hk e (by simp)) fun hm => hu e (by simp) ?_
        exact hvw ▸ List.mem_append_left _ hm
  · intro d hd
    rcases List.mem_append.1 hd with hd | hd
    · obtain ⟨f, hf, rfl⟩ := List.mem_map.1 hd
      exact hk f (List.mem_append_left _ hf)
    · rw [List.mem_singleton.1 hd]
      exact hk e (by simp)
  · rw [hes, List.map_append, List.map_append, List.map_map, List.map_singleton,
      List.map_singleton, hlast]
    rfl

/-- Reading gives the entries with their values read again, and no warning, if nothing of the
written metadata is left behind the block. -/
theorem read_block {m : Metadata} (h : m.entries ≠ []) (hk : Keyed m) (hu : Unbroken m)
    (hs : spill m = []) (n : Nat) : read (block m) n = (.ofList (m.entries.map reread), []) := by
  obtain ⟨ds, hlines, hkeys, hreread⟩ := exists_lines_block h hk hu hs
  obtain ⟨hentries, hwarnings⟩ := filterMap_entryLines hkeys n
  unfold read numbered
  simp only
  rw [hlines, hentries, hwarnings, hreread]

/-! ### Values on one line -/

/-- Metadata whose values are on one line. -/
def OneLine (m : Metadata) : Prop :=
  ∀ e ∈ m.entries, e.2.OneLine

theorem OneLine.unbroken {m : Metadata} (h : OneLine m) : Unbroken m := fun e he =>
  (oneLine_valueText (h e he)).not_mem_lineFeed

theorem oneLine_line {e : Text × Scalar} (hk : isKey e.1 = true) (hv : e.2.OneLine) :
    Text.OneLine (line e) :=
  oneLine_append.2 ⟨oneLine_of_isKey hk,
    oneLine_cons.2 ⟨by decide, oneLine_cons.2 ⟨by decide, oneLine_valueText hv⟩⟩⟩

theorem unfenced_line {e : Text × Scalar} (hk : isKey e.1 = true) (hv : e.2.OneLine) :
    Regions.Unfenced (line e) := by
  obtain ⟨c, hc, hhead⟩ := exists_head?_of_isKey hk
  refine ⟨oneLine_line hk hv, c, hhead _, ?_⟩
  rintro rfl
  exact absurd hc (by decide)

theorem unfenced_of_mem_lines {m : Metadata} (hk : Keyed m) (hv : OneLine m) :
    ∀ l ∈ m.entries.map line, Regions.Unfenced l := by
  intro l hl
  obtain ⟨e, he, rfl⟩ := List.mem_map.1 hl
  exact unfenced_line (hk e he) (hv e he)

/-- The block of metadata on single lines is all of the lines, whatever stands behind the closing
fence. -/
theorem firstCut_written_append {m : Metadata} (h : m.entries ≠ []) (hk : Keyed m) (hv : OneLine m)
    {r w rest : Text} (hr : (Regions.blankCuts ('\n' :: r)).head? = some (w, rest)) :
    Regions.firstCut Regions.blockEnd? (written m ++ r) =
      some (['\n'].intercalate (m.entries.map line), rest) := by
  -- No line starts with a hyphen, so that the first fence is the last one.
  have hcut := Regions.eq_of_mem_blankCuts (List.mem_of_head? hr)
  have hend : Regions.firstCut Regions.blockEnd? ('\n' :: fence ++ ['\n'] ++ r) = some ([], rest) :=
    Regions.firstCut_of_some (Regions.blockEnd?_eq_some_iff.2
      ⟨['\n'], w, by rw [← hcut]; simp, by simp, by decide, hcut ▸ hr⟩)
  rw [written_eq_intercalate h, List.append_assoc, List.append_assoc, ← List.append_assoc _ _ r,
    Regions.firstCut_lines Regions.blockEnd?_cons Regions.blockEnd?_break_cons
      (unfenced_of_mem_lines hk hv), hend]
  simp

theorem cut?_of_oneLine {m : Metadata} (h : m.entries ≠ []) (hk : Keyed m) (hv : OneLine m) :
    cut? m = some (['\n'].intercalate (m.entries.map line), []) := by
  have hend : (Regions.blankCuts ['\n']).head? = some (['\n'], []) := by decide
  have hcut := firstCut_written_append h hk hv hend
  rwa [List.append_nil] at hcut

/-- Of metadata on single lines nothing is left behind the block. -/
theorem spill_of_oneLine {m : Metadata} (h : m.entries ≠ []) (hk : Keyed m) (hv : OneLine m) :
    spill m = [] := by
  rw [spill, cut?_of_oneLine h hk hv]

/-- Metadata on single lines is found as front matter, whatever follows it. The blanks behind its
closing fence that can be cut off belong to it. -/
theorem frontMatter?_write_append_of_oneLine {m : Metadata} (h : m.entries ≠ []) (hk : Keyed m)
    (hv : OneLine m) {r w rest : Text}
    (hr : (Regions.blankCuts ('\n' :: r)).head? = some (w, rest)) :
    Regions.frontMatter? (write m ++ r) = some ⟨fence ++ ['\n'], block m, rest⟩ := by
  have hblock : block m = ['\n'].intercalate (m.entries.map line) := by
    rw [block, cut?_of_oneLine h hk hv]
  obtain ⟨c, hc, hw⟩ := head?_written h hk
  have hhead : (written m ++ r).head? = some c := by
    obtain ⟨t, ht⟩ := List.head?_eq_some_iff.1 hc
    rw [ht]
    rfl
  rw [write_eq h, List.append_assoc, List.cons_append,
    Regions.frontMatter?_fence_append hhead (isBlank_of_isWordChar hw),
    firstCut_written_append h hk hv hr, hblock]
  rfl

end Metadata

end Formdoc
