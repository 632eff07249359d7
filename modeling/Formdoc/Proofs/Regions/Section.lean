/-
The data section of a document that was written.

Behind text that is empty or ends in a line feed, a written data section is
always recognised, and is closed by its last fence (`dataSection?_append`).  If
that text has no opening of its own, the content is the written entries; if it
has one, the section opens there, and the written section becomes part of its
content.  Either way the written entries are the last of those that are read
(`Data.read_append_lines`).

The content of any section goes on to the closing delimiter at the end of the
text, to which all line breaks in front of its fence belong
(`firstCut_closing?_eq_some_iff`).
-/
import Formdoc.Proofs.Map
import Formdoc.Proofs.Regions.Cut
import Formdoc.Proofs.Text.Lines
import Formdoc.Proofs.Value.Written

namespace Formdoc

open Text

namespace Data

/-! ### Data as lines -/

/-- An entry as a line. -/
def line (e : Text × Json) : Text :=
  ' ' :: ' ' :: e.1 ++ ':' :: ' ' :: Field.write e.2

/-- A data section with the given lines. -/
def sectionOf (ls : List Text) : Text :=
  fence ++ '\n' :: marker ++ '\n' :: ofLines ls ++ fence ++ ['\n']

theorem write_eq {d : Data} (h : d.entries ≠ []) : write d = sectionOf (d.entries.map line) := by
  have he : d.isEmpty = false := by simpa [OrderedMap.isEmpty] using h
  have hl : d.entries.flatMap entryText = ofLines (d.entries.map line) := by
    rw [ofLines, List.flatMap_map]
    rfl
  rw [write, he, if_neg (by simp), hl, sectionOf]

/-- An entry with its value written and read again. -/
def reread (e : Text × Json) : Text × Json :=
  (e.1, Field.read (' ' :: Field.write e.2))

/-- Entries that read back are the entries that are read. -/
theorem map_reread {es : List (Text × Json)} (h : ∀ e ∈ es, e.2.Readable) :
    es.map reread = es := by
  refine (List.map_congr_left fun e he => ?_).trans (List.map_id es)
  rw [reread, Field.read_write (h e he)]
  rfl

/-- Keys that a data line can have. -/
def Keyed (d : Data) : Prop :=
  ∀ e ∈ d.entries, isKey e.1 = true

/-- Data as it can be read from lines, where no value is an array or an object. -/
def Linear (d : Data) : Prop :=
  ∀ e ∈ d.entries, isKey e.1 = true ∧ e.2.IsScalar

theorem Linear.keyed {d : Data} (h : d.Linear) : d.Keyed := fun e he =>
  (h e he).1

theorem oneLine_line {e : Text × Json} (hk : isKey e.1 = true) : OneLine (line e) :=
  oneLine_cons.2 ⟨by decide, oneLine_cons.2 ⟨by decide, oneLine_append.2 ⟨oneLine_of_isKey hk,
    oneLine_cons.2 ⟨by decide, oneLine_cons.2 ⟨by decide, Field.oneLine_write e.2⟩⟩⟩⟩⟩

theorem unfenced_line {e : Text × Json} (hk : isKey e.1 = true) : Regions.Unfenced (line e) :=
  ⟨oneLine_line hk, ' ', rfl, by decide⟩

theorem unfenced_of_mem_lines {es : List (Text × Json)} (hes : ∀ e ∈ es, isKey e.1 = true) :
    ∀ l ∈ es.map line, Regions.Unfenced l := by
  intro l hl
  obtain ⟨e, he, rfl⟩ := List.mem_map.1 hl
  exact unfenced_line (hes e he)

theorem entry?_line {e : Text × Json} (hk : isKey e.1 = true) :
    entry? (line e) = some (reread e) := by
  have hs : isSilent (line e) = false := by
    have hblank : isSilent (line e) = isSilent (e.1 ++ ':' :: ' ' :: Field.write e.2) := by
      unfold isSilent
      rw [show line e = [' ', ' '] ++ (e.1 ++ ':' :: ' ' :: Field.write e.2) from rfl,
        trim_blank_append _ (by decide)]
    rw [hblank]
    exact isSilent_of_isKey hk _
  have hb : isBlank ' ' = true := by decide
  unfold entry?
  rw [hs, if_neg (by simp)]
  show (if isBlank ' ' && isBlank ' ' then (keyed? (e.1 ++ ':' :: ' ' :: Field.write e.2)).map
    fun e => (e.1, Field.read e.2) else none) = _
  rw [hb, Bool.and_self, if_pos rfl, keyed?_eq_some_iff.2 ⟨hk, rfl⟩]
  rfl

/-- An entry of data that was read has a key, and its value is read from the end of a line. -/
theorem of_mem_read {content : Text} {e : Text × Json} (h : e ∈ (read content).entries) :
    isKey e.1 = true ∧ ∃ raw, e.2 = Field.read raw := by
  obtain ⟨l, -, hl⟩ := List.mem_filterMap.1 (OrderedMap.mem_of_mem_entries_ofList h)
  unfold entry? at hl
  split at hl
  · cases hl
  · split at hl
    · split at hl
      · obtain ⟨⟨k, t⟩, hk, rfl⟩ := Option.map_eq_some_iff.1 hl
        exact ⟨(keyed?_eq_some_iff.1 hk).1, t, rfl⟩
      · cases hl
    · cases hl

/-- Lines of entries at the end of a content are the last entries that are read. -/
theorem read_append_lines (s : Text) {es : List (Text × Json)} (hne : es ≠ [])
    (hes : ∀ e ∈ es, isKey e.1 = true) :
    read (s ++ '\n' :: ['\n'].intercalate (es.map line)) =
      (es.map reread).foldl (fun m p => m.insert p.1 p.2) (read s) := by
  have hlines : (lines (['\n'].intercalate (es.map line))).map dropReturn = es.map line := by
    refine map_dropReturn_lines (by simpa using hne) fun l hl => ?_
    obtain ⟨e, he, rfl⟩ := List.mem_map.1 hl
    exact oneLine_line (hes e he)
  have hentries : (es.map line).filterMap entry? = es.map reread := by
    rw [List.filterMap_map]
    have hall : ∀ e ∈ es, ( entry? ∘ line) e = some (reread e) := fun e he =>
      entry?_line (hes e he)
    rw [List.filterMap_congr hall, List.filterMap_eq_map']
  rw [read, lines_append_cons, List.map_append, List.filterMap_append, hlines, hentries,
    OrderedMap.ofList_append]
  rfl

end Data

namespace Regions

/-! ### Where the section closes -/

/-- A closing delimiter: line breaks, a fence, and nothing but blanks behind it. -/
def IsClosing (s : Text) : Prop :=
  ∃ b w, s = b ++ fence ++ w ∧ b ≠ [] ∧ (∀ c ∈ b, isBreak c = true) ∧ ∀ c ∈ w, isBlank c = true

theorem closing?_eq_some_iff {s : Text} : closing? s = some () ↔ IsClosing s := by
  rw [closing?_eq, Option.bind_eq_some_iff]
  constructor
  · rintro ⟨w, hw, h⟩
    obtain ⟨b, rfl, hne, hb⟩ := fenced?_eq_some_iff.1 hw
    split at h
    · exact ⟨b, w, rfl, hne, hb, List.all_eq_true.1 ‹_›⟩
    · cases h
  · rintro ⟨b, w, rfl, hne, hb, hw⟩
    exact ⟨w, fenced?_eq_some_iff.2 ⟨b, rfl, hne, hb⟩, if_pos (List.all_eq_true.2 hw)⟩

theorem IsClosing.cons {c : Char} {s : Text} (h : IsClosing s) (hc : isBreak c = true) :
    IsClosing (c :: s) := by
  obtain ⟨b, w, rfl, -, hb, hw⟩ := h
  exact ⟨c :: b, w, rfl, by simp, List.forall_mem_cons.2 ⟨hc, hb⟩, hw⟩

/-- In front of a closing delimiter there are no more than line breaks of another one. -/
theorem isBreak_of_isClosing_append {v s : Text} (hs : IsClosing s) (h : IsClosing (v ++ s)) :
    ∀ c ∈ v, isBreak c = true := by
  obtain ⟨b, w, rfl, -, -, hw⟩ := hs
  obtain ⟨b', w', heq, -, hb', hw'⟩ := h
  rw [← List.append_assoc, ← List.append_assoc] at heq
  obtain rfl : v ++ b = b' := fence_append_inj (by decide) hw hw' heq
  exact fun c hc => hb' c (List.mem_append_left _ hc)

/-- The text closes behind a content: it ends in a closing delimiter, to which all line breaks belong
that stand in front of the fence. -/
def ClosesBehind (s content : Text) : Prop :=
  (∃ t, s = content ++ t ∧ IsClosing t) ∧ ∀ c, content.getLast? = some c → isBreak c = false

theorem firstCut_closing?_eq_some_iff {s a : Text} :
    firstCut closing? s = some (a, ()) ↔ ClosesBehind s a := by
  unfold ClosesBehind
  rw [firstCut_eq_some_iff]
  constructor
  · rintro ⟨t, rfl, ht, hnone⟩
    refine ⟨⟨t, rfl, closing?_eq_some_iff.1 ht⟩, fun c hc => ?_⟩
    obtain ⟨a, rfl⟩ := List.getLast?_eq_some_iff.1 hc
    by_contra hbreak
    have hclosing := (closing?_eq_some_iff.1 ht).cons (by simpa using hbreak)
    have := hnone a [c] rfl (by simp)
    rw [List.singleton_append, closing?_eq_some_iff.2 hclosing] at this
    cases this
  · rintro ⟨⟨t, rfl, ht⟩, hlast⟩
    refine ⟨t, rfl, closing?_eq_some_iff.2 ht, fun u v huv hv => ?_⟩
    subst huv
    rw [Option.eq_none_iff_forall_ne_some]
    intro _ hclosing
    have hbreaks := isBreak_of_isClosing_append ht (closing?_eq_some_iff.1 hclosing)
    have hend := hlast (v.getLast hv) (by
      rw [List.getLast?_append_of_ne_nil _ hv, List.getLast?_eq_some_getLast hv])
    rw [hbreaks _ (List.getLast_mem hv)] at hend
    cases hend

theorem firstCut_closing?_eq_none_iff {s : Text} :
    firstCut closing? s = none ↔ ¬ ∃ a, ClosesBehind s a := by
  simp only [← firstCut_closing?_eq_some_iff]
  cases firstCut closing? s with
  | none => simp
  | some p => simp [Prod.ext_iff]

/-- A section closes at the fence that ends the text. -/
theorem firstCut_closing? {s : Text} {c : Char} (hl : s.getLast? = some c)
    (hc : isBreak c = false) :
    firstCut closing? (s ++ '\n' :: fence ++ ['\n']) = some (s, ()) := by
  rw [List.append_assoc]
  refine firstCut_closing?_eq_some_iff.2 ⟨⟨_, rfl, ['\n'], ['\n'], rfl, by simp, by decide,
    by decide⟩, fun d hd => ?_⟩
  rwa [← Option.some_inj.1 (hl.symm.trans hd)]

/-! ### Where the section opens -/

/-- The text of a body, with what follows it, up to the opening of a data section. -/
def bodyPart (s : Text) : Text :=
  match firstCut sectionStart? s with
  | some p => p.1
  | none => s

/-- What of a text becomes content of a data section when a written one follows the text: all that
stands behind an opening in it, up to the marker of the written section. -/
def swallowed (s : Text) : Text :=
  match firstCut sectionStart? s with
  | some p => p.2 ++ fence ++ '\n' :: Data.marker
  | none => []

theorem swallowed_of_none {s : Text} (h : firstCut sectionStart? s = none) : swallowed s = [] := by
  rw [swallowed, h]

theorem sectionOf_eq {ls : List Text} (h : ls ≠ []) :
    Data.sectionOf ls =
      fence ++ '\n' :: Data.marker ++ '\n' :: ['\n'].intercalate ls ++ '\n' :: fence ++ ['\n'] := by
  rw [Data.sectionOf, ofLines_eq_intercalate h]
  simp

theorem getLast?_content {ls : List Text} (h : ls ≠ []) (hls : ∀ l ∈ ls, Unfenced l) (s : Text) :
    ∃ c, (s ++ '\n' :: ['\n'].intercalate ls).getLast? = some c ∧ isBreak c = false := by
  obtain ⟨ks, l, rfl⟩ : ∃ ks l, ls = ks ++ [l] := by
    rcases List.eq_nil_or_concat ls with rfl | ⟨ks, l, rfl⟩
    · exact absurd rfl h
    · exact ⟨ks, l, List.concat_eq_append ..⟩
  obtain ⟨hone, d, hd, -⟩ := hls l (by simp)
  have hl : l ≠ [] := by
    rintro rfl
    cases hd
  have hend : (ks ++ [l]).getLast? = some l := List.getLast?_concat
  have hlast := getLast?_intercalate ['\n'] hend hl
  have hne : ['\n'].intercalate (ks ++ [l]) ≠ [] := by
    intro hnil
    rw [hnil] at hlast
    exact hl (List.getLast?_eq_none_iff.1 hlast.symm)
  refine ⟨l.getLast hl, ?_, hone _ (List.getLast_mem hl)⟩
  rw [List.getLast?_append_of_ne_nil _ (by simp), ← List.singleton_append,
    List.getLast?_append_of_ne_nil _ hne, hlast, List.getLast?_eq_some_getLast hl]

theorem sectionStart?_break (b : Text) (hb : ∀ c ∈ b, isBreak c = true) (hne : b ≠ [])
    (ls : List Text) :
    sectionStart? (b ++ Data.sectionOf ls) = some ('\n' :: ofLines ls ++ fence ++ ['\n']) := by
  have hfence : fenced? (b ++ Data.sectionOf ls) =
      some ('\n' :: Data.marker ++ '\n' :: ofLines ls ++ fence ++ ['\n']) :=
    fenced?_eq_some_iff.2 ⟨b, by simp [Data.sectionOf], hne, hb⟩
  rw [sectionStart?_eq, hfence]
  rfl

/-- Within a section no other one opens. -/
theorem firstCut_sectionOf {ls : List Text} (hls : ∀ l ∈ ls, Unfenced l) (hne : ls ≠ []) :
    firstCut sectionStart? (Data.sectionOf ls) = none := by
  have hend : firstCut sectionStart? ('\n' :: fence ++ ['\n']) = none := by decide
  have hmarker : ∀ l ∈ Data.marker :: ls, Unfenced l :=
    List.forall_mem_cons.2 ⟨⟨by decide, 'd', rfl, by decide⟩, hls⟩
  obtain ⟨m, ms, rfl⟩ := List.exists_cons_of_ne_nil hne
  have hsplit : Data.sectionOf (m :: ms) = fence ++ '\n' ::
      (['\n'].intercalate (Data.marker :: m :: ms) ++ ('\n' :: fence ++ ['\n'])) := by
    rw [sectionOf_eq hne, List.intercalate_cons_cons]
    simp
  have hstop : sectionStart? ('\n' ::
      (['\n'].intercalate (Data.marker :: m :: ms) ++ ('\n' :: fence ++ ['\n']))) = none :=
    sectionStart?_break_cons (d := 'd') rfl (by decide) (by decide)
  rw [hsplit, firstCut_append_of_forall (p := fun c => isBreak c = false) sectionStart?_cons
    (by decide), firstCut_cons_of_none hstop,
    firstCut_lines sectionStart?_cons sectionStart?_break_cons hmarker, hend]
  rfl

/-- Behind text without an opening that ends in a line feed, the section opens behind the line
breaks at the end. -/
theorem firstCut_append_sectionOf {s : Text} (hs : firstCut sectionStart? s = none)
    (hl : s.getLast? = some '\n') (ls : List Text) :
    firstCut sectionStart? (s ++ Data.sectionOf ls) =
      some (dropEndWhile isBreak s, '\n' :: ofLines ls ++ fence ++ ['\n']) := by
  obtain ⟨b, hb, hall⟩ := exists_eq_dropEndWhile_append isBreak s
  have hbne : b ≠ [] := by
    rintro rfl
    rw [List.append_nil] at hb
    rw [hb] at hl
    exact absurd (getLast?_dropEndWhile hl) (by decide)
  refine firstCut_eq_some_iff.2 ⟨b ++ Data.sectionOf ls, ?_, sectionStart?_break b hall hbne ls, ?_⟩
  · rw [← List.append_assoc, ← hb]
  · -- An earlier opening would be one of the text before the section.
    intro u v huv hv
    have hvlast : (v ++ b).getLast? = some '\n' := by
      rw [hb, huv, List.append_assoc, List.getLast?_append_of_ne_nil _ (by simp [hv])] at hl
      exact hl
    have hvb : ∃ d ∈ v ++ b, isBreak d = false := by
      refine ⟨v.getLast hv, List.mem_append_left _ (List.getLast_mem hv), ?_⟩
      refine getLast?_dropEndWhile (s := s) ?_
      rw [huv, List.getLast?_append_of_ne_nil _ hv, List.getLast?_eq_some_getLast hv]
    rw [← List.append_assoc, sectionStart?_append hvlast (by decide) hvb rfl,
      firstCut_eq_none_iff.1 hs u (v ++ b) (by rw [← List.append_assoc, ← huv, ← hb])]
    rfl

/-- Where the section opens when the text before it has no opening of its own. -/
theorem dataStart?_of_none {s : Text} (hs : firstCut sectionStart? s = none)
    (hl : s = [] ∨ s.getLast? = some '\n') {ls : List Text} (hls : ∀ l ∈ ls, Unfenced l)
    (hne : ls ≠ []) :
    dataStart? (s ++ Data.sectionOf ls) =
      some (dropEndWhile isBreak s, '\n' :: ofLines ls ++ fence ++ ['\n']) := by
  rcases hl with rfl | hl
  · rw [List.nil_append, dataStart?_eq, firstCut_sectionOf hls hne]
    rfl
  · rw [dataStart?_eq, firstCut_append_sectionOf hs hl]
    rfl

/-- A section whose content ends in lines closes at the last fence. -/
theorem dataSection?_of_dataStart? {rest before t : Text} {ls : List Text}
    (hls : ∀ l ∈ ls, Unfenced l) (hne : ls ≠ []) (h : dataStart? rest =
      some (before, t ++ '\n' :: ['\n'].intercalate ls ++ '\n' :: fence ++ ['\n'])) :
    ∃ tail, dataSection? rest =
      some ⟨before, tail, t ++ '\n' :: ['\n'].intercalate ls, true⟩ := by
  obtain ⟨c, hc, hcb⟩ := getLast?_content hne hls t
  refine ⟨t ++ '\n' :: ['\n'].intercalate ls ++ '\n' :: fence ++ ['\n'], ?_⟩
  rw [dataSection?, h, Option.map_some]
  simp only
  rw [firstCut_closing? hc hcb]

/-- A written data section is always recognised behind text that is empty or ends in a line feed,
and closed. The text before the section is a body with line breaks behind it. -/
theorem dataSection?_append {s : Text} (hl : s = [] ∨ s.getLast? = some '\n')
    {es : List (Text × Json)} (hne : es ≠ []) (hes : ∀ e ∈ es, isKey e.1 = true) :
    ∃ before tail, dataSection? (s ++ Data.sectionOf (es.map Data.line)) =
        some ⟨before, tail, swallowed s ++ '\n' :: ['\n'].intercalate (es.map Data.line), true⟩ ∧
      trim before = trim (bodyPart s) := by
  have hls := Data.unfenced_of_mem_lines hes
  have hlsne : es.map Data.line ≠ [] := by simpa using hne
  generalize es.map Data.line = ls at hls hlsne
  cases hs : firstCut sectionStart? s with
  | some p =>
    -- The section opens in the text, and the written one becomes part of its content.
    obtain ⟨b, t⟩ := p
    have hsl : s.getLast? = some '\n' := by
      refine hl.resolve_left ?_
      rintro rfl
      cases hs
    have hstart : dataStart? (s ++ Data.sectionOf ls) =
        some (b, (t ++ fence ++ '\n' :: Data.marker) ++ '\n' :: ['\n'].intercalate ls ++
          '\n' :: fence ++ ['\n']) := by
      rw [dataStart?_eq, firstCut_sectionStart?_append hs hsl rfl, sectionOf_eq hlsne]
      simp
    obtain ⟨tail, hsection⟩ := dataSection?_of_dataStart? hls hlsne hstart
    refine ⟨b, tail, ?_, by rw [bodyPart, hs]⟩
    rw [hsection, swallowed, hs]
  | none =>
    have hstart : dataStart? (s ++ Data.sectionOf ls) =
        some (dropEndWhile isBreak s, [] ++ '\n' :: ['\n'].intercalate ls ++
          '\n' :: fence ++ ['\n']) := by
      rw [dataStart?_of_none hs hl hls hlsne, ofLines_eq_intercalate hlsne]
      simp
    obtain ⟨tail, hsection⟩ := dataSection?_of_dataStart? hls hlsne hstart
    refine ⟨_, tail, by rw [hsection, swallowed_of_none hs], ?_⟩
    obtain ⟨b, hb, hall⟩ := exists_eq_dropEndWhile_append isBreak s
    rw [bodyPart, hs]
    conv_rhs => rw [hb]
    exact (trim_append_blank _ fun c hc => isBlank_of_isBreak (hall c hc)).symm

end Regions

end Formdoc
