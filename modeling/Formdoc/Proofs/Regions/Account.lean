/-
How the lines of the front matter are accounted for.

Each numbered line between the fences is silent, an entry, or neither, and in
the last case there is a warning about it (`Metadata.Accounts`).  The lines are
those of the whole document with their numbers there (`Framing.innerLines`),
while the reader numbers those of the block alone.  Where each carriage return
stands before a line feed, the two differ in blank lines only
(`Framing.Foremost.filterMap_innerLines`), which say nothing.

So the metadata and the warnings of a document are what its inner lines come to,
with one more warning for a data section that is not closed
(`exists_accounts_read`).
-/
import Formdoc.Proofs.Regions.Framing
import Formdoc.Proofs.Regions.ReadBack
import Formdoc.Proofs.Regions.Returns

namespace Formdoc

open Text

namespace Metadata

/-! ### Lines of a block -/

/-- The line says nothing: it is blank, or the first character of it that is not blank is a number
sign. -/
def IsSilent (l : Text) : Prop :=
  trim l = [] ∨ (trim l).head? = some '#'

/-- The line consists of the key, a colon, and a text that is not empty. -/
structure IsEntry (l key raw : Text) : Prop where
  eq : l = key ++ ':' :: raw
  key_ne : key ≠ []
  isWordChar : ∀ c ∈ key, isWordChar c = true
  raw_ne : raw ≠ []

variable {l key raw : Text}

theorem isSilent_iff : isSilent l = true ↔ IsSilent l := by
  unfold isSilent IsSilent
  cases trim l with
  | nil => simp
  | cons c r => simp

theorem keyedValue?_eq_some_iff : keyedValue? l = some (key, raw) ↔ IsEntry l key raw := by
  rw [keyedValue?, Option.filter_eq_some_iff, keyed?_eq_some_iff, isKey_iff]
  constructor
  · rintro ⟨⟨⟨hne, hword⟩, rfl⟩, hraw⟩
    exact ⟨rfl, hne, hword, by simpa using hraw⟩
  · rintro ⟨rfl, hne, hword, hraw⟩
    exact ⟨⟨⟨hne, hword⟩, rfl⟩, by simpa using hraw⟩

theorem keyedValue?_eq_none_iff : keyedValue? l = none ↔ ∀ key raw, ¬ IsEntry l key raw := by
  simp only [← keyedValue?_eq_some_iff, Option.eq_none_iff_forall_ne_some, Prod.forall, ne_eq]

theorem kind_of_isSilent (h : IsSilent l) : kind l = .silent := by
  rw [kind, if_pos (isSilent_iff.2 h)]

/-- A line with an entry is not silent, as it starts with a word character. -/
theorem kind_of_isEntry (h : IsEntry l key raw) : kind l = .entry key (Scalar.read raw) := by
  have hsilent : isSilent l = false :=
    h.eq ▸ isSilent_of_isKey (isKey_iff.2 ⟨h.key_ne, h.isWordChar⟩) (':' :: raw)
  rw [kind, hsilent, if_neg (by decide), keyedValue?_eq_some_iff.2 h]

theorem kind_of_invalid (hsilent : ¬ IsSilent l) (h : ∀ key raw, ¬ IsEntry l key raw) :
    kind l = .invalid := by
  rw [kind, if_neg (mt isSilent_iff.1 hsilent), keyedValue?_eq_none_iff.2 h]

/-- A silent line is no entry, and no warning is about it. -/
theorem of_trim_eq_nil (h : trim l = []) (n : Nat) : entry? l = none ∧ warning? l n = none := by
  unfold entry? warning?
  rw [kind_of_isSilent (.inl h)]
  exact ⟨rfl, rfl⟩

/-- What numbered lines come to: the entries among them, and a warning about each line that is
neither silent nor an entry. -/
inductive Accounts : List (Text × Nat) → List (Text × Scalar) → List Diagnostic → Prop
  | nil : Accounts [] [] []
  | silent {l : Text} {n : Nat} {ls es ws} (h : IsSilent l) (hs : Accounts ls es ws) :
      Accounts ((l, n) :: ls) es ws
  | entry {l key raw : Text} {n : Nat} {ls es ws} (h : IsEntry l key raw)
      (hs : Accounts ls es ws) : Accounts ((l, n) :: ls) ((key, Scalar.read raw) :: es) ws
  | invalid {l : Text} {n : Nat} {ls es ws} (hsilent : ¬ IsSilent l)
      (h : ∀ key raw, ¬ IsEntry l key raw) (hs : Accounts ls es ws) :
      Accounts ((l, n) :: ls) es (.invalidMetadata l n :: ws)

theorem accounts_iff {ls : List (Text × Nat)} {es : List (Text × Scalar)} {ws : List Diagnostic} :
    Accounts ls es ws ↔
      es = ls.filterMap (fun l => entry? l.1) ∧ ws = ls.filterMap fun l => warning? l.1 l.2 := by
  constructor
  · intro h
    induction h with
    | nil => exact ⟨rfl, rfl⟩
    | silent h _ ih =>
      simpa only [List.filterMap_cons, entry?, warning?, kind_of_isSilent h] using ih
    | entry h _ ih =>
      simpa only [List.filterMap_cons, entry?, warning?, kind_of_isEntry h, List.cons.injEq,
        true_and] using ih
    | invalid hs h _ ih =>
      simpa only [List.filterMap_cons, entry?, warning?, kind_of_invalid hs h, List.cons.injEq,
        true_and] using ih
  · rintro ⟨rfl, rfl⟩
    induction ls with
    | nil => exact .nil
    | cons l ls ih =>
      obtain ⟨l, n⟩ := l
      by_cases hs : IsSilent l
      · simpa only [List.filterMap_cons, entry?, warning?, kind_of_isSilent hs] using ih.silent hs
      · by_cases he : ∃ key raw, IsEntry l key raw
        · obtain ⟨key, raw, he⟩ := he
          simpa only [List.filterMap_cons, entry?, warning?, kind_of_isEntry he] using ih.entry he
        · have hnone : ∀ key raw, ¬ IsEntry l key raw := fun key raw h => he ⟨key, raw, h⟩
          simpa only [List.filterMap_cons, entry?, warning?, kind_of_invalid hs hnone] using
            ih.invalid hs hnone

/-- Lines come to something, and to one thing only. -/
theorem exists_accounts (ls : List (Text × Nat)) :
    ∃ es ws, Accounts ls es ws ∧ ∀ es' ws', Accounts ls es' ws' → es' = es ∧ ws' = ws :=
  ⟨_, _, accounts_iff.2 ⟨rfl, rfl⟩, fun _ _ h => accounts_iff.1 h⟩

/-- What is read from a block is what its lines come to. -/
theorem Accounts.read_eq {block : Text} {n : Nat} {es : List (Text × Scalar)}
    {ws : List Diagnostic} (h : Accounts (numbered block n) es ws) :
    read block n = (.ofList es, ws) := by
  obtain ⟨rfl, rfl⟩ := accounts_iff.1 h
  rfl

/-- No entry is read from a block exactly if none of its lines is one. -/
theorem isEmpty_read_iff {block : Text} {n : Nat} :
    (read block n).1.isEmpty = true ↔
      ∀ l ∈ lines block, ∀ key raw, ¬ IsEntry (dropReturn l) key raw := by
  have hline (l : Text) : entry? l = none ↔ ∀ key raw, ¬ IsEntry l key raw := by
    unfold entry?
    constructor
    · intro h key raw he
      rw [kind_of_isEntry he] at h
      cases h
    · intro h
      by_cases hs : IsSilent l
      · rw [kind_of_isSilent hs]
      · rw [kind_of_invalid hs h]
  have hnumbered : (numbered block n).map Prod.fst = (lines block).map dropReturn :=
    List.zipIdx_map_fst ..
  rw [read, OrderedMap.isEmpty_ofList_iff, List.filterMap_eq_nil_iff,
    ← List.forall_mem_map (P := fun l => entry? l = none), hnumbered, List.forall_mem_map]
  simp only [hline]

end Metadata

namespace Regions

/-! ### Lines between the fences -/

/-- Of numbered lines, those behind the first one and in front of a given one. -/
theorem filter_zipIdx_append {α : Type} (as bs : List α) :
    ((as ++ bs).zipIdx 1).filter (fun l => 1 < l.2 ∧ l.2 < as.length + 1) =
      (as.drop 1).zipIdx 2 := by
  have hbs : (bs.zipIdx (1 + as.length)).filter (fun l => 1 < l.2 ∧ l.2 < as.length + 1) = [] := by
    refine List.filter_eq_nil_iff.2 fun l hl => ?_
    have := List.le_snd_of_mem_zipIdx hl
    simp only [decide_eq_true_eq]
    omega
  rw [List.zipIdx_append, List.filter_append, hbs, List.append_nil]
  cases as with
  | nil => rfl
  | cons a as =>
    rw [List.zipIdx_cons, List.filter_cons_of_neg (by simp), List.drop_one, List.tail_cons]
    refine List.filter_eq_self.2 fun l hl => ?_
    have hle := List.le_snd_of_mem_zipIdx hl
    have hlt := List.snd_lt_add_of_mem_zipIdx hl
    simp only [List.length_cons, decide_eq_true_eq]
    omega

namespace Framing

/-- The number of the line on which the closing fence stands. -/
def closingLine (f : Framing) : Nat :=
  breaks (fence ++ f.blanks ++ f.block ++ f.gap) + 1

/-- The lines of the document that stand strictly between its fences, with their numbers. -/
def innerLines (f : Framing) (source : Text) : List (Text × Nat) :=
  (Metadata.numbered source 1).filter fun l => 1 < l.2 ∧ l.2 < f.closingLine

variable {f : Framing} {source : Text}

/-- The line breaks behind the block end in a line feed, as a fence follows. -/
theorem Of.exists_gap_eq (h : f.Of source) (hr : source.ReturnsPaired) :
    ∃ g, f.gap = g ++ ['\n'] := by
  obtain ⟨g, c, hg⟩ := (List.eq_nil_or_concat f.gap).resolve_left h.gap_ne
  rw [List.concat_eq_append] at hg
  have hsource : source =
      fence ++ f.blanks ++ f.block ++ g ++ c :: (fence ++ f.closing ++ f.rest) := by
    rw [h.eq, hg]
    simp
  have hc := hr.eq_lineFeed hsource (h.isBreak_gap c (by rw [hg]; simp)) (by simp [fence])
  exact ⟨g, hc ▸ hg⟩

/-- The closing fence starts a line. -/
theorem Of.exists_closingLine (h : f.Of source) (hr : source.ReturnsPaired) :
    ∃ l, (l, f.closingLine) ∈ (lines source).zipIdx 1 ∧ fence <+: l := by
  obtain ⟨g, hg⟩ := h.exists_gap_eq hr
  have hline := exists_mem_lines (u := fence ++ f.blanks ++ f.block ++ f.gap) (m := fence)
    (.inr (by rw [hg, ← List.append_assoc, List.getLast?_concat])) (by decide) (f.closing ++ f.rest)
  rwa [← List.append_assoc, ← h.eq] at hline

/-- The blanks behind the opening fence end in a line feed, if there is a block. -/
theorem Foremost.exists_blanks_eq (h : f.Foremost source) (hr : source.ReturnsPaired)
    (hb : f.block ≠ []) : ∃ a, f.blanks = a ++ ['\n'] := by
  obtain ⟨-, c, hlast, hc⟩ := h.of.blanks
  obtain ⟨a, ha⟩ := List.getLast?_eq_some_iff.1 hlast
  obtain ⟨d, block, hblock⟩ := List.exists_cons_of_ne_nil hb
  -- A line feed at the front of the block would belong to the blanks.
  have hd : d ≠ '\n' := by
    rintro rfl
    have hlonger : (⟨f.blanks ++ ['\n'], block, f.gap, f.closing, f.rest⟩ : Framing).Of source :=
      ⟨by rw [h.of.eq, hblock]; simp, endsInBreak_concat h.of.blanks.1 (by decide), h.of.gap_ne,
        h.of.isBreak_gap, h.of.closing⟩
    have hle := h.blanks_le _ hlonger
    simp only [List.length_append, List.length_singleton] at hle
    omega
  have hsource : source = fence ++ a ++ c :: (f.block ++ f.gap ++ fence ++ f.closing ++ f.rest) := by
    rw [h.of.eq, ha]
    simp
  exact ⟨a, hr.eq_lineFeed hsource hc (by simpa [hblock] using hd) ▸ ha⟩

/-- The block does not end in a line break. -/
theorem Foremost.isBreak_block (h : f.Foremost source) {c : Char}
    (hc : f.block.getLast? = some c) : isBreak c = false := by
  obtain ⟨b, hb⟩ := List.getLast?_eq_some_iff.1 hc
  by_contra hbreak
  have hshorter : (⟨f.blanks, b, c :: f.gap, f.closing, f.rest⟩ : Framing).Of source :=
    ⟨by rw [h.of.eq, hb]; simp, h.of.blanks, by simp,
      List.forall_mem_cons.2 ⟨by simpa using hbreak, h.of.isBreak_gap⟩, h.of.closing⟩
  have hle := h.block_le _ hshorter rfl
  rw [hb, List.length_append, List.length_singleton] at hle
  simp only at hle
  omega

/-- The lines between the fences are those of what stands there, less what stands on the line of the
opening fence. -/
theorem Of.innerLines_eq (h : f.Of source) {g : Text} (hg : f.gap = g ++ ['\n']) :
    f.innerLines source =
      (((lines (f.blanks ++ f.block ++ g)).map dropReturn).drop 1).zipIdx 2 := by
  have hsource : source = fence ++ (f.blanks ++ f.block ++ g) ++ '\n' ::
      (fence ++ f.closing ++ f.rest) := by
    rw [h.eq, hg]
    simp
  have hlength : f.closingLine =
      ((lines (fence ++ (f.blanks ++ f.block ++ g))).map dropReturn).length + 1 := by
    rw [closingLine, hg, List.length_map, length_lines, breaks, breaks]
    simp [List.count_append, Nat.add_assoc]
  rw [innerLines, Metadata.numbered, hlength, hsource, lines_append_cons, List.map_append,
    filter_zipIdx_append, lines_append_of_not_mem (by decide), ← List.map_drop, ← List.map_drop,
    List.drop_one, List.drop_one, List.tail_modifyHead]

/-- Without a block, the lines between the fences are blank. -/
theorem Of.trim_innerLines (h : f.Of source) (hr : source.ReturnsPaired) (hb : f.block = [])
    {l : Text × Nat} (hl : l ∈ f.innerLines source) : trim l.1 = [] := by
  obtain ⟨g, hg⟩ := h.exists_gap_eq hr
  have hall : ∀ c ∈ f.blanks ++ f.block ++ g, isBlank c = true := by
    rw [hb, List.append_nil]
    exact List.forall_mem_append.2 ⟨h.blanks.1, fun c hc =>
      isBlank_of_isBreak (h.isBreak_gap c (by rw [hg]; exact List.mem_append_left _ hc))⟩
  rw [h.innerLines_eq hg] at hl
  exact trim_eq_nil_of_mem_lines hall (List.mem_of_mem_drop (List.fst_mem_of_mem_zipIdx hl))

/-- With a block, the lines between the fences are those of the block among blank ones, and the
block's have the numbers under which they are read. -/
theorem Foremost.exists_innerLines_eq (h : f.Foremost source) (hr : source.ReturnsPaired)
    (hb : f.block ≠ []) : ∃ front rear : List (Text × Nat),
      f.innerLines source =
        front ++ Metadata.numbered f.block (breaks (fence ++ f.blanks) + 1) ++ rear ∧
      (∀ l ∈ front, trim l.1 = []) ∧ ∀ l ∈ rear, trim l.1 = [] := by
  obtain ⟨g, hg⟩ := h.of.exists_gap_eq hr
  obtain ⟨a, ha⟩ := h.exists_blanks_eq hr hb
  have hgap : ∀ c ∈ g, isBreak c = true := fun c hc =>
    h.of.isBreak_gap c (by rw [hg]; exact List.mem_append_left _ hc)
  have hpaired : ∀ u v, g = u ++ '\r' :: v → v = [] ∨ v.head? = some '\n' := by
    intro u v hg'
    have hv := hr (fence ++ f.blanks ++ f.block ++ u)
      (v ++ '\n' :: (fence ++ f.closing ++ f.rest)) (by rw [h.of.eq, hg, hg']; simp)
    cases v with
    | nil => exact .inl rfl
    | cons c v => exact .inr hv
  obtain ⟨ls, hls, hrear⟩ := exists_lines_append_breaks
    (fun hlast => absurd (h.isBreak_block hlast) (by decide)) hgap hpaired
  have hfront : ∀ l ∈ ((lines a).map dropReturn).drop 1, trim l = [] := fun l hl =>
    trim_eq_nil_of_mem_lines
      (fun c hc => h.of.blanks.1 c (by rw [ha]; exact List.mem_append_left _ hc))
      (List.mem_of_mem_drop hl)
  have hlines : lines (f.blanks ++ f.block ++ g) = lines a ++ lines (f.block ++ g) := by
    rw [ha, ← lines_append_cons]
    simp
  have hlength : ((lines a).map dropReturn).length = breaks a + 1 := by
    rw [List.length_map, length_lines]
  have hnumber : 2 + (breaks a + 1 - 1) = breaks (fence ++ f.blanks) + 1 := by
    rw [ha, breaks, breaks, List.count_append, List.count_append, List.count_singleton_self,
      show fence.count '\n' = 0 from rfl]
    omega
  rw [h.of.innerLines_eq hg, hlines, List.map_append, hls, List.drop_append_of_le_length (by omega),
    List.zipIdx_append, List.zipIdx_append, List.length_drop, hlength, hnumber,
    ← List.append_assoc]
  exact ⟨_, _, rfl, fun l hl => hfront l.1 (List.fst_mem_of_mem_zipIdx hl),
    fun l hl => hrear l.1 (List.fst_mem_of_mem_zipIdx hl)⟩

/-- The lines between the fences that are not blank are those of the block. -/
theorem Foremost.filterMap_innerLines {α : Type} (h : f.Foremost source)
    (hr : source.ReturnsPaired) {k : Text × Nat → Option α}
    (hk : ∀ l, trim l.1 = [] → k l = none) :
    (f.innerLines source).filterMap k =
      (Metadata.numbered f.block (breaks (fence ++ f.blanks) + 1)).filterMap k := by
  have hblank {ls : List (Text × Nat)} (hls : ∀ l ∈ ls, trim l.1 = []) : ls.filterMap k = [] :=
    List.filterMap_eq_nil_iff.2 fun l hl => hk l (hls l hl)
  by_cases hb : f.block = []
  · -- The empty block has one line, which is empty.
    have hblock : ∀ l ∈ Metadata.numbered f.block (breaks (fence ++ f.blanks) + 1),
        trim l.1 = [] := by
      rw [hb]
      exact List.forall_mem_singleton.2 rfl
    rw [hblank fun l => h.of.trim_innerLines hr hb, hblank hblock]
  · obtain ⟨front, rear, heq, hfront, hrear⟩ := h.exists_innerLines_eq hr hb
    rw [heq, List.filterMap_append, List.filterMap_append, hblank hfront, hblank hrear,
      List.nil_append, List.append_nil]

/-- What the lines between the fences come to is what those of the block do. -/
theorem Foremost.accounts_innerLines_iff (h : f.Foremost source) (hr : source.ReturnsPaired)
    {es : List (Text × Scalar)} {ws : List Diagnostic} :
    Metadata.Accounts (f.innerLines source) es ws ↔
      Metadata.Accounts (Metadata.numbered f.block (breaks (fence ++ f.blanks) + 1)) es ws := by
  rw [Metadata.accounts_iff, Metadata.accounts_iff,
    h.filterMap_innerLines hr fun l hl => (Metadata.of_trim_eq_nil hl l.2).1,
    h.filterMap_innerLines hr fun l hl => (Metadata.of_trim_eq_nil hl l.2).2]

end Framing

theorem warningOf_eq_nil_or_singleton (source rest : Text) :
    warningOf source rest = [] ∨ ∃ d, warningOf source rest = [d] := by
  unfold warningOf
  split
  · exact .inl rfl
  · split
    · exact .inl rfl
    · exact .inr ⟨_, rfl⟩

/-- The marker of an unclosed data section starts a line, and the warning is about that line. -/
theorem exists_line_of_mem_warningOf {source front rest : Text} {d : Diagnostic}
    (hr : source.ReturnsPaired) (hs : source = front ++ rest) (h : d ∈ warningOf source rest) :
    ∃ n l, d = .unclosedData n ∧ (l, n) ∈ (lines source).zipIdx 1 ∧ Data.marker <+: l := by
  obtain ⟨before, tail, ⟨⟨b, rfl, hne, hb⟩, -⟩, -, rfl⟩ := exists_of_mem_warningOf h
  obtain ⟨b, c, rfl⟩ := (List.eq_nil_or_concat b).resolve_left hne
  rw [List.concat_eq_append] at hs hb
  have hbreak : source = front ++ before ++ fence ++ b ++ c :: (Data.marker ++ tail) := by
    rw [hs]
    simp
  obtain rfl := hr.eq_lineFeed hbreak (hb c (by simp)) (by simp [Data.marker])
  have hmarker : source = front ++ before ++ fence ++ b ++ ['\n'] ++ Data.marker ++ tail := by
    rw [hs]
    simp
  obtain ⟨l, hl, hprefix⟩ := exists_mem_lines (u := front ++ before ++ fence ++ b ++ ['\n'])
    (.inr List.getLast?_concat) (by decide : '\n' ∉ Data.marker) tail
  refine ⟨_, l, rfl, ?_, hprefix⟩
  have hline : lineOf source tail = breaks (front ++ before ++ fence ++ b ++ ['\n']) + 1 := by
    rw [hmarker, lineOf_append, breaks, List.count_append,
      show Data.marker.count '\n' = 0 from rfl]
    rfl
  rwa [hline, hmarker]

/-- In a document with front matter in which each carriage return stands before a line feed, each
line between the fences is accounted for once, under its number in the document: it is silent, or an
entry of the metadata, or there is a warning about it. A key has the place of its first entry and
the value of its last. There is no other warning but one about an unclosed data section, which comes
last and names the line of the section's marker. -/
theorem exists_accounts_read {source : Text} {front : FrontMatter} (hr : source.ReturnsPaired)
    (hfront : frontMatter? source = some front) :
    ∃ f : Framing, f.Foremost source ∧ (∀ g : Framing, g.Foremost source → g = f) ∧
      front = ⟨fence ++ f.blanks, f.block, f.rest⟩ ∧
      (∃ l, (l, f.closingLine) ∈ (lines source).zipIdx 1 ∧ fence <+: l) ∧
      ∃ es ws, Metadata.Accounts (f.innerLines source) es ws ∧
        (∀ es' ws', Metadata.Accounts (f.innerLines source) es' ws' → es' = es ∧ ws' = ws) ∧
        (read source).metadata.keys = (es.map Prod.fst).eraseDups ∧
        (∀ key, (read source).metadata.get? key =
          ((es.filter fun e => decide (e.1 = key)).getLast?).map Prod.snd) ∧
        ((read source).diagnostics = ws ∨
          ∃ n l, (read source).diagnostics = ws ++ [.unclosedData n] ∧
            (l, n) ∈ (lines source).zipIdx 1 ∧ Data.marker <+: l) := by
  obtain ⟨f, hforemost, rfl⟩ := exists_foremost hfront
  obtain ⟨es, ws, haccounts, hunique⟩ := Metadata.exists_accounts (f.innerLines source)
  have hread := read_of_frontMatter hfront
  rw [((hforemost.accounts_innerLines_iff hr).1 haccounts).read_eq] at hread
  refine ⟨f, hforemost, fun g hg => hg.eq hforemost, rfl, hforemost.of.exists_closingLine hr, es, ws,
    haccounts, hunique, ?_, fun key => ?_, ?_⟩
  · rw [hread, OrderedMap.keys_ofList]
  · rw [hread, OrderedMap.get?_ofList]
  · rw [hread]
    rcases warningOf_eq_nil_or_singleton source f.rest with hnil | ⟨d, hd⟩
    · rw [hnil, List.append_nil]
      exact .inl rfl
    · obtain ⟨n, l, rfl, hl⟩ := exists_line_of_mem_warningOf hr hforemost.of.eq
        (hd ▸ List.mem_singleton_self d)
      rw [hd]
      exact .inr ⟨n, l, rfl, hl⟩

/-- A document with all kinds of lines between its fences, and a data section that is not closed. -/
def accounted : Text :=
  ("--- \r\n\r\ntitle: Old\r\n # note\r\n\r\ncount:\r\n a: b\r\nsize: 2\r\ntitle: New\r\n\r\n---\r\n" ++
    "Body\r\n---\r\ndata:\r\n  a: 1\r\n").toList

/-- Its front matter. -/
def accountedFront : FrontMatter :=
  ⟨"--- \r\n\r\n".toList,
    "title: Old\r\n # note\r\n\r\ncount:\r\n a: b\r\nsize: 2\r\ntitle: New".toList,
    "Body\r\n---\r\ndata:\r\n  a: 1\r\n".toList⟩

theorem exists_accounts_read_accounted :
    (accounted.ReturnsPaired ∧ frontMatter? accounted = some accountedFront) ∧
      ∃ f : Framing, f.Foremost accounted ∧ (∀ g : Framing, g.Foremost accounted → g = f) ∧
        accountedFront = ⟨fence ++ f.blanks, f.block, f.rest⟩ ∧
        (∃ l, (l, f.closingLine) ∈ (lines accounted).zipIdx 1 ∧ fence <+: l) ∧
        ∃ es ws, Metadata.Accounts (f.innerLines accounted) es ws ∧
          (∀ es' ws', Metadata.Accounts (f.innerLines accounted) es' ws' → es' = es ∧ ws' = ws) ∧
          (read accounted).metadata.keys = (es.map Prod.fst).eraseDups ∧
          (∀ key, (read accounted).metadata.get? key =
            ((es.filter fun e => decide (e.1 = key)).getLast?).map Prod.snd) ∧
          ((read accounted).diagnostics = ws ∨
            ∃ n l, (read accounted).diagnostics = ws ++ [.unclosedData n] ∧
              (l, n) ∈ (lines accounted).zipIdx 1 ∧ Data.marker <+: l) := by
  have hpaired : accounted.ReturnsPaired := by decide +kernel
  have hfront : frontMatter? accounted = some accountedFront := by decide +kernel
  exact ⟨⟨hpaired, hfront⟩, exists_accounts_read hpaired hfront⟩

example : (read accounted).metadata.entries =
    [("title".toList, .text "New".toList), ("size".toList, .int 2)] := by
  decide +kernel

example : (read accounted).diagnostics =
    [.invalidMetadata "count:".toList 6, .invalidMetadata " a: b".toList 7, .unclosedData 14] := by
  decide +kernel

end Regions

end Formdoc
