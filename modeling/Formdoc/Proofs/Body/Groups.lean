/-
The lines of a run of text and the blocks that they form.

A run of text falls into groups of lines: lines that are blank or headings are groups by
themselves, and lines of prose that follow one another are in one group (`Groups`).  There is just
one way to do this (`exists_groups`, `Groups.unique`), and each group but a blank line forms one
block (`group_of_groups`).

The reader takes the lines with the line feeds that end them, each at the place behind the one in
front.  These are the lines between the line feeds, but for an empty one at the end; all but the
first start in column one (`exists_map_located_eq`).  So the blocks of a run are told from the lines
between its line feeds (`blocksOf_eq_filterMap`).
-/
import Formdoc.Proofs.Body.Joined
import Mathlib.Data.List.Chain

namespace Formdoc

open Text

/-! ### Places of lines -/

theorem Position.line_after_of_not_mem {s : Text} (h : '\n' ∉ s) (p : Position) :
    (p.after s).line = p.line := by
  induction s generalizing p with
  | nil => rfl
  | cons c s ih =>
    rw [List.mem_cons, not_or] at h
    show ((p.next c).after s).line = p.line
    rw [ih h.2, next, if_neg (Ne.symm h.1)]

/-- Behind a line feed the next line starts, in column one. -/
theorem Position.after_line {l : Text} (h : '\n' ∉ l) (p : Position) :
    p.after (l ++ ['\n']) = ⟨p.line + 1, 1⟩ := by
  rw [after_append, ← line_after_of_not_mem h p]
  rfl

namespace Markdown

/-! ### Groups of lines -/

/-- A line of a run of text. -/
structure Line where
  /-- What stands between the line feeds. -/
  text : Text
  /-- How many lines stand in front. -/
  number : Nat

/-- The lines of a run of text. -/
def linesOf (s : Text) : List Line :=
  (Text.lines s).zipIdx.map fun l => ⟨l.1, l.2⟩

/-- The line is prose. -/
def Line.isProse (l : Line) : Bool :=
  kind l.text == .prose

theorem Line.isProse_iff {l : Line} : l.isProse = true ↔ IsProse l.text := by
  rw [isProse, beq_iff_eq, kind_eq_prose_iff]

/-- Lines of a run of text that belong together: one that is blank, one that is a heading, or
lines of prose. -/
inductive Group where
  | blank (line : Line)
  | heading (level : Nat) (title : Text) (line : Line)
  | prose (first : Line) (rest : List Line)

namespace Group

/-- The lines of a group. -/
def lines : Group → List Line
  | blank l => [l]
  | heading _ _ l => [l]
  | prose l ls => l :: ls

/-- The group is one of lines of prose. -/
def isProse : Group → Bool
  | prose _ _ => true
  | _ => false

/-- The lines of the group are what it takes them for. -/
def Valid : Group → Prop
  | blank l => trim l.text = []
  | heading level title l => IsHeading level title l.text
  | prose l ls => ∀ k ∈ l :: ls, IsProse k.text

theorem lines_ne_nil (g : Group) : g.lines ≠ [] := by
  cases g <;> exact List.cons_ne_nil _ _

/-- The first group of some lines, and the lines behind it. -/
def first (l : Line) (ls : List Line) : Group × List Line :=
  match kind l.text with
  | .blank => (blank l, ls)
  | .heading level title => (heading level title l, ls)
  | .prose => (prose l (ls.takeWhile Line.isProse), ls.dropWhile Line.isProse)

end Group

/-- The lines fall into the groups: each line is in one of them, and lines of prose that follow one
another are in the same one. -/
structure Groups (ls : List Line) (gs : List Group) : Prop where
  flatMap_lines : gs.flatMap Group.lines = ls
  valid : ∀ g ∈ gs, g.Valid
  parted : gs.IsChain fun g h => ¬ (g.isProse = true ∧ h.isProse = true)

namespace Groups

variable {ls : List Line} {g : Group} {gs hs : List Group}

theorem nil : Groups [] [] :=
  ⟨rfl, by simp, .nil⟩

theorem cons (h : Groups ls gs) (hg : g.Valid)
    (hparted : ∀ k ∈ gs.head?, ¬ (g.isProse = true ∧ k.isProse = true)) :
    Groups (g.lines ++ ls) (g :: gs) :=
  ⟨by rw [List.flatMap_cons, h.flatMap_lines], List.forall_mem_cons.2 ⟨hg, h.valid⟩,
    List.isChain_cons.2 ⟨hparted, h.parted⟩⟩

theorem tail (h : Groups ls (g :: gs)) : Groups (gs.flatMap Group.lines) gs :=
  ⟨rfl, fun k hk => h.valid k (List.mem_cons_of_mem _ hk), (List.isChain_cons.1 h.parted).2⟩

/-- A line of prose joins a group of such lines behind it. -/
theorem join {l k : Line} {ks : List Line} (h : Groups ls (.prose k ks :: gs))
    (hl : IsProse l.text) : Groups (l :: ls) (.prose l (k :: ks) :: gs) := by
  have hlines : l :: ls = (Group.prose l (k :: ks)).lines ++ gs.flatMap Group.lines := by
    rw [← h.flatMap_lines]
    rfl
  rw [hlines]
  exact h.tail.cons (List.forall_mem_cons.2 ⟨hl, h.valid _ List.mem_cons_self⟩)
    (List.isChain_cons.1 h.parted).1

/-- The lines behind a group of lines of prose do not start with prose. -/
theorem isProse_head (h : Groups ls (g :: gs)) (hg : g.isProse = true) {l : Line}
    (hl : (gs.flatMap Group.lines).head? = some l) : l.isProse = false := by
  cases gs with
  | nil => cases hl
  | cons k gs =>
    have hk : ¬ k.isProse = true := fun hk => (List.isChain_cons_cons.1 h.parted).1 ⟨hg, hk⟩
    have hvalid : k.Valid := h.valid k (by simp)
    rw [Line.isProse, beq_eq_false_iff_ne]
    cases k with
    | blank m =>
      obtain rfl : m = l := Option.some.inj hl
      rw [kind_eq_blank_iff.2 hvalid]
      simp
    | heading level title m =>
      obtain rfl : m = l := Option.some.inj hl
      rw [kind_eq_heading_iff.2 hvalid]
      simp
    | prose m ms => exact absurd rfl hk

/-- A group of lines of prose in front has as many of them as follow one another. -/
theorem span {l : Line} {ks : List Line} (h : Groups ls (.prose l ks :: gs)) :
    (ks ++ gs.flatMap Group.lines).takeWhile Line.isProse = ks ∧
      (ks ++ gs.flatMap Group.lines).dropWhile Line.isProse = gs.flatMap Group.lines :=
  Text.span_append
    (fun k hk => Line.isProse_iff.2 (h.valid _ List.mem_cons_self k (List.mem_cons_of_mem _ hk)))
    fun _ => h.isProse_head rfl

/-- The first group of lines is told from them, and so are the lines behind it. -/
theorem first_eq {l : Line} (h : Groups (l :: ls) (g :: gs)) :
    Group.first l ls = (g, gs.flatMap Group.lines) := by
  have hvalid : g.Valid := h.valid g List.mem_cons_self
  have hlines := h.flatMap_lines
  rw [List.flatMap_cons] at hlines
  unfold Group.first
  cases g with
  | blank m =>
    obtain ⟨rfl, rfl⟩ := List.cons.inj hlines
    simp only [kind_eq_blank_iff.2 hvalid]
    rfl
  | heading level title m =>
    obtain ⟨rfl, rfl⟩ := List.cons.inj hlines
    simp only [kind_eq_heading_iff.2 hvalid]
    rfl
  | prose m ms =>
    obtain ⟨rfl, rfl⟩ := List.cons.inj hlines
    obtain ⟨htake, hdrop⟩ := h.span
    simp only [kind_eq_prose_iff.2 (hvalid m List.mem_cons_self), List.append_eq, htake, hdrop]

/-- Lines fall into groups in one way only. -/
theorem unique (hg : Groups ls gs) (hh : Groups ls hs) : gs = hs := by
  induction gs generalizing ls hs with
  | nil =>
    obtain rfl : [] = ls := hg.flatMap_lines
    cases hs with
    | nil => rfl
    | cons h hs => exact absurd (List.append_eq_nil_iff.1 hh.flatMap_lines).1 h.lines_ne_nil
  | cons g gs ih =>
    cases ls with
    | nil => exact absurd (List.append_eq_nil_iff.1 hg.flatMap_lines).1 g.lines_ne_nil
    | cons l ls =>
      cases hs with
      | nil => cases hh.flatMap_lines
      | cons h hs =>
        obtain ⟨rfl, hrest⟩ := Prod.mk.inj (hg.first_eq.symm.trans hh.first_eq)
        rw [ih hg.tail (hrest ▸ hh.tail)]

end Groups

/-- Lines fall into groups. -/
theorem exists_groups (ls : List Line) : ∃ gs, Groups ls gs := by
  induction ls with
  | nil => exact ⟨[], .nil⟩
  | cons l ls ih =>
    obtain ⟨gs, h⟩ := ih
    cases hk : kind l.text with
    | blank => exact ⟨_, h.cons (g := .blank l) (kind_eq_blank_iff.1 hk) (by simp [Group.isProse])⟩
    | heading level title =>
      exact ⟨_, h.cons (g := .heading level title l) (kind_eq_heading_iff.1 hk)
        (by simp [Group.isProse])⟩
    | prose =>
      have hl : IsProse l.text := kind_eq_prose_iff.1 hk
      have halone (hgs : ∀ k ∈ gs.head?, k.isProse = false) : Groups (l :: ls) (.prose l [] :: gs) :=
        h.cons (g := .prose l []) (List.forall_mem_singleton.2 hl) fun k hk => by simp [hgs k hk]
      cases gs with
      | nil => exact ⟨_, halone (by simp)⟩
      | cons g gs =>
        cases g with
        | blank k => exact ⟨_, halone (by simp [Group.isProse])⟩
        | heading level title k => exact ⟨_, halone (by simp [Group.isProse])⟩
        | prose k ks => exact ⟨_, h.join hl⟩

/-! ### Blocks of groups -/

/-- The block that a group forms, if it forms one. The lines stand, as they are written, at the
places that `place` gives. -/
def Group.block? (place : Line → Located Text) : Group → Option Block
  | blank _ => none
  | heading level title l =>
    some (.heading level [.text title (place l).position] (place l).position)
  | prose l ls =>
    some (.paragraph ((l :: ls).map fun k => .text (place k).value (place k).position)
      (place l).position)

/-- Lines form the blocks of their groups. -/
theorem group_of_groups {place : Line → Located Text}
    (hplace : ∀ l, kind (place l).value = kind l.text) {ls : List Line} {gs : List Group}
    (h : Groups ls gs) : group (ls.map place) = gs.filterMap (Group.block? place) := by
  induction gs generalizing ls with
  | nil =>
    obtain rfl : [] = ls := h.flatMap_lines
    rw [List.map_nil, group, List.filterMap_nil]
  | cons g gs ih =>
    have hvalid : g.Valid := h.valid g List.mem_cons_self
    have hrest := ih h.tail
    rw [← h.flatMap_lines, List.flatMap_cons, List.map_append]
    cases g with
    | blank l =>
      have hk : kind (place l).value = .blank := (hplace l).trans (kind_eq_blank_iff.2 hvalid)
      exact (group_blank hk _).trans hrest
    | heading level title l =>
      have hk : kind (place l).value = .heading level title :=
        (hplace l).trans (kind_eq_heading_iff.2 hvalid)
      exact (group_heading hk _).trans (congrArg _ hrest)
    | prose l ks =>
      have hk : kind (place l).value = .prose :=
        (hplace l).trans (kind_eq_prose_iff.2 (hvalid l List.mem_cons_self))
      have hprose : isProse ∘ place = Line.isProse := by
        funext k
        exact congrArg (· == LineKind.prose) (hplace k)
      obtain ⟨htake, hdrop⟩ := h.span
      rw [Group.lines, List.map_cons, List.cons_append, group_prose hk, ← List.map_append,
        List.takeWhile_map, List.dropWhile_map, hprose, htake, hdrop, hrest]
      simp only [← List.map_cons, List.map_map]
      rfl

/-! ### Lines and pieces -/

/-- Where a line starts in a run of text that starts at the given place. -/
def placeOf (start : Position) (number : Nat) : Position :=
  if number = 0 then start else ⟨start.line + number, 1⟩

/-- A line as it is written in a run of text with the given number of lines: the last one has no
line feed behind it. -/
def Line.written (count : Nat) (l : Line) : Text :=
  if l.number + 1 < count then l.text ++ ['\n'] else l.text

/-- A line as it is written, at its place. -/
def Line.located (start : Position) (count : Nat) (l : Line) : Located Text :=
  ⟨l.written count, placeOf start l.number⟩

theorem kind_written (count : Nat) (l : Line) : kind (l.written count) = kind l.text := by
  unfold Line.written
  split
  · exact kind_append_lineFeed l.text
  · rfl

theorem placeOf_succ {l : Text} (h : '\n' ∉ l) (start : Position) (k : Nat) :
    placeOf start (k + 1) = (placeOf start k).after (l ++ ['\n']) := by
  have hline : (placeOf start k).line = start.line + k := by
    unfold placeOf
    split
    · rename_i hk
      rw [hk, Nat.add_zero]
    · rfl
  rw [Position.after_line h, hline]
  rfl

/-- The lines from some line on, as they are written, are the pieces of the text that they make, and
behind them an empty line where this text ends in a line feed. -/
theorem exists_map_located_eq (start : Position) (s : Text) (k : Nat) :
    ∃ rest, ((Text.lines s).zipIdx k).map
          (fun l => Line.located start (k + (Text.lines s).length) ⟨l.1, l.2⟩) =
        Located.spread id (placeOf start k) (pieces s) ++ rest ∧
      ∀ l ∈ rest, kind l.value = .blank := by
  induction s using line_induction generalizing k with
  | last l hl =>
    have hwritten : Line.written (k + 1) ⟨l, k⟩ = l := if_neg (Nat.lt_irrefl (k + 1))
    rw [lines_of_not_mem hl, List.zipIdx_singleton, List.map_singleton, List.length_singleton,
      Line.located, hwritten]
    by_cases hnil : l = []
    · subst hnil
      exact ⟨_, rfl, List.forall_mem_singleton.2 rfl⟩
    · rw [pieces_of_not_mem hnil hl]
      exact ⟨[], rfl, by simp⟩
  | line l s hl ih =>
    obtain ⟨rest, hrest, hblank⟩ := ih (k + 1)
    have hcount : k + (Text.lines (l ++ '\n' :: s)).length = k + 1 + (Text.lines s).length := by
      rw [lines_line hl, List.length_cons]
      omega
    have hwritten : Line.written (k + 1 + (Text.lines s).length) ⟨l, k⟩ = l ++ ['\n'] :=
      if_pos (Nat.lt_add_of_pos_right (List.length_pos_iff.2 (lines_ne_nil s)))
    rw [hcount, lines_line hl, List.zipIdx_cons, List.map_cons, hrest, pieces_cons_append hl,
      Located.spread, Line.located, hwritten, placeOf_succ hl]
    exact ⟨rest, rfl, hblank⟩

/-- Blank lines behind other lines make no difference. -/
theorem group_append_of_blank {ks : List (Located Text)} (h : ∀ k ∈ ks, kind k.value = .blank)
    (ls : List (Located Text)) : group (ls ++ ks) = group ls := by
  have hnone : group ks = [] := by
    induction ks with
    | nil => rw [group]
    | cons k ks ih =>
      obtain ⟨hk, hks⟩ := List.forall_mem_cons.1 h
      rw [group_blank hk, ih hks]
  cases ks with
  | nil => rw [List.append_nil]
  | cons k ks =>
    have hk : kind k.value ≠ .prose := by
      rw [h k List.mem_cons_self]
      simp
    rw [group_append_cons hk, hnone, List.append_nil]

theorem read_eq_group (start : Position) (s : Text) :
    read start s = group ((linesOf s).map (Line.located start (Text.lines s).length)) := by
  obtain ⟨rest, hrest, hblank⟩ := exists_map_located_eq start s 0
  rw [Nat.zero_add] at hrest
  rw [linesOf, List.map_map]
  show group (Located.spread id (placeOf start 0) (pieces s)) = _
  rw [← group_append_of_blank hblank, ← hrest]
  rfl

/-- The lines of a run of text fall into groups in one way, and the blocks of the run are those of
its groups, each line as it is written and at its place. -/
theorem blocksOf_eq_filterMap (s : Text) (start : Position) :
    ∃ gs, Groups (linesOf s) gs ∧ (∀ hs, Groups (linesOf s) hs → hs = gs) ∧
      Body.blocksOf ⟨.text s, start⟩ =
        gs.filterMap (Group.block? (Line.located start (Text.lines s).length)) := by
  obtain ⟨gs, hgs⟩ := exists_groups (linesOf s)
  refine ⟨gs, hgs, fun hs hhs => hhs.unique hgs, ?_⟩
  rw [← group_of_groups (fun l => kind_written _ l) hgs, ← read_eq_group]
  rfl

example : Body.blocksOf ⟨.text "a\n b \n# c\n\nd".toList, ⟨2, 5⟩⟩ =
    [.paragraph [.text "a\n".toList ⟨2, 5⟩, .text " b \n".toList ⟨3, 1⟩] ⟨2, 5⟩,
      .heading 1 [.text "c".toList ⟨4, 1⟩] ⟨4, 1⟩,
      .paragraph [.text "d".toList ⟨6, 1⟩] ⟨6, 1⟩] := by
  decide +kernel

end Markdown

end Formdoc
