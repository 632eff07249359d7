/-
Texts made of lines.

The lines of a text are what core's `List.splitOn` gives at the line feed
(`lines_eq_splitOn`), so that lines joined by line feeds are read back
(`lines_intercalate`).  `ofLines` ends each line with a line feed, the last
one too.  The pieces of a text keep their line feeds; those of lines are the
lines themselves (`pieces_ofLines_append`).

A text is on one line if it holds no line break (`OneLine`).  Where each
carriage return stands before a line feed (`ReturnsPaired`), all lines are on
one line as soon as they have lost the carriage return at their ends
(`oneLine_dropReturn`), and line breaks behind a text add blank lines to it
(`exists_lines_append_breaks`).
-/
import Formdoc.Proofs.Text.Trim
import Mathlib.Algebra.GroupWithZero.Nat

namespace Formdoc.Text

/-! ### Lines between line feeds -/

theorem split_eq_splitOn (sep : Char) (s : Text) : split sep s = s.splitOn sep := by
  induction s with
  | nil => rfl
  | cons c s ih =>
    rw [split, ih, List.splitOn_cons_eq_if_modifyHead]
    simp

theorem split_append_cons (sep : Char) (a b : Text) :
    split sep (a ++ sep :: b) = split sep a ++ split sep b := by
  simp only [split_eq_splitOn, List.splitOn_append_cons_self]

theorem split_of_not_mem {sep : Char} {s : Text} (h : sep ∉ s) : split sep s = [s] := by
  induction s with
  | nil => rfl
  | cons c s ih =>
    rw [List.mem_cons, not_or] at h
    rw [split, if_neg (Ne.symm h.1), ih h.2, List.modifyHead_cons]

theorem split_ne_nil (sep : Char) (s : Text) : split sep s ≠ [] := by
  rw [← List.length_pos_iff, length_split]
  omega

theorem lines_eq_splitOn (s : Text) : lines s = s.splitOn '\n' :=
  split_eq_splitOn _ _

theorem lines_append_cons (a b : Text) : lines (a ++ '\n' :: b) = lines a ++ lines b :=
  split_append_cons _ a b

theorem lines_intercalate {ls : List Text} (hne : ls ≠ []) (h : ∀ l ∈ ls, '\n' ∉ l) :
    lines (['\n'].intercalate ls) = ls := by
  rw [lines_eq_splitOn, List.splitOn_intercalate _ h hne]

theorem lines_of_not_mem {l : Text} (h : '\n' ∉ l) : lines l = [l] :=
  split_of_not_mem h

/-- What follows a line feed is a line of its own. -/
theorem exists_lines_append {s l : Text} (hs : s = [] ∨ s.getLast? = some '\n') (hl : '\n' ∉ l) :
    ∃ ls, lines (s ++ l) = ls ++ [l] := by
  rcases hs with rfl | hs
  · exact ⟨[], lines_of_not_mem hl⟩
  · obtain ⟨t, rfl⟩ := List.getLast?_eq_some_iff.1 hs
    refine ⟨lines t, ?_⟩
    rw [List.append_assoc, List.singleton_append, lines_append_cons, lines_of_not_mem hl]

theorem intercalate_lines (s : Text) : ['\n'].intercalate (lines s) = s := by
  rw [lines_eq_splitOn, List.intercalate_splitOn]

theorem lines_ne_nil (s : Text) : lines s ≠ [] :=
  split_ne_nil _ s

/-- Induction along the lines of a text: the first line ends at the first line feed, and the others
are the lines of what follows it. -/
theorem line_induction {P : Text → Prop} (last : ∀ l, '\n' ∉ l → P l)
    (line : ∀ l s, '\n' ∉ l → P s → P (l ++ '\n' :: s)) (s : Text) : P s := by
  induction hn : s.length using Nat.strongRecOn generalizing s with
  | _ n ih =>
    subst hn
    by_cases hs : '\n' ∈ s
    · obtain ⟨a, b, rfl, ha⟩ := List.eq_append_cons_of_mem hs
      exact line a b ha (ih b.length (by simp; omega) b rfl)
    · exact last s hs

theorem lines_line {l : Text} (h : '\n' ∉ l) (s : Text) :
    lines (l ++ '\n' :: s) = l :: lines s := by
  rw [lines_append_cons, lines_of_not_mem h, List.singleton_append]

/-- What stands in front of a text, without a line feed, goes to its first line. -/
theorem lines_append_of_not_mem {m : Text} (hm : '\n' ∉ m) (t : Text) :
    lines (m ++ t) = (lines t).modifyHead (m ++ ·) := by
  induction m with
  | nil => exact (congrFun List.modifyHead_id (lines t)).symm
  | cons c m ih =>
    rw [List.mem_cons, not_or] at hm
    rw [lines] at ih ⊢
    rw [List.cons_append, split, if_neg (Ne.symm hm.1), ih hm.2, List.modifyHead_modifyHead]
    rfl

/-- What stands behind the start of a line starts the line of that number. -/
theorem exists_mem_lines {u m : Text} (hu : u = [] ∨ u.getLast? = some '\n') (hm : '\n' ∉ m)
    (t : Text) : ∃ l, (l, breaks u + 1) ∈ (lines (u ++ m ++ t)).zipIdx 1 ∧ m <+: l := by
  obtain ⟨l, ls, hl⟩ := List.exists_cons_of_ne_nil (lines_ne_nil t)
  have hlines : lines (m ++ t) = (m ++ l) :: ls := by
    rw [lines_append_of_not_mem hm, hl, List.modifyHead_cons]
  refine ⟨m ++ l, ?_, List.prefix_append ..⟩
  rcases hu with rfl | hu
  · rw [List.nil_append, hlines]
    exact List.mem_cons_self
  · obtain ⟨u, rfl⟩ := List.getLast?_eq_some_iff.1 hu
    have hbreaks : breaks (u ++ ['\n']) = (lines u).length := by
      rw [length_lines, breaks, breaks, List.count_append]
      rfl
    rw [hbreaks, List.append_assoc, List.append_assoc, List.singleton_append, lines_append_cons,
      hlines, List.zipIdx_append, Nat.add_comm 1]
    exact List.mem_append_right _ List.mem_cons_self

/-- A line holds no line feed, and what follows it in the text is one, if it is anything. -/
theorem of_mem_lines {s l : Text} (h : l ∈ lines s) :
    '\n' ∉ l ∧ ∃ a b, s = a ++ l ++ b ∧ (b = [] ∨ b.head? = some '\n') := by
  induction s using line_induction with
  | last k hk =>
    rw [lines_of_not_mem hk, List.mem_singleton] at h
    subst h
    exact ⟨hk, [], [], by simp, .inl rfl⟩
  | line k s hk ih =>
    rw [lines_line hk] at h
    rcases List.mem_cons.1 h with rfl | h
    · exact ⟨hk, [], '\n' :: s, by simp, .inr rfl⟩
    · obtain ⟨hl, c, d, rfl, hd⟩ := ih h
      exact ⟨hl, k ++ '\n' :: c, d, by simp, hd⟩

/-- Lines, each ended by a line feed. -/
def ofLines (ls : List Text) : Text :=
  ls.flatMap (· ++ ['\n'])

theorem ofLines_eq_intercalate {ls : List Text} (h : ls ≠ []) :
    ofLines ls = ['\n'].intercalate ls ++ ['\n'] := by
  induction ls with
  | nil => exact absurd rfl h
  | cons l ls ih =>
    cases ls with
    | nil => simp [ofLines]
    | cons m ls =>
      have := ih (by simp)
      rw [ofLines] at this ⊢
      rw [List.flatMap_cons, this, List.intercalate_cons_cons]
      simp

/-- Lines in front of a last line, which lacks the line feed. -/
theorem intercalate_concat (ls : List Text) (l : Text) :
    ['\n'].intercalate (ls ++ [l]) = ofLines ls ++ l := by
  have hne : ls ++ [l] ≠ [] := by simp
  have h := ofLines_eq_intercalate hne
  rw [ofLines, List.flatMap_append, List.flatMap_singleton, ← List.append_assoc] at h
  exact (List.append_cancel_right h).symm

theorem getLast?_intercalate (sep : Text) {ls : List Text} {l : Text} (h : ls.getLast? = some l)
    (hl : l ≠ []) : (sep.intercalate ls).getLast? = l.getLast? := by
  induction ls with
  | nil => cases h
  | cons k ls ih =>
    cases ls with
    | nil =>
      rw [List.getLast?_singleton, Option.some_inj] at h
      rw [List.intercalate_singleton, h]
    | cons m ls =>
      rw [List.getLast?_cons_cons] at h
      have hne : sep.intercalate (m :: ls) ≠ [] := by
        intro hnil
        have := ih h
        rw [hnil] at this
        exact hl (List.getLast?_eq_none_iff.1 this.symm)
      rw [List.intercalate_cons_cons, List.getLast?_append_of_ne_nil _ hne, ih h]

/-! ### Pieces that keep their line feeds -/

theorem pieces_cons_append {l : Text} (h : '\n' ∉ l) (b : Text) :
    pieces (l ++ '\n' :: b) = (l ++ ['\n']) :: pieces b := by
  induction l with
  | nil => rfl
  | cons c l ih =>
    rw [List.mem_cons, not_or] at h
    rw [List.cons_append, pieces, if_neg (Ne.symm h.1), ih h.2]
    rfl

theorem pieces_lineFeed_cons (s : Text) : pieces ('\n' :: s) = ['\n'] :: pieces s :=
  pieces_cons_append (l := []) (by simp) s

theorem exists_pieces_cons (c : Char) (s : Text) : ∃ p ps, pieces (c :: s) = (c :: p) :: ps := by
  rw [pieces]
  split
  · exact ⟨_, _, rfl⟩
  · split <;> exact ⟨_, _, rfl⟩

theorem pieces_of_not_mem {l : Text} (hne : l ≠ []) (h : '\n' ∉ l) : pieces l = [l] := by
  induction l with
  | nil => exact absurd rfl hne
  | cons c l ih =>
    rw [List.mem_cons, not_or] at h
    rw [pieces, if_neg (Ne.symm h.1)]
    cases l with
    | nil => rfl
    | cons d l => rw [ih (by simp) h.2]

theorem pieces_ofLines_append {ls : List Text} (h : ∀ l ∈ ls, '\n' ∉ l) (b : Text) :
    pieces (ofLines ls ++ b) = ls.map (· ++ ['\n']) ++ pieces b := by
  induction ls with
  | nil => rfl
  | cons l ls ih =>
    rw [ofLines, List.flatMap_cons, List.append_assoc, List.append_assoc, List.singleton_append,
      pieces_cons_append (h l List.mem_cons_self), ← ofLines,
      ih fun k hk => h k (List.mem_cons_of_mem _ hk)]
    rfl

theorem ne_nil_of_mem_pieces {s p : Text} (h : p ∈ pieces s) : p ≠ [] := by
  fun_induction pieces s with
  | case1 => cases h
  | case2 s ih =>
    rcases List.mem_cons.1 h with rfl | h
    · simp
    · exact ih h
  | case3 c s hc hs ih =>
    rw [List.mem_singleton.1 h]
    simp
  | case4 c s hc q qs hs ih =>
    rcases List.mem_cons.1 h with rfl | h
    · simp
    · exact ih (hs ▸ List.mem_cons_of_mem _ h)

/-- A piece ends in its only line feed, or has none and is the last piece. -/
theorem of_pieces_eq {s p : Text} {a b : List Text} (h : pieces s = a ++ p :: b) :
    ∃ l, '\n' ∉ l ∧ (p = l ++ ['\n'] ∨ (p = l ∧ b = [])) := by
  induction s using line_induction generalizing a with
  | last k hk =>
    -- A text without a line feed is one piece.
    cases k with
    | nil => simp [pieces] at h
    | cons c k =>
      rw [pieces_of_not_mem (by simp) hk, List.singleton_eq_append_iff] at h
      obtain ⟨-, h⟩ | ⟨-, h⟩ := h
      · obtain ⟨rfl, rfl⟩ := List.cons.inj h
        exact ⟨_, hk, .inr ⟨rfl, rfl⟩⟩
      · cases h
  | line k s hk ih =>
    rw [pieces_cons_append hk] at h
    cases a with
    | nil =>
      obtain ⟨rfl, -⟩ := List.cons.inj h
      exact ⟨k, hk, .inl rfl⟩
    | cons q a => exact ih (List.cons.inj h).2

/-! ### Lengths of joined texts -/

theorem length_intercalate (sep : Text) {ls : List Text} (h : ls ≠ []) :
    (sep.intercalate ls).length + sep.length = (ls.map fun l => l.length + sep.length).sum := by
  induction ls with
  | nil => exact absurd rfl h
  | cons l ls ih =>
    cases ls with
    | nil => simp
    | cons k ls =>
      have hrest := ih (by simp)
      rw [List.intercalate_cons_cons, List.map_cons, List.sum_cons, ← hrest]
      simp only [List.length_append]
      omega

/-- What can only become heavier has not changed if it is no heavier as a whole. -/
theorem eq_of_sum_le {α : Type} {w : α → Nat} {as bs : List α}
    (h : List.Forall₂ (fun a b => b = a ∨ w a < w b) as bs)
    (hle : (bs.map w).sum ≤ (as.map w).sum) : bs = as := by
  -- No part is lighter than it was, so that each has kept its weight.
  have hge {as bs : List α} (h : List.Forall₂ (fun a b => b = a ∨ w a < w b) as bs) :
      (as.map w).sum ≤ (bs.map w).sum := by
    induction h with
    | nil => exact Nat.le_refl _
    | cons hab htail ih =>
      rw [List.map_cons, List.map_cons, List.sum_cons, List.sum_cons]
      rcases hab with rfl | hab <;> omega
  induction h with
  | nil => rfl
  | cons hab htail ih =>
    have hrest := hge htail
    rw [List.map_cons, List.map_cons, List.sum_cons, List.sum_cons] at hle
    rcases hab with rfl | hab
    · rw [ih (by omega)]
    · omega

/-! ### Texts on one line -/

/-- The text holds no line break. -/
def OneLine (s : Text) : Prop :=
  ∀ c ∈ s, isBreak c = false

instance (s : Text) : Decidable (OneLine s) :=
  inferInstanceAs (Decidable (∀ c ∈ s, isBreak c = false))

theorem oneLine_append {s t : Text} : OneLine (s ++ t) ↔ OneLine s ∧ OneLine t :=
  List.forall_mem_append

theorem oneLine_cons {c : Char} {s : Text} : OneLine (c :: s) ↔ isBreak c = false ∧ OneLine s :=
  List.forall_mem_cons

theorem oneLine_nil : OneLine [] :=
  List.forall_mem_nil _

theorem OneLine.subset {s t : Text} (ht : OneLine t) (h : ∀ c ∈ s, c ∈ t) : OneLine s :=
  fun c hc => ht c (h c hc)

theorem OneLine.not_mem_lineFeed {s : Text} (h : OneLine s) : '\n' ∉ s := fun hm =>
  absurd (h '\n' hm) (by decide)

theorem dropReturn_of_oneLine {s : Text} (h : OneLine s) : dropReturn s = s := by
  unfold dropReturn
  rw [if_neg]
  intro hl
  exact absurd (h '\r' (List.mem_of_getLast? hl)) (by decide)

/-- What does not end in a line break stands in front of the line breaks at the end of a text. -/
theorem exists_of_append_breaks {s w p r : Text} (h : s ++ w = p ++ r)
    (hw : ∀ c ∈ w, isBreak c = true) {c : Char} (hp : p.getLast? = some c)
    (hc : isBreak c = false) : ∃ q, s = p ++ q := by
  rcases List.append_eq_append_iff.1 h with ⟨a, rfl, rfl⟩ | ⟨q, rfl, -⟩
  · rcases List.eq_nil_or_concat a with rfl | ⟨a, d, rfl⟩
    · exact ⟨[], by simp⟩
    · rw [List.concat_eq_append, ← List.append_assoc, List.getLast?_concat, Option.some_inj] at hp
      have := hw d (by simp)
      rw [hp, hc] at this
      cases this
  · exact ⟨q, rfl⟩

/-- Lines joined by line feeds are read back as lines. -/
theorem map_dropReturn_lines {ls : List Text} (hne : ls ≠ []) (h : ∀ l ∈ ls, OneLine l) :
    (lines (['\n'].intercalate ls)).map dropReturn = ls := by
  rw [lines_intercalate hne fun l hl => (h l hl).not_mem_lineFeed]
  exact (List.map_congr_left fun l hl => dropReturn_of_oneLine (h l hl)).trans (List.map_id ls)

theorem oneLine_of_digits {s : Text} (h : ∀ c ∈ s, c.isDigit = true) : OneLine s :=
  fun c hc => isBreak_of_isBlank_false (isBlank_of_isDigit (h c hc))

/-- Each carriage return of the text stands before a line feed. -/
def ReturnsPaired (s : Text) : Prop :=
  ∀ a b, s = a ++ '\r' :: b → b.head? = some '\n'

theorem returnsPaired_cons {c : Char} {s : Text} :
    ReturnsPaired (c :: s) ↔ (c = '\r' → s.head? = some '\n') ∧ ReturnsPaired s := by
  constructor
  · intro h
    exact ⟨fun hc => h [] s (by rw [hc]; rfl), fun a b hs => h (c :: a) b (by rw [hs]; rfl)⟩
  · rintro ⟨hc, hs⟩ a b hab
    cases a with
    | nil =>
      obtain ⟨rfl, rfl⟩ := List.cons.inj hab
      exact hc rfl
    | cons d a => exact hs a b (List.cons.inj hab).2

instance decidableReturnsPaired : (s : Text) → Decidable (ReturnsPaired s)
  | [] => .isTrue fun a b h => by simp at h
  | _ :: s =>
    have := decidableReturnsPaired s
    decidable_of_iff _ returnsPaired_cons.symm

theorem oneLine_iff {s : Text} : OneLine s ↔ '\n' ∉ s ∧ '\r' ∉ s := by
  constructor
  · exact fun h => ⟨h.not_mem_lineFeed, fun hm => absurd (h '\r' hm) (by decide)⟩
  · rintro ⟨hn, hr⟩ c hc
    have h1 : c ≠ '\n' := fun h => hn (h ▸ hc)
    have h2 : c ≠ '\r' := fun h => hr (h ▸ hc)
    simp [isBreak, h1, h2]

/-- The lines of a block in which each carriage return stands before a line feed, or at the end,
are single lines once they have lost the carriage return at their ends. -/
theorem oneLine_dropReturn {s : Text}
    (hs : ∀ a b, s = a ++ '\r' :: b → b = [] ∨ b.head? = some '\n') {l : Text} (h : l ∈ lines s) :
    OneLine (dropReturn l) := by
  obtain ⟨hn, a, b, rfl, hb⟩ := of_mem_lines h
  -- Within the line a carriage return would stand before a character that is no line feed.
  have hlast (u w : Text) (hl : l = u ++ '\r' :: w) : w = [] := by
    cases w with
    | nil => rfl
    | cons c w =>
      rcases hs (a ++ u) (c :: w ++ b) (by simp [hl]) with h0 | h0
      · cases h0
      · obtain rfl : c = '\n' := Option.some_inj.1 h0
        exact absurd (by simp [hl]) hn
  rw [oneLine_iff]
  unfold dropReturn
  split
  · rename_i hl
    obtain ⟨u, rfl⟩ := List.getLast?_eq_some_iff.1 hl
    rw [List.dropLast_concat]
    refine ⟨fun hm => hn (List.mem_append_left _ hm), fun hm => ?_⟩
    obtain ⟨x, y, rfl⟩ := List.append_of_mem hm
    have := hlast x (y ++ ['\r']) (by simp)
    simp at this
  · rename_i hl
    refine ⟨hn, fun hm => ?_⟩
    obtain ⟨x, y, rfl⟩ := List.append_of_mem hm
    rw [hlast x y rfl] at hl
    exact hl (List.getLast?_concat)

/-- A line break with no line feed behind it is one. -/
theorem ReturnsPaired.eq_lineFeed {s a b : Text} {c : Char} (h : s.ReturnsPaired)
    (hs : s = a ++ c :: b) (hc : isBreak c = true) (hb : b.head? ≠ some '\n') : c = '\n' := by
  have hcases : c = '\n' ∨ c = '\r' := by simpa [isBreak] using hc
  rcases hcases with hc | rfl
  · exact hc
  · exact absurd (h a b hs) hb

/-! ### Blank lines -/

/-- The lines of a blank text are blank. -/
theorem trim_eq_nil_of_mem_lines {w l : Text} (hw : ∀ c ∈ w, isBlank c = true)
    (h : l ∈ (lines w).map dropReturn) : trim l = [] := by
  obtain ⟨k, hk, rfl⟩ := List.mem_map.1 h
  obtain ⟨-, a, b, rfl, -⟩ := of_mem_lines hk
  have hsub : dropReturn k ⊆ k := by
    unfold dropReturn
    split
    · exact List.dropLast_subset k
    · exact List.Subset.refl k
  exact trim_eq_nil_iff.2 fun c hc => hw c (by simp [hsub hc])

/-- A carriage return at the end of a text belongs to the end of its last line. -/
theorem map_dropReturn_lines_concat {s : Text} (hs : s.getLast? ≠ some '\r') :
    (lines (s ++ ['\r'])).map dropReturn = (lines s).map dropReturn := by
  induction s using line_induction with
  | last l hl =>
    have hr : '\n' ∉ l ++ ['\r'] := by simp [hl]
    rw [lines_of_not_mem hr, lines_of_not_mem hl, List.map_singleton, List.map_singleton, dropReturn,
      dropReturn, if_pos List.getLast?_concat, List.dropLast_concat, if_neg hs]
  | line l s hl ih =>
    have hrest : s.getLast? ≠ some '\r' := fun h => hs (by
      rw [List.getLast?_append_of_ne_nil _ (by simp), List.getLast?_cons, h]
      rfl)
    rw [List.append_assoc, List.cons_append, lines_line hl, lines_line hl, List.map_cons,
      List.map_cons, ih hrest]

/-- Line breaks behind a text add blank lines to it, if it does not end in a carriage return and
each of theirs stands before a line feed or at the end. -/
theorem exists_lines_append_breaks {s g : Text} (hs : s.getLast? ≠ some '\r')
    (hg : ∀ c ∈ g, isBreak c = true)
    (hr : ∀ a b, g = a ++ '\r' :: b → b = [] ∨ b.head? = some '\n') :
    ∃ ls, (lines (s ++ g)).map dropReturn = (lines s).map dropReturn ++ ls ∧
      ∀ l ∈ ls, trim l = [] := by
  cases g with
  | nil => exact ⟨[], by simp, by simp⟩
  | cons c g =>
    have hblank : ∀ d ∈ g, isBlank d = true := fun d hd =>
      isBlank_of_isBreak (hg d (List.mem_cons_of_mem _ hd))
    have hc : c = '\n' ∨ c = '\r' := by simpa [isBreak] using hg c List.mem_cons_self
    rcases hc with rfl | rfl
    · refine ⟨(lines g).map dropReturn, ?_, fun l hl => trim_eq_nil_of_mem_lines hblank hl⟩
      rw [lines_append_cons, List.map_append]
    · rcases hr [] g rfl with rfl | hhead
      · exact ⟨[], by rw [map_dropReturn_lines_concat hs, List.append_nil], by simp⟩
      · obtain ⟨w, rfl⟩ := List.head?_eq_some_iff.1 hhead
        refine ⟨(lines w).map dropReturn, ?_, fun l hl =>
          trim_eq_nil_of_mem_lines (fun d hd => hblank d (List.mem_cons_of_mem _ hd)) hl⟩
        have happ : s ++ '\r' :: '\n' :: w = s ++ ['\r'] ++ '\n' :: w := by simp
        rw [happ, lines_append_cons, List.map_append, map_dropReturn_lines_concat hs]

end Formdoc.Text
