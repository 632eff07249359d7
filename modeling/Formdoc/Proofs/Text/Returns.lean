/-
Texts with a carriage return in front of each line feed.

`withReturns` puts the carriage returns in, and `withoutReturns` takes those away
that stand in front of a line feed, which gives the text back
(`withoutReturns_withReturns`).

What is done with a text goes along with this.  A mark without line breaks stands
at the same places (`after?_withReturns`), and what is taken or dropped at an end
is the same, as long as it makes no difference between the two characters of a line
break (`dropWhile_withReturns`, `trim_withReturns`).  The words of a text stay as
they are (`words_withReturns`), and so do its lines, once each has lost the carriage
return at its end (`map_dropReturn_lines_withReturns`).
-/
import Formdoc.Proofs.Text.Search
import Formdoc.Proofs.Text.Words

namespace Formdoc

namespace Text

/-- The text with a carriage return in front of each line feed. -/
def withReturns (s : Text) : Text :=
  s.flatMap fun c => if c = '\n' then ['\r', '\n'] else [c]

/-- The text without the carriage returns in front of line feeds. -/
def withoutReturns : Text → Text
  | [] => []
  | [c] => [c]
  | c :: d :: s =>
    if c = '\r' ∧ d = '\n' then '\n' :: withoutReturns s else c :: withoutReturns (d :: s)

@[simp] theorem withReturns_nil : withReturns [] = [] := rfl

@[simp] theorem withReturns_lineFeed (s : Text) :
    withReturns ('\n' :: s) = '\r' :: '\n' :: withReturns s := rfl

theorem withReturns_cons {c : Char} (hc : c ≠ '\n') (s : Text) :
    withReturns (c :: s) = c :: withReturns s := by
  rw [withReturns, List.flatMap_cons, if_neg hc]
  rfl

@[simp] theorem withReturns_append (s t : Text) :
    withReturns (s ++ t) = withReturns s ++ withReturns t :=
  List.flatMap_append

theorem withReturns_of_not_mem {s : Text} (h : '\n' ∉ s) : withReturns s = s := by
  induction s with
  | nil => rfl
  | cons c s ih =>
    rw [List.mem_cons, not_or] at h
    rw [withReturns_cons (Ne.symm h.1), ih h.2]

/-- A text that starts with a line feed does so no more. -/
theorem head?_withReturns_ne (s : Text) : (withReturns s).head? ≠ some '\n' := by
  cases s with
  | nil => simp
  | cons c s =>
    by_cases hc : c = '\n'
    · subst hc
      simp
    · rw [withReturns_cons hc]
      simpa using hc

theorem getLast?_withReturns (s : Text) : (withReturns s).getLast? = s.getLast? := by
  rcases List.eq_nil_or_concat s with rfl | ⟨s, c, rfl⟩
  · rfl
  · rw [List.concat_eq_append, withReturns_append, List.getLast?_concat]
    by_cases hc : c = '\n'
    · subst hc
      exact List.getLast?_append_of_ne_nil _ (by simp)
    · rw [withReturns_cons hc]
      exact List.getLast?_concat

theorem withReturns_eq_nil_iff {s : Text} : withReturns s = [] ↔ s = [] := by
  rw [← List.getLast?_eq_none_iff, getLast?_withReturns, List.getLast?_eq_none_iff]

theorem withoutReturns_withReturns (s : Text) : withoutReturns (withReturns s) = s := by
  induction s with
  | nil => rfl
  | cons c s ih =>
    by_cases hc : c = '\n'
    · subst hc
      rw [withReturns_lineFeed, withoutReturns, if_pos ⟨rfl, rfl⟩, ih]
    · rw [withReturns_cons hc]
      -- No line feed follows: each has its own carriage return in front of it.
      have hhead := head?_withReturns_ne s
      cases hs : withReturns s with
      | nil =>
        rw [withReturns_eq_nil_iff.1 hs]
        rfl
      | cons d t =>
        rw [hs] at hhead ih
        rw [withoutReturns, if_neg fun h => hhead (congrArg some h.2), ih]

/-- Where a text with carriage returns is cut in two, the text without them is cut, unless the cut
stands between the two characters of a line break. -/
theorem withReturns_eq_append {s a t : Text} (h : withReturns s = a ++ t) :
    (∃ b u, s = b ++ u ∧ a = withReturns b ∧ t = withReturns u) ∨
      ∃ b u, s = b ++ '\n' :: u ∧ a = withReturns b ++ ['\r'] ∧ t = '\n' :: withReturns u := by
  induction s generalizing a with
  | nil =>
    obtain ⟨rfl, rfl⟩ := List.append_eq_nil_iff.1 h.symm
    exact .inl ⟨[], [], rfl, rfl, rfl⟩
  | cons c s ih =>
    cases a with
    | nil => exact .inl ⟨[], c :: s, rfl, rfl, h.symm⟩
    | cons d a =>
      by_cases hc : c = '\n'
      · subst hc
        obtain ⟨rfl, ht⟩ := List.cons.inj h
        cases a with
        | nil => exact .inr ⟨[], s, rfl, rfl, ht.symm⟩
        | cons e a =>
          obtain ⟨rfl, hrest⟩ := List.cons.inj ht
          rcases ih hrest with ⟨b, u, rfl, rfl, rfl⟩ | ⟨b, u, rfl, rfl, rfl⟩
          · exact .inl ⟨'\n' :: b, u, rfl, rfl, rfl⟩
          · exact .inr ⟨'\n' :: b, u, rfl, rfl, rfl⟩
      · rw [withReturns_cons hc] at h
        obtain ⟨rfl, ht⟩ := List.cons.inj h
        rcases ih ht with ⟨b, u, rfl, rfl, rfl⟩ | ⟨b, u, rfl, rfl, rfl⟩
        · exact .inl ⟨c :: b, u, rfl, (withReturns_cons hc b).symm, rfl⟩
        · exact .inr ⟨c :: b, u, rfl, by rw [withReturns_cons hc]; rfl, rfl⟩

/-- A mark without line breaks stands at the front of a text with carriage returns exactly if it
stands at the front of the text. -/
theorem after?_withReturns {m : Text} (hm : OneLine m) (s : Text) :
    after? m (withReturns s) = (after? m s).map withReturns := by
  induction m generalizing s with
  | nil => rfl
  | cons a m ih =>
    obtain ⟨ha, hm⟩ := oneLine_cons.1 hm
    cases s with
    | nil => rfl
    | cons c s =>
      by_cases hc : c = '\n'
      · -- Neither character of a line break belongs to the mark.
        subst hc
        have hn : a ≠ '\n' := by
          rintro rfl
          cases ha
        have hr : a ≠ '\r' := by
          rintro rfl
          cases ha
        rw [withReturns_lineFeed, after?, after?, if_neg hr, if_neg hn]
        rfl
      · rw [withReturns_cons hc, after?, after?]
        split
        · exact ih hm s
        · rfl

/-! ### Taking and dropping -/

section Ends

variable {p : Char → Bool} (hp : p '\r' = p '\n')

include hp

theorem all_withReturns_iff {s : Text} :
    (∀ c ∈ withReturns s, p c = true) ↔ ∀ c ∈ s, p c = true := by
  induction s with
  | nil => rfl
  | cons c s ih =>
    by_cases hc : c = '\n'
    · subst hc
      simp [ih, hp]
    · simp [withReturns_cons hc, ih]

theorem dropWhile_withReturns (s : Text) :
    (withReturns s).dropWhile p = withReturns (s.dropWhile p) := by
  have hs : withReturns s = withReturns (s.takeWhile p) ++ withReturns (s.dropWhile p) := by
    rw [← withReturns_append, List.takeWhile_append_dropWhile]
  have htake : ∀ c ∈ withReturns (s.takeWhile p), p c = true :=
    (all_withReturns_iff hp).2 fun c hc => List.mem_takeWhile_imp hc
  rw [hs]
  refine (span_append htake fun c hc => ?_).2
  -- The first character that is left satisfies the predicate if a line break does.
  have hfirst := List.head?_dropWhile_not p s
  cases hd : s.dropWhile p with
  | nil =>
    rw [hd] at hc
    cases hc
  | cons d t =>
    rw [hd] at hc hfirst
    have hpd : p d = false := by simpa using hfirst
    by_cases hn : d = '\n'
    · subst hn
      obtain rfl : '\r' = c := Option.some_inj.1 hc
      rw [hp, hpd]
    · rw [withReturns_cons hn] at hc
      obtain rfl : d = c := Option.some_inj.1 hc
      exact hpd

theorem dropEndWhile_withReturns (s : Text) :
    dropEndWhile p (withReturns s) = withReturns (dropEndWhile p s) := by
  obtain ⟨t, hs, ht⟩ := exists_eq_dropEndWhile_append p s
  conv_lhs => rw [hs, withReturns_append]
  rw [dropEndWhile_append_of_forall _ ((all_withReturns_iff hp).2 ht)]
  cases hl : (dropEndWhile p s).getLast? with
  | none =>
    rw [List.getLast?_eq_none_iff.1 hl]
    rfl
  | some c =>
    rw [dropEndWhile_of_getLast? ((getLast?_withReturns _).trans hl) (getLast?_dropEndWhile hl)]

end Ends

theorem trim_withReturns (s : Text) : trim (withReturns s) = withReturns (trim s) := by
  unfold trim trimEnd trimStart
  rw [dropWhile_withReturns (by decide), dropEndWhile_withReturns (by decide)]

theorem isBlankText_withReturns (s : Text) : isBlankText (withReturns s) = isBlankText s := by
  rw [Bool.eq_iff_iff, isBlankText, isBlankText, List.all_eq_true, List.all_eq_true]
  exact all_withReturns_iff (by decide)

theorem words_withReturns (s : Text) : words (withReturns s) = words s := by
  rw [words_eq_segments, words_eq_segments]
  induction s using line_induction with
  | last l hl => rw [withReturns_of_not_mem hl]
  | line l s hl ih =>
    -- Both line endings are blank.
    rw [withReturns_append, withReturns_of_not_mem hl, withReturns_lineFeed,
      segments_append_cons l _ (by decide), segments_cons_blank (by decide), ih,
      segments_append_cons l s (by decide)]

/-! ### Lines -/

theorem breaks_withReturns (s : Text) : breaks (withReturns s) = breaks s := by
  unfold breaks
  induction s with
  | nil => rfl
  | cons c s ih =>
    by_cases hc : c = '\n'
    · subst hc
      simp [ih]
    · rw [withReturns_cons hc, List.count_cons, List.count_cons, ih]

theorem withReturns_line (l s : Text) (h : '\n' ∉ l) :
    withReturns (l ++ '\n' :: s) = (l ++ ['\r']) ++ '\n' :: withReturns s := by
  rw [withReturns_append, withReturns_of_not_mem h]
  simp

/-- Carriage returns at the ends of lines make no difference, if there are no others. -/
theorem map_dropReturn_lines_withReturns {s : Text} (h : '\r' ∉ s) :
    (lines (withReturns s)).map dropReturn = (lines s).map dropReturn := by
  induction s using line_induction with
  | last l hl => rw [withReturns_of_not_mem hl]
  | line l s hl ih =>
    simp only [List.mem_append, List.mem_cons, not_or] at h
    have hdrop : dropReturn (l ++ ['\r']) = dropReturn l := by
      rw [dropReturn, if_pos List.getLast?_concat, List.dropLast_concat, dropReturn,
        if_neg fun hlast => h.1 (List.mem_of_getLast? hlast)]
    rw [withReturns_line l s hl, lines_line (by simp [hl]), lines_line hl, List.map_cons,
      List.map_cons, ih h.2.2, hdrop]

theorem pieces_withReturns (s : Text) : pieces (withReturns s) = (pieces s).map withReturns := by
  induction s using line_induction with
  | last l hl =>
    rw [withReturns_of_not_mem hl]
    rcases eq_or_ne l [] with rfl | hne
    · rfl
    · rw [pieces_of_not_mem hne hl, List.map_singleton, withReturns_of_not_mem hl]
  | line l s hl ih =>
    rw [withReturns_line l s hl, pieces_cons_append (by simp [hl]), pieces_cons_append hl, ih,
      List.map_cons, withReturns_append, withReturns_of_not_mem hl]
    simp

end Text

open Text

/-- The carriage return of a line break moves no place: the line feed starts a new line. -/
theorem Position.after_withReturns (p : Position) (s : Text) :
    p.after (withReturns s) = p.after s := by
  induction s generalizing p with
  | nil => rfl
  | cons c s ih =>
    by_cases hc : c = '\n'
    · subst hc
      exact ih _
    · rw [withReturns_cons hc]
      exact ih _

end Formdoc
