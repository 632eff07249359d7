/-
Blanks at the ends of a text, and its words.

`trim` takes blanks off both ends and nothing else (`exists_eq_append_trim`),
and what remains has no blank at an end (`isBlank_head_trim`,
`isBlank_last_trim`); a text that has none is its own trim
(`trim_eq_self_iff`), and a text of blanks alone has nothing left
(`trim_eq_nil_iff`).  The words of a text are read off its front by
`words_cons_blank` and `words_append`; a text of blanks alone has none
(`words_eq_nil_iff`).

Key characters and digits are not blank (`isBlank_of_isWordChar`), and what is
not blank is no line break.
-/
import Formdoc.Text.Lines
import Mathlib.Data.List.DropRight

namespace Formdoc.Text

/-! ### Characters that are not blank -/

theorem isBlank_of_isWordChar {c : Char} (h : isWordChar c = true) : isBlank c = false := by
  -- Digits, letters and the underscore lie between the ranges of the table.
  have hn : (48 ≤ c.toNat ∧ c.toNat ≤ 57) ∨ (65 ≤ c.toNat ∧ c.toNat ≤ 90) ∨
      (97 ≤ c.toNat ∧ c.toNat ≤ 122) ∨ c.toNat = 95 := by
    rcases Bool.or_eq_true_iff.1 h with h | h
    · rcases Bool.or_eq_true_iff.1 h with h | h
      · rcases Bool.or_eq_true_iff.1 h with h | h
        · exact .inr (.inl (of_decide_eq_true h))
        · have hb := Bool.and_eq_true_iff.1 h
          exact .inr (.inr (.inl (hb.imp of_decide_eq_true of_decide_eq_true)))
      · exact .inl (Char.isDigit_iff_toNat.1 h)
    · obtain rfl : c = '_' := by simpa using h
      exact .inr (.inr (.inr rfl))
  simp only [isBlank, blankRanges, List.any_cons, List.any_nil, Bool.or_false, Bool.or_eq_false_iff,
    Bool.and_eq_false_iff, decide_eq_false_iff_not]
  omega

theorem isBlank_of_isDigit {c : Char} (h : c.isDigit = true) : isBlank c = false :=
  isBlank_of_isWordChar (by simp [isWordChar, Char.isAlphanum, h])

theorem isBreak_of_isBlank_false {c : Char} (h : isBlank c = false) : isBreak c = false := by
  by_contra hb
  rw [isBlank_of_isBreak (by simpa using hb)] at h
  cases h

/-! ### Taking and dropping -/

/-- What is taken while a predicate holds, and what is left, where the text is made of the two. -/
theorem span_append {α : Type} {p : α → Bool} {a b : List α} (ha : ∀ x ∈ a, p x = true)
    (hb : ∀ x, b.head? = some x → p x = false) :
    (a ++ b).takeWhile p = a ∧ (a ++ b).dropWhile p = b := by
  rw [List.takeWhile_append_of_pos ha, List.dropWhile_append_of_pos ha]
  cases b with
  | nil => simp
  | cons x b => simp [hb x rfl]

theorem dropEndWhile_eq_rdropWhile (p : Char → Bool) (s : Text) :
    dropEndWhile p s = s.rdropWhile p := rfl

theorem dropEndWhile_append_of_forall {p : Char → Bool} (s : Text) {t : Text}
    (h : ∀ c ∈ t, p c = true) : dropEndWhile p (s ++ t) = dropEndWhile p s := by
  unfold dropEndWhile
  rw [List.reverse_append, List.dropWhile_append_of_pos (by simpa using h)]

theorem dropEndWhile_of_getLast? {p : Char → Bool} {s : Text} {c : Char} (h : s.getLast? = some c)
    (hc : p c = false) : dropEndWhile p s = s := by
  obtain ⟨t, rfl⟩ := List.getLast?_eq_some_iff.1 h
  exact List.rdropWhile_concat_neg _ _ c (by simp [hc])

/-- What is dropped at the end satisfies the predicate. -/
theorem exists_eq_dropEndWhile_append (p : Char → Bool) (s : Text) :
    ∃ t, s = dropEndWhile p s ++ t ∧ ∀ c ∈ t, p c = true :=
  ⟨s.rtakeWhile p, List.rdropWhile_append_rtakeWhile.symm, fun _ => List.mem_rtakeWhile_imp⟩

theorem getLast?_dropEndWhile {p : Char → Bool} {s : Text} {c : Char}
    (h : (dropEndWhile p s).getLast? = some c) : p c = false := by
  have hne : s.rdropWhile p ≠ [] := by
    rw [← dropEndWhile_eq_rdropWhile]
    rintro hnil
    rw [hnil] at h
    cases h
  have hlast := List.rdropWhile_last_not p s hne
  rw [dropEndWhile_eq_rdropWhile, List.getLast?_eq_some_getLast hne, Option.some_inj] at h
  rw [h] at hlast
  simpa using hlast

/-! ### Trimming -/

/-- Trimming takes blanks off both ends and nothing else. -/
theorem exists_eq_append_trim (s : Text) :
    ∃ a b, (∀ c ∈ a, isBlank c = true) ∧ (∀ c ∈ b, isBlank c = true) ∧ s = a ++ trim s ++ b := by
  obtain ⟨b, hs, hb⟩ := exists_eq_dropEndWhile_append isBlank (trimStart s)
  refine ⟨s.takeWhile isBlank, b, fun _ => List.mem_takeWhile_imp, hb, ?_⟩
  rw [List.append_assoc, show trim s ++ b = trimStart s from hs.symm, trimStart,
    List.takeWhile_append_dropWhile]

theorem infix_trim (s : Text) : trim s <:+: s := by
  obtain ⟨a, b, -, -, hs⟩ := exists_eq_append_trim s
  exact ⟨a, b, hs.symm⟩

theorem isBlank_last_trim {s : Text} {c : Char} (h : (trim s).getLast? = some c) :
    isBlank c = false :=
  getLast?_dropEndWhile h

theorem isBlank_head_trim {s : Text} {c : Char} (h : (trim s).head? = some c) :
    isBlank c = false := by
  -- What the end loses leaves the first character, if anything is left.
  have hd := List.head?_dropWhile_not isBlank s
  obtain ⟨b, hs, -⟩ := exists_eq_dropEndWhile_append isBlank (trimStart s)
  have hh : (trimStart s).head? = some c := by
    rw [hs, List.head?_append]
    rw [trim, trimEnd] at h
    simp [h]
  rw [trimStart] at hh
  rw [hh] at hd
  simpa using hd

/-- In a text that is not blank at its end, blanks are taken off there alone. -/
theorem trimEnd_append (s : Text) {t : Text} (h : ∃ c ∈ t, isBlank c = false) :
    trimEnd (s ++ t) = s ++ trimEnd t := by
  obtain ⟨z, hz, hzb⟩ := exists_eq_dropEndWhile_append isBlank t
  rw [← trimEnd] at hz
  have hne : trimEnd t ≠ [] := by
    intro hnil
    obtain ⟨c, hc, hcb⟩ := h
    rw [hz, hnil] at hc
    rw [hzb c hc] at hcb
    cases hcb
  have hlast := List.getLast?_eq_some_getLast hne
  have hend : (s ++ trimEnd t).getLast? = some ((trimEnd t).getLast hne) := by
    rw [List.getLast?_append_of_ne_nil _ hne, hlast]
  conv_lhs => rw [hz, ← List.append_assoc, trimEnd]
  rw [dropEndWhile_append_of_forall _ hzb,
    dropEndWhile_of_getLast? hend (getLast?_dropEndWhile hlast)]

/-- A text that does not end in a blank loses nothing at its end. -/
theorem exists_trimEnd_append {s : Text} {c : Char} (h : s.getLast? = some c)
    (hc : isBlank c = false) (t : Text) : ∃ u, trimEnd (s ++ t) = s ++ u := by
  by_cases ht : ∃ c ∈ t, isBlank c = false
  · exact ⟨trimEnd t, trimEnd_append s ht⟩
  · refine ⟨[], ?_⟩
    rw [trimEnd, dropEndWhile_append_of_forall, dropEndWhile_of_getLast? h hc, List.append_nil]
    intro d hd
    by_contra hn
    exact ht ⟨d, hd, by simpa using hn⟩

theorem trim_append_blank (s : Text) {t : Text} (h : ∀ c ∈ t, isBlank c = true) :
    trim (s ++ t) = trim s := by
  unfold trim trimEnd trimStart
  rw [List.dropWhile_append]
  split
  · rename_i he
    rw [List.isEmpty_iff] at he
    rw [he, List.dropWhile_eq_nil_iff.2 h]
  · exact dropEndWhile_append_of_forall _ h

theorem trim_trimEnd (s : Text) : trim (trimEnd s) = trim s := by
  obtain ⟨z, hz, hzb⟩ := exists_eq_dropEndWhile_append isBlank s
  conv_rhs => rw [hz, trim_append_blank _ hzb]
  rfl

theorem trim_blank_append {s : Text} (t : Text) (h : ∀ c ∈ s, isBlank c = true) :
    trim (s ++ t) = trim t := by
  unfold trim trimStart
  rw [List.dropWhile_append_of_pos h]

theorem trim_eq_self_iff {s : Text} :
    trim s = s ↔ (∀ c, s.head? = some c → isBlank c = false) ∧
      ∀ c, s.getLast? = some c → isBlank c = false := by
  constructor
  · intro h
    exact ⟨fun c hc => isBlank_head_trim (s := s) (by rw [h]; exact hc),
      fun c hc => isBlank_last_trim (s := s) (by rw [h]; exact hc)⟩
  · rintro ⟨hh, hl⟩
    have hstart : trimStart s = s := by
      cases s with
      | nil => rfl
      | cons c s => simp [trimStart, hh c rfl]
    rw [trim, hstart, trimEnd]
    cases hs : s.getLast? with
    | none =>
      rw [List.getLast?_eq_none_iff.1 hs]
      rfl
    | some c => exact dropEndWhile_of_getLast? hs (hl c hs)

theorem trim_blank_cons {s : Text} (hh : ∀ c, s.head? = some c → isBlank c = false)
    (hl : ∀ c, s.getLast? = some c → isBlank c = false) : trim (' ' :: s) = s := by
  rw [show ' ' :: s = [' '] ++ s from rfl, trim_blank_append s (by decide)]
  exact trim_eq_self_iff.2 ⟨hh, hl⟩

@[simp] theorem trim_trim (s : Text) : trim (trim s) = trim s :=
  trim_eq_self_iff.2 ⟨fun _ => isBlank_head_trim, fun _ => isBlank_last_trim⟩

theorem trim_eq_nil_iff {s : Text} : trim s = [] ↔ ∀ c ∈ s, isBlank c = true := by
  constructor
  · intro h
    obtain ⟨a, b, ha, hb, hs⟩ := exists_eq_append_trim s
    rw [h, List.append_nil] at hs
    intro c hc
    rw [hs, List.mem_append] at hc
    exact hc.elim (ha c) (hb c)
  · intro h
    rw [← List.append_nil s, trim_blank_append [] h]
    rfl

/-- A character that is not blank is not taken off. -/
theorem mem_trim {s : Text} {c : Char} (h : c ∈ s) (hc : isBlank c = false) : c ∈ trim s := by
  obtain ⟨a, b, ha, hb, hs⟩ := exists_eq_append_trim s
  have hnot {t : Text} (ht : ∀ d ∈ t, isBlank d = true) : c ∉ t := fun hm => by
    rw [ht c hm] at hc
    cases hc
  rw [hs, List.mem_append, List.mem_append] at h
  exact (h.resolve_right (hnot hb)).resolve_left (hnot ha)

/-- A first character that is not blank stays the first one. -/
theorem head?_trim {s : Text} {c : Char} (h : s.head? = some c) (hc : isBlank c = false) :
    (trim s).head? = some c := by
  obtain ⟨a, b, ha, hb, hs⟩ := exists_eq_append_trim s
  -- The first character is neither one of the blanks in front nor one of those behind.
  have hnot {t u : Text} (ht : ∀ d ∈ t, isBlank d = true) : (t ++ u).head? = some c → t = [] := by
    intro hh
    cases t with
    | nil => rfl
    | cons d t =>
      obtain rfl : d = c := Option.some_inj.1 hh
      exact absurd (ht d List.mem_cons_self) (by simp [hc])
  rw [hs, List.append_assoc] at h
  obtain rfl := hnot ha h
  cases ht : trim s with
  | nil =>
    rw [ht, List.nil_append, List.nil_append, ← List.append_nil b] at h
    rw [hnot hb h] at h
    cases h
  | cons d r =>
    rw [ht] at h
    exact h

/-- A line whose first character is neither blank nor the number sign says something. -/
theorem isSilent_of_head {l : Text} {c : Char} (h : l.head? = some c) (hb : isBlank c = false)
    (hc : c ≠ '#') : isSilent l = false := by
  obtain ⟨r, hr⟩ := List.head?_eq_some_iff.1 (head?_trim h hb)
  unfold isSilent
  rw [hr]
  simpa using hc

/-! ### Words -/

theorem words_nil : words [] = [] := by
  rw [words]
  rfl

theorem words_cons_blank {c : Char} (s : Text) (h : isBlank c = true) :
    words (c :: s) = words s := by
  have : trimStart (c :: s) = trimStart s := by simp [trimStart, h]
  rw [words, words, this]

/-- A row of characters that are not blank, with a blank or nothing behind it, is a word. -/
theorem words_append {w s : Text} (hne : w ≠ []) (hw : ∀ c ∈ w, isBlank c = false)
    (hs : ∀ c, s.head? = some c → isBlank c = true) : words (w ++ s) = w :: words s := by
  cases w with
  | nil => exact absurd rfl hne
  | cons c w =>
    have hc : isBlank c = false := hw c List.mem_cons_self
    have ht : trimStart (c :: w ++ s) = c :: (w ++ s) := by simp [trimStart, hc]
    obtain ⟨htake, hdrop⟩ := span_append (p := (!isBlank ·)) (a := w) (b := s)
      (fun d hd => by simp [hw d (List.mem_cons_of_mem _ hd)]) (fun d hd => by simp [hs d hd])
    rw [words]
    split
    · rename_i h
      rw [ht] at h
      cases h
    · rename_i d r h
      rw [ht] at h
      cases h
      rw [htake, hdrop]

theorem words_eq_nil_iff {s : Text} : words s = [] ↔ trim s = [] := by
  rw [trim_eq_nil_iff]
  have hstart : trimStart s = [] ↔ ∀ c ∈ s, isBlank c = true := List.dropWhile_eq_nil_iff
  rw [words]
  split
  · rename_i h
    simpa using hstart.1 h
  · rename_i c r h
    rw [← hstart, h]
    simp

end Formdoc.Text
