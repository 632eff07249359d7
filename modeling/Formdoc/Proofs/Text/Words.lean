/-
The words of a text as its segments.

The blanks of a text cut it into segments, of which some may be empty; `segments` gives the others.
They are the words that are read off the front of the text (`words_eq_segments`).  What holds of the
words of a text is shown along its segments (`segment_induction`), such as that each of them stands
in the text and has no blank (`infix_of_mem_words`).
-/
import Formdoc.Proofs.Text.Lines

namespace Formdoc.Text

/-- What stands between the blanks of a text, but for the empty texts. -/
def segments (s : Text) : List Text :=
  (s.splitOnP isBlank).filter (· ≠ [])

theorem segments_append_cons (s t : Text) {c : Char} (hc : isBlank c = true) :
    segments (s ++ c :: t) = segments s ++ segments t := by
  rw [segments, List.splitOnP_append_cons s t hc, List.filter_append]
  rfl

theorem segments_cons_blank {c : Char} (hc : isBlank c = true) (s : Text) :
    segments (c :: s) = segments s :=
  segments_append_cons [] s hc

theorem segments_of_not_blank {w : Text} (hne : w ≠ []) (hw : ∀ c ∈ w, isBlank c = false) :
    segments w = [w] := by
  rw [segments, List.splitOnP_eq_singleton hw, List.filter_singleton]
  simp [hne]

theorem eq_of_mem_segments {v w : Text} (hv : ∀ c ∈ v, isBlank c = false) (h : w ∈ segments v) :
    w = v ∧ w ≠ [] := by
  rw [segments, List.splitOnP_eq_singleton hv] at h
  simpa using h

theorem segments_blank_append {b : Text} (h : ∀ c ∈ b, isBlank c = true) (s : Text) :
    segments (b ++ s) = segments s := by
  induction b with
  | nil => rfl
  | cons c b ih =>
    obtain ⟨hc, hb⟩ := List.forall_mem_cons.1 h
    rw [List.cons_append, segments_cons_blank hc, ih hb]

theorem segments_append_blank (s : Text) {b : Text} (h : ∀ c ∈ b, isBlank c = true) :
    segments (s ++ b) = segments s := by
  cases b with
  | nil => rw [List.append_nil]
  | cons c b =>
    obtain ⟨hc, hb⟩ := List.forall_mem_cons.1 h
    have hnone : segments b = [] := by
      rw [← List.append_nil b, segments_blank_append hb]
      rfl
    rw [segments_append_cons s b hc, hnone, List.append_nil]

@[simp] theorem segments_trim (s : Text) : segments (trim s) = segments s := by
  obtain ⟨a, b, ha, hb, hs⟩ := exists_eq_append_trim s
  conv_rhs => rw [hs, segments_append_blank _ hb, segments_blank_append ha]

/-- Induction along the segments of a text: the first one ends at the first blank, and the others
are those of what follows it. -/
theorem segment_induction {P : Text → Prop} (last : ∀ w, (∀ c ∈ w, isBlank c = false) → P w)
    (segment : ∀ w c s, (∀ d ∈ w, isBlank d = false) → isBlank c = true → P s → P (w ++ c :: s))
    (s : Text) : P s := by
  -- The start of the first segment is carried along.
  suffices h : ∀ w, (∀ c ∈ w, isBlank c = false) → P (w ++ s) from h [] (by simp)
  induction s with
  | nil =>
    intro w hw
    rw [List.append_nil]
    exact last w hw
  | cons c s ih =>
    intro w hw
    cases hc : isBlank c with
    | true => exact segment w c s hw hc (ih [] (by simp))
    | false =>
      rw [List.append_cons]
      exact ih (w ++ [c]) (List.forall_mem_append.2 ⟨hw, List.forall_mem_singleton.2 hc⟩)

theorem words_eq_segments (s : Text) : words s = segments s := by
  induction s using segment_induction with
  | last w hw =>
    by_cases hne : w = []
    · subst hne
      exact words_nil
    · have hword := words_append (s := []) hne hw (by simp)
      rwa [List.append_nil, words_nil, ← segments_of_not_blank hne hw] at hword
  | segment w c s hw hc ih =>
    rw [segments_append_cons w s hc, ← ih]
    by_cases hne : w = []
    · subst hne
      exact words_cons_blank s hc
    · have hhead : ∀ d, (c :: s).head? = some d → isBlank d = true := by simpa using hc
      rw [words_append hne hw hhead, words_cons_blank s hc, segments_of_not_blank hne hw]
      rfl

/-- The words of a text are infixes of it without blanks. -/
theorem infix_of_mem_words {s w : Text} (h : w ∈ words s) :
    w ≠ [] ∧ (∀ c ∈ w, isBlank c = false) ∧ w <:+: s := by
  rw [words_eq_segments] at h
  induction s using segment_induction with
  | last v hv =>
    obtain ⟨rfl, hne⟩ := eq_of_mem_segments hv h
    exact ⟨hne, hv, List.infix_refl w⟩
  | segment v c s hv hc ih =>
    rw [segments_append_cons v s hc, List.mem_append] at h
    rcases h with h | h
    · obtain ⟨rfl, hne⟩ := eq_of_mem_segments hv h
      exact ⟨hne, hv, (List.prefix_append w (c :: s)).isInfix⟩
    · obtain ⟨hne, hw, hinfix⟩ := ih h
      exact ⟨hne, hw, hinfix.trans ⟨v ++ [c], [], by simp⟩⟩

end Formdoc.Text
