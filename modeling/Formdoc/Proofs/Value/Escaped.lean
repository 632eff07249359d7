/-
Escaped texts between quotation marks.

A field's text stands escaped between two quotation marks, and may hold
quotation marks of its own.  What tells these from the one that closes it is the
run of backslashes in front (`backslashes`): odd before a mark of the text, even
before the closing one.  Of such an `Enclosable` text and what stands behind its
closing mark only one reading is possible (`Enclosable.append_mark_inj`).

An escaped text is enclosable, for an escape, appended to an even run of
backslashes, leaves an even run (`even_backslashes_escapeChar`), and a quotation
mark is always the second character of an escape (`escape_eq_append_mark_iff`).
Hence an escaped text determines the text, and so does anything that starts with
it and its closing mark (`escape_delimited`).
-/
import Formdoc.Proofs.Value.Written
import Mathlib.Algebra.Ring.Parity
import Mathlib.Data.List.DropRight

namespace Formdoc

open Text

/-! ### Runs of backslashes -/

/-- The length of the run of backslashes that a text ends in. -/
def Text.backslashes (s : Text) : Nat :=
  (s.rtakeWhile (· = '\\')).length

theorem Text.backslashes_concat_backslash (s : Text) :
    backslashes (s ++ ['\\']) = backslashes s + 1 := by
  rw [backslashes, List.rtakeWhile_concat_pos _ _ _ (by simp), List.length_append]
  rfl

theorem Text.backslashes_concat_of_ne {c : Char} (h : c ≠ '\\') (s : Text) :
    backslashes (s ++ [c]) = 0 := by
  rw [backslashes, List.rtakeWhile_concat_neg _ _ _ (by simpa using h)]
  rfl

namespace Field

/-! ### Between quotation marks -/

/-- The text may stand between quotation marks: it is on one line, a quotation mark in it stands
behind an odd run of backslashes, and one behind it stands behind an even run. -/
structure Enclosable (t : Text) : Prop where
  oneLine : OneLine t
  odd_of_mark : ∀ a b, t = a ++ '"' :: b → Odd (backslashes a)
  even_end : Even (backslashes t)

/-- An enclosable text does not go on behind the closing mark of another one. -/
theorem Enclosable.eq_nil_of_append {t v q r : Text} (ht : Enclosable t)
    (htv : Enclosable (t ++ v)) (h : '"' :: q = v ++ '"' :: r) : v = [] := by
  cases v with
  | nil => rfl
  | cons c v =>
    obtain ⟨rfl, -⟩ := List.cons.inj h
    exact absurd ht.even_end (Nat.not_even_iff_odd.2 (htv.odd_of_mark t v rfl))

/-- Enclosable texts with their closing marks are a prefix code. -/
theorem Enclosable.append_mark_inj {t u q r : Text} (ht : Enclosable t) (hu : Enclosable u)
    (h : t ++ '"' :: q = u ++ '"' :: r) : t = u ∧ q = r := by
  rcases List.append_eq_append_iff.1 h with ⟨v, rfl, hq⟩ | ⟨v, rfl, hr⟩
  · obtain rfl := ht.eq_nil_of_append hu hq
    exact ⟨(List.append_nil t).symm, (List.cons.inj hq).2⟩
  · obtain rfl := hu.eq_nil_of_append ht hr
    exact ⟨List.append_nil u, (List.cons.inj hr).2.symm⟩

/-! ### Escapes -/

/-- A character is escaped by a backslash in front of another character, or stands for itself. -/
theorem escapeChar_cases (c : Char) :
    (∃ d, escapeChar c = ['\\', d] ∧ (d = '"' → c = '"')) ∨
      (escapeChar c = [c] ∧ c ≠ '\\' ∧ c ≠ '"') := by
  unfold escapeChar
  split_ifs with hbackslash hmark
  · exact .inl ⟨'\\', rfl, fun h => absurd h (by decide)⟩
  · exact .inl ⟨'"', rfl, fun _ => hmark⟩
  · exact .inl ⟨'n', rfl, fun h => absurd h (by decide)⟩
  · exact .inl ⟨'r', rfl, fun h => absurd h (by decide)⟩
  · exact .inr ⟨rfl, hbackslash, hmark⟩

/-- Backslashes are escaped two at a time, and any other character ends their run. -/
theorem even_backslashes_escapeChar {a : Text} (h : Even (backslashes a)) (c : Char) :
    Even (backslashes (a ++ escapeChar c)) := by
  rcases escapeChar_cases c with ⟨d, hd, -⟩ | ⟨hc, hne, -⟩
  · rw [hd, List.append_cons]
    by_cases hb : d = '\\'
    · rw [hb, backslashes_concat_backslash, backslashes_concat_backslash]
      exact h.add even_two
    · rw [backslashes_concat_of_ne hb]
      exact Even.zero
  · rw [hc, backslashes_concat_of_ne hne]
    exact Even.zero

theorem even_backslashes_escape (s : Text) : Even (backslashes (escape s)) := by
  -- The run is at the end of the text, and so is the character that may change it.
  induction s using List.reverseRecOn with
  | nil => exact Even.zero
  | append_singleton s c ih =>
    rw [escape, List.flatMap_append, List.flatMap_singleton]
    exact even_backslashes_escapeChar ih c

/-- A quotation mark of an escape is its second character. -/
theorem escapeChar_eq_append_mark {c : Char} {a b : Text} (h : escapeChar c = a ++ '"' :: b) :
    c = '"' ∧ a = ['\\'] ∧ b = [] := by
  rcases escapeChar_cases c with ⟨d, hd, hmark⟩ | ⟨hc, -, hne⟩
  · rw [hd] at h
    rcases a with _ | ⟨e, _ | ⟨f, a⟩⟩
    · exact absurd (List.cons.inj h).1 (by decide)
    · obtain ⟨rfl, htail⟩ := List.cons.inj h
      obtain ⟨rfl, rfl⟩ := List.cons.inj htail
      exact ⟨hmark rfl, rfl, rfl⟩
    · simp at h
  · rw [hc] at h
    have hmem : '"' ∈ [c] := h ▸ List.mem_append_right a List.mem_cons_self
    exact absurd (List.mem_singleton.1 hmem).symm hne

/-- The quotation marks of an escaped text are those of the text, each behind one more backslash. -/
theorem escape_eq_append_mark_iff {s a b : Text} :
    escape s = a ++ '"' :: b ↔
      ∃ u v, s = u ++ '"' :: v ∧ a = escape u ++ ['\\'] ∧ b = escape v := by
  constructor
  · intro h
    induction s generalizing a with
    | nil => simp [escape] at h
    | cons c s ih =>
      rw [escape, List.flatMap_cons, ← escape] at h
      rcases List.append_eq_append_iff.1 h with ⟨a', rfl, hs⟩ | ⟨e, he, hb⟩
      · obtain ⟨u, v, rfl, rfl, rfl⟩ := ih hs
        exact ⟨c :: u, v, rfl, (List.append_assoc _ _ _).symm, rfl⟩
      · cases e with
        | nil =>
          -- The mark would stand at the front of the rest, without a backslash.
          obtain ⟨u, v, rfl, ha, rfl⟩ := ih (a := []) hb.symm
          simp at ha
        | cons d e =>
          obtain ⟨rfl, hrest⟩ := List.cons.inj hb
          obtain ⟨rfl, rfl, rfl⟩ := escapeChar_eq_append_mark he
          exact ⟨[], s, rfl, rfl, hrest⟩
  · rintro ⟨u, v, rfl, rfl, rfl⟩
    simp [escape, escapeChar]

theorem odd_backslashes_of_escape_eq {s a b : Text} (h : escape s = a ++ '"' :: b) :
    Odd (backslashes a) := by
  obtain ⟨u, v, -, rfl, -⟩ := escape_eq_append_mark_iff.1 h
  rw [backslashes_concat_backslash]
  exact (even_backslashes_escape u).add_one

theorem enclosable_escape (s : Text) : Enclosable (escape s) where
  oneLine := oneLine_escape s
  odd_of_mark := fun _ _ => odd_backslashes_of_escape_eq
  even_end := even_backslashes_escape s

theorem escape_injective : Function.Injective escape :=
  Function.LeftInverse.injective unescape_escape

/-- Escaping is reversible, and what it gives is on one line and delimits itself between quotation
marks: each mark in it stands behind an odd run of backslashes, the closing one behind an even run,
and whatever starts with an escaped text and its closing mark tells that text from the rest. -/
theorem escape_delimited (s : Text) :
    unescape (escape s) = s ∧ OneLine (escape s) ∧
      (∀ a b, escape s = a ++ '"' :: b → Odd (backslashes a)) ∧
      Even (backslashes (escape s)) ∧
      ∀ t q r, escape s ++ '"' :: q = escape t ++ '"' :: r ↔ s = t ∧ q = r := by
  obtain ⟨hline, hmark, hend⟩ := enclosable_escape s
  refine ⟨unescape_escape s, hline, hmark, hend, fun t q r => ⟨fun h => ?_, ?_⟩⟩
  · obtain ⟨hst, hqr⟩ := (enclosable_escape s).append_mark_inj (enclosable_escape t) h
    exact ⟨escape_injective hst, hqr⟩
  · rintro ⟨rfl, rfl⟩
    rfl

/-- A mark behind a backslash stands behind three of them once it is escaped, and the closing mark
behind two. The text without its last backslash is not read in its place. -/
theorem escape_delimited_path :
    let s := "\\\"\n\\".toList
    escape s = "\\\\\\".toList ++ '"' :: "\\n\\\\".toList ∧ unescape (escape s) = s ∧
      OneLine (escape s) ∧ Odd (backslashes "\\\\\\".toList) ∧ Even (backslashes (escape s)) ∧
      ∀ q r, escape s ++ '"' :: q ≠ escape s.dropLast ++ '"' :: r := by
  intro s
  have hmark : escape s = "\\\\\\".toList ++ '"' :: "\\n\\\\".toList := by decide
  obtain ⟨hback, hline, hodd, heven, hinj⟩ := escape_delimited s
  refine ⟨hmark, hback, hline, hodd _ _ hmark, heven, fun q r h => ?_⟩
  exact absurd ((hinj s.dropLast q r).1 h).1 (by decide)

end Field

end Formdoc
