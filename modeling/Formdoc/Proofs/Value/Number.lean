/-
Numbers and their texts.

The digits of a number read back (`ofDigits_digitsOf`), so that a whole number
up to the greatest integer is the numeral that its digits denote
(`read?_digitsOf`).  A text denotes no numeral exactly when it is neither a row
of digits nor two rows of digits with a point between them
(`read?_eq_none_iff`).  The text of a number is always on one line.
-/
import Formdoc.Field
import Formdoc.Proofs.Text.Lines

namespace Formdoc

open Text

/-! ### Digits -/

theorem isDigit_of_mem_digitsOf {n : Nat} {c : Char} (h : c ∈ digitsOf n) : c.isDigit = true :=
  Nat.isDigit_of_mem_toDigits (by decide) (by decide) h

theorem digitsOf_ne_nil (n : Nat) : digitsOf n ≠ [] :=
  Nat.toDigits_ne_nil

theorem exists_head?_digitsOf (n : Nat) :
    ∃ c, (digitsOf n).head? = some c ∧ ∀ d : Char, d.isDigit = false → c ≠ d := by
  obtain ⟨c, s, hs⟩ := List.exists_cons_of_ne_nil (digitsOf_ne_nil n)
  refine ⟨c, by rw [hs]; rfl, ?_⟩
  rintro d hd rfl
  have : c.isDigit = true := isDigit_of_mem_digitsOf (n := n) (by rw [hs]; exact List.mem_cons_self)
  rw [hd] at this
  cases this

theorem isDigits_iff {s : Text} : isDigits s = true ↔ s ≠ [] ∧ ∀ c ∈ s, c.isDigit = true := by
  rw [isDigits, Bool.and_eq_true, List.all_eq_true]
  simp

theorem isDigits_eq_false_of_mem {s : Text} {c : Char} (hc : c ∈ s) (hd : c.isDigit = false) :
    isDigits s = false := by
  by_contra h
  have := (isDigits_iff.1 (by simpa using h : isDigits s = true)).2 c hc
  rw [hd] at this
  cases this

theorem isDigits_digitsOf (n : Nat) : isDigits (digitsOf n) = true :=
  isDigits_iff.2 ⟨digitsOf_ne_nil n, fun _ => isDigit_of_mem_digitsOf⟩

theorem ofDigits_digitsOf (n : Nat) : ofDigits (digitsOf n) = n :=
  Nat.ofDigitChars_ten_toDigits

namespace Numeral

theorem read?_of_isDigits {s : Text} (h : isDigits s = true) :
    read? s = some (if ofDigits s ≤ maxInteger then .int (ofDigits s)
      else .float (Binary64.ofDecimal false (ofDigits s) 0)) := by
  obtain ⟨hne, hall⟩ := isDigits_iff.1 h
  have he : s.isEmpty = false := by simpa using hne
  unfold read?
  rw [List.dropWhile_eq_nil_iff.2 hall, List.takeWhile_eq_self_iff.2 hall]
  simp only [he, Bool.false_eq_true, if_false]
  split <;> rfl

theorem read?_digitsOf {n : Nat} (h : n ≤ maxInteger) : read? (digitsOf n) = some (.int n) := by
  rw [read?_of_isDigits (isDigits_digitsOf n), ofDigits_digitsOf, if_pos h]

/-- A text denotes no numeral exactly when it is neither digits nor digits, a point and digits. -/
theorem read?_eq_none_iff {s : Text} :
    read? s = none ↔ isDigits s = false ∧
      ∀ a b, s = a ++ '.' :: b → isDigits a = true → isDigits b = false := by
  constructor
  · intro h
    refine ⟨?_, ?_⟩
    · by_contra hd
      rw [read?_of_isDigits (by simpa using hd)] at h
      cases h
    · rintro a b rfl ha
      obtain ⟨hne, hall⟩ := isDigits_iff.1 ha
      by_contra hb
      obtain ⟨htake, hdrop⟩ := span_append (b := '.' :: b) hall fun c hc => by
        obtain rfl : '.' = c := Option.some_inj.1 hc
        decide
      unfold read? at h
      rw [htake, hdrop] at h
      have he : a.isEmpty = false := by simpa using hne
      simp [he, hb] at h
  · rintro ⟨hd, hp⟩
    -- The text is its digits and the rest, and the reader looks at the first character of the rest.
    have hsplit : s.takeWhile Char.isDigit ++ s.dropWhile Char.isDigit = s :=
      List.takeWhile_append_dropWhile
    have hall : ∀ c ∈ s.takeWhile Char.isDigit, c.isDigit = true := fun _ => List.mem_takeWhile_imp
    unfold read?
    generalize s.takeWhile Char.isDigit = whole at hsplit hall
    generalize s.dropWhile Char.isDigit = rest at hsplit
    by_cases hw : whole = []
    · subst hw
      simp only [List.isEmpty_nil, Bool.not_true, Bool.false_and, Bool.false_eq_true, if_false,
        if_true]
      split <;> rfl
    · have hdw : isDigits whole = true := isDigits_iff.2 ⟨hw, hall⟩
      simp only
      split
      · rw [List.append_nil] at hsplit
        rw [← hsplit, hdw] at hd
        cases hd
      · rename_i fraction
        rw [hp whole fraction hsplit.symm hdw]
        simp
      · rfl

theorem read?_eq_none_of_head {s : Text} {c : Char} (h : s.head? = some c)
    (hc : c.isDigit = false) : read? s = none := by
  refine read?_eq_none_iff.2 ⟨isDigits_eq_false_of_mem (List.mem_of_head? h) hc, ?_⟩
  rintro a b rfl ha
  -- The digits before the point are not empty, so the head of the whole is theirs.
  obtain ⟨d, t, rfl⟩ := List.exists_cons_of_ne_nil (isDigits_iff.1 ha).1
  obtain rfl : d = c := Option.some_inj.1 h
  rw [isDigits_eq_false_of_mem List.mem_cons_self hc] at ha
  cases ha

/-- A character that is neither a digit nor a point has no place in a numeral. -/
theorem read?_eq_none_of_mem {s : Text} {c : Char} (hc : c ∈ s) (hd : c.isDigit = false)
    (hp : c ≠ '.') : read? s = none := by
  refine read?_eq_none_iff.2 ⟨isDigits_eq_false_of_mem hc hd, ?_⟩
  rintro a b rfl ha
  rcases List.mem_append.1 hc with hc | hc
  · rw [isDigits_eq_false_of_mem hc hd] at ha
    cases ha
  · rcases List.mem_cons.1 hc with rfl | hc
    · exact absurd rfl hp
    · exact isDigits_eq_false_of_mem hc hd

theorem le_maxInteger_of_read? {s : Text} {n : Nat} (h : read? s = some (.int n)) :
    n ≤ maxInteger := by
  unfold read? at h
  simp only at h
  split at h
  · split at h
    · cases h
    · split at h
      · cases h
        assumption
      · cases h
  · split at h <;> cases h
  · cases h

end Numeral

/-! ### The text of a number is on one line -/

theorem oneLine_digitsOf (n : Nat) : OneLine (digitsOf n) :=
  oneLine_of_digits fun _ => isDigit_of_mem_digitsOf

theorem oneLine_integerText (n : Int) : OneLine (integerText n) := by
  unfold integerText
  split
  · exact oneLine_cons.2 ⟨by decide, oneLine_digitsOf _⟩
  · exact oneLine_digitsOf _

namespace Decimal

theorem oneLine_significant (d : Decimal) : OneLine d.significant.1 := by
  unfold significant
  simp only
  split
  · exact oneLine_cons.2 ⟨by decide, oneLine_nil⟩
  · refine (oneLine_digitsOf d.digits).subset fun _ h => ?_
    exact (List.rdropWhile_prefix (· == '0') _).subset h

theorem oneLine_replicate_zero (n : Nat) : OneLine (List.replicate n '0') := by
  intro c hc
  rw [(List.mem_replicate.1 hc).2]
  decide

theorem oneLine_plain (d : Decimal) : OneLine d.plain := by
  have hs := oneLine_significant d
  unfold plain
  generalize d.significant = q at hs
  obtain ⟨ds, x⟩ := q
  simp only at hs ⊢
  split
  · exact oneLine_append.2 ⟨hs, oneLine_replicate_zero _⟩
  · split
    · exact oneLine_append.2 ⟨hs.subset fun _ => List.mem_of_mem_take,
        oneLine_cons.2 ⟨by decide, hs.subset fun _ => List.mem_of_mem_drop⟩⟩
    · exact oneLine_cons.2 ⟨by decide, oneLine_cons.2 ⟨by decide,
        oneLine_append.2 ⟨oneLine_replicate_zero _, hs⟩⟩⟩

theorem oneLine_scientific (d : Decimal) : OneLine d.scientific := by
  have hs := oneLine_significant d
  unfold scientific
  generalize d.leadExponent = e
  generalize d.significant = q at hs
  obtain ⟨ds, x⟩ := q
  refine oneLine_append.2 ⟨?_, oneLine_cons.2 ⟨by decide, oneLine_cons.2 ⟨?_, oneLine_digitsOf _⟩⟩⟩
  · split
    · obtain ⟨hc, hrest⟩ := oneLine_cons.1 hs
      exact oneLine_cons.2 ⟨hc, oneLine_cons.2 ⟨by decide, hrest⟩⟩
    · exact hs
  · split <;> decide

end Decimal

theorem oneLine_sign (negative : Bool) : OneLine (if negative then ['-'] else []) := by
  cases negative <;> decide

theorem Binary64.oneLine_plainText (x : Binary64) : OneLine x.plainText := by
  cases x with
  | nan => decide
  | infinity n => exact oneLine_append.2 ⟨oneLine_sign n, by decide⟩
  | finite n r => exact oneLine_append.2 ⟨oneLine_sign n, Decimal.oneLine_plain _⟩

theorem Binary64.oneLine_markedText (x : Binary64) : OneLine x.markedText := by
  unfold markedText
  split
  · exact oneLine_append.2 ⟨oneLine_append.2 ⟨oneLine_sign _, oneLine_digitsOf _⟩, by decide⟩
  · exact oneLine_plainText x

theorem Json.oneLine_floatText (x : Binary64) : OneLine (floatText x) := by
  unfold floatText
  split
  · rename_i n r
    refine oneLine_append.2 ⟨oneLine_sign n, ?_⟩
    unfold magnitudeText
    simp only
    split
    · split
      · exact oneLine_append.2 ⟨Decimal.oneLine_plain _, by decide⟩
      · exact Decimal.oneLine_plain _
    · exact Decimal.oneLine_scientific _
  · decide

end Formdoc
