/-
Where the two readers of values agree.

A metadata line and a data line read their values in different orders:
`Scalar.read` takes quotation marks off first, `Field.read` looks for keywords
and numbers first, decodes escapes between double quotation marks, and knows
`null`.  On any other text they agree: what the data line gives is the metadata
value as a value of a field (`read_eq_toField`).

A row of digits is such a text.  Whatever its length and however many zeros it
starts with, both readers give the integer that it denotes if that is at most
the greatest one, and otherwise the binary64 number nearest to it
(`read_agrees`).
-/
import Formdoc.Proofs.Value.Lasting

namespace Formdoc

open Text

/-- The value as a value of a field. An infinite number has no JSON form and is `null`. -/
def Scalar.toField : Scalar → Json
  | .text s => .text s
  | .int n => .int n
  | .float x => if x.isFinite then .float x else .null
  | .bool b => .bool b

theorem Scalar.read_of_keyword {raw s : Text} {b : Bool} (hs : unquote (trim raw) = s)
    (hn : Numeral.read? s = none) (hk : keyword? s = some b) : read raw = .bool b := by
  unfold read
  simp only [hs, hn, hk]

namespace Field

theorem toField_ofNumeral (n : Numeral) : (Scalar.ofNumeral n).toField = ofNumeral n := by
  cases n <;> rfl

theorem keyword?_of_ne_null {s : Text} (h : s ≠ "null".toList) :
    keyword? s = (Scalar.keyword? s).map .bool :=
  if_neg h

theorem quoted?_of_not_quoted {s : Text} (h : ¬ Quoted s) : quoted? s = none := by
  unfold quoted?
  split
  · rename_i c r
    refine if_neg fun hl => ?_
    obtain ⟨t, ht⟩ := List.getLast?_eq_some_iff.1 hl
    exact h ⟨'"', t, .inl rfl, by rw [List.cons_append, ← ht]⟩
  · rfl

/-- A text that is neither `null` nor between quotation marks has one value for both readers. -/
theorem read_eq_toField {raw : Text} (hnull : trim raw ≠ "null".toList)
    (hq : ¬ Quoted (trim raw)) : read raw = (Scalar.read raw).toField := by
  have hs : unquote (trim raw) = trim raw := unquote_of_not_quoted hq
  have hkeyword := keyword?_of_ne_null hnull
  cases hn : Numeral.read? (trim raw) with
  | some n =>
    rw [read_of_numeral (keyword?_of_numeral hn) hn, Scalar.read_of_numeral hs hn,
      toField_ofNumeral]
  | none =>
    cases hk : Scalar.keyword? (trim raw) with
    | some b =>
      rw [hk, Option.map_some] at hkeyword
      rw [read_of_keyword hkeyword, Scalar.read_of_keyword hs hn hk, Scalar.toField]
    | none =>
      rw [hk, Option.map_none] at hkeyword
      rw [read_of_text rfl hkeyword hn, quoted?_of_not_quoted hq, Option.elim_none, hs,
        Scalar.read_of_text hs hn hk, Scalar.toField]

/-! ### Rows of digits -/

section Digits

variable {raw : Text}

/-- The binary64 number nearest to what a row of digits denotes. -/
def nearest (s : Text) : Binary64 :=
  Binary64.ofDecimal false (ofDigits s) 0

theorem not_quoted_of_numeral {s : Text} {n : Numeral} (h : Numeral.read? s = some n) :
    ¬ Quoted s := by
  rintro ⟨q, r, hq, rfl⟩
  rcases Numeral.of_mem h List.mem_cons_self with hd | hp
  · rcases hq with rfl | rfl <;> cases hd
  · rcases hq with rfl | rfl <;> cases hp

theorem scalarRead_of_isDigits (h : isDigits (trim raw) = true) :
    Scalar.read raw =
      if ofDigits (trim raw) ≤ maxInteger then .int (ofDigits (trim raw))
      else .float (nearest (trim raw)) := by
  have hn := Numeral.read?_of_isDigits h
  rw [Scalar.read_of_numeral (Numeral.unquote_eq hn) hn]
  split <;> rfl

theorem read_of_isDigits (h : isDigits (trim raw) = true) :
    read raw = (Scalar.read raw).toField := by
  have hn := Numeral.read?_of_isDigits h
  refine read_eq_toField ?_ (not_quoted_of_numeral hn)
  intro hnull
  rw [hnull] at h
  cases h

end Digits

/-- The two readers agree on a text that is neither `null` nor between quotation marks. On a row of
digits they give the integer that it denotes exactly if that is at most the greatest one, and
otherwise no integer and no text, but the binary64 number nearest to it. -/
theorem read_agrees (raw : Text) :
    (trim raw ≠ "null".toList → ¬ Quoted (trim raw) → read raw = (Scalar.read raw).toField) ∧
      (isDigits (trim raw) = true →
        (Scalar.read raw = .int (ofDigits (trim raw)) ↔ ofDigits (trim raw) ≤ maxInteger) ∧
        (read raw = .int (ofDigits (trim raw)) ↔ ofDigits (trim raw) ≤ maxInteger) ∧
        (maxInteger < ofDigits (trim raw) →
          Scalar.read raw = .float (nearest (trim raw)) ∧
          read raw = if (nearest (trim raw)).isFinite then .float (nearest (trim raw))
            else .null)) := by
  refine ⟨read_eq_toField, fun h => ?_⟩
  have hfield := read_of_isDigits h
  have hscalar := scalarRead_of_isDigits h
  by_cases hle : ofDigits (trim raw) ≤ maxInteger
  · rw [if_pos hle] at hscalar
    rw [hfield, hscalar]
    exact ⟨iff_of_true rfl hle, iff_of_true rfl hle, fun hlt => absurd hle (Nat.not_le.2 hlt)⟩
  · rw [if_neg hle] at hscalar
    rw [hfield, hscalar]
    refine ⟨iff_of_false Scalar.noConfusion hle, iff_of_false ?_ hle, fun _ => ⟨rfl, rfl⟩⟩
    rw [Scalar.toField]
    split <;> exact Json.noConfusion

/-- The first number past the greatest integer, behind zeros and between blanks. -/
theorem read_agrees_padded :
    let raw := " 0009223372036854775808 ".toList
    (trim raw ≠ "null".toList ∧ ¬ Quoted (trim raw) ∧ isDigits (trim raw) = true ∧
      maxInteger < ofDigits (trim raw)) ∧
    read raw = (Scalar.read raw).toField ∧ read raw = .float (nearest (trim raw)) := by
  intro raw
  have htrim : trim raw = "0009223372036854775808".toList := by decide +kernel
  have hdigits : isDigits (trim raw) = true := by rw [htrim]; decide
  have hgreat : maxInteger < ofDigits (trim raw) := by rw [htrim]; decide
  have hnull : trim raw ≠ "null".toList := by rw [htrim]; decide
  have hquoted : ¬ Quoted (trim raw) :=
    not_quoted_of_numeral (Numeral.read?_of_isDigits hdigits)
  obtain ⟨hsame, hnumber⟩ := read_agrees raw
  have hfinite : (nearest (trim raw)).isFinite = true := by rw [htrim]; decide +kernel
  refine ⟨⟨hnull, hquoted, hdigits, hgreat⟩, hsame hnull hquoted, ?_⟩
  rw [((hnumber hdigits).2.2 hgreat).2, if_pos hfinite]

end Field

end Formdoc
