/-
Values that stay when they are written and read again.

A value of metadata or of data is `Lasting` exactly if reading the text in which
it is written gives the value again (`Metadata.read_valueText_eq_iff`,
`Field.read_write_eq_iff`).  What does not last of the values that can be read
is little: in metadata, texts that stand between quotation marks or blanks of
their own, and the numbers past the greatest one; in data, binary64 numbers that
are so great or so small that they are written with an exponent.
-/
import Formdoc.Proofs.Value.Float
import Formdoc.Proofs.Value.Written

namespace Formdoc

open Text

/-- The metadata values that are read back from the text in which they are written. -/
def Scalar.Lasting : Scalar → Prop
  | .bool _ => True
  | .int n => 0 ≤ n ∧ n ≤ maxInteger
  | .float x => ∃ rank, x = .finite false rank
  | .text s => ':' ∈ s ∨ '#' ∈ s ∨
      (trim s = s ∧ ¬ Quoted s ∧ Numeral.read? s = none ∧ keyword? s = none)

/-- The metadata values that are written as the same text again, once they were written and read:
those that are read back, and the infinity, whose text is read as a text. -/
def Scalar.Settled (v : Scalar) : Prop :=
  v.Lasting ∨ v = .float (.infinity false)

/-- The values of fields that are read back from the text in which they are written. -/
def Json.Lasting : Json → Prop
  | .null => True
  | .bool _ => True
  | .int n => 0 ≤ n ∧ n ≤ maxInteger
  | .float x => ∃ rank, x = .finite false rank ∧ WrittenInFull rank
  | .text _ => True
  | .array _ => False
  | .object _ => False

/-! ### Numerals -/

namespace Numeral

variable {s : Text} {n : Numeral}

theorem of_mem (h : read? s = some n) {c : Char} (hc : c ∈ s) : c.isDigit = true ∨ c = '.' := by
  by_contra hn
  rw [not_or] at hn
  rw [read?_eq_none_of_mem hc (by simpa using hn.1) hn.2] at h
  cases h

/-- A numeral has no blank at an end. -/
theorem trim_eq (h : read? s = some n) : trim (' ' :: s) = s := by
  have hblank {c : Char} (hc : c ∈ s) : isBlank c = false := by
    rcases of_mem h hc with hd | rfl
    · exact isBlank_of_isDigit hd
    · decide
  exact trim_blank_cons (fun c hc => hblank (List.mem_of_head? hc))
    (fun c hc => hblank (List.mem_of_getLast? hc))

/-- A numeral is not quoted. -/
theorem unquote_eq (h : read? s = some n) : unquote s = s := by
  refine unquote_of_not_quoted ?_
  rintro ⟨q, r, hq, rfl⟩
  rcases hq with rfl | rfl
  · exact absurd (of_mem h List.mem_cons_self) (by decide)
  · exact absurd (of_mem h List.mem_cons_self) (by decide)

/-- A number that is read is an integer of 64 bits, or finite and not negative, or the
infinity. -/
theorem of_read?_float {x : Binary64} (h : read? s = some (.float x)) :
    (∃ rank, x = .finite false rank) ∨ x = .infinity false := by
  have hrank (digits : Nat) (e : Int) :
      (∃ rank, Binary64.ofDecimal false digits e = .finite false rank) ∨
        Binary64.ofDecimal false digits e = .infinity false := by
    unfold Binary64.ofDecimal Binary64.ofRank
    split
    · exact .inl ⟨_, rfl⟩
    · exact .inr rfl
  unfold read? at h
  simp only at h
  split at h
  · split at h
    · cases h
    · split at h
      · cases h
      · cases h
        exact hrank _ _
  · split at h
    · cases h
      exact hrank _ _
    · cases h
  · cases h

end Numeral

/-! ### Values of metadata -/

namespace Scalar

/-- What is read is the number that the text denotes, or a truth value, or the text. -/
theorem read_cases (raw : Text) :
    (∃ n, Numeral.read? (unquote (trim raw)) = some n ∧ read raw = ofNumeral n) ∨
      (∃ b, keyword? (unquote (trim raw)) = some b ∧ read raw = bool b) ∨
      (Numeral.read? (unquote (trim raw)) = none ∧ keyword? (unquote (trim raw)) = none ∧
        read raw = text (unquote (trim raw))) := by
  unfold read
  simp only
  cases hn : Numeral.read? (unquote (trim raw)) with
  | some n => exact .inl ⟨n, rfl, rfl⟩
  | none =>
    cases hk : keyword? (unquote (trim raw)) with
    | some b => exact .inr (.inl ⟨b, rfl, rfl⟩)
    | none => exact .inr (.inr ⟨rfl, rfl, rfl⟩)

theorem of_read_int {raw : Text} {n : Int} (h : read raw = int n) : 0 ≤ n ∧ n ≤ maxInteger := by
  rcases read_cases raw with ⟨m, hm, heq⟩ | ⟨b, -, heq⟩ | ⟨-, -, heq⟩
  · rw [heq] at h
    cases m with
    | int k =>
      cases h
      have := Numeral.le_maxInteger_of_read? hm
      exact ⟨Int.natCast_nonneg k, Int.ofNat_le.2 this⟩
    | float x => cases h
  · rw [heq] at h
    cases h
  · rw [heq] at h
    cases h

theorem of_read_float {raw : Text} {x : Binary64} (h : read raw = float x) :
    (∃ rank, x = .finite false rank) ∨ x = .infinity false := by
  rcases read_cases raw with ⟨m, hm, heq⟩ | ⟨b, -, heq⟩ | ⟨-, -, heq⟩
  · rw [heq] at h
    cases m with
    | int k => cases h
    | float y =>
      cases h
      exact Numeral.of_read?_float hm
  · rw [heq] at h
    cases h
  · rw [heq] at h
    cases h

theorem of_read_text {raw s : Text} (h : read raw = text s) :
    unquote (trim raw) = s ∧ Numeral.read? s = none ∧ keyword? s = none := by
  rcases read_cases raw with ⟨m, -, heq⟩ | ⟨b, -, heq⟩ | ⟨hn, hk, heq⟩
  · rw [heq] at h
    cases m <;> cases h
  · rw [heq] at h
    cases h
  · rw [heq] at h
    cases h
    exact ⟨rfl, hn, hk⟩

end Scalar

theorem length_unquote_le (s : Text) : (unquote s).length ≤ s.length := by
  unfold unquote
  split
  · split
    · simp only [List.length_dropLast, List.length_cons]
      omega
    · exact Nat.le_refl _
  · exact Nat.le_refl _

/-- A text stays as it is when blanks and quotation marks are taken off its ends, exactly if it has
none there. -/
theorem unquote_trim_eq_self_iff {s : Text} : unquote (trim s) = s ↔ trim s = s ∧ ¬ Quoted s := by
  constructor
  · intro h
    -- No character may get lost.
    have hlen := length_unquote_le (trim s)
    rw [h] at hlen
    have htrim : trim s = s := (infix_trim s).eq_of_length_le hlen
    refine ⟨htrim, ?_⟩
    rintro ⟨q, r, hq, rfl⟩
    rw [htrim, unquote_of_quoted hq] at h
    have := congrArg List.length h
    simp only [List.length_append, List.length_cons] at this
    omega
  · rintro ⟨ht, hq⟩
    rw [ht, unquote_of_not_quoted hq]

namespace Metadata

/-- A value is read back from the text in which it is written exactly if it is lasting. -/
theorem read_valueText_eq_iff {v : Scalar} :
    Scalar.read (' ' :: valueText v) = v ↔ v.Lasting := by
  cases v with
  | bool b => exact iff_of_true (read_valueText (v := .bool b) trivial) trivial
  | int n => exact ⟨Scalar.of_read_int, fun h => read_valueText (v := .int n) h⟩
  | float x =>
    constructor
    · intro h
      refine (Scalar.of_read_float h).resolve_right ?_
      rintro rfl
      exact absurd h (by decide +kernel)
    · rintro ⟨rank, rfl⟩
      have hread := Binary64.read?_markedText rank
      have htext : unquote (trim (' ' :: (Binary64.finite false rank).markedText)) =
          (Binary64.finite false rank).markedText := by
        rw [Numeral.trim_eq hread, Numeral.unquote_eq hread]
      exact Scalar.read_of_numeral htext hread
  | text s =>
    refine ⟨fun h => ?_, read_valueText_text⟩
    by_cases hq : needsQuotes s = true
    · exact (needsQuotes_iff.1 hq).imp_right .inl
    · rw [valueText, if_neg hq] at h
      obtain ⟨hs, hn, hk⟩ := Scalar.of_read_text h
      rw [show ' ' :: s = [' '] ++ s from rfl, trim_blank_append s (by decide),
        unquote_trim_eq_self_iff] at hs
      exact .inr (.inr ⟨hs.1, hs.2, hn, hk⟩)

/-- A text that is read neither as a number nor as a truth value stays as it is written only if it
is read back. -/
theorem lasting_of_valueText_eq {s : Text} (hn : Numeral.read? s = none)
    (hk : Scalar.keyword? s = none)
    (h : valueText (Scalar.read (' ' :: valueText (.text s))) = valueText (.text s)) :
    (Scalar.text s).Lasting := by
  by_cases hq : needsQuotes s = true
  · exact (needsQuotes_iff.1 hq).imp_right .inl
  · have hplain : valueText (.text s) = s := if_neg hq
    rw [hplain] at h
    have htrim : trim (' ' :: s) = trim s := trim_blank_append (s := [' ']) s (by decide)
    rcases Scalar.read_cases (' ' :: s) with ⟨n, hread, heq⟩ | ⟨b, -, heq⟩ | ⟨-, -, heq⟩
    · -- The text of a number would be that number again.
      rw [heq] at h
      cases n with
      | int n =>
        have hmax := Numeral.le_maxInteger_of_read? hread
        have htext : digitsOf n = s :=
          (integerText_of_nonneg (Int.natCast_nonneg n)).symm.trans h
        rw [← htext, Numeral.read?_digitsOf hmax] at hn
        cases hn
      | float x =>
        rcases Numeral.of_read?_float hread with ⟨rank, rfl⟩ | rfl
        · have htext : (Binary64.finite false rank).markedText = s := h
          rw [← htext, Binary64.read?_markedText] at hn
          cases hn
        · have htext : "inf".toList = s := h
          subst htext
          exact absurd hread (by decide)
    · rw [heq] at h
      subst h
      exact absurd hk (by cases b <;> decide)
    · -- No quotation marks are needed once those at the ends and the blanks are gone.
      have hq' : needsQuotes (unquote (trim (' ' :: s))) = false := by
        rw [Bool.eq_false_iff, ne_eq, needsQuotes_iff]
        rw [needsQuotes_iff] at hq
        have hsub {c : Char} (hc : c ∈ unquote (trim (' ' :: s))) : c ∈ s := by
          rw [htrim] at hc
          exact (infix_trim s).subset (mem_of_mem_unquote hc)
        exact fun hor => hq (hor.imp hsub hsub)
      rw [heq, valueText, if_neg (by simp [hq']), htrim] at h
      obtain ⟨ht, hquote⟩ := unquote_trim_eq_self_iff.1 h
      exact .inr (.inr ⟨ht, hquote, hn, hk⟩)

/-- A value that was read is written as the same text again, once it was written and read, exactly
if it is settled. -/
theorem valueText_read_eq_iff (raw : Text) :
    valueText (Scalar.read (' ' :: valueText (Scalar.read raw))) = valueText (Scalar.read raw) ↔
      (Scalar.read raw).Settled := by
  constructor
  · intro h
    cases hv : Scalar.read raw with
    | bool b => exact .inl trivial
    | int n => exact .inl (Scalar.of_read_int hv)
    | float x =>
      rcases Scalar.of_read_float hv with hx | rfl
      · exact .inl hx
      · exact .inr rfl
    | text s =>
      obtain ⟨-, hn, hk⟩ := Scalar.of_read_text hv
      rw [hv] at h
      exact .inl (lasting_of_valueText_eq hn hk h)
  · rintro (h | h)
    · rw [read_valueText_eq_iff.2 h]
    · rw [h]
      decide

end Metadata

/-! ### Values of fields -/

namespace Field

/-- A row of digits with a point is no keyword. -/
theorem keyword?_of_numeral {s : Text} {n : Numeral} (h : Numeral.read? s = some n) :
    keyword? s = none := by
  cases s with
  | nil => cases h
  | cons c s =>
    have hne {d : Char} (hd : d.isDigit = false) (hp : d ≠ '.') : c ≠ d := by
      rintro rfl
      rcases Numeral.of_mem h List.mem_cons_self with hc | hc
      · rw [hd] at hc
        cases hc
      · exact hp hc
    exact keyword?_of_head rfl (hne (by decide) (by decide)) (hne (by decide) (by decide))
      (hne (by decide) (by decide))

theorem read_numeral {s : Text} {n : Numeral} (h : Numeral.read? s = some n) :
    read (' ' :: s) = ofNumeral n := by
  have htrim := Numeral.trim_eq h
  exact read_of_numeral (by rw [htrim, keyword?_of_numeral h]) (by rw [htrim, h])

/-- A binary64 number is read only from a numeral. -/
theorem of_read_float {raw : Text} {x : Binary64} (h : read raw = .float x) :
    Numeral.read? (trim raw) = some (.float x) ∧ x.isFinite = true := by
  cases hk : keyword? (trim raw) with
  | some v =>
    rw [read_of_keyword hk] at h
    have := readable_of_keyword? hk
    rw [h] at this
    exact this.elim
  | none =>
    cases hn : Numeral.read? (trim raw) with
    | none =>
      rw [read_of_text rfl hk hn] at h
      cases h
    | some n =>
      rw [read_of_numeral hk hn] at h
      cases n with
      | int n => cases h
      | float y =>
        cases hy : y.isFinite with
        | true =>
          simp only [ofNumeral, hy, if_true, Json.float.injEq] at h
          rw [← h]
          exact ⟨rfl, hy⟩
        | false => simp [ofNumeral, hy] at h

theorem write_float (rank : Fin rankCount) :
    write (.float (.finite false rank)) = Json.magnitudeText rank := by
  show Json.compact (.float (.finite false rank)) = _
  rw [Json.compact, Json.floatText]
  exact List.nil_append _

/-- A value is read back from the text in which it is written exactly if it is lasting. -/
theorem read_write_eq_iff {v : Json} : read (' ' :: write v) = v ↔ v.Lasting := by
  cases v with
  | null => exact iff_of_true rfl trivial
  | bool b => exact iff_of_true (read_write (v := .bool b) trivial) trivial
  | int n =>
    refine ⟨fun h => ?_, fun h => read_write (v := .int n) h⟩
    have hreadable : (read (' ' :: write (.int n))).Readable := readable_read (by rw [h]; simp)
    rwa [h] at hreadable
  | text s => exact iff_of_true (read_text s) trivial
  | array items =>
    refine iff_of_false (fun h => ?_) id
    have := isScalar_read (' ' :: write (.array items))
    rwa [h] at this
  | object fields =>
    refine iff_of_false (fun h => ?_) id
    have := isScalar_read (' ' :: write (.object fields))
    rwa [h] at this
  | float x =>
    constructor
    · intro h
      obtain ⟨hread, hfinite⟩ := of_read_float h
      obtain ⟨rank, rfl⟩ := (Numeral.of_read?_float hread).resolve_right fun hx => by
        rw [hx] at hfinite
        cases hfinite
      refine ⟨rank, rfl, ?_⟩
      by_contra hfull
      -- The exponent keeps the text from being a numeral.
      rw [write_float] at hread
      have hmem := mem_trim (List.mem_cons_of_mem ' ' (Json.mem_magnitudeText hfull)) (by decide)
      exact absurd (Numeral.of_mem hread hmem) (by decide)
    · rintro ⟨rank, rfl, hfull⟩
      rw [write_float, read_numeral (Json.read?_magnitudeText hfull), ofNumeral]
      exact if_pos rfl

/-- A number that is written with an exponent is read back as that text. -/
theorem read_write_of_not_full {rank : Fin rankCount} (h : ¬ Json.WrittenInFull rank) :
    read (' ' :: write (.float (.finite false rank))) = .text (Json.magnitudeText rank) := by
  have hnone := Json.read?_magnitudeText_eq_none h
  obtain ⟨c, m, sign, n, hc, htext⟩ := Json.exists_magnitudeText_eq h
  rw [write_float]
  generalize Json.magnitudeText rank = s at hnone htext
  have hhead : s.head? = some c := by
    rw [htext]
    rfl
  have hlast (d : Char) (hd : s.getLast? = some d) : isBlank d = false := by
    rw [htext, List.getLast?_append_of_ne_nil _ (by simp), List.getLast?_cons_cons,
      List.getLast?_cons_of_ne_nil (digitsOf_ne_nil n)] at hd
    exact isBlank_of_isDigit (isDigit_of_mem_digitsOf (List.mem_of_getLast? hd))
  have htrim : trim (' ' :: s) = s := by
    refine trim_blank_cons (fun d hd => ?_) hlast
    rw [hhead, Option.some_inj] at hd
    exact hd ▸ isBlank_of_isDigit hc
  -- A digit starts neither a keyword nor a quotation.
  refine read_bare htrim hhead (fun hmem => ?_) hnone
  have hall : ∀ d ∈ ['n', 't', 'f', '"', '\''], d.isDigit = false := by decide
  rw [hall c hmem] at hc
  cases hc

/-- A value between brackets is read back as its text. -/
theorem read_write_of_not_isScalar {v : Json} (h : ¬ v.IsScalar) :
    read (' ' :: write v) = .text v.compact := by
  have hbrackets {s t : Text} {a z : Char} (hs : s = a :: t ++ [z])
      (h : a ∉ ['n', 't', 'f', '"', '\''] ∧ a.isDigit = false ∧ isBlank a = false ∧
        isBlank z = false) : read (' ' :: s) = .text s := by
    obtain ⟨ha, hdigit, hblank, hz⟩ := h
    have hhead : s.head? = some a := by rw [hs, List.cons_append, List.head?_cons]
    refine read_bare (trim_blank_cons (fun c hc => ?_) (fun c hc => ?_)) hhead ha
      (Numeral.read?_eq_none_of_head hhead hdigit)
    · rw [hhead, Option.some_inj] at hc
      rwa [← hc]
    · rw [hs, List.getLast?_concat, Option.some_inj] at hc
      rwa [← hc]
  cases v with
  | array items =>
    rw [show write (.array items) = (Json.array items).compact from rfl]
    exact hbrackets (by rw [Json.compact]) (a := '[') (z := ']') (by decide)
  | object fields =>
    rw [show write (.object fields) = (Json.object fields).compact from rfl]
    exact hbrackets (by rw [Json.compact]) (a := '\x7b') (z := '\x7d') (by decide)
  | _ => exact absurd trivial h

/-- An integer past the greatest one with a sign is read back as the nearest binary64 number. -/
theorem read_write_large {n : Nat} (h : maxInteger < n) (hn : n < 2 ^ (64 : Nat)) :
    read (' ' :: write (.int n)) = .float (Binary64.ofDecimal false n 0) := by
  have htext : write (.int n) = digitsOf n := integerText_of_nonneg (Int.natCast_nonneg n)
  have hread : Numeral.read? (digitsOf n) = some (.float (Binary64.ofDecimal false n 0)) := by
    rw [Numeral.read?_of_isDigits (isDigits_digitsOf n), ofDigits_digitsOf, if_neg (by omega)]
  have hfinite : (Binary64.ofDecimal false n 0).isFinite = true := by
    rw [Binary64.ofDecimal, Binary64.ofRank, dif_pos (Binary64.decimalRank_lt hn)]
    rfl
  rw [htext, read_numeral hread, ofNumeral, if_pos hfinite]

theorem length_le_escape (s : Text) : s.length ≤ (escape s).length := by
  have hchar (c : Char) : 1 ≤ (escapeChar c).length := by
    unfold escapeChar
    split_ifs <;> simp
  induction s with
  | nil => exact Nat.le_refl _
  | cons c s ih =>
    have := hchar c
    rw [escape] at ih ⊢
    rw [List.flatMap_cons, List.length_append, List.length_cons]
    omega

theorem length_lt_write_text (s : Text) : s.length < (write (.text s)).length := by
  have := length_le_escape s
  show s.length < ('"' :: escape s ++ ['"']).length
  simp only [List.length_append, List.length_cons]
  omega

/-- A value that was read is lasting, or is written as a longer text once it was written and read
again. -/
theorem lasting_or_length_lt (raw : Text) :
    (read raw).Lasting ∨
      (write (read raw)).length < (write (read (' ' :: write (read raw)))).length := by
  rcases readable_or_float raw with hreadable | ⟨x, hx⟩
  · exact .inl (read_write_eq_iff.1 (read_write hreadable))
  · obtain ⟨hread, hfinite⟩ := of_read_float hx
    obtain ⟨rank, rfl⟩ := (Numeral.of_read?_float hread).resolve_right fun h => by
      rw [h] at hfinite
      cases hfinite
    rw [hx]
    by_cases hfull : Json.WrittenInFull rank
    · exact .inl ⟨rank, rfl, hfull⟩
    · -- The text stands between quotation marks from now on.
      rw [read_write_of_not_full hfull, write_float]
      exact .inr (length_lt_write_text _)

end Field

end Formdoc
