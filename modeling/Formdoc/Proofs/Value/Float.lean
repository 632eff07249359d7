/-
Binary64 numbers as they are written, read again.

A decimal keeps its value when zeros move between its digits and its exponent
(`decimalRank_mul_pow`), so that the layouts of a decimal denote the number that
it rounds to: the digits with a point among them (`Decimal.read?_plain`), and the
digits of a whole number with `.0` behind them (`Decimal.read?_plain_append`).
With that, a finite number that is not negative reads back from metadata
(`Binary64.read?_markedText`), and from data if it is written without an
exponent (`Json.read?_magnitudeText`).  With an exponent it is no numeral
(`Json.read?_magnitudeText_eq_none`).

A whole decimal rounds to a whole number (`units_nearestRank_mul_one`); so a
number that is not whole is written with a point, and is not read as an integer.
-/
import Formdoc.Proofs.Value.Number

namespace Formdoc

open Text

-- A power of natural numbers is the one of core, whatever else is imported.
attribute [local instance (2000)] instPowNat

namespace Binary64

/-! ### Decimals of the same value -/

theorem decimalRank_eq (n : Nat) (e : Int) :
    decimalRank n e = nearestRank (n * 10 ^ e.toNat * one) (10 ^ (-e).toNat) := by
  cases e with
  | ofNat e => simp [decimalRank]
  | negSucc e => simp [decimalRank]

/-- Zeros at the end of the digits count as much as in the exponent. -/
theorem decimalRank_mul_pow (n k : Nat) (e : Int) :
    decimalRank (n * 10 ^ k) e = decimalRank n (e + k) := by
  have pos (j : Nat) : 0 < 10 ^ j := Nat.pow_pos (by decide)
  rw [decimalRank_eq, decimalRank_eq, ← nearestRank_mul_mul _ _ (pos (-(e + k)).toNat),
    ← nearestRank_mul_mul (n * 10 ^ (e + k).toNat * one) _ (pos (-e).toNat)]
  -- Over a common denominator the two have one numerator.
  have hexp : k + e.toNat + (-(e + k)).toNat = (e + k).toNat + (-e).toNat := by omega
  have hnum : n * 10 ^ k * 10 ^ e.toNat * one * 10 ^ (-(e + k)).toNat =
      n * 10 ^ (e + k).toNat * one * 10 ^ (-e).toNat := by
    calc n * 10 ^ k * 10 ^ e.toNat * one * 10 ^ (-(e + k)).toNat
        = n * one * (10 ^ k * 10 ^ e.toNat * 10 ^ (-(e + k)).toNat) := by ac_rfl
      _ = n * one * (10 ^ (e + k).toNat * 10 ^ (-e).toNat) := by
        rw [← Nat.pow_add, ← Nat.pow_add, ← Nat.pow_add, hexp]
      _ = n * 10 ^ (e + k).toNat * one * 10 ^ (-e).toNat := by ac_rfl
  rw [hnum, Nat.mul_comm (10 ^ (-e).toNat)]

theorem decimalRank_zero (e : Int) : decimalRank 0 e = 0 := by
  have hpos : 0 < 10 ^ (-e).toNat := Nat.pow_pos (by decide)
  rw [decimalRank_eq]
  simp [nearestRank, roundDiv, hpos]

/-! ### Whole numbers -/

/-- Rounding leads to the next whole number at most. -/
theorem roundDiv_bounds (num den : Nat) :
    num / den ≤ roundDiv num den ∧ roundDiv num den ≤ num / den + 1 := by
  simp only [roundDiv]
  split
  · omega
  · split <;> omega

/-- Fifty-three binary digits are left of a number, when the others are cut off. -/
theorem div_two_pow_log2_lt (u : Nat) : u / 2 ^ (Nat.log2 u - 52) < 2 ^ (53 : Nat) := by
  rw [Nat.div_lt_iff_lt_mul (Nat.two_pow_pos _), ← Nat.pow_add]
  exact Nat.lt_of_lt_of_le Nat.lt_log2_self (Nat.pow_le_pow_right (by decide) (by omega))

/-- Rounding to fifty-three binary digits. -/
theorem units_nearestRank (u : Nat) :
    units (nearestRank u 1) = roundDiv u (2 ^ (Nat.log2 u - 52)) * 2 ^ (Nat.log2 u - 52) := by
  generalize hs : Nat.log2 u - 52 = s
  generalize hq : roundDiv u (2 ^ s) = q
  have hrank : nearestRank u 1 = s * 2 ^ (52 : Nat) + q := by
    simp only [nearestRank, Nat.div_one, hs, Nat.one_mul, hq]
  -- The rounded quotient has at most one binary digit more than the mantissa.
  have hdiv : u / 2 ^ s < 2 ^ (53 : Nat) := hs ▸ div_two_pow_log2_lt u
  have hle : u / 2 ^ s ≤ q ∧ q ≤ u / 2 ^ s + 1 := hq ▸ roundDiv_bounds u (2 ^ s)
  have hlow : 0 < s → 2 ^ (52 : Nat) ≤ q := by
    intro hpos
    have hu : u ≠ 0 := by
      rintro rfl
      simp at hs
      omega
    have := Nat.log2_self_le hu
    refine Nat.le_trans ?_ hle.1
    rw [Nat.le_div_iff_mul_le (Nat.two_pow_pos s), ← Nat.pow_add, show 52 + s = Nat.log2 u by omega]
    exact this
  rw [hrank]
  by_cases hmax : q = 2 ^ (53 : Nat)
  · have hscale : scale (s * 2 ^ (52 : Nat) + q) = s + 1 := by
      simp only [scale]
      omega
    have hm : s * 2 ^ (52 : Nat) + q - (s + 1) * 2 ^ (52 : Nat) = 2 ^ (52 : Nat) := by omega
    rw [units, hscale, hm, hmax, Nat.pow_succ 2 s]
    omega
  · have hscale : scale (s * 2 ^ (52 : Nat) + q) = s := by
      simp only [scale]
      omega
    rw [units, hscale, Nat.add_sub_cancel_left]

/-- A whole number rounds to a whole number. -/
theorem units_nearestRank_mul_one (n : Nat) : units (nearestRank (n * one) 1) % one = 0 := by
  rw [units_nearestRank]
  generalize Nat.log2 (n * one) - 52 = s
  rw [one]
  by_cases hs : fineness ≤ s
  · -- The places that are kept are whole.
    exact Nat.mod_eq_zero_of_dvd (Nat.dvd_mul_left_of_dvd (Nat.pow_dvd_pow 2 hs) _)
  · -- All places are kept.
    have hsplit : n * 2 ^ fineness = n * 2 ^ (fineness - s) * 2 ^ s := by
      rw [Nat.mul_assoc, ← Nat.pow_add, show fineness - s + s = fineness by omega]
    rw [hsplit, roundDiv_mul _ _ (Nat.two_pow_pos s), ← hsplit]
    exact Nat.mul_mod_left ..

/-- The whole numbers of 64 bits are far below the greatest binary64 number. -/
theorem decimalRank_lt {n : Nat} (h : n < 2 ^ (64 : Nat)) : decimalRank n 0 < rankCount := by
  rw [show decimalRank n 0 = nearestRank (n * one) 1 by simp [decimalRank], nearestRank]
  simp only [Nat.div_one, Nat.one_mul]
  generalize hu : n * one = u
  have hlog : Nat.log2 u < 1138 := by
    by_cases h0 : u = 0
    · rw [h0]
      decide
    · rw [Nat.log2_lt h0, ← hu, one, show (1138 : Nat) = 64 + fineness by unfold fineness; rfl,
        Nat.pow_add]
      exact Nat.mul_lt_mul_of_pos_right h (Nat.two_pow_pos _)
  have hround := (roundDiv_bounds u (2 ^ (Nat.log2 u - 52))).2
  have hdigits := div_two_pow_log2_lt u
  generalize roundDiv u (2 ^ (Nat.log2 u - 52)) = q at hround
  generalize u / 2 ^ (Nat.log2 u - 52) = d at hround hdigits
  show (Nat.log2 u - 52) * 2 ^ (52 : Nat) + q < 2047 * 2 ^ (52 : Nat)
  omega

end Binary64

/-! ### Rows of digits -/

theorem ofDigits_append (s t : Text) :
    ofDigits (s ++ t) = t.foldl (fun n c => 10 * n + (c.toNat - '0'.toNat)) (ofDigits s) :=
  List.foldl_append

theorem ofDigits_append_zeros (s : Text) (k : Nat) :
    ofDigits (s ++ List.replicate k '0') = ofDigits s * 10 ^ k := by
  induction k with
  | zero => simp
  | succ k ih =>
    rw [List.replicate_succ', ← List.append_assoc, ofDigits_append, ih, Nat.pow_succ,
      ← Nat.mul_assoc, Nat.mul_comm _ 10]
    rfl

theorem ofDigits_zeros_append (k : Nat) (s : Text) :
    ofDigits (List.replicate k '0' ++ s) = ofDigits s := by
  have := ofDigits_append_zeros [] k
  rw [List.nil_append] at this
  rw [ofDigits_append, this]
  simp [ofDigits]

/-- Two rows of digits with a point between them. -/
theorem Numeral.read?_point {a b : Text} (ha : isDigits a = true) (hb : isDigits b = true) :
    read? (a ++ '.' :: b) =
      some (.float (Binary64.ofDecimal false (ofDigits (a ++ b)) (-(b.length : Int)))) := by
  obtain ⟨hne, hall⟩ := isDigits_iff.1 ha
  have he : a.isEmpty = false := by simpa using hne
  obtain ⟨htake, hdrop⟩ := span_append (b := '.' :: b) hall fun c hc => by
    obtain rfl : '.' = c := Option.some_inj.1 hc
    decide
  unfold read?
  rw [htake, hdrop]
  simp [he, hb]

/-! ### Layouts of a decimal -/

namespace Decimal

/-- The digits that count, and the zeros behind them. -/
theorem exists_significant (d : Decimal) :
    (d.significant = (['0'], 0) ∧ d.digits = 0) ∨
      ∃ k : Nat, digitsOf d.digits = d.significant.1 ++ List.replicate k '0' ∧
        d.significant.1 ≠ [] ∧ d.significant.2 = d.exponent + k := by
  obtain ⟨t, ht, hall⟩ := exists_eq_dropEndWhile_append (· == '0') (digitsOf d.digits)
  have hzeros : t = List.replicate t.length '0' :=
    List.eq_replicate_of_mem fun c hc => by simpa using hall c hc
  unfold significant
  simp only
  generalize hkept : dropEndWhile (· == '0') (digitsOf d.digits) = kept at ht
  split
  · rename_i hnil
    refine .inl ⟨rfl, ?_⟩
    rw [← ofDigits_digitsOf d.digits, ht, hnil, hzeros, ofDigits_append_zeros]
    simp [ofDigits]
  · rename_i hne
    refine .inr ⟨t.length, by rw [ht, ← hzeros], hne, ?_⟩
    have := congrArg List.length ht
    rw [List.length_append] at this
    simp only [this]
    omega

/-- The digits that count, with their exponent, have the value of the decimal. -/
theorem decimalRank_significant (d : Decimal) :
    Binary64.decimalRank (ofDigits d.significant.1) d.significant.2 =
      Binary64.decimalRank d.digits d.exponent := by
  rcases exists_significant d with ⟨hs, hd⟩ | ⟨k, hk, -, hx⟩
  · rw [hs, hd, Binary64.decimalRank_zero]
    exact Binary64.decimalRank_zero 0
  · rw [hx, ← Binary64.decimalRank_mul_pow, ← ofDigits_append_zeros, ← hk, ofDigits_digitsOf]

theorem isDigits_significant (d : Decimal) : isDigits d.significant.1 = true := by
  rcases exists_significant d with ⟨hs, -⟩ | ⟨k, hk, hne, -⟩
  · rw [hs]
    rfl
  · refine isDigits_iff.2 ⟨hne, fun c hc => isDigit_of_mem_digitsOf (n := d.digits) ?_⟩
    rw [hk]
    exact List.mem_append_left _ hc

theorem isDigits_append_zeros {s : Text} (h : isDigits s = true) (k : Nat) :
    isDigits (s ++ List.replicate k '0') = true := by
  obtain ⟨hne, hall⟩ := isDigits_iff.1 h
  refine isDigits_iff.2 ⟨by simp [hne], fun c hc => ?_⟩
  rcases List.mem_append.1 hc with hc | hc
  · exact hall c hc
  · rw [(List.mem_replicate.1 hc).2]
    decide

theorem isDigits_zeros_append {s : Text} (h : isDigits s = true) (k : Nat) :
    isDigits (List.replicate k '0' ++ s) = true := by
  obtain ⟨hne, hall⟩ := isDigits_iff.1 h
  refine isDigits_iff.2 ⟨by simp [hne], fun c hc => ?_⟩
  rcases List.mem_append.1 hc with hc | hc
  · rw [(List.mem_replicate.1 hc).2]
    decide
  · exact hall c hc

/-- The layout of a decimal with places behind the point denotes the number that it rounds to. -/
theorem read?_plain {d : Decimal} (h : d.significant.2 < 0) :
    Numeral.read? d.plain = some (.float (Binary64.ofDecimal false d.digits d.exponent)) := by
  have hvalue := decimalRank_significant d
  have hdigits := isDigits_significant d
  unfold plain Binary64.ofDecimal
  rw [← hvalue]
  generalize d.significant = q at h hdigits
  obtain ⟨ds, x⟩ := q
  simp only at h hdigits ⊢
  obtain ⟨hne, hall⟩ := isDigits_iff.1 hdigits
  rw [if_neg (by omega)]
  split
  · rename_i hlt
    -- The point stands among the digits.
    have hlen : (ds.drop (ds.length - (-x).toNat)).length = (-x).toNat := by
      rw [List.length_drop]
      omega
    have hpos : 0 < (-x).toNat := by omega
    have hwhole : isDigits (ds.take (ds.length - (-x).toNat)) = true := by
      refine isDigits_iff.2 ⟨?_, fun c hc => hall c (List.mem_of_mem_take hc)⟩
      rw [Ne, List.take_eq_nil_iff, not_or]
      exact ⟨by omega, hne⟩
    have hpart : isDigits (ds.drop (ds.length - (-x).toNat)) = true := by
      refine isDigits_iff.2 ⟨?_, fun c hc => hall c (List.mem_of_mem_drop hc)⟩
      rw [← List.length_pos_iff, hlen]
      exact hpos
    rw [Numeral.read?_point hwhole hpart, List.take_append_drop, hlen, Binary64.ofDecimal,
      show -((-x).toNat : Int) = x by omega]
  · -- The digits stand behind the point, with zeros in front of them.
    have hlen : (List.replicate ((-x).toNat - ds.length) '0' ++ ds).length = (-x).toNat := by
      rw [List.length_append, List.length_replicate]
      omega
    have hread := Numeral.read?_point (a := ['0']) rfl
      (isDigits_zeros_append hdigits ((-x).toNat - ds.length))
    rw [hlen, show -((-x).toNat : Int) = x by omega] at hread
    have hvalue : ofDigits (['0'] ++ (List.replicate ((-x).toNat - ds.length) '0' ++ ds)) =
        ofDigits ds := by
      rw [← List.append_assoc, show ['0'] ++ List.replicate ((-x).toNat - ds.length) '0' =
        List.replicate ((-x).toNat - ds.length + 1) '0' from rfl, ofDigits_zeros_append]
    rw [hvalue] at hread
    exact hread

/-- The layout of a whole decimal, with `.0` behind it, denotes the number that it rounds to. -/
theorem read?_plain_append {d : Decimal} (h : 0 ≤ d.significant.2) :
    Numeral.read? (d.plain ++ ".0".toList) =
      some (.float (Binary64.ofDecimal false d.digits d.exponent)) := by
  have hvalue := decimalRank_significant d
  have hdigits := isDigits_significant d
  unfold plain Binary64.ofDecimal
  rw [← hvalue]
  generalize d.significant = q at h hdigits
  obtain ⟨ds, x⟩ := q
  simp only at h hdigits ⊢
  rw [if_pos h]
  have hread := Numeral.read?_point (isDigits_append_zeros hdigits x.toNat) (b := ['0']) rfl
  -- The zero behind the point counts once more than those in front of it.
  have hzeros : ofDigits (ds ++ List.replicate x.toNat '0' ++ ['0']) =
      ofDigits ds * 10 ^ (x.toNat + 1) := by
    rw [← ofDigits_append_zeros, List.replicate_succ', List.append_assoc]
  have hexp : -((['0'] : Text).length : Int) + (x.toNat + 1 : Nat) = x := by
    simp only [List.length_cons, List.length_nil]
    omega
  rw [hzeros, Binary64.ofDecimal, Binary64.decimalRank_mul_pow, hexp] at hread
  exact hread

end Decimal

/-- A text with an exponent starts and ends in a digit. -/
theorem Decimal.exists_scientific_eq (d : Decimal) :
    ∃ c m sign n, c.isDigit = true ∧ d.scientific = c :: m ++ 'e' :: sign :: digitsOf n := by
  obtain ⟨hne, hall⟩ := isDigits_iff.1 d.isDigits_significant
  obtain ⟨c, ds, hds⟩ := List.exists_cons_of_ne_nil hne
  have hc := hall c (by rw [hds]; exact List.mem_cons_self)
  unfold scientific
  simp only [hds]
  cases ds with
  | nil => exact ⟨c, [], _, _, hc, rfl⟩
  | cons f fs => exact ⟨c, '.' :: f :: fs, _, _, hc, rfl⟩

/-! ### Numbers -/

theorem Binary64.ofDecimal_shortest (tie : Tie) (rank : Fin rankCount) :
    ofDecimal false (Decimal.shortest tie rank).digits (Decimal.shortest tie rank).exponent =
      finite false rank := by
  rw [ofDecimal, Decimal.decimalRank_shortest, ofRank, dif_pos rank.isLt]

/-- A number that is not whole is written with a point. -/
theorem Decimal.significant_neg_of_not_whole {tie : Tie} {rank : Nat}
    (h : Binary64.whole? rank = none) : (shortest tie rank).significant.2 < 0 := by
  have hwhole : Binary64.units rank % Binary64.one ≠ 0 := by
    intro hz
    rw [Binary64.whole?, if_pos hz] at h
    cases h
  by_contra hx
  refine hwhole ?_
  -- Otherwise the magnitude would be the one next to a whole decimal.
  have hvalue := decimalRank_significant (shortest tie rank)
  rw [decimalRank_shortest, Binary64.decimalRank_eq] at hvalue
  rw [← hvalue, show (-(shortest tie rank).significant.2).toNat = 0 by omega, Nat.pow_zero]
  exact Binary64.units_nearestRank_mul_one _

theorem Binary64.markedText_of_whole {rank : Fin rankCount} {w : Nat} (h : whole? rank = some w) :
    (finite false rank).markedText = digitsOf w ++ ".0".toList := by
  have hs : (finite false rank).signedWhole? = some (false, w) := by
    rw [signedWhole?, h, Option.map_some]
  rw [markedText, hs]
  simp

theorem Binary64.markedText_of_not_whole {rank : Fin rankCount} (h : whole? rank = none) :
    (finite false rank).markedText = (Decimal.shortest .up rank).plain := by
  have hs : (finite false rank).signedWhole? = none := by
    rw [signedWhole?, h, Option.map_none]
  rw [markedText, hs]
  show (finite false rank).plainText = _
  rw [plainText]
  exact List.nil_append _

/-- A finite number that is not negative reads back from metadata. -/
theorem Binary64.read?_markedText (rank : Fin rankCount) :
    Numeral.read? (finite false rank).markedText = some (.float (finite false rank)) := by
  cases hw : whole? rank with
  | none =>
    rw [markedText_of_not_whole hw, Decimal.read?_plain (Decimal.significant_neg_of_not_whole hw),
      ofDecimal_shortest]
  | some w =>
    have hunits : w * one = units rank := by
      unfold whole? at hw
      split at hw
      · rename_i hz
        obtain rfl := Option.some_inj.1 hw
        exact Nat.div_mul_cancel (Nat.dvd_of_mod_eq_zero hz)
      · cases hw
    -- The zero behind the point makes ten times the number of tenths.
    have hrank : decimalRank (w * 10 ^ 1) (-1) = rank := by
      rw [decimalRank_mul_pow, show (-1 : Int) + ((1 : Nat) : Int) = 0 by rfl, decimalRank_eq]
      simp only [Int.toNat_zero, Int.neg_zero, Nat.pow_zero, Nat.mul_one]
      rw [hunits, nearestRank_units]
    have hzero : ofDigits (digitsOf w ++ ['0']) = w * 10 ^ 1 := by
      rw [show ['0'] = List.replicate 1 '0' from rfl, ofDigits_append_zeros, ofDigits_digitsOf]
    have hread := Numeral.read?_point (isDigits_digitsOf w) (b := ['0']) rfl
    rw [hzero, ofDecimal, show -((['0'] : Text).length : Int) = -1 from rfl, hrank, ofRank,
      dif_pos rank.isLt] at hread
    rw [markedText_of_whole hw]
    exact hread

namespace Json

/-- The magnitude is written without an exponent. -/
def WrittenInFull (rank : Nat) : Prop :=
  -5 ≤ (Decimal.shortest .toEven rank).leadExponent ∧
    (Decimal.shortest .toEven rank).leadExponent ≤ 15

instance (rank : Nat) : Decidable (WrittenInFull rank) :=
  inferInstanceAs (Decidable (_ ∧ _))

theorem magnitudeText_eq (rank : Nat) :
    magnitudeText rank =
      if WrittenInFull rank then
        if 0 ≤ (Decimal.shortest .toEven rank).significant.2 then
          (Decimal.shortest .toEven rank).plain ++ ".0".toList
        else (Decimal.shortest .toEven rank).plain
      else (Decimal.shortest .toEven rank).scientific := rfl

/-- A magnitude that is written in full is a numeral that denotes it. -/
theorem read?_magnitudeText {rank : Fin rankCount} (h : WrittenInFull rank) :
    Numeral.read? (magnitudeText rank) = some (.float (.finite false rank)) := by
  rw [magnitudeText_eq, if_pos h, ← Binary64.ofDecimal_shortest .toEven]
  generalize Decimal.shortest .toEven rank = d
  by_cases hx : 0 ≤ d.significant.2
  · rw [if_pos hx, Decimal.read?_plain_append hx]
  · rw [if_neg hx, Decimal.read?_plain (by omega)]

theorem exists_magnitudeText_eq {rank : Nat} (h : ¬ WrittenInFull rank) :
    ∃ c m sign n, c.isDigit = true ∧
      magnitudeText rank = c :: m ++ 'e' :: sign :: digitsOf n := by
  have htext : magnitudeText rank = (Decimal.shortest .toEven rank).scientific := by
    rw [magnitudeText_eq, if_neg h]
  rw [htext]
  exact Decimal.exists_scientific_eq _

theorem mem_magnitudeText {rank : Nat} (h : ¬ WrittenInFull rank) : 'e' ∈ magnitudeText rank := by
  obtain ⟨c, m, sign, n, -, htext⟩ := exists_magnitudeText_eq h
  rw [htext]
  simp

/-- With an exponent a magnitude is no numeral. -/
theorem read?_magnitudeText_eq_none {rank : Nat} (h : ¬ WrittenInFull rank) :
    Numeral.read? (magnitudeText rank) = none :=
  Numeral.read?_eq_none_of_mem (mem_magnitudeText h) (by decide) (by decide)

end Json

end Formdoc
