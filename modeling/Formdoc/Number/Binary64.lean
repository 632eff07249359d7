/-
Binary64 numbers and rounding to them.

The magnitudes of the finite binary64 numbers, in increasing order, are the
values of `units` at `0, 1, 2, …`, counted in units of `2 ^ -1074`: up to rank
`2 ^ 53` one unit apart, then two, then four, and so on.  A finite number is a
sign and such a rank.  Two numbers with one sign and one rank are one number,
and a rank is even exactly when the last binary digit of the mantissa is zero,
so that rounding to nearest, ties to even, is a matter of ranks alone:

* `nearestRank` rounds an exact quotient, given in units;
* `ofDecimal` reads `digits * 10 ^ exponent` with one rounding;
* `mulRank` and `divRank` are the product and the quotient of two magnitudes.

`nearestRank_units` says that a magnitude rounds to itself.
-/
namespace Formdoc

-- A power of natural numbers is the one of core, whatever else is imported.
attribute [local instance (2000)] instPowNat

/-- One more than the greatest rank of a finite magnitude. -/
abbrev rankCount : Nat := 2047 * 2 ^ (52 : Nat)

/-- A binary64 number: no number, an infinity, or a sign and the rank of its magnitude. -/
inductive Binary64 where
  | nan
  | infinity (negative : Bool)
  | finite (negative : Bool) (rank : Fin rankCount)
deriving DecidableEq, Repr

namespace Binary64

/-- One is `2 ^ fineness` units. -/
@[irreducible] def fineness : Nat := 1074

/-- The number of units in one. -/
def one : Nat := 2 ^ fineness

/-- The binary exponent of a rank: its magnitudes are `2 ^ scale` units apart. -/
def scale (rank : Nat) : Nat := rank / 2 ^ (52 : Nat) - 1

/-- The magnitude of a rank, in units of `2 ^ -1074`. -/
def units (rank : Nat) : Nat := (rank - scale rank * 2 ^ (52 : Nat)) * 2 ^ scale rank

/-- The quotient rounded to the nearest integer, and to the even one of two equally near. -/
def roundDiv (num den : Nat) : Nat :=
  let q := num / den
  let r := num % den
  if 2 * r < den then q else if den < 2 * r then q + 1 else q + q % 2

/-- The rank nearest to `num / den` units, and the even one of two equally near. -/
def nearestRank (num den : Nat) : Nat :=
  let s := Nat.log2 (num / den) - 52
  s * 2 ^ (52 : Nat) + roundDiv num (den * 2 ^ s)

/-- The number of a sign and a rank. A rank past the last is an infinity. -/
def ofRank (negative : Bool) (rank : Nat) : Binary64 :=
  if h : rank < rankCount then .finite negative ⟨rank, h⟩ else .infinity negative

/-- The rank nearest to `digits * 10 ^ exponent`. -/
def decimalRank (digits : Nat) : Int → Nat
  | .ofNat e => nearestRank (digits * 10 ^ e * one) 1
  | .negSucc e => nearestRank (digits * one) (10 ^ (e + 1))

theorem decimalRank_neg (digits k : Nat) :
    decimalRank digits (-(k : Int)) = nearestRank (digits * one) (10 ^ k) := by
  cases k with
  | zero => simp [decimalRank]
  | succ k => rfl

/-- The number nearest to `digits * 10 ^ exponent`. -/
def ofDecimal (negative : Bool) (digits : Nat) (exponent : Int) : Binary64 :=
  ofRank negative (decimalRank digits exponent)

/-- The product of two magnitudes, rounded. -/
def mulRank (a b : Nat) : Nat := nearestRank (units a * units b) one

/-- The quotient of two magnitudes, rounded. -/
def divRank (a b : Nat) : Nat := nearestRank (units a * one) (units b)

/-- The number is neither an infinity nor without a value. -/
def isFinite : Binary64 → Bool
  | finite _ _ => true
  | _ => false

/-- The two numbers have equal values: no number equals itself, and the two zeros are equal. -/
def agrees : Binary64 → Binary64 → Bool
  | infinity m, infinity n => m == n
  | finite m a, finite n b => decide (a = b) && (m == n || a.val == 0)
  | _, _ => false

/-- The whole value of a magnitude, if it is whole. -/
def whole? (rank : Nat) : Option Nat :=
  if units rank % one = 0 then some (units rank / one) else none

/-! ### A magnitude rounds to itself -/

theorem roundDiv_mul_mul (num den : Nat) {k : Nat} (hk : 0 < k) :
    roundDiv (num * k) (den * k) = roundDiv num den := by
  have below : 2 * (num % den * k) < den * k ↔ 2 * (num % den) < den := by
    rw [← Nat.mul_assoc]
    exact Nat.mul_lt_mul_right hk
  have above : den * k < 2 * (num % den * k) ↔ den < 2 * (num % den) := by
    rw [← Nat.mul_assoc]
    exact Nat.mul_lt_mul_right hk
  simp only [roundDiv, Nat.mul_div_mul_right _ _ hk, Nat.mul_mod_mul_right, below, above]

theorem nearestRank_mul_mul (num den : Nat) {k : Nat} (hk : 0 < k) :
    nearestRank (num * k) (den * k) = nearestRank num den := by
  simp only [nearestRank, Nat.mul_div_mul_right _ _ hk, Nat.mul_right_comm den k,
    roundDiv_mul_mul _ _ hk]

theorem roundDiv_mul (q den : Nat) (h : 0 < den) : roundDiv (q * den) den = q := by
  simp [roundDiv, Nat.mul_div_cancel _ h, h]

/-- From rank `2 ^ 52` on, the mantissa has fifty-three binary digits. -/
theorem mantissa_bounds {rank : Nat} (h : 2 ^ (52 : Nat) ≤ rank) :
    2 ^ (52 : Nat) ≤ rank - scale rank * 2 ^ (52 : Nat) ∧
      rank - scale rank * 2 ^ (52 : Nat) < 2 ^ (53 : Nat) := by
  simp only [scale]
  omega

theorem nearestRank_units (rank : Nat) : nearestRank (units rank) 1 = rank := by
  by_cases h : rank < 2 ^ (52 : Nat)
  · have hs : scale rank = 0 := by simp only [scale]; omega
    have hu : units rank = rank := by simp [units, hs]
    have hl : Nat.log2 rank - 52 = 0 := by
      by_cases h0 : rank = 0
      · subst h0
        decide
      · have := (Nat.log2_lt h0).2 h
        omega
    simp only [nearestRank, hu, Nat.div_one, hl, Nat.pow_zero, Nat.zero_mul, Nat.zero_add,
      Nat.mul_one]
    simpa using roundDiv_mul rank 1 Nat.one_pos
  · obtain ⟨hlo, hhi⟩ := mantissa_bounds (Nat.le_of_not_lt h)
    have hle : scale rank * 2 ^ (52 : Nat) ≤ rank := by simp only [scale]; omega
    generalize hm : rank - scale rank * 2 ^ (52 : Nat) = m at hlo hhi
    have hu : units rank = m * 2 ^ scale rank := by rw [units, hm]
    have hm0 : m ≠ 0 := by omega
    have hu0 : m * 2 ^ scale rank ≠ 0 := Nat.mul_ne_zero hm0 (Nat.ne_of_gt (Nat.two_pow_pos _))
    have hl : Nat.log2 (m * 2 ^ scale rank) = 52 + scale rank := by
      refine (Nat.log2_eq_iff hu0).2 ⟨?_, ?_⟩
      · rw [Nat.pow_add]
        exact Nat.mul_le_mul_right _ hlo
      · rw [show 52 + scale rank + 1 = 53 + scale rank by omega, Nat.pow_add]
        exact Nat.mul_lt_mul_of_pos_right hhi (Nat.two_pow_pos _)
    simp only [nearestRank, hu, Nat.div_one, hl, Nat.add_sub_cancel_left, Nat.one_mul]
    rw [roundDiv_mul _ _ (Nat.two_pow_pos _), ← hm]
    omega

end Binary64

end Formdoc
