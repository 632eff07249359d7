/-
The fewest decimal digits that read back to a magnitude, and their layouts.

`shortest` looks for the decimal with the fewest digits that rounds to a given
magnitude.  For one digit, two, and so on, it takes the grid of decimals with
that many digits and tries the two neighbours of the magnitude on it; the
first grid with a hit wins, of two hits the nearer, and of two equally near
hits the one that `Tie` names.  Should no grid of seventeen digits have a hit,
the exact value is taken.  Either way the result reads back
(`decimalRank_shortest`).

Two layouts of the digits are used:

* `plain` writes all places, without an exponent;
* `scientific` writes one digit before the point, and an exponent.
-/
import Formdoc.Number.Binary64
import Formdoc.Text.Blank

namespace Formdoc

-- A power of natural numbers is the one of core, whatever else is imported.
attribute [local instance (2000)] instPowNat

/-- The decimal digits of a number. -/
def digitsOf (n : Nat) : Text :=
  Nat.toDigits 10 n

/-- The number that a row of decimal digits denotes. -/
def ofDigits (s : Text) : Nat :=
  s.foldl (fun n c => 10 * n + (c.toNat - '0'.toNat)) 0

/-- The decimal text of an integer. -/
def integerText (n : Int) : Text :=
  if n < 0 then '-' :: digitsOf n.natAbs else digitsOf n.natAbs

/-- The decimal `digits * 10 ^ exponent`. -/
structure Decimal where
  digits : Nat
  exponent : Int
deriving DecidableEq, Repr

/-- Which of two equally near decimals is taken. -/
inductive Tie where
  | toEven
  | up
deriving DecidableEq, Repr

namespace Decimal

/-- The decimal rounds to the given rank. -/
def readsAs (rank : Nat) (d : Decimal) : Bool :=
  Binary64.decimalRank d.digits d.exponent == rank

/-- The exact value of a magnitude, as a decimal. -/
def exact (rank : Nat) : Decimal :=
  ⟨Binary64.units rank * 5 ^ Binary64.fineness, -(Binary64.fineness : Int)⟩

/-- The least `k` with the magnitude below `10 ^ k`. Zero has none, and gets `1`. -/
def leadPlace (rank : Nat) : Int :=
  let u := Binary64.units rank
  if Binary64.one ≤ u ∨ u = 0 then (digitsOf (u / Binary64.one)).length
  else 1 - ((digitsOf ((Binary64.one - 1) / u)).length : Int)

/-- Of two neighbours the one that passes a test. If both do, `upper` decides. -/
def choose (passes : Decimal → Bool) (upper : Bool) (low high : Decimal) : Option Decimal :=
  match passes low, passes high with
  | true, true => some (if upper then high else low)
  | true, false => some low
  | false, true => some high
  | false, false => none

/-- Of `n` and `n + 1` the upper is nearer to `num / den`, or as near and taken by the tie. -/
def upperIsNearer (tie : Tie) (num den n : Nat) : Bool :=
  match compare (2 * num) ((2 * n + 1) * den) with
  | .lt => false
  | .gt => true
  | .eq => tie == .up || n % 2 == 1

/-- The decimal on the grid of `10 ^ place` that reads as the rank and is nearest to it. -/
def onGrid (tie : Tie) (rank : Nat) (place : Int) : Option Decimal :=
  let num := Binary64.units rank * 10 ^ (-place).toNat
  let den := Binary64.one * 10 ^ place.toNat
  let n := num / den
  choose (readsAs rank) (upperIsNearer tie num den n) ⟨n, place⟩ ⟨n + 1, place⟩

/-- The decimal of fewest digits that rounds to the rank, nearest to it among those. -/
def shortest (tie : Tie) (rank : Nat) : Decimal :=
  ((List.range 17).findSome? fun n : Nat =>
    onGrid tie rank (leadPlace rank - (n + 1 : Nat))).getD (exact rank)

/-- The digits without the zeros at their end, and the exponent that makes up for them. -/
def significant (d : Decimal) : Text × Int :=
  let all := digitsOf d.digits
  let kept := Text.dropEndWhile (· == '0') all
  if kept = [] then (['0'], 0) else (kept, d.exponent + (all.length - kept.length : Nat))

/-- All places of the number, without an exponent. A whole number has no point. -/
def plain (d : Decimal) : Text :=
  let (ds, x) := d.significant
  if 0 ≤ x then ds ++ List.replicate x.toNat '0'
  else
    let places := (-x).toNat
    if places < ds.length then ds.take (ds.length - places) ++ '.' :: ds.drop (ds.length - places)
    else '0' :: '.' :: (List.replicate (places - ds.length) '0' ++ ds)

/-- The exponent of the leading digit. -/
def leadExponent (d : Decimal) : Int :=
  let (ds, x) := d.significant
  x + ds.length - 1

/-- One digit before the point, and the exponent of the leading digit with its sign. -/
def scientific (d : Decimal) : Text :=
  let (ds, _) := d.significant
  let e := d.leadExponent
  let mantissa :=
    match ds with
    | c :: f :: fs => c :: '.' :: f :: fs
    | ds => ds
  mantissa ++ 'e' :: (if e < 0 then '-' else '+') :: digitsOf e.natAbs

/-! ### The result reads back -/

theorem passes_of_choose {passes : Decimal → Bool} {upper : Bool} {low high d : Decimal}
    (h : choose passes upper low high = some d) : passes d = true := by
  unfold choose at h
  split at h
  · rename_i hl hh
    cases upper <;> cases h
    · exact hl
    · exact hh
  · rename_i hl _
    cases h
    exact hl
  · rename_i hh
    cases h
    exact hh
  · cases h

theorem readsAs_exact (rank : Nat) : (exact rank).readsAs rank = true := by
  have ten (k : Nat) : (10 : Nat) ^ k = 1 * (5 ^ k * 2 ^ k) := by rw [← Nat.mul_pow, Nat.one_mul]
  have pos (k : Nat) : 0 < 5 ^ k * 2 ^ k :=
    Nat.mul_pos (Nat.pow_pos (by decide)) (Nat.two_pow_pos k)
  rw [readsAs, exact, Binary64.decimalRank_neg, ten, Binary64.one, Nat.mul_assoc,
    Binary64.nearestRank_mul_mul _ _ (pos _), Binary64.nearestRank_units, beq_self_eq_true]

theorem decimalRank_shortest (tie : Tie) (rank : Nat) :
    Binary64.decimalRank (shortest tie rank).digits (shortest tie rank).exponent = rank := by
  have : (shortest tie rank).readsAs rank = true := by
    simp only [shortest]
    cases h : (List.range 17).findSome? fun n : Nat =>
        onGrid tie rank (leadPlace rank - (n + 1 : Nat)) with
    | none => simpa using readsAs_exact rank
    | some d =>
      obtain ⟨n, _, hn⟩ := List.exists_of_findSome?_eq_some h
      simpa using passes_of_choose hn
  simpa [readsAs] using this

end Decimal

namespace Binary64

/-- A number in plain decimal, with as many digits as it takes to read it back. -/
def plainText : Binary64 → Text
  | nan => "NaN".toList
  | infinity n => (if n then ['-'] else []) ++ "inf".toList
  | finite n r => (if n then ['-'] else []) ++ (Decimal.shortest .up r).plain

end Binary64

end Formdoc
