import Antecedent.Double.Basic

/-!
# Rounding to the nearest double

`Double.nearest` rounds a nonnegative fraction to the nearest double, a tie going to the even
significand. A fraction is cut into units of the last place of its binade; the rank is then the
number of doubles below the binade plus that count, also when rounding reaches the next binade or
when the fraction is below the least normal double.
-/

namespace Antecedent

/-- The quotient rounded to the nearest integer, a half going to the even neighbour. -/
def divHalfEven (num den : Nat) : Nat :=
  let q := num / den
  let r := num % den
  if 2 * r < den then q
  else if den < 2 * r then q + 1
  else if q % 2 = 0 then q else q + 1

namespace Double

/-- The greatest `e` with `2 ^ e ≤ num / den`, for positive `num` and `den`. -/
def floorLog2 (num den : Nat) : Int :=
  let e : Int := (num.log2 : Int) - den.log2
  let fits := if 0 ≤ e then den * Nat.pow 2 e.toNat ≤ num else den ≤ num * Nat.pow 2 (-e).toNat
  if fits then e else e - 1

/-- The rank of the double nearest to `num / den`. -/
def nearestRank (num den : Nat) : Nat :=
  if num = 0 then 0
  else
    let binade := Max.max (floorLog2 num den) (-1022)
    let unit := binade - 52
    let units :=
      if 0 ≤ unit then divHalfEven num (den * Nat.pow 2 unit.toNat)
      else divHalfEven (num * Nat.pow 2 (-unit).toNat) den
    (binade + 1022).toNat * binadeSize + units

/-- The double nearest to the signed fraction `num / den`. -/
def nearest (negative : Bool) (num den : Nat) : Double := ofRank negative (nearestRank num den)

/-- The double nearest to an integer. -/
def ofInt (i : Int) : Double := nearest (decide (i < 0)) i.natAbs 1

/-- The double nearest to `digits * 10 ^ scale`. Decimals far outside the range of doubles are
decided by their order of magnitude alone. -/
def ofDecimal (negative : Bool) (digits : Nat) (scale : Int) : Double :=
  let magnitude : Int := (Nat.toDigits 10 digits).length + scale
  if digits = 0 ∨ magnitude < -330 then ofRank negative 0
  else if 330 < magnitude then infinity negative
  else if 0 ≤ scale then nearest negative (digits * Nat.pow 10 scale.toNat) 1
  else nearest negative digits (Nat.pow 10 (-scale).toNat)

end Double

end Antecedent
