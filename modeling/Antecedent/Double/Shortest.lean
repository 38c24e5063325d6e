import Antecedent.Double.Basic

/-!
# Shortest decimals

`Double.shortest` finds the decimal with the fewest digits that reads back as a given positive
finite double, and of those with that many digits the nearest one; a tie goes upward.

The reals that round to `m * 2 ^ q` form an interval, which contains its ends exactly if `m` is
even. On the decimal grid of `n` digits only the two neighbours of the value can be the nearest
grid point inside the interval, so it suffices to test these two for `n = 1, 2, …, 17`.
-/

namespace Antecedent

/-- A decimal number `digits * 10 ^ scale`. -/
structure Decimal where
  digits : Nat
  scale : Int
  deriving DecidableEq, Repr

namespace Decimal

/-- Moves trailing zeros of the digits into the scale. -/
def trim (d : Decimal) : Decimal :=
  if h : d.digits ≠ 0 ∧ d.digits % 10 = 0 then trim ⟨d.digits / 10, d.scale + 1⟩ else d
termination_by d.digits
decreasing_by omega

end Decimal

namespace Double

/-- The interval of reals that round to a positive double, in units of a quarter of the last
place: the value, its two ends, and whether the ends belong to it. The interval reaches only half
as far down at the start of a binade. -/
structure Interval where
  lower : Nat
  value : Nat
  upper : Nat
  closed : Bool

def interval (rank : Nat) : Interval :=
  let m := significand rank
  let lower := if rank % binadeSize = 0 ∧ binadeSize < rank then 4 * m - 1 else 4 * m - 2
  ⟨lower, 4 * m, 4 * m + 2, m % 2 = 0⟩

/-- Scales a count of quarter units and a count of decimal units to integers on a common grid. -/
def scales (quarter : Int) (scale : Int) : Nat × Nat :=
  let two := Nat.pow 2 quarter.natAbs
  let ten := Nat.pow 10 scale.natAbs
  match decide (0 ≤ quarter), decide (0 ≤ scale) with
  | true, true => (two, ten)
  | true, false => (two * ten, 1)
  | false, true => (1, ten * two)
  | false, false => (ten, two)

/-- The nearest of the value's two neighbours on the grid `10 ^ scale` that reads back. -/
def onGrid (rank : Nat) (scale : Int) : Option Decimal :=
  let i := interval rank
  let (bin, dec) := scales (exponent rank - 2) scale
  let below := i.value * bin / dec
  let above := below + 1
  let hitsBelow :=
    if i.closed then decide (i.lower * bin ≤ below * dec) else decide (i.lower * bin < below * dec)
  let hitsAbove :=
    if i.closed then decide (above * dec ≤ i.upper * bin) else decide (above * dec < i.upper * bin)
  let nearerBelow := i.value * bin - below * dec < above * dec - i.value * bin
  if hitsBelow && (!hitsAbove || nearerBelow) then some ⟨below, scale⟩
  else if hitsAbove then some ⟨above, scale⟩
  else none

/-- The number of decimal digits before the point of the value, for the double of a positive
rank: the value lies in `[10 ^ (p - 1), 10 ^ p)`. -/
def pointPosition (rank : Nat) : Int :=
  let m := significand rank
  let e := exponent rank
  if 0 ≤ e then (Nat.toDigits 10 (m * Nat.pow 2 e.toNat)).length
  else
    -- 10 ^ 400 exceeds the inverse of every positive double.
    let shifted := m * Nat.pow 10 400 / Nat.pow 2 (-e).toNat
    (Nat.toDigits 10 shifted).length - 400

/-- Tries grids of `n`, `n + 1`, … digits, `fuel` of them. -/
def searchGrid (rank : Nat) (point : Int) (n : Nat) : Nat → Option Decimal
  | 0 => none
  | fuel + 1 =>
    match onGrid rank (point - n) with
    | some d => some d
    | none => searchGrid rank point (n + 1) fuel

/-- The shortest decimal that reads back as the positive finite double of the given rank. Grids
of 17 digits always have a hit, so the exact value never stands in for one. -/
def shortest (rank : Nat) : Decimal :=
  match searchGrid rank (pointPosition rank) 1 17 with
  | some d => d.trim
  | none =>
    let e := exponent rank
    let m := significand rank
    (if 0 ≤ e then Decimal.mk (m * Nat.pow 2 e.toNat) 0 else ⟨m * Nat.pow 5 (-e).toNat, e⟩).trim

end Double

end Antecedent
