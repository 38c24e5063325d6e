/-!
# Double-precision numbers

A double is not a number, or a sign and a rank: the rank counts the nonnegative doubles below its
absolute value, so zero has rank 0, the least positive double rank 1, and infinity the last rank.
The rank is also the bit pattern of the absolute value, and it orders absolute values, which makes
every comparison a comparison of integers.

* `Double.le`, `Double.lt`, `Double.eq` compare as numbers: the two zeros agree, and not-a-number
  is unequal to everything, itself included.
* `Double.max` and `Double.min` pass over an operand that is not a number.
-/

namespace Antecedent

/-- The rank of infinity: 2047 binades of `2 ^ 52` doubles lie below it. -/
def Double.infinityRank : Nat := 0x7FF0000000000000

/-- A double-precision number. -/
inductive Double where
  | nan
  | number (negative : Bool) (rank : Fin (Double.infinityRank + 1))
  deriving DecidableEq, Repr

namespace Double

/-- The number of doubles in a binade: `2 ^ 52`. -/
def binadeSize : Nat := 0x10000000000000

/-- The double of the given sign and rank; ranks past the last one become infinite. -/
def ofRank (negative : Bool) (rank : Nat) : Double :=
  .number negative ⟨min rank infinityRank, by omega⟩

def zero : Double := ofRank false 0

def infinity (negative : Bool) : Double := ofRank negative infinityRank

/-- The position of a signed rank on the number line; both zeros stand at 0. -/
def key (negative : Bool) (rank : Nat) : Int := if negative then -(rank : Int) else rank

def isNaN : Double → Bool
  | nan => true
  | number _ _ => false

def le : Double → Double → Bool
  | number s r, number t q => key s r ≤ key t q
  | _, _ => false

def lt : Double → Double → Bool
  | number s r, number t q => key s r < key t q
  | _, _ => false

def eq : Double → Double → Bool
  | number s r, number t q => key s r = key t q
  | _, _ => false

/-- Equality as numbers, which is not reflexive. -/
instance : BEq Double := ⟨eq⟩

/-- The greater of two doubles; an operand that is not a number gives way to the other. -/
def max (a b : Double) : Double :=
  if a.isNaN then b else if b.isNaN then a else if a.le b then b else a

/-- The lesser of two doubles; an operand that is not a number gives way to the other. -/
def min (a b : Double) : Double :=
  if a.isNaN then b else if b.isNaN then a else if a.le b then a else b

/-- A finite double is `significand * 2 ^ exponent`; the parts are read off the rank. -/
def significand (rank : Nat) : Nat :=
  if rank < binadeSize then rank else binadeSize + rank % binadeSize

/-- The exponent that goes with `significand`. -/
def exponent (rank : Nat) : Int :=
  if rank < binadeSize then -1074 else (rank / binadeSize : Nat) - 1075

end Double

end Antecedent
