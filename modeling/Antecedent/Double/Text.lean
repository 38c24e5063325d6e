import Antecedent.Double.Shortest

/-!
# Text of doubles

`Double.text` writes a double with the fewest digits that read back. `DecimalLayout` holds the
decisions that are left: where positional writing ends, and how the special values are spelt.
-/

namespace Antecedent

/-- How a decimal is laid out. -/
structure DecimalLayout where
  /-- The least exponent of the leading digit that is written positionally. -/
  least : Int
  /-- The first exponent of the leading digit that is written with an exponent again. -/
  limit : Int
  nan : String
  infinity : String

/-- Values from `1e-4` to below `1e16` are written positionally, with at least one digit after the
point; all others carry an exponent without a plus sign. -/
def DecimalLayout.standard : DecimalLayout := ⟨-4, 16, "NaN", "inf"⟩

namespace DecimalLayout

/-- `n` zeros. -/
def zeros (n : Nat) : String := String.ofList (List.replicate n '0')

/-- Digits with a point after the first `point` of them, padded with zeros on either side. -/
def positional (digits : List Char) (point : Int) : String :=
  if point ≤ 0 then "0." ++ zeros (-point).toNat ++ String.ofList digits
  else if digits.length ≤ point.toNat then
    String.ofList digits ++ zeros (point.toNat - digits.length) ++ ".0"
  else String.ofList (digits.take point.toNat) ++ "." ++ String.ofList (digits.drop point.toNat)

/-- Digits with a point after the first one, and the exponent of that digit. -/
def scientific (digits : List Char) (exponent : Int) : String :=
  let tail := digits.drop 1
  String.ofList (digits.take 1) ++ (if tail.isEmpty then "" else "." ++ String.ofList tail) ++ "e"
    ++ toString exponent

/-- A positive decimal. -/
def write (l : DecimalLayout) (d : Decimal) : String :=
  let digits := Nat.toDigits 10 d.digits
  let point := digits.length + d.scale
  if l.least ≤ point - 1 ∧ point - 1 < l.limit then positional digits point
  else scientific digits (point - 1)

end DecimalLayout

namespace Double

/-- The text of a double in a given layout. -/
def layOut (l : DecimalLayout) : Double → String
  | nan => l.nan
  | number negative rank =>
    let magnitude :=
      if rank.val = 0 then DecimalLayout.positional ['0'] 1
      else if rank.val = infinityRank then l.infinity
      else l.write (shortest rank)
    if negative then "-" ++ magnitude else magnitude

/-- The text of a double. -/
def text : Double → String := layOut .standard

/-- Whether the double is a finite number. -/
def isFinite : Double → Bool
  | nan => false
  | number _ rank => rank.val ≠ infinityRank

end Double

end Antecedent
