import Testwright.Source.Batch

namespace Testwright

/-!
The success rate of a batch.

The rate is the quotient of two counts as a binary number of 53 significant
bits, written with six decimals.  Both roundings go to the nearest value, and a
tie goes to the even neighbour.
-/

/-- The whole number nearest to `num / den`, for a positive `den`. -/
def roundedQuotient (num den : Nat) : Nat :=
  let below := num / den
  let rest := num % den
  if 2 * rest < den then below
  else if den < 2 * rest then below + 1
  else if below % 2 = 0 then below
  else below + 1

/-- A number `mantissa / 2 ^ scale`. -/
structure BinaryFraction where
  mantissa : Nat
  scale : Nat

/-- The quotient of `part` by `whole` with 53 significant bits, for
`0 < part ≤ whole`. -/
def BinaryFraction.quotient (part whole : Nat) : BinaryFraction :=
  let guess := 52 + Nat.log2 whole - Nat.log2 part
  let scale := if part <<< guess < whole <<< 52 then guess + 1 else guess
  ⟨roundedQuotient (part <<< scale) whole, scale⟩

/-- The fraction in millionths. -/
def BinaryFraction.millionths (fraction : BinaryFraction) : Nat :=
  roundedQuotient (fraction.mantissa * 1000000) (1 <<< fraction.scale)

/-- A count of millionths as a decimal with six places. -/
def millionthsText (millionths : Nat) : Text :=
  let places := Nat.toDigits 10 (millionths % 1000000)
  Nat.toDigits 10 (millionths / 1000000) ++
    '.' :: (List.replicate (6 - places.length) '0' ++ places)

namespace BatchReport

/-- The share of the sources that were read.  It is zero for an empty batch. -/
def successRate (report : BatchReport) : Text :=
  if report.classes.isEmpty then
    millionthsText 0
  else
    millionthsText (BinaryFraction.quotient report.classes.length report.total).millionths

end BatchReport
end Testwright
