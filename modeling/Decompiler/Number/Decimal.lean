/-!
Decimal numbers with few digits.  `Span.shortest` finds the decimal with the
fewest digits inside an interval around a value; of the decimals with that many
digits it takes the one nearest to the value, and of two equally near ones the
larger.
-/

namespace Decompiler

/-- The number `digits * 10 ^ exponent`. -/
structure Decimal where
  digits : Nat
  exponent : Int
deriving DecidableEq, Inhabited, Repr

namespace Decimal

/-- The numerator over `denominator`. -/
def numerator (d : Decimal) : Nat := d.digits * Nat.pow 10 d.exponent.toNat

/-- A power of ten that makes the number whole. -/
def denominator (d : Decimal) : Nat := Nat.pow 10 (-d.exponent).toNat

/-- The written digits, most significant first, without trailing zeros. -/
def significant (d : Decimal) : List Char :=
  ((Nat.toDigits 10 d.digits).reverse.dropWhile (· == '0')).reverse

/-- The power of ten of the most significant digit. -/
def leading (d : Decimal) : Int :=
  d.exponent + (Nat.toDigits 10 d.digits).length - 1

/-- Positional notation; the fraction has at least one digit. -/
def positional (d : Decimal) : String :=
  let ds := d.significant
  let places := d.leading
  if places < 0 then
    "0." ++ String.ofList (List.replicate (-places - 1).toNat '0' ++ ds)
  else
    let whole := places.toNat + 1
    let front := ds.take whole ++ List.replicate (whole - ds.length) '0'
    let back := ds.drop whole
    String.ofList front ++ "." ++ (if back.isEmpty then "0" else String.ofList back)

/-- Scientific notation: one digit, the others as a fraction if there are any,
and the exponent. -/
def scientific (d : Decimal) : String :=
  let ds := d.significant
  let fraction := ds.drop 1
  String.ofList (ds.take 1) ++ (if fraction.isEmpty then "" else "." ++ String.ofList fraction)
    ++ "e" ++ toString d.leading

end Decimal

/-- A positive value and an interval around it; all three numbers are numerators
over one denominator.  The ends belong to the interval when it is closed. -/
structure Span where
  value : Nat
  low : Nat
  high : Nat
  denominator : Nat
  closed : Bool
deriving DecidableEq, Inhabited, Repr

namespace Span

/-- Whether a decimal lies in the interval. -/
def holds (s : Span) (d : Decimal) : Bool :=
  let low := s.low * d.denominator
  let high := s.high * d.denominator
  let middle := d.numerator * s.denominator
  if s.closed then low ≤ middle ∧ middle ≤ high else low < middle ∧ middle < high

/-- The largest power of ten, from `10 ^ 60` down, that is not above the value. -/
def magnitude (s : Span) : Int :=
  let powers := (List.range 121).map fun (i : Nat) => (60 : Int) - i
  (powers.find? fun e =>
    s.denominator * (Decimal.mk 1 e).numerator ≤ s.value * (Decimal.mk 1 e).denominator).getD 0

/-- The decimal with `n` digits in the interval that is nearest to the value. -/
def nearest? (s : Span) (n : Nat) : Option Decimal :=
  let exponent := s.magnitude - n + 1
  let unit := Decimal.mk 1 exponent
  let floor := s.value * unit.denominator / (s.denominator * unit.numerator)
  let below := Decimal.mk floor exponent
  let above := Decimal.mk (floor + 1) exponent
  match s.holds below, s.holds above with
  | true, true =>
    let middle := (2 * floor + 1) * unit.numerator * s.denominator
    some (if 2 * s.value * unit.denominator < middle then below else above)
  | true, false => some below
  | false, true => some above
  | false, false => none

/-- The decimal with the fewest digits, at most `limit`, in the interval. -/
def shortest (s : Span) (limit : Nat) : Decimal :=
  ((List.range' 1 limit).findSome? s.nearest?).getD default

end Span

end Decompiler
