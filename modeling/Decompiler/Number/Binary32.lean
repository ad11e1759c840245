import Decompiler.Number.Decimal

/-!
Single precision floats, kept as their bits.  `Binary32.text` writes the fewest
digits that read back to the same bits.
-/

namespace Decompiler

structure Binary32 where
  bits : UInt32
deriving DecidableEq, Inhabited, Repr

namespace Binary32

def negative (x : Binary32) : Bool := x.bits.toNat.testBit 31

def biased (x : Binary32) : Nat := x.bits.toNat / 0x800000 % 0x100

def fraction (x : Binary32) : Nat := x.bits.toNat % 0x800000

/-- The magnitude of a finite value is `significand * 2 ^ scale`. -/
def significand (x : Binary32) : Nat :=
  if x.biased = 0 then x.fraction else x.fraction + 0x800000

def scale (x : Binary32) : Int := max x.biased 1 - 150

/-- The interval of reals nearest to a finite value.  Below a power of two the
neighbour is half as far away, and the ends belong to the interval when the
significand is even. -/
def span (x : Binary32) : Span :=
  let quarter := x.scale - 2
  let unit := Nat.pow 2 quarter.toNat
  let gap := if x.biased ≠ 0 ∧ x.fraction = 0 then 1 else 2
  { value := 4 * x.significand * unit
    low := (4 * x.significand - gap) * unit
    high := (4 * x.significand + 2) * unit
    denominator := Nat.pow 2 (-quarter).toNat
    closed := x.significand % 2 == 0 }

/-- Magnitudes from `10 ^ -4` to below `10 ^ 16` are written positionally, others
in scientific notation. -/
def magnitudeText (d : Decimal) : String :=
  if -4 ≤ d.leading ∧ d.leading < 16 then d.positional else d.scientific

/-- The shortest text that reads back to the same float. -/
def text (x : Binary32) : String :=
  if x.biased = 255 ∧ x.fraction ≠ 0 then "NaN"
  else
    (if x.negative then "-" else "") ++
      (if x.biased = 255 then "inf"
       else if x.significand = 0 then "0.0"
       else magnitudeText (x.span.shortest 9))

end Binary32

end Decompiler
