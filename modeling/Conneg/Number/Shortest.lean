import Conneg.Number.Binary64

/-!
# The shortest decimal of a double

A finite double stands for an interval of reals: all that round to it, the ends
included when its significand is even. Among the decimal grids, the powers of
ten, the coarsest one with a point in that interval gives the fewest digits, and
of its points the nearest to the double is the shortest decimal that reads back.

If a grid has a point in the interval, one of the two grid points around the
double is in it, so two candidates per grid are enough. Lengths are counted in
quarter units, which makes the ends of every interval whole.
-/

namespace Conneg

/-- A decimal: `coefficient * 10^exponent`. -/
structure Decimal where
  coefficient : Nat
  exponent : Int
  deriving DecidableEq

namespace Shortest

/-- The reals that round to one double, in quarter units: the double itself,
the two ends, and whether the ends belong to it. -/
structure Interval where
  centre : Nat
  low : Nat
  high : Nat
  closed : Bool

/-- The interval of a finite double. Below a power of two the neighbour is
half as far away as above it. -/
def Interval.of (x : Binary64) : Interval :=
  let step := Nat.pow 2 x.shift
  let narrow := x.fraction = 0 ∧ 1 < x.field
  { centre := 4 * x.significand * step
    low := (4 * x.significand - if narrow then 1 else 2) * step
    high := (4 * x.significand + 2) * step
    closed := x.significand % 2 == 0 }

/-- Quarter units in one. -/
def quarters : Nat := 4 * Binary64.unitsInOne

/-- The grid of multiples of `10^exponent`, scaled so that both the grid and the
interval are whole: a grid step, and the factor on interval lengths. -/
def gridStep (exponent : Int) : Nat := quarters * Nat.pow 10 exponent.toNat

/-- The factor that makes interval lengths commensurable with the grid step. -/
def gridScale (exponent : Int) : Nat := Nat.pow 10 (-exponent).toNat

/-- Whether the `n`-th point of a grid lies in the interval. -/
def Interval.holds (i : Interval) (exponent : Int) (n : Nat) : Bool :=
  let point := n * gridStep exponent
  let low := i.low * gridScale exponent
  let high := i.high * gridScale exponent
  if i.closed then low ≤ point && point ≤ high else low < point && point < high

/-- The grid point in the interval that is nearest to its centre, if the grid
has a point there; an exact tie goes to the even one. -/
def Interval.nearest? (i : Interval) (exponent : Int) : Option Nat :=
  let step := gridStep exponent
  let centre := i.centre * gridScale exponent
  let n := centre / step
  match i.holds exponent n, i.holds exponent (n + 1) with
  | false, false => none
  | true, false => some n
  | false, true => some (n + 1)
  | true, true => some (roundHalfEven centre step)

/-- The coarsest of `steps` grids, downward from `10^exponent`, with a point in
the interval. -/
def coarsest (i : Interval) : Nat → Int → Option Decimal
  | 0, _ => none
  | steps + 1, exponent =>
    match i.nearest? exponent with
    | some n => some ⟨n, exponent⟩
    | none => coarsest i steps (exponent - 1)

/-- The shortest decimal that reads back as the magnitude of a finite double
other than zero. The grids run from above the largest double to below the
smallest spacing of doubles, so one always has a point. -/
def decimal (x : Binary64) : Decimal :=
  (coarsest (Interval.of x) 634 309).getD ⟨0, 0⟩

example : decimal ⟨0x3FB999999999999A⟩ = ⟨1, -1⟩ := by decide +kernel
example : decimal ⟨1⟩ = ⟨5, -324⟩ := by decide +kernel
example : decimal ⟨0x7FEFFFFFFFFFFFFF⟩ = ⟨17976931348623157, 292⟩ := by decide +kernel
example : decimal ⟨0x4340000000000000⟩ = ⟨9007199254740992, 0⟩ := by decide +kernel

end Shortest
end Conneg
