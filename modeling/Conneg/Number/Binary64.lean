import Conneg.Number.Natural

/-!
# Double-precision numbers

A double is kept as its 64 bits. The magnitude of a finite one is a whole
number of *units*, a unit being `2^-1074`, the smallest positive double; so
exact arithmetic on doubles is arithmetic on natural numbers. `ofUnits` rounds a
quotient of units to the nearest double, ties to even, and overflows to
infinity; multiplication and division are the exact result, rounded once.

The encoding makes the rounding short: a magnitude `significand * 2^shift` with
`2^52 ≤ significand ≤ 2^53`, or any `significand < 2^52` at `shift = 0`, has the
bit pattern `shift * 2^52 + significand`, and a rounding that carries up to
`2^53` lands on the next binade by itself.
-/

namespace Conneg

/-- A double-precision number, as its bits. -/
structure Binary64 where
  bits : UInt64
  deriving DecidableEq

namespace Binary64

/-- The bit pattern as a number. -/
def word (x : Binary64) : Nat := x.bits.toNat

/-- The sign bit. -/
def negative (x : Binary64) : Bool := 2 ^ 63 ≤ x.word

/-- The eleven exponent bits. -/
def field (x : Binary64) : Nat := x.word / 2 ^ 52 % 2048

/-- The 52 fraction bits. -/
def fraction (x : Binary64) : Nat := x.word % 2 ^ 52

/-- A number that is neither an infinity nor a NaN. -/
def isFinite (x : Binary64) : Bool := x.field != 2047

/-- Not a number. -/
def isNaN (x : Binary64) : Bool := x.field == 2047 && x.fraction != 0

/-- The significand of a finite number: subnormal numbers have no hidden bit. -/
def significand (x : Binary64) : Nat :=
  if x.field = 0 then x.fraction else 2 ^ 52 + x.fraction

/-- The binary shift of a finite number's significand, in units. -/
def shift (x : Binary64) : Nat := x.field - 1

/-- The magnitude of a finite number, in units of `2^-1074`. -/
def units (x : Binary64) : Nat := x.significand * Nat.pow 2 x.shift

/-- The pattern of positive infinity, above every finite magnitude. -/
def infinityWord : Nat := 2047 * 2 ^ 52

/-- The number with this magnitude pattern and sign. -/
def ofWord (negative : Bool) (word : Nat) : Binary64 :=
  ⟨UInt64.ofNat (word + if negative then 2 ^ 63 else 0)⟩

/-- The pattern of the magnitude nearest to `num / den` units. -/
def nearestWord (num den : Nat) : Nat :=
  let shift := Nat.log2 (num / den) - 52
  min (shift * 2 ^ 52 + roundHalfEven num (den * Nat.pow 2 shift)) infinityWord

/-- The double nearest to `num / den` units with this sign; ties go to even,
and what is too large becomes an infinity. -/
def ofUnits (negative : Bool) (num den : Nat) : Binary64 :=
  ofWord negative (nearestWord num den)

/-- The number of units in one. -/
def unitsInOne : Nat := 2 ^ 1074

/-- The double nearest to a natural number. -/
def ofNat (n : Nat) : Binary64 := ofUnits false (n * unitsInOne) 1

/-- The double nearest to an integer; zero is positive. -/
def ofInt (n : Int) : Binary64 := ofUnits (n < 0) (n.natAbs * unitsInOne) 1

/-- The same magnitude with the sign turned. -/
def neg (x : Binary64) : Binary64 := ⟨x.bits + 0x8000000000000000⟩

/-- The magnitude of a product of finite numbers, rounded once. -/
def mul (x y : Binary64) : Binary64 := ofUnits false (x.units * y.units) unitsInOne

/-- The magnitude of a quotient of finite numbers, rounded once; the divisor
is not zero. -/
def div (x y : Binary64) : Binary64 := ofUnits false (x.units * unitsInOne) y.units

/-- A number of zero magnitude. -/
def isZero (x : Binary64) : Bool := x.word % 2 ^ 63 == 0

/-- The double of the same value as a single-precision number. The 23 fraction
bits of a NaN become the upper ones, and the first of them is set, which makes
the NaN a quiet one. -/
def ofBinary32 (word : Nat) : Binary64 :=
  let negative : Bool := 2 ^ 31 ≤ word
  let field := word / 2 ^ 23 % 256
  let fraction := word % 2 ^ 23
  if field = 255 then
    if fraction = 0 then ofWord negative infinityWord
    else ofWord negative (infinityWord + 2 ^ 51 + fraction % 2 ^ 22 * 2 ^ 29)
  else
    let significand := if field = 0 then fraction else 2 ^ 23 + fraction
    ofUnits negative (significand * Nat.pow 2 (field - 1) * 2 ^ 925) 1

example : ofNat 1 = ⟨0x3FF0000000000000⟩ := by decide +kernel
example : ofNat (2 ^ 53 + 1) = ⟨0x4340000000000000⟩ := by decide +kernel
example : ofInt (-7) = ⟨0xC01C000000000000⟩ := by decide +kernel
example : div (ofNat 1) (ofNat 10) = ⟨0x3FB999999999999A⟩ := by decide +kernel
example : ofBinary32 0x3FC00000 = ⟨0x3FF8000000000000⟩ := by decide +kernel
example : ofBinary32 0xFFA00001 = ⟨0xFFFC000020000000⟩ := by decide +kernel
example : ofBinary32 1 = ⟨0x36A0000000000000⟩ := by decide +kernel

end Binary64
end Conneg
