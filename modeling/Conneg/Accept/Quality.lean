import Conneg.Number.Natural
import Conneg.Text.Fields

/-!
# Quality values

A quality value is a number in the usual floating notation, or one of the words
for an infinity and for no number. It refuses a media type when it is not above
zero in single precision: when it is negative, or so small that it rounds to
zero. The least single-precision number is `2^-149`, so exactly the magnitudes
up to `2^-150` round to zero, the tie included.
-/

namespace Conneg.Accept

/-- A quality value. -/
inductive Quality
  /-- A decimal numeral: `coefficient * 10^exponent`, with a sign. -/
  | numeral (negative : Bool) (coefficient : Nat) (exponent : Int)
  | infinite (negative : Bool)
  | undefined
  deriving DecidableEq

/-- The digits at the front of a text, and the rest. -/
def leadingDigits : List Char → List Digit × List Char
  | [] => ([], [])
  | c :: cs =>
    match Digit.ofChar? c with
    | none => ([], c :: cs)
    | some d => let (ds, rest) := leadingDigits cs; (d :: ds, rest)

/-- The sign at the front of a text, if any (whether it is a minus), and the
rest. -/
def leadingSign : List Char → Bool × List Char
  | '-' :: cs => (true, cs)
  | '+' :: cs => (false, cs)
  | cs => (false, cs)

/-- The size of an exponent. It stops growing once it has passed 65535, which
no number of leading zeros in reach can make up for. -/
def exponentSize (ds : List Digit) : Nat :=
  ds.foldl (fun n d => if n < 65536 then n * 10 + d.val else n) 0

/-- The exponent part of a numeral: nothing, or `e`, an optional sign and at
least one digit, up to the end of the text. -/
def readExponent? : List Char → Option Int
  | [] => some 0
  | c :: cs =>
    if c = 'e' ∨ c = 'E' then
      let (negative, cs) := leadingSign cs
      match leadingDigits cs with
      | ([], _) => none
      | (ds, []) =>
        let n : Int := exponentSize ds
        some (if negative then -n else n)
      | _ => none
    else none

/-- A numeral without its sign: digits with an optional point, at least one
digit on some side, and an optional exponent. -/
def readNumeral? (cs : List Char) : Option (Nat × Int) := do
  let (whole, rest) := leadingDigits cs
  let (fraction, rest) :=
    match rest with
    | '.' :: rest => leadingDigits rest
    | rest => ([], rest)
  if whole.isEmpty && fraction.isEmpty then none
  else
    let e ← readExponent? rest
    some (valueOf (whole ++ fraction), e - fraction.length)

/-- The quality value that a text writes. -/
def readQuality? (cs : List Char) : Option Quality :=
  let (negative, rest) := leadingSign cs
  match readNumeral? rest with
  | some (n, e) => some (.numeral negative n e)
  | none =>
    if Text.sameIgnoringCase rest "inf".toList || Text.sameIgnoringCase rest "infinity".toList
    then some (.infinite negative)
    else if Text.sameIgnoringCase rest "nan".toList then some .undefined
    else none

/-- Whether `coefficient * 10^exponent` is at most `2^-150`. -/
def roundsToZero (coefficient : Nat) (exponent : Int) : Bool :=
  if 0 ≤ exponent then coefficient == 0
  else coefficient * 2 ^ 150 ≤ Nat.pow 10 (-exponent).toNat

/-- Whether a quality value refuses its entry. -/
def Quality.refuses : Quality → Bool
  | .numeral negative n e => negative || roundsToZero n e
  | .infinite negative => negative
  | .undefined => false

example : readQuality? "-.5E-2".toList = some (.numeral true 5 (-3)) := by decide
example : readQuality? "1e".toList = none := by decide
example : (readQuality? "0.001".toList).map Quality.refuses = some false := by decide +kernel
example : (readQuality? "1e-46".toList).map Quality.refuses = some true := by decide +kernel

end Conneg.Accept
