/-!
# Natural numbers: powers, digits and rounding

Numbers are written in base ten as lists of digits with the first digit in front.
`digitsOf` writes a number without leading zeros (zero is the one digit 0) and
`valueOf` reads any list of digits, leading zeros included. `roundHalfEven` rounds a
quotient to the nearest whole number, with a tie going to the even neighbour; every
rounding of the binary formats goes through this one function.

Sizes and ranges are stated as powers with a literal exponent, such as `2 ^ 63`.
Such a power is always the one of the core library, also where more general
powers are in scope, so a bound means the same wherever it is written and can be
computed. A power with a variable exponent is written `Nat.pow`, for the same
reason.
-/

attribute [default_instance 20000] instPowNat

namespace Conneg

/-! ## Decimal digits -/

/-- A decimal digit. -/
abbrev Digit := Fin 10

namespace Digit

/-- The character of a digit. -/
def toChar (d : Digit) : Char := Char.ofNat (48 + d.val)

/-- The digit that a code stands for, if it is the code of one. -/
def ofCode? (n : Nat) : Option Digit :=
  if h : n - 48 < 10 then if 48 ≤ n then some ⟨n - 48, h⟩ else none else none

/-- The digit that a character stands for, if it is one of `0` to `9`. -/
def ofChar? (c : Char) : Option Digit := ofCode? c.toNat

end Digit

/-- The number that a list of digits writes. -/
def valueOf (ds : List Digit) : Nat := ds.foldl (fun n d => n * 10 + d.val) 0

/-- The digits of a number. -/
def digitsOf (n : Nat) : List Digit :=
  if h : n < 10 then [⟨n, h⟩]
  else digitsOf (n / 10) ++ [⟨n % 10, Nat.mod_lt n (by decide)⟩]
termination_by n
decreasing_by omega

/-- Reading the digits of a number gives it back. -/
theorem valueOf_digitsOf (n : Nat) : valueOf (digitsOf n) = n := by
  fun_induction digitsOf n with
  | case1 n h => simp [valueOf]
  | case2 n h ih =>
    have h10 : valueOf (digitsOf (n / 10) ++ [⟨n % 10, Nat.mod_lt n (by decide)⟩])
        = valueOf (digitsOf (n / 10)) * 10 + n % 10 := by
      simp [valueOf, List.foldl_append]
    rw [h10, ih]
    omega

theorem digitsOf_ne_nil (n : Nat) : digitsOf n ≠ [] := by
  unfold digitsOf
  split <;> simp

/-- The text of a number in base ten. -/
def decimalText (n : Nat) : String := String.ofList ((digitsOf n).map Digit.toChar)

/-- The number that a text of one or more digits writes. -/
def readDecimal? (cs : List Char) : Option Nat :=
  match cs with
  | [] => none
  | _ => (cs.mapM Digit.ofChar?).map valueOf

example : digitsOf 1050 = [1, 0, 5, 0] := by decide +kernel
example : readDecimal? "0080".toList = some 80 := by decide

/-! ## Rounding -/

/-- `num / den` rounded to the nearest whole number, ties to even. -/
def roundHalfEven (num den : Nat) : Nat :=
  let q := num / den
  let twice := 2 * (num % den)
  if twice < den then q else if den < twice then q + 1 else q + q % 2

/-- A whole quotient is its own rounding. -/
theorem roundHalfEven_mul (q : Nat) {den : Nat} (h : 0 < den) :
    roundHalfEven (q * den) den = q := by
  simp [roundHalfEven, Nat.mul_div_cancel _ h, Nat.mul_mod_left, h]

end Conneg
