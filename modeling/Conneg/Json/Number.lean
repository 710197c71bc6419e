import Conneg.Bytes
import Conneg.Number.Natural
import Conneg.Number.Shortest

/-!
# Numbers in JSON text

A number is kept as it is spelled: sign, whole digits, digits after the point,
and an exponent. What it means is decided only where it is read, so that a
number out of range can still be passed over.

A number without point and exponent is an integer if it fits 64 bits (`-0` does
not: it is the float). Every other number is a double: its digits are collected
into a 64-bit significand, digits that no longer fit only count their place, and
the significand is scaled by a power of ten in double precision. The scaling
rounds the significand and the scaled value each on their own.

A finite double is written with its shortest digits, positionally from `1e-5` up
to below `1e16` and with an exponent outside that range.
-/

namespace Conneg.Json

/-- A number as it is spelled. Without digits in `fraction` it has no point. -/
structure Number where
  negative : Bool
  whole : List Digit
  fraction : List Digit
  /-- The sign of the exponent, whether it is a minus, and its digits. -/
  exponent : Option (Bool × List Digit)
  deriving DecidableEq

namespace Number

/-! ## Spelling -/

/-- Whether a byte is a digit. -/
def isDigit (b : UInt8) : Bool := 0x30 ≤ b && b ≤ 0x39

/-- The digits at the front of a byte string. -/
def digitsAt (bs : Bytes) : List Digit :=
  (bs.takeWhile isDigit).filterMap fun b => Digit.ofCode? b.toNat

/-- What follows the digits at the front of a byte string. -/
def afterDigits (bs : Bytes) : Bytes := bs.dropWhile isDigit

theorem length_afterDigits_le (bs : Bytes) : (afterDigits bs).length ≤ bs.length :=
  (List.dropWhile_suffix _).length_le

/-- The byte of a digit. -/
def digitByte (d : Digit) : UInt8 := UInt8.ofNat (48 + d.val)

/-- The whole digits: one or more, the first of several not zero. -/
def scanWhole (bs : Bytes) : Option (List Digit × Bytes) :=
  match digitsAt bs with
  | [] => none
  | [d] => some ([d], afterDigits bs)
  | d :: ds => if d = 0 then none else some (d :: ds, afterDigits bs)

/-- The digits after a point, if there is a point; then at least one. -/
def scanFraction : Bytes → Option (List Digit × Bytes)
  | [] => some ([], [])
  | b :: bs =>
    if b = 0x2E then
      match digitsAt bs with
      | [] => none
      | ds => some (ds, afterDigits bs)
    else some ([], b :: bs)

/-- The sign of an exponent, if there is one. -/
def scanSign : Bytes → Bool × Bytes
  | [] => (false, [])
  | b :: bs => if b = 0x2D then (true, bs) else if b = 0x2B then (false, bs) else (false, b :: bs)

/-- The exponent, if there is one; then with at least one digit. -/
def scanExponent : Bytes → Option (Option (Bool × List Digit) × Bytes)
  | [] => some (none, [])
  | b :: bs =>
    if b = 0x65 ∨ b = 0x45 then
      let (negative, bs) := scanSign bs
      match digitsAt bs with
      | [] => none
      | ds => some (some (negative, ds), afterDigits bs)
    else some (none, b :: bs)

/-- The number at the front of a byte string, without its sign. -/
def scanUnsigned (negative : Bool) (bs : Bytes) : Option (Number × Bytes) := do
  let (whole, bs) ← scanWhole bs
  let (fraction, bs) ← scanFraction bs
  let (exponent, bs) ← scanExponent bs
  some (⟨negative, whole, fraction, exponent⟩, bs)

/-- The number at the front of a byte string. -/
def scan : Bytes → Option (Number × Bytes)
  | [] => none
  | b :: bs => if b = 0x2D then scanUnsigned true bs else scanUnsigned false (b :: bs)

theorem scanWhole_shorter {bs rest : Bytes} {ds : List Digit}
    (h : scanWhole bs = some (ds, rest)) : rest.length < bs.length := by
  have hne : digitsAt bs ≠ [] := by
    intro h0; simp [scanWhole, h0] at h
  have hrest : rest = afterDigits bs := by
    simp only [scanWhole] at h
    split at h
    · simp at h
    · simp at h; exact h.2.symm
    · split at h
      · simp at h
      · simp at h; exact h.2.symm
  cases bs with
  | nil => simp [digitsAt] at hne
  | cons b bs =>
    have hb : isDigit b = true := by
      by_cases hb : isDigit b = true
      · exact hb
      · exact absurd (by simp [digitsAt, hb]) hne
    have := length_afterDigits_le bs
    simp only [afterDigits] at this
    rw [hrest, afterDigits, List.dropWhile_cons_of_pos hb]
    simp; omega

theorem scanFraction_le {bs rest : Bytes} {ds : List Digit}
    (h : scanFraction bs = some (ds, rest)) : rest.length ≤ bs.length := by
  cases bs with
  | nil => simp [scanFraction] at h; simp [h.2]
  | cons b bs =>
    have := length_afterDigits_le bs
    simp only [scanFraction] at h
    split at h
    · split at h
      · simp at h
      · simp at h; rw [← h.2]; simp; omega
    · simp at h; simp [h.2]

theorem scanSign_le (bs : Bytes) : (scanSign bs).2.length ≤ bs.length := by
  cases bs with
  | nil => simp [scanSign]
  | cons b bs =>
    simp only [scanSign]
    split
    · simp
    · split <;> simp

theorem scanExponent_le {bs rest : Bytes} {e : Option (Bool × List Digit)}
    (h : scanExponent bs = some (e, rest)) : rest.length ≤ bs.length := by
  cases bs with
  | nil => simp [scanExponent] at h; simp [h.2]
  | cons b bs =>
    have h1 := scanSign_le bs
    have h2 := length_afterDigits_le (scanSign bs).2
    simp only [scanExponent] at h
    split at h
    · split at h
      · simp at h
      · simp at h; rw [← h.2]; simp; omega
    · simp at h; simp [h.2]

theorem scanUnsigned_shorter {negative : Bool} {bs rest : Bytes} {n : Number}
    (h : scanUnsigned negative bs = some (n, rest)) : rest.length < bs.length := by
  simp only [scanUnsigned, Option.bind_eq_bind, Option.bind_eq_some_iff] at h
  obtain ⟨⟨w, b1⟩, hw, ⟨f, b2⟩, hf, ⟨e, b3⟩, he, h⟩ := h
  simp only [Option.some.injEq, Prod.mk.injEq] at h
  have h1 : b1.length < bs.length := scanWhole_shorter hw
  have h2 : b2.length ≤ b1.length := scanFraction_le hf
  have h3 : b3.length ≤ b2.length := scanExponent_le he
  rw [← h.2]
  omega

/-- A number takes at least one byte. -/
theorem scan_shorter {bs rest : Bytes} {n : Number} (h : scan bs = some (n, rest)) :
    rest.length < bs.length := by
  cases bs with
  | nil => simp [scan] at h
  | cons b bs =>
    simp only [scan] at h
    split at h
    · have := scanUnsigned_shorter h; simp; omega
    · exact scanUnsigned_shorter h

/-- The text of a number; an exponent always shows its sign. -/
def print (n : Number) : Bytes :=
  (if n.negative then [0x2D] else []) ++ n.whole.map digitByte ++
    (if n.fraction.isEmpty then [] else 0x2E :: n.fraction.map digitByte) ++
    match n.exponent with
    | none => []
    | some (negative, ds) => 0x65 :: (if negative then 0x2D else 0x2B) :: ds.map digitByte

/-! ## Meaning -/

/-- The number that digits make after `n`, as far as it fits 64 bits, and how
many of them fit. -/
def absorb : List Digit → Nat → Nat × Nat
  | [], n => (n, 0)
  | d :: ds, n =>
    if n * 10 + d.val < 2 ^ 64 then
      let (m, count) := absorb ds (n * 10 + d.val)
      (m, count + 1)
    else (n, 0)

/-- A power of ten, rounded to a double. -/
def powerOfTen (n : Nat) : Binary64 := .ofNat (Nat.pow 10 n)

/-- A magnitude times a power of ten, each step rounded; none on overflow.
Small exponents take several steps, for `10^308` is the largest power that is a
double. -/
def scale (x : Binary64) (exponent : Int) : Option Binary64 :=
  if exponent.natAbs ≤ 308 then
    if 0 ≤ exponent then
      let y := x.mul (powerOfTen exponent.natAbs)
      if y.isFinite then some y else none
    else some (x.div (powerOfTen exponent.natAbs))
  else if x.isZero then some x
  else if 0 ≤ exponent then none
  else scale (x.div (powerOfTen 308)) (exponent + 308)
termination_by (-exponent).toNat
decreasing_by omega

/-- The largest exponent that is taken as a number; a larger one is an
underflow or an overflow at once. -/
def maxExponent : Nat := 2 ^ 31 - 1

/-- The double that a number means; none if it is too large. -/
def toFloat? (n : Number) : Option Binary64 :=
  let (whole, wholeCount) := absorb n.whole 0
  let (significand, fractionCount) := absorb n.fraction whole
  let shift : Int := (n.whole.length - wholeCount : Nat) - (fractionCount : Int)
  let magnitude : Option Binary64 :=
    match n.exponent with
    | none => scale (.ofNat significand) shift
    | some (negative, ds) =>
      let size := valueOf ds
      if maxExponent < size then
        if significand ≠ 0 ∧ !negative then none else some (.ofNat 0)
      else scale (.ofNat significand) (if negative then shift - size else shift + size)
  magnitude.map fun x => if n.negative then x.neg else x

/-- The integer that a number means: it has neither point nor exponent, and
fits 64 bits, signed or unsigned. -/
def toInt? (n : Number) : Option Int :=
  if n.fraction.isEmpty && n.exponent.isNone then
    let size := valueOf n.whole
    if n.negative then if 0 < size ∧ size ≤ 2 ^ 63 then some (-size) else none
    else if size < 2 ^ 64 then some size else none
  else none

/-! ## Writing -/

/-- The spelling of an integer. -/
def ofInt (n : Int) : Number := ⟨n < 0, digitsOf n.natAbs, [], none⟩

/-- The spelling of a decimal whose first digit stands for `10^place`. -/
def ofDigits (negative : Bool) (ds : List Digit) (place : Int) : Number :=
  if 0 ≤ place ∧ place < 16 then
    let size := place.toNat + 1
    if size < ds.length then ⟨negative, ds.take size, ds.drop size, none⟩
    else ⟨negative, ds ++ List.replicate (size - ds.length) 0, [0], none⟩
  else if -5 ≤ place ∧ place < 0 then
    ⟨negative, [0], List.replicate (-place - 1).toNat 0 ++ ds, none⟩
  else ⟨negative, ds.take 1, ds.drop 1, some (place < 0, digitsOf place.natAbs)⟩

/-- The spelling of a finite double. -/
def ofFloat (x : Binary64) : Number :=
  if x.isZero then ⟨x.negative, [0], [0], none⟩
  else
    let d := Shortest.decimal x
    let ds := digitsOf d.coefficient
    ofDigits x.negative ds (d.exponent + ds.length - 1)

end Number
end Conneg.Json
