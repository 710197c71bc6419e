import Conneg.Proofs.Json.Document
import Conneg.Proofs.Wire.RoundTrip

/-!
# Integer literals

A literal has as many digits as it likes. The reader has 64 bits for an integer; a literal that
does not fit them is taken for a double, and a double is no integer, so that none is ever cut
short (`Literal.asInteger?_meaning`). For every integer type that leaves exactly the literals in
its range (`decode_literal`).
-/

namespace Conneg

/-- Digits that do not begin with a zero are worth something. -/
theorem valueOf_pos {d : Digit} (hd : d ≠ 0) (ds : List Digit) : 0 < valueOf (d :: ds) := by
  have hfirst : 0 < d.val := Nat.pos_of_ne_zero fun h => hd (Fin.ext h)
  rw [valueOf_cons]
  exact Nat.add_pos_left (Nat.mul_pos hfirst (Nat.pow_pos (by decide))) _

namespace Json

/-- A decimal integer as it is spelled: digits, of which the first is a zero only in `0` itself,
perhaps behind a minus; but no `-0`. -/
structure Literal where
  negative : Bool
  digits : List Digit
  ne_nil : digits ≠ []
  leading : digits.head? = some 0 → digits = [0]
  ne_zero : negative = true → digits ≠ [0]

namespace Literal

/-- The bytes of a literal. -/
def text (l : Literal) : Bytes :=
  (if l.negative then [0x2D] else []) ++ l.digits.map Number.digitByte

/-- The integer that a literal stands for. -/
def value (l : Literal) : Int := if l.negative then -(valueOf l.digits : Int) else valueOf l.digits

variable (l : Literal)

/-- A literal as a number without point and exponent. -/
def number : Number := ⟨l.negative, l.digits, [], none⟩

theorem print_number : l.number.print = l.text := by
  simp only [Number.print, number, List.isEmpty_nil, if_true, List.append_nil]
  rfl

theorem spelled : l.number.Spelled where
  whole := l.ne_nil
  leading := by
    rintro d ds (hdigits : l.digits = d :: ds) hds rfl
    have hzero : l.digits = [0] := l.leading (by rw [hdigits]; rfl)
    exact hds (List.cons.inj (hdigits.symm.trans hzero)).2
  exponent := nofun

theorem valueOf_pos_of_negative (h : l.negative = true) : 0 < valueOf l.digits := by
  cases hdigits : l.digits with
  | nil => exact absurd hdigits l.ne_nil
  | cons d ds =>
    refine valueOf_pos ?_ ds
    rintro rfl
    exact l.ne_zero h (l.leading (by rw [hdigits]; rfl))

/-- A literal means its integer if that fits 64 bits, signed or unsigned. -/
theorem toInt?_number :
    l.number.toInt? = if -2 ^ 63 ≤ l.value ∧ l.value < 2 ^ 64 then some l.value else none := by
  show (if l.negative = true then
      if 0 < valueOf l.digits ∧ valueOf l.digits ≤ 2 ^ 63 then some (-(valueOf l.digits : Int))
      else none
    else if valueOf l.digits < 2 ^ 64 then some (valueOf l.digits : Int) else none) = _
  unfold value
  by_cases hneg : l.negative = true
  · have hpos := l.valueOf_pos_of_negative hneg
    have hiff : 0 < valueOf l.digits ∧ valueOf l.digits ≤ 2 ^ 63 ↔
        -2 ^ 63 ≤ -(valueOf l.digits : Int) ∧ -(valueOf l.digits : Int) < 2 ^ 64 := by omega
    simp only [if_pos hneg, hiff]
  · have hiff : valueOf l.digits < 2 ^ 64 ↔
        -2 ^ 63 ≤ (valueOf l.digits : Int) ∧ (valueOf l.digits : Int) < 2 ^ 64 := by omega
    simp only [if_neg hneg, hiff]

/-- As an integer of some type, a literal means its integer or nothing. -/
theorem asInteger?_meaning (k : IntKind) :
    l.number.meaning.asInteger? k = Integer.ofInt? k l.value := by
  unfold Number.meaning
  rw [l.toInt?_number]
  by_cases hfits : -2 ^ 63 ≤ l.value ∧ l.value < 2 ^ 64
  · rw [if_pos hfits]
    rfl
  · -- what is left is a double or nothing, and the integer is in no type's range
    have hnone : Integer.ofInt? k l.value = none := by
      rw [Integer.ofInt?_eq_none]
      cases k <;> simp only [IntKind.low, IntKind.high] <;> omega
    rw [if_neg hfits, hnone]
    cases l.number.toFloat? <;> rfl

end Literal

/-- A body that is a literal is read as what the literal means. -/
theorem decode_literal (l : Literal) (k : IntKind) :
    decode (.integer k) l.text = (Integer.ofInt? k l.value).elim (.error .unreadable) .ok := by
  have hparse : parse l.text = ⟨.scalar (.number l.number), some []⟩ := by
    rw [← l.print_number]
    exact parse_printNode (t := .scalar (.number l.number)) l.spelled
  have hread : (Schema.integer k).read readRules readRules.nesting (.scalar (.number l.number))
      = (l.number.meaning.asInteger? k).elim (.error .unreadable) .ok :=
    Wire.Reader.leaf_eq_elim
  simp only [decode, decodeBy, hparse, hread, l.asInteger?_meaning]
  cases Integer.ofInt? k l.value <;> rfl

end Json
end Conneg
