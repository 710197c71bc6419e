import Conneg.Number.Natural

/-!
# Integers of a fixed width

The four integer types that a body can hold. A value is a whole number together
with the proof that it lies in its type's range, so nothing that holds one can
wrap.
-/

namespace Conneg

/-- An integer type, by sign and width. -/
inductive IntKind
  | u8
  | i32
  | i64
  | u64
  deriving DecidableEq, Repr

namespace IntKind

/-- The least number of an integer type. -/
def low : IntKind → Int
  | .u8 => 0
  | .i32 => -2 ^ 31
  | .i64 => -2 ^ 63
  | .u64 => 0

/-- The greatest number of an integer type. -/
def high : IntKind → Int
  | .u8 => 2 ^ 8 - 1
  | .i32 => 2 ^ 31 - 1
  | .i64 => 2 ^ 63 - 1
  | .u64 => 2 ^ 64 - 1

end IntKind

/-- A number in the range of an integer type. -/
structure Integer (k : IntKind) where
  val : Int
  low_le : k.low ≤ val
  le_high : val ≤ k.high
  deriving DecidableEq

namespace Integer

@[ext] theorem ext {k : IntKind} {a b : Integer k} (h : a.val = b.val) : a = b := by
  cases a; cases b; simp_all

/-- The integer of this type with this number, if it is in range. -/
def ofInt? (k : IntKind) (n : Int) : Option (Integer k) :=
  if h : k.low ≤ n ∧ n ≤ k.high then some ⟨n, h.1, h.2⟩ else none

/-- An integer is read back from its number. -/
theorem ofInt?_val {k : IntKind} (a : Integer k) : ofInt? k a.val = some a := by
  simp [ofInt?, a.low_le, a.le_high]

/-- Reading never changes the number: it gives the integer or refuses. -/
theorem ofInt?_eq_some {k : IntKind} {n : Int} {a : Integer k} :
    ofInt? k n = some a ↔ a.val = n := by
  constructor
  · intro h
    simp only [ofInt?] at h
    split at h
    · simp only [Option.some.injEq] at h; rw [← h]
    · simp at h
  · intro h; rw [← h]; exact ofInt?_val a

/-- Exactly the numbers outside the range are refused. -/
theorem ofInt?_eq_none {k : IntKind} {n : Int} :
    ofInt? k n = none ↔ ¬ (k.low ≤ n ∧ n ≤ k.high) := by
  simp [ofInt?]

/-- Zero, which every type has. -/
def zero (k : IntKind) : Integer k :=
  ⟨0, by cases k <;> decide, by cases k <;> decide⟩

/-- The integer of this type nearest to a number: the number itself if it is in
range, otherwise the end of the range on its side. -/
def nearest (k : IntKind) (n : Int) : Integer k :=
  ⟨max k.low (min n k.high), by cases k <;> simp only [IntKind.low, IntKind.high] <;> omega,
    by cases k <;> simp only [IntKind.low, IntKind.high] <;> omega⟩

/-- A number in range is its own nearest integer. -/
theorem nearest_val {k : IntKind} {n : Int} (hlow : k.low ≤ n) (hhigh : n ≤ k.high) :
    (nearest k n).val = n := by
  simp only [nearest]; omega

instance (k : IntKind) : Ord (Integer k) := ⟨fun a b => compare a.val b.val⟩

theorem compare_eq {k : IntKind} (a b : Integer k) : compare a b = compare a.val b.val := rfl

instance (k : IntKind) : Std.TransOrd (Integer k) where
  eq_swap := fun {a b} => by
    rw [compare_eq, compare_eq]; exact Std.OrientedCmp.eq_swap
  isLE_trans := fun {a b c} hab hbc => by
    rw [compare_eq] at hab hbc ⊢; exact Std.TransCmp.isLE_trans hab hbc

instance (k : IntKind) : Std.LawfulEqOrd (Integer k) where
  compare_self := fun {a} => by rw [compare_eq]; exact Std.ReflCmp.compare_self
  eq_of_compare := fun {a b} h => by
    rw [compare_eq] at h; exact Integer.ext (Std.LawfulEqCmp.eq_of_compare h)

end Integer
end Conneg
