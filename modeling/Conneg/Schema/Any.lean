import Conneg.Number.Binary64

/-!
# Values of no fixed type

A body may be read without a schema, as a tree of nulls, booleans, numbers,
texts, lists and objects. Its whole numbers fit 64 bits, signed or unsigned, and
its other numbers are finite: neither an infinity nor a NaN can be in one.

An object keeps its keys in the order in which they first came; `put` gives a
key that is there already its new value in its old place. One key is not for objects:
a map that is led by it stands for the value that the text under it spells in JSON.
-/

namespace Conneg

/-- A whole number that fits 64 bits, signed or unsigned. -/
structure WideInt where
  val : Int
  low_le : -2 ^ 63 ≤ val
  lt_high : val < 2 ^ 64
  deriving DecidableEq

@[ext] theorem WideInt.ext {a b : WideInt} (h : a.val = b.val) : a = b := by
  cases a; cases b; simp_all

/-- The wide integer with this number, if it fits. -/
def WideInt.ofInt? (n : Int) : Option WideInt :=
  if h : -2 ^ 63 ≤ n ∧ n < 2 ^ 64 then some ⟨n, h.1, h.2⟩ else none

theorem WideInt.ofInt?_val (a : WideInt) : ofInt? a.val = some a := by
  simp only [ofInt?, a.low_le, a.lt_high, and_self, dite_true]

/-- A double that is neither an infinity nor a NaN. -/
structure Finite64 where
  val : Binary64
  finite : val.isFinite = true
  deriving DecidableEq

@[ext] theorem Finite64.ext {a b : Finite64} (h : a.val = b.val) : a = b := by
  cases a; cases b; simp_all

/-- The finite double with these bits, if it is finite. -/
def Finite64.of? (x : Binary64) : Option Finite64 :=
  if h : x.isFinite = true then some ⟨x, h⟩ else none

theorem Finite64.of?_val (a : Finite64) : of? a.val = some a := by
  simp [of?, a.finite]

/-- A value of no fixed type. -/
inductive Any
  | null
  | bool (b : Bool)
  | integer (n : WideInt)
  | float (x : Finite64)
  | text (s : String)
  | list (xs : List Any)
  | object (members : List (String × Any))

namespace Any

/-- The key under which a text stands for the value that it spells in JSON. -/
def rawKey : String := "$serde_json::private::RawValue"

/-- The members of an object after one more was given: a key that is there
keeps its place and takes the new value. -/
def put (key : String) (value : Any) : List (String × Any) → List (String × Any)
  | [] => [(key, value)]
  | (k, v) :: members =>
    if k = key then (k, value) :: members else (k, v) :: put key value members

/-- A key that is not there goes to the end. -/
theorem put_of_notMem {key : String} {value : Any} {members : List (String × Any)}
    (h : key ∉ members.map Prod.fst) : put key value members = members ++ [(key, value)] := by
  induction members with
  | nil => rfl
  | cons m members ih =>
    obtain ⟨k, v⟩ := m
    simp only [List.map_cons, List.mem_cons, not_or] at h
    simp [put, Ne.symm h.1, ih h.2]

end Any
end Conneg
