/-!
# Texts of header fields

A header value is cut at separators, trimmed, and compared without regard to the case
of ASCII letters. Only the 26 letters fold: a long s or a Kelvin sign stays different
from `s` and `k`. White space is what has the Unicode property `White_Space`, so a
no-break space or a line separator around a media type is dropped like an ordinary
space. `fieldsOf` keeps empty fields and always gives at least one, and joining the
fields with the separator gives the text back.
-/

namespace Conneg.Text

/-! ## Letter case -/

/-- A text with its ASCII capitals made small. -/
def fold (cs : List Char) : List Char := cs.map Char.toLower

/-- Equality up to the case of ASCII letters. -/
def sameIgnoringCase (a b : List Char) : Bool := fold a == fold b

/-- Comparison without case is equality of the folded texts. -/
theorem sameIgnoringCase_iff {a b : List Char} :
    sameIgnoringCase a b = true ↔ fold a = fold b := by
  simp [sameIgnoringCase]

example : sameIgnoringCase "JSON".toList "json".toList = true := by decide
example : sameIgnoringCase "j\u017fon".toList "json".toList = false := by decide

/-! ## White space -/

/-- The code points with the property `White_Space`, as ranges. -/
def blankRanges : List (Nat × Nat) :=
  [(0x09, 0x0D), (0x20, 0x20), (0x85, 0x85), (0xA0, 0xA0), (0x1680, 0x1680),
   (0x2000, 0x200A), (0x2028, 0x2029), (0x202F, 0x202F), (0x205F, 0x205F), (0x3000, 0x3000)]

/-- White space, in the sense of the Unicode property. -/
def isBlank (c : Char) : Bool :=
  blankRanges.any fun r => r.1 ≤ c.toNat && c.toNat ≤ r.2

/-- A text without the white space around it. -/
def trim (cs : List Char) : List Char :=
  ((cs.dropWhile isBlank).reverse.dropWhile isBlank).reverse

example : (blankRanges.map fun r => r.2 - r.1 + 1).sum = 25 := by decide
example : trim " \u00a0a b\t\u3000".toList = "a b".toList := by decide

/-! ## Fields -/

/-- The fields of a text between the occurrences of `sep`. -/
def fieldsOf (sep : Char) : List Char → List (List Char)
  | [] => [[]]
  | c :: cs =>
    if c = sep then [] :: fieldsOf sep cs
    else
      match fieldsOf sep cs with
      | [] => [[c]]
      | field :: rest => (c :: field) :: rest

/-- There is always a first field. -/
theorem fieldsOf_ne_nil (sep : Char) (cs : List Char) : fieldsOf sep cs ≠ [] := by
  cases cs with
  | nil => simp [fieldsOf]
  | cons c cs =>
    simp only [fieldsOf]
    split
    · simp
    · split <;> simp

/-- A text without the separator is one field. -/
theorem fieldsOf_of_notMem {sep : Char} {cs : List Char} (h : sep ∉ cs) :
    fieldsOf sep cs = [cs] := by
  induction cs with
  | nil => rfl
  | cons c cs ih =>
    simp only [List.mem_cons, not_or] at h
    simp [fieldsOf, ih h.2, Ne.symm h.1]

/-- The text before the first occurrence of `sep`. -/
def before (sep : Char) (cs : List Char) : List Char := cs.takeWhile (· != sep)

/-- The text after the first occurrence of `sep`; empty when there is none. -/
def after (sep : Char) (cs : List Char) : List Char := (cs.dropWhile (· != sep)).drop 1

end Conneg.Text
