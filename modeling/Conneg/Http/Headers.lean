import Conneg.Bytes

/-!
# Header fields

The header fields of a message in the order in which they came. Names are
compared without case, so they are kept in small letters; values are bytes. A
name may come several times, and a look-up takes the first.
-/

namespace Conneg

/-- The header fields of a message. -/
structure Headers where
  fields : List (String × Bytes)
  deriving DecidableEq

namespace Headers

/-- No fields. -/
def empty : Headers := ⟨[]⟩

/-- A name in small letters. -/
def normal (name : String) : String := String.ofList (name.toList.map Char.toLower)

/-- One more field, after the others. -/
def add (h : Headers) (name : String) (value : Bytes) : Headers :=
  ⟨h.fields ++ [(normal name, value)]⟩

/-- The fields of a list, in its order. -/
def ofList (fields : List (String × Bytes)) : Headers :=
  fields.foldl (fun h f => h.add f.1 f.2) empty

/-- All values of a name, given in small letters. -/
def values (h : Headers) (name : String) : List Bytes :=
  (h.fields.filter fun f => f.1 == name).map Prod.snd

/-- The first value of a name, given in small letters. -/
def first? (h : Headers) (name : String) : Option Bytes := (h.values name).head?

/-- The fields with one value for a name, in place of any it had. -/
def set (h : Headers) (name : String) (value : Bytes) : Headers :=
  ⟨h.fields.filter (fun f => f.1 != name) ++ [(name, value)]⟩

/-- A name that was set has exactly the value it was set to. -/
theorem values_set_self (h : Headers) (name : String) (value : Bytes) :
    (h.set name value).values name = [value] := by
  simp [set, values, List.filter_append, List.filter_filter]

end Headers

/-- The name of the field for a message's format. -/
def contentTypeName : String := "content-type"

/-- The name of the field for a body's announced length. -/
def contentLengthName : String := "content-length"

/-- The name of the field for the formats a client takes. -/
def acceptName : String := "accept"

/-- Whether a byte may stand in a header value that is text: a tab, or a
visible ASCII character or space. -/
def isHeaderText (b : UInt8) : Bool := b == 0x09 || (0x20 ≤ b && b ≤ 0x7E)

/-- The text of a header value, if all of it is text. -/
def headerText? (value : Bytes) : Option String :=
  if value.all isHeaderText then
    some (String.ofList (value.map fun b => Char.ofNat b.toNat))
  else none

end Conneg
