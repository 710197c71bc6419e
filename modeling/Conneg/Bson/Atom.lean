import Conneg.Json.Document

/-!
# Scalars of BSON and their meaning

Integers come in 32 and 64 bits, both signed. Bytes are text when they are UTF-8. The
keys of documents are texts without NUL, for a NUL ends them. A value of a type that has
no scalar, such as an object identifier or a time, is read as a document with a `label`
for each name and text in it: that names a member or a field, or is a text, like any
other, but never a case of a choice.
-/

namespace Conneg.Bson

open Wire

/-- A scalar. -/
inductive Atom
  | null
  | bool (b : Bool)
  | int32 (n : Int)
  | int64 (n : Int)
  | double (x : Binary64)
  | text (s : String)
  | label (s : String)
  | bytes (bs : Bytes)
  deriving DecidableEq

namespace Atom

/-- What a scalar means. -/
def meaning : Atom → Scalar
  | .null => .null
  | .bool b => .bool b
  | .int32 n => .integer n
  | .int64 n => .integer n
  | .double x => .float x
  | .text s => .text s
  | .label s => .text s
  | .bytes bs => .bytes bs

/-- The text of a key. -/
def asKey? : Atom → Option String
  | .text s => some s
  | .label s => some s
  | _ => none

/-- The case that a text names. -/
def caseLabel : Atom → Option Label
  | .text s => some (.name s)
  | _ => none

end Atom

/-- The key of a map entry: only texts are keys. -/
def mapKey? : (k : KeyKind) → Node Atom → Option k.Carrier
  | .text, .scalar x => x.asKey?
  | _, _ => none

/-- A text as a key; a NUL would end it too early. -/
def writeName (s : String) : Option Atom :=
  if '\x00' ∈ s.toList then none else some (.text s)

/-- The key that a map's key is written as. -/
def writeKey : (k : KeyKind) → k.Carrier → Option (Node Atom)
  | .text, s => (writeName s).map .scalar
  | _, _ => none

/-- The element of an integer, by its type. An unsigned one is stored as a
signed 64-bit number and has to fit it. -/
def writeInteger (k : IntKind) (n : Int) : Option Atom :=
  match k with
  | .u8 => some (.int32 n)
  | .i32 => some (.int32 n)
  | .i64 => some (.int64 n)
  | .u64 => if n < 2 ^ 63 then some (.int64 n) else none

/-- How BSON is read: nesting is without limit, and a case without content is
only ever a text. A document gives its length, so a reader that has what it
wants leaves the rest of it unread. -/
def readRules : ReadRules Atom where
  meaning := Atom.meaning
  fieldLabel := fun x => x.asKey?.map .name
  caseLabel := Atom.caseLabel
  memberName := fun _ x => x.asKey?
  rawValue? := Json.rawValue?
  mapKey := mapKey?
  asSequence := id
  openEnded := fun _ => true
  counted := false
  nullCases := false
  skipsFreely := true
  nesting := none

/-- How BSON is written. -/
def writeRules : WriteRules Atom where
  null := .null
  bool := .bool
  integer := writeInteger
  float := .double
  text := .text
  name := writeName
  mapKey := writeKey

end Conneg.Bson
