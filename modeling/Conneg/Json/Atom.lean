import Conneg.Json.Number
import Conneg.Json.Quoting
import Conneg.Wire.Rules

/-!
# Scalars of JSON and their meaning

A scalar keeps its spelling: the literal of a number, the raw bytes between the
quotes of a text. A value that is passed over is so checked only for its form; a
text that is no text, or a number too large for a double, is a scalar without
meaning.

The keys of an object are texts. A map with integer or boolean keys takes them
from the raw bytes of the key, which must be exactly a literal; lists are no keys.
-/

namespace Conneg.Json

open Wire

/-- A scalar as it is spelled. -/
inductive Atom
  | null
  | bool (b : Bool)
  | number (n : Number)
  | text (raw : Bytes)
  deriving DecidableEq

/-- What a number means. -/
def Number.meaning (n : Number) : Scalar :=
  match n.toInt? with
  | some i => .integer i
  | none =>
    match n.toFloat? with
    | some x => .float x
    | none => .void

namespace Atom

/-- What a scalar means. -/
def meaning : Atom → Scalar
  | .null => .null
  | .bool b => .bool b
  | .number n => n.meaning
  | .text raw =>
    match Quoting.decode? raw with
    | some s => .text s
    | none => .void

/-- The text that a scalar means, if it is one. -/
def asText? : Atom → Option String
  | .text raw => Quoting.decode? raw
  | _ => none

end Atom

/-- The bytes of `true` and of `false`. -/
def boolBytes (b : Bool) : Bytes :=
  if b then [0x74, 0x72, 0x75, 0x65] else [0x66, 0x61, 0x6C, 0x73, 0x65]

/-- The integer key whose literal is exactly these bytes. -/
def integerKey? (raw : Bytes) : Option (Integer .i64) :=
  match Number.scan raw with
  | some (n, []) => n.toInt?.bind (Integer.ofInt? .i64)
  | _ => none

/-- The boolean key whose literal is exactly these bytes. -/
def boolKey? (raw : Bytes) : Option Bool :=
  if raw = boolBytes true then some true else if raw = boolBytes false then some false else none

/-- The key of a map entry. -/
def mapKey? : (k : KeyKind) → Node Atom → Option k.Carrier
  | .text, .scalar (.text raw) => Quoting.decode? raw
  | .integer, .scalar (.text raw) => integerKey? raw
  | .boolean, .scalar (.text raw) => boolKey? raw
  | _, _ => none

/-- The key that a map's key is written as. -/
def writeKey : (k : KeyKind) → k.Carrier → Option (Node Atom)
  | .text, s => some (.scalar (.text (Quoting.encode s)))
  | .integer, n => some (.scalar (.text (Number.ofInt n.val).print))
  | .boolean, b => some (.scalar (.text (boolBytes b)))
  | .list, _ => none

/-- How JSON is read, given what texts under the raw key stand for. Values nest up to
127 deep, but for those passed over. -/
def rulesFor (rawValue? : String → Option Any) : ReadRules Atom where
  meaning := Atom.meaning
  fieldLabel := fun x => x.asText?.map .name
  caseLabel := fun x => x.asText?.map .name
  memberName := fun _ x => x.asText?
  rawValue? := rawValue?
  mapKey := mapKey?
  asSequence := id
  openEnded := fun _ => false
  counted := false
  nullCases := true
  skipsFreely := true
  nesting := some 127

/-- How JSON is written. A double that is not finite is written as null. -/
def writeRules : WriteRules Atom where
  null := .null
  bool := .bool
  integer := fun _ n => some (.number (.ofInt n))
  float := fun x => if x.isFinite then .number (.ofFloat x) else .null
  text := fun s => .text (Quoting.encode s)
  name := fun s => some (.text (Quoting.encode s))
  mapKey := writeKey

end Conneg.Json
