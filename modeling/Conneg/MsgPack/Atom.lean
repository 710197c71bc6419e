import Conneg.Json.Document

/-!
# Scalars of MessagePack and their meaning

Integers come in an unsigned and a signed form. Both mean the same number, but
only the unsigned one may stand for the place of a field or a case. Texts and
byte strings are kept as bytes; a byte string is taken for a text where it is
UTF-8, and for a list of numbers where a sequence is wanted. Extensions, and
texts that are not UTF-8, can only be passed over.
-/

namespace Conneg.MsgPack

open Wire

/-- A scalar. -/
inductive Atom
  | null
  | bool (b : Bool)
  | unsigned (n : Nat)
  | signed (n : Int)
  | float (x : Binary64)
  | text (bs : Bytes)
  | binary (bs : Bytes)
  | extension (bs : Bytes)
  deriving DecidableEq

namespace Atom

/-- What a scalar means. -/
def meaning : Atom → Scalar
  | .null => .null
  | .bool b => .bool b
  | .unsigned n => .integer n
  | .signed n => .integer n
  | .float x => .float x
  | .text bs =>
    match Utf8.decode? bs with
    | some s => .text s
    | none => .void
  | .binary bs => .bytes bs
  | .extension _ => .void

/-- The text that a text or a byte string holds, if it is UTF-8. -/
def asText? : Atom → Option String
  | .text bs => Utf8.decode? bs
  | .binary bs => Utf8.decode? bs
  | _ => none

/-- The field that a key names. A text or byte string that is not UTF-8 names
some field, but none that is declared. -/
def fieldLabel : Atom → Option Label
  | .unsigned n => some (.index n)
  | .text bs => some (.name (Utf8.decodeLossy bs))
  | .binary bs => some (.name (Utf8.decodeLossy bs))
  | _ => none

/-- The case that a key names. Unlike a byte string, a text that is not UTF-8
is refused. -/
def caseLabel : Atom → Option Label
  | .unsigned n => some (.index n)
  | .text bs => (Utf8.decode? bs).map .name
  | .binary bs => some (.name (Utf8.decodeLossy bs))
  | _ => none

/-- The key of a member of an object without schema. The first key tells an
object from other things and has to be a text; a later one may be a byte
string. -/
def memberName (first : Bool) : Atom → Option String
  | .text bs => Utf8.decode? bs
  | .binary bs => if first then none else Utf8.decode? bs
  | _ => none

end Atom

/-- A tree where a sequence is wanted: a byte string is the list of its
bytes. -/
def asSequence : Node Atom → Node Atom
  | .scalar (.binary bs) => .seq (.ofList (bs.map fun b => .scalar (.unsigned b.toNat)))
  | t => t

/-- A byte string taken for a list may have more bytes than are wanted; a list
may not have more items. -/
def openEnded : Node Atom → Bool
  | .scalar (.binary _) => true
  | _ => false

/-- The integers that all items of a sequence mean. -/
def integers? : Items Atom → Option (List (Integer .i64))
  | .done => some []
  | .broken => none
  | .cons (.scalar x) rest => do
    let n ← x.meaning.asInteger? .i64
    let ns ← integers? rest
    some (n :: ns)
  | .cons _ _ => none

/-- The key of a map entry. -/
def mapKey? : (k : KeyKind) → Node Atom → Option k.Carrier
  | .text, .scalar x => x.asText?
  | .integer, .scalar x => x.meaning.asInteger? .i64
  | .boolean, .scalar x => x.meaning.asBool?
  | .list, t =>
    match asSequence t with
    | .seq xs => integers? xs
    | _ => none
  | _, _ => none

/-- The shortest form of an integer: unsigned from zero up, signed below. -/
def integerAtom (n : Int) : Atom := if n < 0 then .signed n else .unsigned n.toNat

/-- The key that a map's key is written as. -/
def writeKey : (k : KeyKind) → k.Carrier → Option (Node Atom)
  | .text, s => some (.scalar (.text (Utf8.encode s)))
  | .integer, n => some (.scalar (integerAtom n.val))
  | .boolean, b => some (.scalar (.bool b))
  | .list, ns => some (.seq (.ofList (ns.map fun n => .scalar (integerAtom n.val))))

/-- How MessagePack is read. Values nest up to 1023 deep, passed over or
not. -/
def readRules : ReadRules Atom where
  meaning := Atom.meaning
  fieldLabel := Atom.fieldLabel
  caseLabel := Atom.caseLabel
  memberName := Atom.memberName
  rawValue? := Json.rawValue?
  mapKey := mapKey?
  asSequence := asSequence
  openEnded := openEnded
  counted := true
  nullCases := true
  skipsFreely := false
  nesting := some 1023

/-- How MessagePack is written: everything has a form. -/
def writeRules : WriteRules Atom where
  null := .null
  bool := .bool
  integer := fun _ n => some (integerAtom n)
  float := .float
  text := fun s => .text (Utf8.encode s)
  name := fun s => some (.text (Utf8.encode s))
  mapKey := writeKey

end Conneg.MsgPack
