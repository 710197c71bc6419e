import Conneg.Bson.Element
import Conneg.Wire.Write

/-!
# BSON documents

A document is a length, its elements, and a zero byte. The length counts the
whole document, itself and the zero included, least significant byte first. A list is a
document whose keys count from zero, and reading does not look at them.

Reading a body checks its frame before anything else, and then the elements one by one,
up to the first that has no type, no key or no payload. Only a document can be a body, so
only records, maps, objects and choices with content can be written.
-/

namespace Conneg.Bson

open Wire

/-! ## Reading -/

/-- A document of elements given last to first, up to its end or to a break. -/
def documentNode (es : List (Node Atom × Node Atom)) (whole : Bool) : Node Atom :=
  .map (.prepend es (if whole then .done else .broken))

/-- What elements given last to first are read as. -/
def Nest.tree (es : List (Node Atom × Node Atom)) (whole : Bool) : Nest → Node Atom
  | .document => documentNode es whole
  | .list => .seq (.prepend (es.map Prod.snd) (if whole then .done else .broken))
  | .scope code => labelledPair "$code" (labelNode code) "$scope" (documentNode es whole)

/-- The elements of a document, onto those read so far, the last first; and
whether the document ends, at a zero byte that is its last. -/
def elements (bs : Bytes) (rev : List (Node Atom × Node Atom)) :
    List (Node Atom × Node Atom) × Bool :=
  match bs with
  | [] => (rev, false)
  | [b] => (rev, b == 0)
  | tag :: b :: bs =>
    match _hk : key? (b :: bs) with
    | none => (rev, false)
    | some (key, after) =>
      match _hp : payload? tag after with
      | none => (rev, false)
      | some (.whole t, rest) => elements rest ((.scalar (.text key), t) :: rev)
      | some (.nested nest body, rest) =>
        let (es, whole) := elements body []
        elements rest ((.scalar (.text key), nest.tree es whole) :: rev)
termination_by bs.length
decreasing_by
  all_goals
    have h1 := key?_shorter _hk
    have h2 := payload?_le _hp
    simp only [Payload.size, List.length_cons] at h1 h2 ⊢
    omega

/-- Reads a body, which is one document from its first byte to its last. -/
def parse (bs : Bytes) : Node Atom :=
  match embedded? bs with
  | some (body, []) =>
    let (es, whole) := elements body []
    documentNode es whole
  | _ => .broken

/-! ## Writing -/

/-- A document around its elements. -/
def frame (elements : Bytes) : Bytes :=
  Bytes.ofNatLE 4 (elements.length + 5) ++ elements ++ [0]

/-- An element of a type, with its key and its payload. -/
def element (tag : UInt8) (key payload : Bytes) : Bytes := tag :: key ++ 0 :: payload

/-- A text with its length and its final zero. -/
def printText (s : String) : Bytes :=
  let bs := Utf8.encode s
  Bytes.ofNatLE 4 (bs.length + 1) ++ bs ++ [0]

/-- The type and payload of a scalar. Bytes are read but never made. -/
def Atom.print : Atom → UInt8 × Bytes
  | .null => (0x0A, [])
  | .bool b => (0x08, [if b then 1 else 0])
  | .int32 n => (0x10, Bytes.ofNatLE 4 (Bytes.pattern 4 n))
  | .int64 n => (0x12, Bytes.ofNatLE 8 (Bytes.pattern 8 n))
  | .double x => (0x01, Bytes.ofNatLE 8 x.word)
  | .text s => (0x02, printText s)
  | .label s => (0x02, printText s)
  | .bytes _ => (0x0A, [])

/-- The bytes of a key, without its NUL. -/
def printKey : Node Atom → Bytes
  | .scalar x => (x.asKey?.map Utf8.encode).getD []
  | _ => []

mutual

/-- The type and payload of a tree. -/
def printNode : Node Atom → UInt8 × Bytes
  | .broken => (0x0A, [])
  | .scalar x => x.print
  | .seq xs => (0x04, frame (printItems 0 xs))
  | .map es => (0x03, frame (printEntries es))

/-- The elements of a list, from this index on. -/
def printItems : Nat → Items Atom → Bytes
  | _, .done => []
  | _, .broken => []
  | i, .cons t rest =>
    let (tag, payload) := printNode t
    element tag (Utf8.encode (decimalText i)) payload ++ printItems (i + 1) rest

/-- The elements of a document. -/
def printEntries : Entries Atom → Bytes
  | .done => []
  | .broken => []
  | .cons k t rest =>
    let (tag, payload) := printNode t
    element tag (printKey k) payload ++ printEntries rest

end

/-- Writes a value of a schema, if it is a document. -/
def encode (s : Schema) (v : s.Carrier) : Option Bytes :=
  match s.write writeRules v with
  | some (.map es) => some (frame (printEntries es))
  | _ => none

/-- Reads a value of a schema from a body. -/
def decode (s : Schema) (body : Bytes) : Except Fault s.Carrier :=
  s.read readRules readRules.nesting (parse body)

end Conneg.Bson
