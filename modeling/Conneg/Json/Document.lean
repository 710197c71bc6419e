import Conneg.Json.Token
import Conneg.Wire.Grammar
import Conneg.Wire.Read
import Conneg.Wire.Write

/-!
# JSON documents

The grammar of lists and objects over tokens, and the printer. Reading keeps a
place in the grammar, what may come next, and the containers it is inside of.
Printing is compact: no blanks.

A document is read from the front of a byte string, and a body is a document
with nothing but blanks after it. That is looked at last, so a fault of the value
is reported before anything that follows the value.

The text that stands for a value under the raw key is a body on its own, with its own
limit on nesting.
-/

namespace Conneg.Json

open Wire

/-- What may come next. -/
inductive Place
  /-- A value. -/
  | value
  /-- A value, or the end of the list just opened. -/
  | firstItem
  /-- A key, or the end of the object just opened. -/
  | firstKey
  /-- A key. -/
  | key
  /-- The colon after a key. -/
  | colon
  /-- A comma, or the end of the innermost container. -/
  | separator
  deriving DecidableEq

/-- Where a reading stands: the place, and the containers, innermost first. -/
structure State where
  place : Place
  frames : List (Frame Atom)

/-- A value has been completed. -/
def deliver (t : Node Atom) : List (Frame Atom) → Next State Atom
  | [] => .finish t
  | f :: fs => .go ⟨.separator, f.add t :: fs⟩

/-- A token where a value may begin. -/
def beginValue (t : Token) (frames : List (Frame Atom)) : Next State Atom :=
  match t with
  | .atom x => deliver (.scalar x) frames
  | .openList => .go ⟨.firstItem, .items [] :: frames⟩
  | .openObject => .go ⟨.firstKey, .entries [] none :: frames⟩
  | _ => .refuse

/-- A token where a key is wanted. -/
def beginKey (t : Token) (frames : List (Frame Atom)) : Next State Atom :=
  match t, frames with
  | .atom (.text raw), f :: fs => .go ⟨.colon, f.add (.scalar (.text raw)) :: fs⟩
  | _, _ => .refuse

/-- What a token does. -/
def step (t : Token) (s : State) : Next State Atom :=
  match s.place, t, s.frames with
  | .value, t, frames => beginValue t frames
  | .firstItem, .closeList, f :: fs => deliver f.close fs
  | .firstItem, t, frames => beginValue t frames
  | .firstKey, .closeObject, f :: fs => deliver f.close fs
  | .firstKey, t, frames => beginKey t frames
  | .key, t, frames => beginKey t frames
  | .colon, .colon, frames => .go ⟨.value, frames⟩
  | .separator, .comma, .items rev :: fs => .go ⟨.value, .items rev :: fs⟩
  | .separator, .comma, .entries rev k :: fs => .go ⟨.key, .entries rev k :: fs⟩
  | .separator, .closeList, .items rev :: fs => deliver (Frame.items rev).close fs
  | .separator, .closeObject, .entries rev k :: fs => deliver (Frame.entries rev k).close fs
  | _, _, _ => .refuse

/-- The grammar of JSON. -/
def grammar : Grammar Token State Atom where
  token := Token.next
  token_shorter := Token.next_shorter
  step := step
  cut := fun s => Frame.cutAll s.frames

/-- Reads a document from the front of a byte string. -/
def parse (bs : Bytes) : Parsed Atom := grammar.run bs ⟨.value, []⟩

/-- The text of a scalar. -/
def Atom.print : Atom → Bytes
  | .null => [0x6E, 0x75, 0x6C, 0x6C]
  | .bool b => boolBytes b
  | .number n => n.print
  | .text raw => 0x22 :: raw ++ [0x22]

mutual

/-- The text of a tree. -/
def printNode : Node Atom → Bytes
  | .broken => []
  | .scalar x => x.print
  | .seq xs => 0x5B :: printItems true xs ++ [0x5D]
  | .map es => 0x7B :: printEntries true es ++ [0x7D]

/-- The texts of the items of a list, with commas before all but the first. -/
def printItems : Bool → Items Atom → Bytes
  | _, .done => []
  | _, .broken => []
  | first, .cons t rest =>
    (if first then [] else [0x2C]) ++ printNode t ++ printItems false rest

/-- The texts of the members of an object, with commas before all but the
first. -/
def printEntries : Bool → Entries Atom → Bytes
  | _, .done => []
  | _, .broken => []
  | first, .cons k t rest =>
    (if first then [] else [0x2C]) ++ printNode k ++ 0x3A :: printNode t ++
      printEntries false rest

end

/-- Writes a value of a schema as a document. -/
def encode (s : Schema) (v : s.Carrier) : Option Bytes := (s.write writeRules v).map printNode

/-- Reads a value of a schema, by these rules, from a document that takes the whole
body, blanks around it aside. -/
def decodeBy (R : ReadRules Atom) (s : Schema) (body : Bytes) : Except Fault s.Carrier :=
  let parsed := parse body
  match s.read R R.nesting parsed.tree with
  | .error e => .error e
  | .ok v =>
    match parsed.rest with
    | some rest => if rest.all Token.isBlank then .ok v else .error .unreadable
    | none => .error .unreadable

/-- The value that a text spells. A text under the raw key stands for a value in the
same way; it is shorter than the text that it is in. -/
def rawValue? (text : String) : Option Any :=
  (decodeBy (rulesFor fun inner =>
    if _h : (Utf8.encode inner).length < (Utf8.encode text).length then rawValue? inner
    else none) .any (Utf8.encode text)).toOption
termination_by (Utf8.encode text).length
decreasing_by exact _h

/-- How JSON is read. -/
def readRules : ReadRules Atom := rulesFor rawValue?

/-- Reads a value of a schema from a body. -/
def decode (s : Schema) (body : Bytes) : Except Fault s.Carrier := decodeBy readRules s body

end Conneg.Json
