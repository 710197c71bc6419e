import Conneg.MsgPack.Token
import Conneg.Wire.Grammar
import Conneg.Wire.Read
import Conneg.Wire.Write

/-!
# MessagePack documents

The grammar over tokens, and the printer. A list or map announces how many trees
it holds, so a reading keeps, for each container it is inside of, how many are
still to come. Printing takes the shortest form of everything.

A body holds exactly one value: bytes after it are counted and refused, once the
value itself has been read without fault.
-/

namespace Conneg.MsgPack

open Wire

/-- Where a reading stands: the containers, innermost first, each with the
number of trees still to come. -/
abbrev State := List (Nat × Frame Atom)

/-- A value has been completed; it may complete its container, and so on. -/
def deliver (t : Node Atom) : State → Next State Atom
  | [] => .finish t
  | (left, f) :: outer =>
    if left ≤ 1 then deliver (f.add t).close outer
    else .go ((left - 1, f.add t) :: outer)

/-- A container for `count` trees has been opened. -/
def openFrame (f : Frame Atom) (count : Nat) (s : State) : Next State Atom :=
  if count = 0 then deliver f.close s else .go ((count, f) :: s)

/-- What a token does. -/
def step (t : Token) (s : State) : Next State Atom :=
  match t with
  | .atom x => deliver (.scalar x) s
  | .openList count => openFrame (.items []) count s
  | .openMap count => openFrame (.entries [] none) (2 * count) s

/-- The tree of a body that breaks inside these containers: `t` stands where the
next tree of the innermost one was to come. A container that has all its trees
is whole, though one of them is broken; any other ends in a break. -/
def cutAt (t : Node Atom) : State → Node Atom
  | [] => t
  | (left, f) :: outer =>
    cutAt (if left ≤ 1 then (f.add t).close else (f.add t).cut) outer

/-- The grammar of MessagePack. -/
def grammar : Grammar Token State Atom where
  token := Token.next
  token_shorter := Token.next_shorter
  step := step
  cut := cutAt .broken

/-- Reads a value from the front of a byte string. -/
def parse (bs : Bytes) : Parsed Atom := grammar.run bs []

/-- A marker and a number of `width` bytes. -/
def marked (marker : UInt8) (width n : Nat) : Bytes := marker :: Bytes.ofNatBE width n

/-- The marker of a string or container of `count` parts: a short form below
`limit`, else one of the forms with a length of one (where there is such a
form), two or four bytes. -/
def header (short : Nat) (limit : Nat) (one : Option UInt8) (two four : UInt8) (count : Nat) :
    Bytes :=
  if count < limit then [UInt8.ofNat (short + count)]
  else
    match one with
    | some marker =>
      if count < 2 ^ 8 then marked marker 1 count
      else if count < 2 ^ 16 then marked two 2 count
      else marked four 4 count
    | none => if count < 2 ^ 16 then marked two 2 count else marked four 4 count

/-- The shortest form of a natural number. -/
def printUnsigned (n : Nat) : Bytes :=
  if n < 2 ^ 7 then [UInt8.ofNat n]
  else if n < 2 ^ 8 then marked 0xCC 1 n
  else if n < 2 ^ 16 then marked 0xCD 2 n
  else if n < 2 ^ 32 then marked 0xCE 4 n
  else marked 0xCF 8 n

/-- The shortest form of a negative number. -/
def printSigned (n : Int) : Bytes :=
  if -32 ≤ n then [UInt8.ofNat (Bytes.pattern 1 n)]
  else if -2 ^ 7 ≤ n then marked 0xD0 1 (Bytes.pattern 1 n)
  else if -2 ^ 15 ≤ n then marked 0xD1 2 (Bytes.pattern 2 n)
  else if -2 ^ 31 ≤ n then marked 0xD2 4 (Bytes.pattern 4 n)
  else marked 0xD3 8 (Bytes.pattern 8 n)

/-- The bytes of a scalar. Extensions are read but never made. -/
def Atom.print : Atom → Bytes
  | .null => [0xC0]
  | .bool b => [if b then 0xC3 else 0xC2]
  | .unsigned n => printUnsigned n
  | .signed n => printSigned n
  | .float x => marked 0xCB 8 x.word
  | .text bs => header 0xA0 32 (some 0xD9) 0xDA 0xDB bs.length ++ bs
  | .binary bs => header 0 0 (some 0xC4) 0xC5 0xC6 bs.length ++ bs
  | .extension _ => []

/-- The number of items. -/
def countItems : Items Atom → Nat
  | .done => 0
  | .broken => 0
  | .cons _ rest => countItems rest + 1

/-- The number of entries. -/
def countEntries : Entries Atom → Nat
  | .done => 0
  | .broken => 0
  | .cons _ _ rest => countEntries rest + 1

mutual

/-- The bytes of a tree. -/
def printNode : Node Atom → Bytes
  | .broken => []
  | .scalar x => x.print
  | .seq xs => header 0x90 16 none 0xDC 0xDD (countItems xs) ++ printItems xs
  | .map es => header 0x80 16 none 0xDE 0xDF (countEntries es) ++ printEntries es

/-- The bytes of the items of a list. -/
def printItems : Items Atom → Bytes
  | .done => []
  | .broken => []
  | .cons t rest => printNode t ++ printItems rest

/-- The bytes of the entries of a map, key and value in turn. -/
def printEntries : Entries Atom → Bytes
  | .done => []
  | .broken => []
  | .cons k t rest => printNode k ++ printNode t ++ printEntries rest

end

/-- Writes a value of a schema. -/
def encode (s : Schema) (v : s.Carrier) : Option Bytes := (s.write writeRules v).map printNode

/-- Reads a value of a schema from a body that holds nothing else. -/
def decode (s : Schema) (body : Bytes) : Except Fault s.Carrier :=
  let parsed := parse body
  match s.read readRules readRules.nesting parsed.tree with
  | .error e => .error e
  | .ok v =>
    match parsed.rest with
    | some [] => .ok v
    | some rest => .error (.trailingBytes rest.length)
    | none => .error .unreadable

end Conneg.MsgPack
