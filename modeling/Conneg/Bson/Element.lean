import Conneg.Bson.Atom
import Conneg.Wire.Read

/-!
# Elements of BSON documents

An element is a byte for its type, a key that a NUL ends, and a payload. `ElementType` has
every type there is, and `ElementType.layout` is the table of what their payloads are: how
the end of a payload is found (`Layout`), and what is made of its bytes.

The frame of a payload is checked before its key is seen: the bytes that it takes, the zero
at the end of a text or an embedded document, and the UTF-8 of what a NUL ends. What the
bytes mean is looked at when the value is wanted, so there a fault is a `broken` tree.

A type that no scalar stands for is read as a document of one or two members whose names
begin with a dollar. These names, and the texts under them, are `label`s.
-/

namespace Conneg.Bson

open Wire

/-! ## Parts of elements -/

/-- A length of four bytes and the bytes after it; a negative one is none. -/
def length? (bs : Bytes) : Option (Nat × Bytes) :=
  match Bytes.split? 4 bs with
  | none => none
  | some (front, rest) =>
    let n := Bytes.toNatLE front
    if n < 2 ^ 31 then some (n, rest) else none

/-- The embedded document at the front of a byte string, without its length but
with its final zero; and the bytes after it. -/
def embedded? (bs : Bytes) : Option (Bytes × Bytes) :=
  match length? bs with
  | none => none
  | some (n, after) =>
    if n < 5 then none
    else
      match Bytes.split? (n - 4) after with
      | none => none
      | some (body, rest) => if body.getLast? = some 0 then some (body, rest) else none

/-- The text at the front of a byte string, without its length and its final
zero; and the bytes after it. -/
def string? (bs : Bytes) : Option (Bytes × Bytes) :=
  match length? bs with
  | none => none
  | some (n, after) =>
    match Bytes.split? n after with
    | none => none
    | some (body, rest) => if body.getLast? = some 0 then some (body.dropLast, rest) else none

/-- The key at the front of a byte string, and the bytes after its NUL. -/
def key? (bs : Bytes) : Option (String × Bytes) :=
  match bs.dropWhile (· != 0) with
  | [] => none
  | _ :: rest => (Utf8.decode? (bs.takeWhile (· != 0))).map fun s => (s, rest)

/-- The integer of a payload. -/
def signedLE (bs : Bytes) : Int := Bytes.signed bs.length (Bytes.toNatLE bs)

/-! ## Texts for bytes and numbers -/

/-- The two hexadecimal digits of a byte. -/
def hexByte (b : UInt8) : List Char :=
  [Nat.digitChar (b.toNat / 16), Nat.digitChar (b.toNat % 16)]

/-- The text of an integer. -/
def integerText (n : Int) : String :=
  if n < 0 then "-" ++ decimalText n.natAbs else decimalText n.natAbs

/-- The character for six bits. -/
def base64Digit (n : Nat) : Char :=
  if n < 26 then Char.ofNat (n + 65)
  else if n < 52 then Char.ofNat (n + 71)
  else if n < 62 then Char.ofNat (n - 4)
  else if n = 62 then '+' else '/'

/-- Bytes in base 64, three of them in four characters, padded at the end. -/
def base64 : Bytes → List Char
  | a :: b :: c :: rest =>
    let n := (a.toNat * 256 + b.toNat) * 256 + c.toNat
    base64Digit (n / 2 ^ 18) :: base64Digit (n / 2 ^ 12 % 64) :: base64Digit (n / 2 ^ 6 % 64) ::
      base64Digit (n % 64) :: base64 rest
  | [a, b] =>
    let n := (a.toNat * 256 + b.toNat) * 4
    [base64Digit (n / 2 ^ 12), base64Digit (n / 2 ^ 6 % 64), base64Digit (n % 64), '=']
  | [a] =>
    let n := a.toNat * 16
    [base64Digit (n / 2 ^ 6), base64Digit (n % 64), '=', '=']
  | [] => []

example : base64 [0x4D, 0x61, 0x6E, 0xFB] = "TWFu+w==".toList := by decide

/-! ## What payloads mean -/

/-- A text under a name that begins with a dollar. -/
def labelNode (s : String) : Node Atom := .scalar (.label s)

/-- A document of one member. -/
def labelled (key : String) (t : Node Atom) : Node Atom :=
  .map (.ofList [(labelNode key, t)])

/-- A document of two members. -/
def labelledPair (key : String) (t : Node Atom) (key' : String) (t' : Node Atom) : Node Atom :=
  .map (.ofList [(labelNode key, t), (labelNode key', t')])

/-- What is made of a text, which is UTF-8. -/
def textNode (make : String → Node Atom) (bs : Bytes) : Node Atom :=
  match Utf8.decode? bs with
  | some s => make s
  | none => .broken

/-- A boolean is the byte 0 or 1. -/
def boolNode (bs : Bytes) : Node Atom :=
  if bs = [0] then .scalar (.bool false) else if bs = [1] then .scalar (.bool true) else .broken

/-- An object identifier. -/
def objectIdNode (bs : Bytes) : Node Atom :=
  labelled "$oid" (labelNode (String.ofList (bs.flatMap hexByte)))

/-- A time in milliseconds. -/
def dateNode (time : Int) : Node Atom :=
  labelled "$date" (labelled "$numberLong" (labelNode (integerText time)))

/-- A timestamp: seconds, and a number that tells those of one second apart. -/
def timestampNode (time increment : Nat) : Node Atom :=
  labelled "$timestamp"
    (labelledPair "t" (.scalar (.int64 time)) "i" (.scalar (.int64 increment)))

/-- A regular expression. -/
def regexNode (pattern options : String) : Node Atom :=
  labelled "$regularExpression"
    (labelledPair "pattern" (labelNode pattern) "options" (labelNode options))

/-- A pointer into a collection. -/
def pointerNode (id : Bytes) (collection : String) : Node Atom :=
  labelled "$dbPointer" (labelledPair "$ref" (labelNode collection) "$id" (objectIdNode id))

/-- Bytes of a subtype. Those of the generic one are bytes, any other's are named with their
subtype. -/
def bytesNode (subtype : UInt8) (bs : Bytes) : Node Atom :=
  if subtype = 0 then .scalar (.bytes bs)
  else labelled "$binary" (labelledPair "subType" (labelNode (String.ofList (hexByte subtype)))
    "base64" (labelNode (String.ofList (base64 bs))))

/-- What is made of a subtype and the bytes after it. The old subtype has the length of its
bytes a second time in front of them. -/
def binaryNode (subtype : UInt8) (bs : Bytes) : Node Atom :=
  if subtype = 2 then
    match length? bs with
    | some (n, inner) => if n = inner.length then bytesNode subtype inner else .broken
    | none => .broken
  else bytesNode subtype bs

/-! ## Payloads -/

/-- What is made of the elements of an embedded document. -/
inductive Nest
  | document
  | list
  /-- Code with the document of its variables. -/
  | scope (code : String)

/-- The payload of an element: a tree, or the bytes of a document that is still to be
read. -/
inductive Payload
  | whole (t : Node Atom)
  | nested (nest : Nest) (body : Bytes)

/-- The bytes of a payload that are still to be read. -/
def Payload.size : Payload → Nat
  | .whole _ => 0
  | .nested _ body => body.length

/-- A payload of `width` bytes. -/
def fixed? (width : Nat) (make : Bytes → Node Atom) (bs : Bytes) : Option (Payload × Bytes) :=
  (Bytes.split? width bs).map fun (front, rest) => (.whole (make front), rest)

/-- What is made of code with its scope, given with its length in front: a text, and then a
document to the last byte. -/
def scopedPayload (bs : Bytes) : Payload :=
  match string? (bs.drop 4) with
  | none => .whole .broken
  | some (code, after) =>
    match Utf8.decode? code, embedded? after with
    | some s, some (body, []) => .nested (.scope s) body
    | _, _ => .whole .broken

/-- How a payload is framed, with what is made of it. -/
inductive Layout
  /-- So many bytes. -/
  | fixed (width : Nat) (make : Bytes → Node Atom)
  /-- A text with its length and a final zero. -/
  | text (make : String → Node Atom)
  /-- A text, and an identifier after it. -/
  | pointer
  /-- A length, a subtype, and as many bytes. -/
  | binary
  /-- Two texts that a NUL ends. -/
  | regex
  /-- A document with its length and a final zero. -/
  | nested (nest : Nest)
  /-- A length that counts itself, and all that it counts. -/
  | scope

/-- A payload of a layout at the front of a byte string, and the bytes after it. -/
def Layout.take? : Layout → Bytes → Option (Payload × Bytes)
  | .fixed width make, bs => fixed? width make bs
  | .text make, bs => (string? bs).map fun (p, rest) => (.whole (textNode make p), rest)
  | .pointer, bs =>
    (string? bs).bind fun (p, after) =>
      fixed? 12 (fun id => textNode (pointerNode id) p) after
  | .binary, bs =>
    (length? bs).bind fun (n, after) =>
      match after with
      | [] => none
      | subtype :: after => fixed? n (binaryNode subtype) after
  | .regex, bs =>
    (key? bs).bind fun (pattern, after) =>
      (key? after).map fun (options, rest) => (.whole (regexNode pattern options), rest)
  | .nested nest, bs => (embedded? bs).map fun (p, rest) => (.nested nest p, rest)
  | .scope, bs =>
    (length? bs).bind fun (n, _) =>
      (Bytes.split? n bs).map fun (p, rest) => (scopedPayload p, rest)

/-! ## Types -/

/-- The type of an element. -/
inductive ElementType
  | double
  | text
  | document
  | list
  | binary
  | undefined
  | objectId
  | bool
  | date
  | null
  | regex
  | pointer
  | code
  | symbol
  | scopedCode
  | int32
  | timestamp
  | int64
  | decimal
  | maxKey
  | minKey

namespace ElementType

/-- All types. -/
def all : List ElementType :=
  [.double, .text, .document, .list, .binary, .undefined, .objectId, .bool, .date, .null, .regex,
   .pointer, .code, .symbol, .scopedCode, .int32, .timestamp, .int64, .decimal, .maxKey, .minKey]

/-- The byte of a type. -/
def byte : ElementType → UInt8
  | .double => 0x01
  | .text => 0x02
  | .document => 0x03
  | .list => 0x04
  | .binary => 0x05
  | .undefined => 0x06
  | .objectId => 0x07
  | .bool => 0x08
  | .date => 0x09
  | .null => 0x0A
  | .regex => 0x0B
  | .pointer => 0x0C
  | .code => 0x0D
  | .symbol => 0x0E
  | .scopedCode => 0x0F
  | .int32 => 0x10
  | .timestamp => 0x11
  | .int64 => 0x12
  | .decimal => 0x13
  | .maxKey => 0x7F
  | .minKey => 0xFF

/-- The type of a byte, if it is that of one. -/
def ofByte? (b : UInt8) : Option ElementType := all.find? fun e => e.byte == b

/-- The payloads of the types. -/
def layout : ElementType → Layout
  | .double => .fixed 8 fun p => .scalar (.double ⟨UInt64.ofNat (Bytes.toNatLE p)⟩)
  | .text => .text fun s => .scalar (.text s)
  | .document => .nested .document
  | .list => .nested .list
  | .binary => .binary
  | .undefined => .fixed 0 fun _ => labelled "$undefined" (.scalar (.bool true))
  | .objectId => .fixed 12 objectIdNode
  | .bool => .fixed 1 boolNode
  | .date => .fixed 8 fun p => dateNode (signedLE p)
  | .null => .fixed 0 fun _ => .scalar .null
  | .regex => .regex
  | .pointer => .pointer
  | .code => .text fun s => labelled "$code" (labelNode s)
  | .symbol => .text fun s => labelled "$symbol" (labelNode s)
  | .scopedCode => .scope
  | .int32 => .fixed 4 fun p => .scalar (.int32 (signedLE p))
  | .timestamp => .fixed 8 fun p =>
    timestampNode (Bytes.toNatLE (p.drop 4)) (Bytes.toNatLE (p.take 4))
  | .int64 => .fixed 8 fun p => .scalar (.int64 (signedLE p))
  | .decimal => .fixed 16 fun p => labelled "$numberDecimalBytes" (.scalar (.bytes p))
  | .maxKey => .fixed 0 fun _ => labelled "$maxKey" (.scalar (.int32 1))
  | .minKey => .fixed 0 fun _ => labelled "$minKey" (.scalar (.int32 1))

end ElementType

/-- The payload of an element of a type, and the bytes after it. -/
def payload? (tag : UInt8) (bs : Bytes) : Option (Payload × Bytes) :=
  (ElementType.ofByte? tag).bind fun e => e.layout.take? bs

/-! ## Sizes -/

theorem key?_shorter {bs rest : Bytes} {s : String} (h : key? bs = some (s, rest)) :
    rest.length < bs.length := by
  have hle := (List.dropWhile_suffix (· != 0) (l := bs)).length_le
  simp only [key?] at h
  split at h
  · simp at h
  · next b r hb =>
    obtain ⟨s', _, h⟩ := Option.map_eq_some_iff.1 h
    simp only [Prod.mk.injEq] at h
    rw [hb] at hle
    simp only [List.length_cons] at hle
    rw [← h.2]
    omega

theorem length?_le {bs rest : Bytes} {n : Nat} (h : length? bs = some (n, rest)) :
    rest.length ≤ bs.length := by
  simp only [length?] at h
  split at h
  · simp at h
  · next front r hs =>
    split at h
    · simp only [Option.some.injEq, Prod.mk.injEq] at h
      rw [(Bytes.split?_eq_some hs).2, h.2]
      simp
    · simp at h

/-- An embedded document and what follows it are together no longer than the
string they come from. -/
theorem embedded?_le {bs body rest : Bytes} (h : embedded? bs = some (body, rest)) :
    body.length + rest.length ≤ bs.length := by
  simp only [embedded?] at h
  split at h
  · simp at h
  · next n after hl =>
    have := length?_le hl
    split at h
    · simp at h
    · split at h
      · simp at h
      · next b r hs =>
        have hlen := congrArg List.length (Bytes.split?_eq_some hs).2
        split at h
        · simp only [Option.some.injEq, Prod.mk.injEq] at h
          rw [h.1, h.2, List.length_append] at hlen
          omega
        · simp at h

theorem string?_le {bs body rest : Bytes} (h : string? bs = some (body, rest)) :
    rest.length ≤ bs.length := by
  simp only [string?] at h
  split at h
  · simp at h
  · next n after hl =>
    have := length?_le hl
    split at h
    · simp at h
    · next b r hs =>
      have hlen := congrArg List.length (Bytes.split?_eq_some hs).2
      split at h
      · simp only [Option.some.injEq, Prod.mk.injEq] at h
        rw [h.2, List.length_append] at hlen
        omega
      · simp at h

/-- A payload of fixed width leaves nothing to be read and makes no string
longer. -/
theorem fixed?_le {width : Nat} {make : Bytes → Node Atom} {bs rest : Bytes} {p : Payload}
    (h : fixed? width make bs = some (p, rest)) : p.size + rest.length ≤ bs.length := by
  obtain ⟨⟨front, r⟩, hs, h⟩ := Option.map_eq_some_iff.1 h
  simp only [Prod.mk.injEq] at h
  rw [(Bytes.split?_eq_some hs).2, ← h.1, h.2]
  simp [Payload.size]

theorem size_scopedPayload_le (bs : Bytes) : (scopedPayload bs).size ≤ bs.length := by
  unfold scopedPayload
  split
  · exact Nat.zero_le _
  · next code after hcode =>
    have hafter := string?_le hcode
    rw [List.length_drop] at hafter
    split
    · next body _ hbody =>
      have hle := embedded?_le hbody
      simp only [Payload.size, List.length_nil] at hle ⊢
      omega
    · exact Nat.zero_le _

/-- What is still to be read of a payload and what follows it are together no
longer than the string they come from. -/
theorem Layout.take?_le {l : Layout} {bs rest : Bytes} {p : Payload}
    (h : l.take? bs = some (p, rest)) : p.size + rest.length ≤ bs.length := by
  cases l with
  | fixed => exact fixed?_le h
  | text =>
    obtain ⟨⟨body, r⟩, hs, heq⟩ := Option.map_eq_some_iff.1 h
    obtain ⟨rfl, rfl⟩ := Prod.mk.inj heq
    have hle := string?_le hs
    simp only [Payload.size]
    omega
  | pointer =>
    obtain ⟨⟨body, after⟩, hs, hid⟩ := Option.bind_eq_some_iff.1 h
    exact Nat.le_trans (fixed?_le hid) (string?_le hs)
  | binary =>
    obtain ⟨⟨n, after⟩, hn, hbytes⟩ := Option.bind_eq_some_iff.1 h
    have hle := length?_le hn
    cases after with
    | nil => cases hbytes
    | cons subtype after =>
      have hbytes := fixed?_le hbytes
      rw [List.length_cons] at hle
      omega
  | regex =>
    obtain ⟨⟨pattern, after⟩, hpattern, hoptions⟩ := Option.bind_eq_some_iff.1 h
    obtain ⟨⟨options, r⟩, hkey, heq⟩ := Option.map_eq_some_iff.1 hoptions
    obtain ⟨rfl, rfl⟩ := Prod.mk.inj heq
    have hpattern := key?_shorter hpattern
    have hoptions := key?_shorter hkey
    simp only [Payload.size]
    omega
  | nested =>
    obtain ⟨⟨body, r⟩, hbody, heq⟩ := Option.map_eq_some_iff.1 h
    obtain ⟨rfl, rfl⟩ := Prod.mk.inj heq
    exact embedded?_le hbody
  | scope =>
    obtain ⟨⟨n, after⟩, -, hcode⟩ := Option.bind_eq_some_iff.1 h
    obtain ⟨⟨front, r⟩, hsplit, heq⟩ := Option.map_eq_some_iff.1 hcode
    obtain ⟨rfl, rfl⟩ := Prod.mk.inj heq
    rw [(Bytes.split?_eq_some hsplit).2, List.length_append]
    exact Nat.add_le_add_right (size_scopedPayload_le front) _

theorem payload?_le {tag : UInt8} {bs rest : Bytes} {p : Payload}
    (h : payload? tag bs = some (p, rest)) : p.size + rest.length ≤ bs.length := by
  obtain ⟨e, -, h⟩ := Option.bind_eq_some_iff.1 h
  exact Layout.take?_le h

end Conneg.Bson
