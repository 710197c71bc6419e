import Conneg.Proofs.Bson.Document
import Conneg.Wire.Read

/-!
# The documents that are read

A reader knows many more types than a writer uses, and the keys of a list may be anything. `Value`
has a value of each type, with its type byte and its payload (`Value.print`) and what it is read as
(`Value.tree`). A document is a list of members, each a key and a value, that its length can count.
The bytes of a document are read as the tree of it (`Document.parse_bytes`), and all of it can be
passed over (`Value.whole_tree`).

The induction is that of the printed trees, for a value in front of any rest; the bound on the
length is handed inwards.
-/

namespace Conneg.Bson

open Wire

namespace Nest

/-- The type byte and the payload of elements, by what they are nested in. -/
def print (elements : Bytes) : Nest → UInt8 × Bytes
  | .document => (0x03, frame elements)
  | .list => (0x04, frame elements)
  | .scope code => (0x0F, printScoped code elements)

/-- What members are read as, by what they are nested in. -/
def around (es : Entries Atom) (xs : Items Atom) : Nest → Node Atom
  | .document => .map es
  | .list => .seq xs
  | .scope code => labelledPair "$code" (labelNode code) "$scope" (.map es)

theorem tree_eq_around (es : List (Node Atom × Node Atom)) (nest : Nest) : nest.tree es true
    = nest.around (.prepend es .done) (.prepend (es.map Prod.snd) .done) := by
  cases nest <;> rfl

theorem exists_takes (elements : Bytes) (nest : Nest) : ∃ e : ElementType,
    (nest.print elements).1 = e.byte ∧
      e.layout.Takes (nest.print elements).2 (.nested nest (elements ++ [0])) := by
  cases nest with
  | document => exact ⟨.document, rfl, elements, rfl, rfl⟩
  | list => exact ⟨.list, rfl, elements, rfl, rfl⟩
  | scope code => exact ⟨.scopedCode, rfl, code, elements, rfl, rfl⟩

theorem length_lt_print (elements : Bytes) (nest : Nest) :
    elements.length < (nest.print elements).2.length := by
  have hframe := length_frame elements
  cases nest with
  | document | list =>
    simp only [print]
    omega
  | scope code =>
    simp only [print, printScoped, List.length_append]
    omega

end Nest

/-- A value of a type that is read. -/
inductive Value
  /-- A value of a type that is written too. -/
  | scalar (x : Atom) (h : x.Storable)
  /-- A document, a list, or code with its scope. -/
  | nested (nest : Nest) (members : List (Key × Value))
  | binary (subtype : UInt8) (bs : Bytes)
  | undefined
  | objectId (bs : Bytes) (h : bs.length = 12)
  /-- In milliseconds. -/
  | date (time : Integer .i64)
  | regex (pattern options : Key)
  | pointer (collection : String) (id : Bytes) (h : id.length = 12)
  | code (s : String)
  | symbol (s : String)
  | timestamp (time increment : UInt32)
  | decimal (bs : Bytes) (h : bs.length = 16)
  | maxKey
  | minKey

namespace Value

mutual

/-- The type byte and the payload of a value. -/
def print : Value → UInt8 × Bytes
  | .scalar x _ => x.print
  | .nested nest members => nest.print (printMembers members)
  | .binary subtype bs => (0x05, printBytes subtype bs)
  | .undefined => (0x06, [])
  | .objectId bs _ => (0x07, bs)
  | .date time => (0x09, Bytes.ofNatLE 8 (Bytes.pattern 8 time.val))
  | .regex pattern options => (0x0B, printRegex pattern options)
  | .pointer collection id _ => (0x0C, printText collection ++ id)
  | .code s => (0x0D, printText s)
  | .symbol s => (0x0E, printText s)
  | .timestamp time increment =>
    (0x11, Bytes.ofNatLE 4 increment.toNat ++ Bytes.ofNatLE 4 time.toNat)
  | .decimal bs _ => (0x13, bs)
  | .maxKey => (0x7F, [])
  | .minKey => (0xFF, [])

/-- The elements of a document. -/
def printMembers : List (Key × Value) → Bytes
  | [] => []
  | (k, v) :: members =>
    element v.print.1 (Utf8.encode k.text) v.print.2 ++ printMembers members

end

mutual

/-- What a value is read as. -/
def tree : Value → Node Atom
  | .scalar x _ => .scalar x
  | .nested nest members => nest.around (entries members) (items members)
  | .binary subtype bs => bytesNode subtype bs
  | .undefined => labelled "$undefined" (.scalar (.bool true))
  | .objectId bs _ => objectIdNode bs
  | .date time => dateNode time.val
  | .regex pattern options => regexNode pattern.text options.text
  | .pointer collection id _ => pointerNode id collection
  | .code s => labelled "$code" (labelNode s)
  | .symbol s => labelled "$symbol" (labelNode s)
  | .timestamp time increment => timestampNode time.toNat increment.toNat
  | .decimal bs _ => labelled "$numberDecimalBytes" (.scalar (.bytes bs))
  | .maxKey => labelled "$maxKey" (.scalar (.int32 1))
  | .minKey => labelled "$minKey" (.scalar (.int32 1))

/-- What the members of a document are read as. -/
def entries : List (Key × Value) → Entries Atom
  | [] => .done
  | (k, v) :: members => .cons (.scalar (.text k.text)) v.tree (entries members)

/-- What the members of a list are read as. -/
def items : List (Key × Value) → Items Atom
  | [] => .done
  | (_, v) :: members => .cons v.tree (items members)

end

/-! ## Reading -/

/-- What is taken off for a value. -/
def payload : Value → Payload
  | .nested nest members => .nested nest (printMembers members ++ [0])
  | v => .whole v.tree

/-- A value is one of a type, with its byte and its layout. -/
theorem exists_takes (v : Value) : ∃ e : ElementType,
    v.print.1 = e.byte ∧ e.layout.Takes v.print.2 v.payload := by
  cases v with
  | scalar x hx => exact Atom.exists_takes hx
  | nested nest members => exact nest.exists_takes (printMembers members)
  | binary subtype bs => exact ⟨.binary, rfl, subtype, bs, rfl, rfl⟩
  | undefined => exact ⟨.undefined, rfl, rfl, rfl⟩
  | objectId bs h => exact ⟨.objectId, rfl, h, rfl⟩
  | date time =>
    have htime : signedLE (Bytes.ofNatLE 8 (Bytes.pattern 8 time.val)) = time.val :=
      signedLE_ofNatLE (by decide) time.low_le (Int.lt_add_one_of_le time.le_high)
    refine ⟨.date, rfl, Bytes.length_ofNatLE 8 _, ?_⟩
    simp only [payload, tree, print, htime]
  | regex pattern options => exact ⟨.regex, rfl, pattern, options, rfl, rfl⟩
  | pointer collection id h => exact ⟨.pointer, rfl, collection, id, h, rfl, rfl⟩
  | code s => exact ⟨.code, rfl, s, rfl, rfl⟩
  | symbol s => exact ⟨.symbol, rfl, s, rfl, rfl⟩
  | timestamp time increment =>
    have hword : ∀ n : UInt32, Bytes.toNatLE (Bytes.ofNatLE 4 n.toNat) = n.toNat := fun n =>
      Bytes.toNatLE_ofNatLE n.toNat_lt
    have hlen : ∀ n, (Bytes.ofNatLE 4 n).length = 4 := Bytes.length_ofNatLE 4
    refine ⟨.timestamp, rfl, ?_, ?_⟩
    · simp only [print, List.length_append, hlen]
    · simp only [payload, tree, print, List.drop_left' (hlen _), List.take_left' (hlen _), hword]
  | decimal bs h => exact ⟨.decimal, rfl, h, rfl⟩
  | maxKey => exact ⟨.maxKey, rfl, rfl, rfl⟩
  | minKey => exact ⟨.minKey, rfl, rfl, rfl⟩

/-- A value is taken off in front of any rest. -/
theorem payload?_print (v : Value) (hlen : v.print.2.length < 2 ^ 31) (rest : Bytes) :
    payload? v.print.1 (v.print.2 ++ rest) = some (v.payload, rest) := by
  obtain ⟨e, htag, htakes⟩ := v.exists_takes
  rw [htag, e.payload?_of_takes htakes hlen]

mutual

/-- What is taken off for a value is read as its tree. -/
theorem tree_payload (v : Value) (hlen : v.print.2.length < 2 ^ 31) : v.payload.tree = v.tree := by
  cases v with
  | nested nest members =>
    have hmembers : (printMembers members).length < 2 ^ 31 :=
      Nat.lt_trans (nest.length_lt_print _) hlen
    obtain ⟨es, hes, hentries, hitems⟩ := elements_printMembers members hmembers []
    simp only [payload, Payload.tree, hes, Nest.tree_eq_around, hentries, hitems]
    rfl
  | _ => rfl

/-- The members still to come are read, onto those that have been collected. -/
theorem elements_printMembers (members : List (Key × Value))
    (hlen : (printMembers members).length < 2 ^ 31) (rev : List (Node Atom × Node Atom)) :
    ∃ es, elements (printMembers members ++ [0]) rev = (es, true) ∧
      Entries.prepend es .done = Entries.prepend rev (entries members) ∧
      Items.prepend (es.map Prod.snd) .done
        = Items.prepend (rev.map Prod.snd) (items members) := by
  match members with
  | [] => exact ⟨rev, elements_zero rev, rfl, rfl⟩
  | (k, v) :: members =>
    have happend : printMembers ((k, v) :: members) ++ [0] = v.print.1 ::
        (Utf8.encode k.text ++ 0 :: (v.print.2 ++ (printMembers members ++ [0]))) := by
      simp [printMembers, element]
    have hsize := length_element v.print.1 (Utf8.encode k.text) v.print.2
    simp only [printMembers, List.length_append] at hlen
    have hv : v.print.2.length < 2 ^ 31 := by omega
    have hpayload := payload?_print v hv (printMembers members ++ [0])
    rw [happend, elements_payload (key?_encode k.nul_notMem _) hpayload, tree_payload v hv]
    exact elements_printMembers members (by omega) _

end

mutual

/-- Everything that is read of a value is whole. -/
theorem whole_tree (v : Value) : v.tree.whole none = true := by
  cases v with
  | nested nest members =>
    have hentries := whole_entries members
    cases nest with
    | document => exact hentries
    | list => exact whole_items members
    | scope code =>
      have hscope : (Node.map (entries members)).whole none = true := hentries
      exact Bool.and_eq_true_iff.2 ⟨Bool.and_eq_true_iff.2 ⟨rfl, hscope⟩, rfl⟩
  | binary subtype bs =>
    rw [tree, bytesNode]
    split <;> rfl
  | _ => rfl

theorem whole_entries (members : List (Key × Value)) :
    (entries members).whole none = true := by
  match members with
  | [] => rfl
  | (k, v) :: members =>
    simp only [entries, Entries.whole, Node.whole, whole_tree v, whole_entries members,
      Bool.and_self]

theorem whole_items (members : List (Key × Value)) : (items members).whole none = true := by
  match members with
  | [] => rfl
  | (k, v) :: members =>
    simp only [items, Items.whole, whole_tree v, whole_items members, Bool.and_self]

end

end Value

/-- A document that its length can count. -/
structure Document where
  members : List (Key × Value)
  fits : (frame (Value.printMembers members)).length < 2 ^ 31

namespace Document

/-- The bytes of a document. -/
def bytes (d : Document) : Bytes := frame (Value.printMembers d.members)

/-- The bytes of a document are read as its tree. -/
theorem parse_bytes (d : Document) : parse d.bytes = .map (Value.entries d.members) := by
  have hsize := length_frame (Value.printMembers d.members)
  have hfits := d.fits
  have hembedded := embedded?_frame d.fits []
  rw [List.append_nil] at hembedded
  obtain ⟨es, hes, hentries, -⟩ := Value.elements_printMembers d.members (by omega) []
  simp only [parse, bytes, hembedded, hes, documentNode, if_true, hentries]
  rfl

end Document
end Conneg.Bson
