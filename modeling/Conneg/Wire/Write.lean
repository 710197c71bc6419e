import Conneg.Wire.Rules

/-!
# Writing a schema to a tree

One writer for all formats, by recursion on the schema. It gives none where the
format has no form for some part of the value: nothing is written of a value
that cannot be written whole.

A record is a map by field names, in declared order; a case without content is
its name, any other a map of one entry; a pair is a sequence of two.
-/

namespace Conneg

open Wire

variable {σ : Type}

mutual

/-- Writes a value of no fixed type. -/
def Any.write (W : WriteRules σ) : Any → Option (Node σ)
  | .null => some (.scalar W.null)
  | .bool b => some (.scalar (W.bool b))
  | .integer n => (W.integer (if n.val < 0 then .i64 else .u64) n.val).map .scalar
  | .float x => some (.scalar (W.float x.val))
  | .text s => some (.scalar (W.text s))
  | .list xs => (Any.writeItems W xs).map .seq
  | .object members => (Any.writeMembers W members).map .map

/-- Writes the values of a list. -/
def Any.writeItems (W : WriteRules σ) : List Any → Option (Items σ)
  | [] => some .done
  | x :: xs => do
    let t ← x.write W
    let ts ← Any.writeItems W xs
    some (.cons t ts)

/-- Writes the members of an object, in their order. -/
def Any.writeMembers (W : WriteRules σ) : List (String × Any) → Option (Entries σ)
  | [] => some .done
  | (k, x) :: members => do
    let key ← W.name k
    let t ← x.write W
    let es ← Any.writeMembers W members
    some (.cons (.scalar key) t es)

end

/-- Writes an entry of a map, with a writer for its value. -/
def Wire.WriteRules.entry {α : Type} (W : WriteRules σ) {k : KeyKind}
    (write : α → Option (Node σ)) (e : k.Carrier × α) : Option (Node σ × Node σ) := do
  let key ← W.mapKey k e.1
  let t ← write e.2
  some (key, t)

mutual

/-- Writes a value of a schema. -/
def Schema.write (W : WriteRules σ) : (s : Schema) → s.Carrier → Option (Node σ)
  | .any => fun v => v.write W
  | .bool => fun v => some (.scalar (W.bool v))
  | .integer k => fun v => (W.integer k v.val).map .scalar
  | .float => fun v => some (.scalar (W.float v))
  | .text => fun v => some (.scalar (W.text v))
  | .unit => fun _ => some (.scalar W.null)
  | .optional s => fun v =>
    match v with
    | none => some (.scalar W.null)
    | some v => s.write W v
  | .list s => fun v => (v.mapM (s.write W)).map fun ts => .seq (.ofList ts)
  | .pair a c => fun v => do
    let t ← a.write W v.1
    let u ← c.write W v.2
    some (.seq (.ofList [t, u]))
  | .map _ s => fun v =>
    (v.entries.mapM (W.entry (s.write W))).map fun es => .map (.ofList es)
  | .record fs => fun v => (fs.write W v).map .map
  | .choice cs => cs.write W
  | .readOnly _ => fun _ => none

/-- Writes the fields of a record. -/
def Fields.write (W : WriteRules σ) : (fs : Fields) → fs.Carrier → Option (Entries σ)
  | .nil => fun _ => some .done
  | .cons name s rest => fun v => do
    let key ← W.name name
    let t ← s.write W v.1
    let es ← rest.write W v.2
    some (.cons (.scalar key) t es)

/-- Writes a case of a choice. -/
def Cases.write (W : WriteRules σ) : (cs : Cases) → cs.Carrier → Option (Node σ)
  | .nil => fun v => nomatch v
  | .cons name c rest => fun v =>
    match v with
    | .inl x => c.write W name x
    | .inr y => rest.write W y

/-- Writes a case with this name and content. -/
def Content.write (W : WriteRules σ) : (c : Content) → String → c.Carrier → Option (Node σ)
  | .unit => fun name _ => some (.scalar (W.text name))
  | .value s => fun name v => do
    let key ← W.name name
    let t ← s.write W v
    some (.map (.ofList [(.scalar key, t)]))
  | .pair a c => fun name v => do
    let key ← W.name name
    let t ← a.write W v.1
    let u ← c.write W v.2
    some (.map (.ofList [(.scalar key, .seq (.ofList [t, u]))]))
  | .record fs => fun name v => do
    let key ← W.name name
    let es ← fs.write W v
    some (.map (.ofList [(.scalar key, .map es)]))

end

end Conneg
