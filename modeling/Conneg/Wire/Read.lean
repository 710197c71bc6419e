import Conneg.Wire.Rules

/-!
# Reading a schema from a tree

One reader for all formats, by recursion on the schema. It walks the tree from
left to right and stops at the first fault it meets:

- a record's field is found by its label; a field given again is a fault at its
  second key, before its value is looked at;
- an unknown field is passed over, but must be whole;
- a field that is missing is noticed when the end of the record is reached, the
  first declared one first;
- a choice looks at its key before its content;
- what an open-ended tree holds beyond what is wanted of it is not looked at,
  broken or not;
- where any value is wanted, a map that is led by the raw key (`Any.rawKey`) is the
  value that the text under it spells in JSON, whatever the format of the map.

Each kind of schema has its own reader, a function of the readers of its parts
(`Reader.list`, `Reader.optional`, …), and `Schema.read` puts them together.
-/

namespace Conneg.Wire

variable {σ : Type} {α β π : Type}

/-- A reader of values from trees, within a budget for nesting. -/
abbrev Reader (σ α : Type) := Budget → Node σ → Except Fault α

/-! ## Passing over a value -/

mutual

/-- Whether a value is unbroken and within the budget. -/
def Node.whole (b : Budget) : Node σ → Bool
  | .broken => false
  | .scalar _ => true
  | .seq xs =>
    match b.enter with
    | some b => xs.whole b
    | none => false
  | .map es =>
    match b.enter with
    | some b => es.whole b
    | none => false

/-- Whether all items are, and the sequence ends. -/
def Items.whole (b : Budget) : Items σ → Bool
  | .done => true
  | .broken => false
  | .cons t rest => t.whole b && rest.whole b

/-- Whether all keys and values are, and the map ends. -/
def Entries.whole (b : Budget) : Entries σ → Bool
  | .done => true
  | .broken => false
  | .cons k v rest => k.whole b && v.whole b && rest.whole b

end

/-- Whether a value of no interest can be passed over. -/
def ReadRules.skips (R : ReadRules σ) (b : Budget) (t : Node σ) : Bool :=
  t.whole (if R.skipsFreely then none else b)

/-! ## Values of no fixed type -/

/-- What stands under the raw key of a map that is led by it, and the entries after
that. -/
def Entries.raw? (R : ReadRules σ) : Entries σ → Option (Node σ × Entries σ)
  | .cons (.scalar x) t rest =>
    if R.memberName true x = some Any.rawKey then some (t, rest) else none
  | _ => none

/-- The value that a tree under the raw key stands for; only a text stands for one. -/
def Node.rawValue? (R : ReadRules σ) : Node σ → Option Any
  | .scalar x =>
    match R.meaning x with
    | .text s => R.rawValue? s
    | _ => none
  | _ => none

/-- Reads what stands under the raw key, after which more may stand or not. -/
def Node.readRaw (R : ReadRules σ) (more : Bool) (t : Node σ) (rest : Entries σ) :
    Except Fault Any :=
  match t.rawValue? R with
  | some v => if more || rest.ends then .ok v else .error .unreadable
  | none => .error .unreadable

mutual

/-- Reads a value of no fixed type. -/
def Node.readAny (R : ReadRules σ) (b : Budget) : Node σ → Except Fault Any
  | .broken => .error .unreadable
  | .scalar x =>
    match (R.meaning x).asAny? with
    | some v => .ok v
    | none => .error .unreadable
  | .seq xs =>
    match b.enter with
    | some b => (xs.readAny R b []).map .list
    | none => .error .unreadable
  | .map es =>
    match b.enter with
    | some b =>
      match es.raw? R with
      | some (t, rest) => t.readRaw R (R.openEnded (.map es)) rest
      | none => (es.readAny R b true []).map .object
    | none => .error .unreadable

/-- Reads the items of a list, onto those read so far, the last first. -/
def Items.readAny (R : ReadRules σ) (b : Budget) :
    Items σ → List Any → Except Fault (List Any)
  | .done, rev => .ok rev.reverse
  | .broken, _ => .error .unreadable
  | .cons t rest, rev =>
    match t.readAny R b with
    | .ok v => rest.readAny R b (v :: rev)
    | .error e => .error e

/-- Reads the members of an object, onto those read so far. -/
def Entries.readAny (R : ReadRules σ) (b : Budget) :
    Entries σ → Bool → List (String × Any) → Except Fault (List (String × Any))
  | .done, _, members => .ok members
  | .broken, _, _ => .error .unreadable
  | .cons key t rest, first, members =>
    match key with
    | .scalar x =>
      match R.memberName first x with
      | some name =>
        match t.readAny R b with
        | .ok v => rest.readAny R b false (Any.put name v members)
        | .error e => .error e
      | none => .error .unreadable
    | _ => .error .unreadable

end

/-! ## Readers of the kinds of schema -/

namespace Reader

/-- Reads a scalar that has the wanted meaning. -/
def leaf (R : ReadRules σ) (view : Scalar → Option α) : Reader σ α := fun _ t =>
  match t with
  | .scalar x =>
    match view (R.meaning x) with
    | some v => .ok v
    | none => .error .unreadable
  | _ => .error .unreadable

/-- Whether a tree is the null scalar. -/
def isNull (R : ReadRules σ) : Node σ → Bool
  | .scalar x => (R.meaning x).asUnit?.isSome
  | _ => false

/-- Reads null as none and anything else as some. -/
def optional (R : ReadRules σ) (r : Reader σ α) : Reader σ (Option α) := fun b t =>
  if isNull R t then .ok none else (r b t).map some

/-- Reads all items, onto those read so far, the last first. -/
def items (read : Node σ → Except Fault α) : Items σ → List α → Except Fault (List α)
  | .done, rev => .ok rev.reverse
  | .broken, _ => .error .unreadable
  | .cons t rest, rev =>
    match read t with
    | .ok v => items read rest (v :: rev)
    | .error e => .error e

/-- Reads a list. -/
def list (R : ReadRules σ) (r : Reader σ α) : Reader σ (List α) := fun b t =>
  match R.asSequence t with
  | .seq xs =>
    match b.enter with
    | some b => items (r b) xs []
    | none => .error .unreadable
  | _ => .error .unreadable

/-- Reads the two items of a sequence, after which more may stand or not. -/
def two (more : Bool) (r : Node σ → Except Fault α) (q : Node σ → Except Fault β) :
    Items σ → Except Fault (α × β)
  | .cons t (.cons u rest) => do
    let v ← r t
    let w ← q u
    if more || rest.ends then .ok (v, w) else .error .unreadable
  | .cons t _ => do
    let _ ← r t
    .error .unreadable
  | _ => .error .unreadable

/-- Reads a pair. -/
def pair (R : ReadRules σ) (r : Reader σ α) (q : Reader σ β) : Reader σ (α × β) := fun b t =>
  match R.asSequence t with
  | .seq xs =>
    match b.enter with
    | some b => two (R.openEnded t) (r b) (q b) xs
    | none => .error .unreadable
  | _ => .error .unreadable

/-- Reads the entries of a map, into those read so far; the last value of a
key wins. -/
def mapEntries [Ord β] [Std.TransOrd β] (key : Node σ → Option β)
    (read : Node σ → Except Fault α) :
    Entries σ → SortedMap β α → Except Fault (SortedMap β α)
  | .done, m => .ok m
  | .broken, _ => .error .unreadable
  | .cons k t rest, m =>
    match key k with
    | some k =>
      match read t with
      | .ok v => mapEntries key read rest (m.insert k v)
      | .error e => .error e
    | none => .error .unreadable

/-- Reads a map. -/
def map (R : ReadRules σ) (k : KeyKind) (r : Reader σ α) :
    Reader σ (SortedMap k.Carrier α) := fun b t =>
  match t with
  | .map es =>
    match b.enter with
    | some b => mapEntries (R.mapKey k) (r b) es .empty
    | none => .error .unreadable
  | _ => .error .unreadable

/-- Reads the entries of a record, onto the fields read so far. `put` reads a
field's value into its place, and gives none for a field that is not
declared. -/
def recordEntries (R : ReadRules σ) (b : Budget)
    (put : Label → Node σ → π → Except Fault (Option π)) : Entries σ → π → Except Fault π
  | .done, p => .ok p
  | .broken, _ => .error .unreadable
  | .cons key t rest, p =>
    match key with
    | .scalar x =>
      match R.fieldLabel x with
      | some l =>
        match put l t p with
        | .ok (some p) => recordEntries R b put rest p
        | .ok none => if R.skips b t then recordEntries R b put rest p else .error .unreadable
        | .error e => .error e
      | none => .error .unreadable
    | _ => .error .unreadable

/-- Reads a record, from a map by labels or from a sequence by places. -/
def record (R : ReadRules σ) (put : Budget → Label → Node σ → π → Except Fault (Option π))
    (blank : π) (finish : π → Except Fault α)
    (places : Bool → Budget → Items σ → Except Fault α) : Reader σ α := fun b t =>
  match R.asSequence t with
  | .map es =>
    match b.enter with
    | some b => (recordEntries R b (put b) es blank).bind finish
    | none => .error .unreadable
  | .seq xs =>
    match b.enter with
    | some b => places (R.openEnded t) b xs
    | none => .error .unreadable
  | _ => .error .unreadable

/-- Reads a choice: a label on its own, or a map of one entry from a label to
the content. A map that announces its entries is refused at once if it has not
one; any other is once its entry has been read, unless it is open-ended. -/
def choice (R : ReadRules σ) (bare : Label → Except Fault α)
    (content : Label → Reader σ α) : Reader σ α := fun b t =>
  match t with
  | .scalar x =>
    match R.caseLabel x with
    | some l => bare l
    | none => .error .unreadable
  | .map (.cons (.scalar x) u rest) =>
    if R.counted && !rest.ends then .error .unreadable
    else
      match R.caseLabel x with
      | some l =>
        match content l b u with
        | .ok v => if R.openEnded t || rest.ends then .ok v else .error .unreadable
        | .error e => .error e
      | none => .error .unreadable
  | _ => .error .unreadable

/-- Reads the missing content of a case without one. -/
def noContent (R : ReadRules σ) : Reader σ Unit := fun _ t =>
  if R.nullCases && isNull R t then .ok () else .error .unreadable

end Reader

end Conneg.Wire

namespace Conneg

open Wire

variable {σ : Type}

/-- The fields of a record read so far. -/
@[reducible] def Fields.Partial : Fields → Type
  | .nil => Unit
  | .cons _ s rest => Option s.Carrier × rest.Partial

/-- No field read yet. -/
def Fields.blank : (fs : Fields) → fs.Partial
  | .nil => ()
  | .cons _ _ rest => (none, rest.blank)

/-- The record of the fields read, when its end is reached: the first declared
field that is missing, and may not be, is a fault. -/
def Fields.finish : (fs : Fields) → fs.Partial → Except Fault fs.Carrier
  | .nil, _ => .ok ()
  | .cons name s rest, (x, p) =>
    match x.or s.absent? with
    | none => .error (.missingField name)
    | some v => (rest.finish p).map fun vs => (v, vs)

/-- Reads a field's value into its place, unless it has one already. -/
def Fields.fill {α π : Type} (name : String) (read : Except Fault α) :
    Option α × π → Except Fault (Option (Option α × π))
  | (some _, _) => .error (.duplicateField name)
  | (none, p) => read.map fun v => some (some v, p)

/-- A label on its own names a case without content. An unknown name is told
apart from a case that needs content. -/
def Cases.bare : (cs : Cases) → Label → Except Fault cs.Carrier
  | .nil, .name _ => .error .unknownCase
  | .nil, .index _ => .error .unreadable
  | .cons name .unit rest, l =>
    if l.here name then .ok (.inl ()) else (rest.bare l.next).map .inr
  | .cons name _ rest, l =>
    if l.here name then .error .unreadable else (rest.bare l.next).map .inr

mutual

/-- Reads a value of a schema from a tree. -/
def Schema.read (R : ReadRules σ) : (s : Schema) → Reader σ s.Carrier
  | .any => fun b t => t.readAny R b
  | .bool => .leaf R Scalar.asBool?
  | .integer k => .leaf R (Scalar.asInteger? k)
  | .float => .leaf R Scalar.asFloat?
  | .text => .leaf R Scalar.asText?
  | .unit => .leaf R Scalar.asUnit?
  | .optional s => .optional R (s.read R)
  | .list s => .list R (s.read R)
  | .pair a c => .pair R (a.read R) (c.read R)
  | .map k s => .map R k (s.read R)
  | .record fs => .record R (fs.put R) fs.blank fs.finish (fs.places R)
  | .choice cs => .choice R cs.bare (cs.content R)
  | .readOnly s => s.read R

/-- Reads the value of the field with a label into its place; none if no such
field is declared. -/
def Fields.put (R : ReadRules σ) : (fs : Fields) → Budget → Label → Node σ → fs.Partial →
    Except Fault (Option fs.Partial)
  | .nil => fun _ _ _ _ => .ok none
  | .cons name s rest => fun b l t p =>
    if l.here name then Fields.fill name (s.read R b t) p
    else (rest.put R b l.next t p.2).map fun q => q.map fun q => (p.1, q)

/-- Reads a record from the items of a sequence, one for each declared field,
after which more may stand or not. -/
def Fields.places (R : ReadRules σ) :
    (fs : Fields) → Bool → Budget → Items σ → Except Fault fs.Carrier
  | .nil => fun more _ xs => if more || xs.ends then .ok () else .error .unreadable
  | .cons _ s rest => fun more b xs =>
    match xs with
    | .cons t xs => do
      let v ← s.read R b t
      let vs ← rest.places R more b xs
      .ok (v, vs)
    | _ => .error .unreadable

/-- Reads the content of the case with a label. -/
def Cases.content (R : ReadRules σ) : (cs : Cases) → Label → Reader σ cs.Carrier
  | .nil => fun l _ _ =>
    match l with
    | .name _ => .error .unknownCase
    | .index _ => .error .unreadable
  | .cons name c rest => fun l b t =>
    if l.here name then (c.read R b t).map .inl else (rest.content R l.next b t).map .inr

/-- Reads the content of a case. -/
def Content.read (R : ReadRules σ) : (c : Content) → Reader σ c.Carrier
  | .unit => .noContent R
  | .value s => s.read R
  | .pair a c => .pair R (a.read R) (c.read R)
  | .record fs => .record R (fs.put R) fs.blank fs.finish (fs.places R)

end

end Conneg
