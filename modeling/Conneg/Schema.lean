import Conneg.Schema.Any
import Conneg.Schema.Integer
import Conneg.Schema.SortedMap

/-!
# Schemas of body types

What a body holds is described by a `Schema`; the Lean type of its values is the
schema's `Carrier`. A record's carrier is the tuple of its fields in their
declared order, a choice's carrier the sum of its cases. So a reader and a writer
of a format are defined once, by recursion on the schema, and a value of a
carrier fits its schema by construction.
-/

namespace Conneg

/-- A type of map keys. -/
inductive KeyKind
  | text
  | integer
  | boolean
  | list
  deriving DecidableEq, Repr

/-- The keys of a kind; numbers are 64-bit signed. -/
@[reducible] def KeyKind.Carrier : KeyKind → Type
  | .text => String
  | .integer => Integer .i64
  | .boolean => Bool
  | .list => List (Integer .i64)

instance : (k : KeyKind) → Ord k.Carrier
  | .text => inferInstanceAs (Ord String)
  | .integer => inferInstanceAs (Ord (Integer .i64))
  | .boolean => inferInstanceAs (Ord Bool)
  | .list => inferInstanceAs (Ord (List (Integer .i64)))

instance : (k : KeyKind) → Std.TransOrd k.Carrier
  | .text => inferInstanceAs (Std.TransOrd String)
  | .integer => inferInstanceAs (Std.TransOrd (Integer .i64))
  | .boolean => inferInstanceAs (Std.TransOrd Bool)
  | .list => inferInstanceAs (Std.TransOrd (List (Integer .i64)))

mutual

/-- The shape of a body's values. -/
inductive Schema
  /-- Any value. -/
  | any
  | bool
  | integer (kind : IntKind)
  | float
  | text
  | unit
  | optional (of : Schema)
  | list (of : Schema)
  | pair (first second : Schema)
  | map (keys : KeyKind) (values : Schema)
  | record (fields : Fields)
  | choice (cases : Cases)
  /-- Values that can be read but never written. -/
  | readOnly (of : Schema)

/-- The named fields of a record, in their declared order. -/
inductive Fields
  | nil
  | cons (name : String) (of : Schema) (rest : Fields)

/-- The named cases of a choice, in their declared order. -/
inductive Cases
  | nil
  | cons (name : String) (content : Content) (rest : Cases)

/-- What a case of a choice carries. -/
inductive Content
  | unit
  | value (of : Schema)
  | pair (first second : Schema)
  | record (fields : Fields)

end

mutual

/-- The values of a schema. -/
@[reducible] def Schema.Carrier : Schema → Type
  | .any => Any
  | .bool => Bool
  | .integer k => Integer k
  | .float => Binary64
  | .text => String
  | .unit => Unit
  | .optional s => Option s.Carrier
  | .list s => List s.Carrier
  | .pair a b => a.Carrier × b.Carrier
  | .map k s => SortedMap k.Carrier s.Carrier
  | .record fs => fs.Carrier
  | .choice cs => cs.Carrier
  | .readOnly s => s.Carrier

/-- The values of a record's fields, as a tuple. -/
@[reducible] def Fields.Carrier : Fields → Type
  | .nil => Unit
  | .cons _ s rest => s.Carrier × rest.Carrier

/-- The values of a choice: one case with its content. -/
@[reducible] def Cases.Carrier : Cases → Type
  | .nil => Empty
  | .cons _ c rest => c.Carrier ⊕ rest.Carrier

/-- The values of a case's content. -/
@[reducible] def Content.Carrier : Content → Type
  | .unit => Unit
  | .value s => s.Carrier
  | .pair a b => a.Carrier × b.Carrier
  | .record fs => fs.Carrier

end

/-- The declared names of a record. -/
def Fields.names : Fields → List String
  | .nil => []
  | .cons name _ rest => name :: rest.names

/-- The declared names of a choice. -/
def Cases.names : Cases → List String
  | .nil => []
  | .cons name _ rest => name :: rest.names

/-- The value of a field that a record leaves out, for a field that may be
left out. -/
def Schema.absent? : (s : Schema) → Option s.Carrier
  | .optional _ => some none
  | _ => none

/-- A body type: a schema, and the value that a destination starts from. -/
structure BodyType where
  schema : Schema
  initial : schema.Carrier

end Conneg
