import Conneg.Orders.Order
import Conneg.Proofs.Schema.Size
import Conneg.Proofs.Wire.RoundTrip
import Conneg.Proofs.Wire.Writable
import Conneg.Schema.Samples

/-!
# The body types that are exchanged

The sample body types and those of the order service, gathered in one type
`Body`, with what the round trips need to know of each: its schema is regular, its
names are short, and, unless it is the type of any value, every part of it has a
fixed type, so that it nests at most three deep.
-/

namespace Conneg

open Wire

/-- A body type that is exchanged. -/
inductive Body
  /-- Any value. -/
  | value
  | order
  | greeting
  | placedOrder
  | receipt
  | shape
  | drawing
  /-- The one type that can be read but not written. -/
  | failing
  | bool
  | integer (k : IntKind)
  | float
  | text
  | unit
  | optionalInteger
  | integers
  | pair
  | integersByText
  | floatsByText
  | textsByInteger
  | textsByBool
  | textsByList

namespace Body

/-- The body type. -/
def type : Body → BodyType
  | .value => Samples.value
  | .order => Samples.order
  | .greeting => Samples.greeting
  | .placedOrder => Orders.orderBody
  | .receipt => Orders.receiptBody
  | .shape => Samples.shape
  | .drawing => Samples.drawing
  | .failing => Samples.failing
  | .bool => Samples.bool
  | .integer k => Samples.integer k
  | .float => Samples.float
  | .text => Samples.text
  | .unit => Samples.unit
  | .optionalInteger => Samples.optionalInteger
  | .integers => Samples.integers
  | .pair => Samples.pair
  | .integersByText => Samples.mapOf .text (.integer .i64)
  | .floatsByText => Samples.mapOf .text .float
  | .textsByInteger => Samples.mapOf .integer .text
  | .textsByBool => Samples.mapOf .boolean .text
  | .textsByList => Samples.mapOf .list .text

/-- The schema of a body type. -/
abbrev schema (body : Body) : Schema := body.type.schema

/-- Whether a body of this type can hold a double. -/
def hasDoubles : Body → Bool
  | .value | .order | .float | .floatsByText => true
  | _ => false

/-- The kind of the keys, if a body of this type is a map. -/
def keys? : Body → Option KeyKind
  | .integersByText | .floatsByText => some .text
  | .textsByInteger => some .integer
  | .textsByBool => some .boolean
  | .textsByList => some .list
  | _ => none

/-- Whether no object in a body repeats a key; only a value of no fixed type has
objects. -/
def KeysDistinct : (body : Body) → body.schema.Carrier → Prop
  | .value => fun v => Any.Proper (fun _ => True) v
  | _ => fun _ => True

/-- Whether no object in a body is led by the raw key. -/
def NoRawKey : (body : Body) → body.schema.Carrier → Prop
  | .value => fun v => Any.NoRawKey v
  | _ => fun _ => True

/-- Whether a body nests at most so many containers. Only a value of no fixed type can
nest at will. -/
def NestsWithin (n : Nat) : (body : Body) → body.schema.Carrier → Prop
  | .value => fun v => Any.nesting v ≤ n
  | _ => fun _ => True

/-- Nothing in a body type is said twice. -/
theorem isRegular_schema (body : Body) : body.schema.isRegular = true := by
  cases body with
  | integer k => rfl
  | _ => decide

/-- All body types but one have fixed types all through. -/
theorem isFixed_schema (body : Body) (h : body ≠ .value) :
    body.schema.isFixed body.hasDoubles = true := by
  cases body <;> first | exact absurd rfl h | rfl

/-- A body is proper if its objects repeat no key and none is led by the raw key. -/
theorem KeysDistinct.proper {body : Body} {v : body.schema.Carrier} (h : body.KeysDistinct v)
    (hraw : body.NoRawKey v) : body.schema.Proper (fun _ => True) v := by
  by_cases hvalue : body = .value
  · subst hvalue
    exact ⟨h, hraw⟩
  · exact Schema.proper_of_isFixed (fun _ _ => trivial) _ (body.isFixed_schema hvalue) v

/-- Body types with fixed types all through nest at most three deep. -/
theorem depth_schema_le (body : Body) : body.schema.depth ≤ 3 := by
  cases body with
  | integer k => exact Nat.zero_le 3
  | _ => decide

/-- No name in a body type needs more than four bytes for its length. -/
theorem hasShortNames_schema (body : Body) : body.schema.hasShortNames (2 ^ 32) = true := by
  cases body with
  | integer k => rfl
  | _ => decide

/-- A written body nests as deep as is allowed to it, where that is at least what its
type needs. -/
theorem NestsWithin.depth_le {σ : Type} {W : WriteRules σ} {n : Nat} {body : Body}
    {v : body.schema.Carrier} (h : body.NestsWithin n v) (hn : 3 ≤ n) {t : Node σ}
    (ht : body.schema.write W v = some t) : t.depth ≤ n := by
  by_cases hvalue : body = .value
  · subst hvalue
    rw [Any.write_depth v ht]
    exact h
  · have hdepth := Schema.write_depth_le body.schema (body.isFixed_schema hvalue) v ht
    have hthree := body.depth_schema_le
    omega

/-- A figure can be written in every format. -/
theorem writable_figures {keys : KeyKind → Prop} (v : Samples.figures.Carrier) :
    Samples.figures.Writable keys v := by
  rcases v with v | v | v | v | v
  · exact trivial
  · exact trivial
  · exact ⟨trivial, trivial⟩
  · exact ⟨trivial, trivial, trivial⟩
  · exact Empty.elim v

/-- A body that is not read-only can be written if its keys can. -/
theorem writable {keys : KeyKind → Prop} (body : Body) (hfailing : body ≠ .failing)
    (hkeys : ∀ k, body.keys? = some k → keys k) (v : body.schema.Carrier) :
    body.schema.Writable keys v := by
  cases body with
  | value | bool | integer | float | text | unit => exact trivial
  | order => exact ⟨trivial, trivial, trivial, fun _ _ => trivial, fun _ _ => trivial,
      ⟨trivial, trivial, trivial⟩, trivial⟩
  | greeting => exact ⟨trivial, trivial, trivial⟩
  | placedOrder => exact ⟨trivial, fun _ _ => trivial, trivial, trivial⟩
  | receipt => exact ⟨trivial, trivial, trivial, trivial⟩
  | shape => exact writable_figures v
  | drawing => exact ⟨trivial, writable_figures v.2.1, trivial⟩
  | failing => exact absurd rfl hfailing
  | optionalInteger | integers => exact fun _ _ => trivial
  | pair => exact ⟨trivial, trivial⟩
  | integersByText | floatsByText | textsByInteger | textsByBool | textsByList =>
    exact fun _ _ => ⟨hkeys _ rfl, trivial⟩

end Body
end Conneg
