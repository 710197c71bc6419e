import Conneg.Schema

/-!
# Sample body types

A body type for every way in which a schema is put together: the plain types,
options, lists, pairs, maps with each kind of key, nested records, and a choice
with each kind of content. They are what the formats are tried on.
-/

namespace Conneg.Samples

/-- Any value; a destination starts as null. -/
def value : BodyType := ⟨.any, .null⟩

/-- A postal address. -/
def address : Fields := .cons "city" .text (.cons "zip" .text .nil)

/-- An order with a nested record, a list and an optional field. -/
def order : BodyType where
  schema := .record
    (.cons "id" .text (.cons "quantity" (.integer .i64) (.cons "price" .float
      (.cons "tags" (.list .text) (.cons "note" (.optional .text)
        (.cons "shipping" (.record address) .nil))))))
  initial := ("", .zero _, .ofNat 0, [], none, ("", "", ()), ())

/-- A name and a count. -/
def greeting : BodyType where
  schema := .record (.cons "name" .text (.cons "count" (.integer .i32) .nil))
  initial := ("", .zero _, ())

/-- A figure: nothing, a radius, a pair of lengths, or a named width and
height. -/
def figures : Cases :=
  .cons "Empty" .unit
    (.cons "Radius" (.value (.integer .i64))
      (.cons "Pair" (.pair (.integer .i64) (.integer .i64))
        (.cons "Rect" (.record (.cons "w" (.integer .i64) (.cons "h" (.integer .i64) .nil)))
          .nil)))

/-- A figure on its own; a destination starts as the empty one. -/
def shape : BodyType := ⟨.choice figures, .inl ()⟩

/-- A named figure. -/
def drawing : BodyType where
  schema := .record (.cons "name" .text (.cons "shape" (.choice figures) .nil))
  initial := ("", .inl (), ())

/-- A record that can be read but never written. -/
def failing : BodyType where
  schema := .readOnly (.record (.cons "id" (.integer .i32) .nil))
  initial := (.zero _, ())

/-- A boolean. -/
def bool : BodyType := ⟨.bool, false⟩

/-- An integer of each type. -/
def integer (k : IntKind) : BodyType := ⟨.integer k, .zero k⟩

/-- A text. -/
def text : BodyType := ⟨.text, ""⟩

/-- A double. -/
def float : BodyType := ⟨.float, .ofNat 0⟩

/-- Nothing at all. -/
def unit : BodyType := ⟨.unit, ()⟩

/-- A number, or none. -/
def optionalInteger : BodyType := ⟨.optional (.integer .i64), none⟩

/-- A list of numbers. -/
def integers : BodyType := ⟨.list (.integer .i64), []⟩

/-- A number and a text. -/
def pair : BodyType := ⟨.pair (.integer .i64) .text, (.zero _, "")⟩

/-- A map to values of a schema, by keys of a kind. -/
def mapOf (k : KeyKind) (s : Schema) : BodyType := ⟨.map k s, .empty⟩

end Conneg.Samples
