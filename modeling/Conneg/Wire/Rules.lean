import Conneg.Codec.Error
import Conneg.Schema
import Conneg.Text.Utf8
import Conneg.Wire.Tree

/-!
# What a format decides about meaning

Reading a schema from a tree, and writing one to a tree, is the same for every
format but for a few decisions: what its scalars mean, what may stand as a key,
how deep values may nest. `ReadRules` and `WriteRules` gather those decisions.
-/

namespace Conneg.Wire

/-- How a key names a field or a case: by its name or by its place among the
declared ones. -/
inductive Label
  | name (s : String)
  | index (n : Nat)
  deriving DecidableEq, Repr

/-- Whether a label names what is declared here, under this name. -/
def Label.here (name : String) : Label → Bool
  | .name s => s == name
  | .index n => n == 0

/-- The same label, counted from the next declaration on. -/
def Label.next : Label → Label
  | .name s => .name s
  | .index n => .index (n - 1)

/-- How many more containers may be entered; `none` is without limit. -/
abbrev Budget := Option Nat

/-- The budget inside one more container, if it may be entered. -/
def Budget.enter : Budget → Option Budget
  | none => some none
  | some 0 => none
  | some (n + 1) => some (some n)

namespace Scalar

/-- The boolean that a scalar means. -/
def asBool? : Scalar → Option Bool
  | .bool b => some b
  | _ => none

/-- The integer of a type that a scalar means; a double is none, even a whole
one. -/
def asInteger? (k : IntKind) : Scalar → Option (Integer k)
  | .integer n => Integer.ofInt? k n
  | _ => none

/-- The double that a scalar means; a whole number is rounded to the nearest. -/
def asFloat? : Scalar → Option Binary64
  | .float x => some x
  | .integer n => some (.ofInt n)
  | _ => none

/-- The text that a scalar means; bytes are text when they are UTF-8. -/
def asText? : Scalar → Option String
  | .text s => some s
  | .bytes bs => Utf8.decode? bs
  | _ => none

/-- Null, for a type without content. -/
def asUnit? : Scalar → Option Unit
  | .null => some ()
  | _ => none

/-- The value of no fixed type that a scalar means. An infinity or a NaN is
null; bytes are no value. -/
def asAny? : Scalar → Option Any
  | .null => some .null
  | .bool b => some (.bool b)
  | .integer n => (WideInt.ofInt? n).map .integer
  | .float x =>
    match Finite64.of? x with
    | some y => some (.float y)
    | none => some .null
  | .text s => some (.text s)
  | .bytes _ => none
  | .void => none

end Scalar

/-- The decisions of a format about reading. -/
structure ReadRules (σ : Type) where
  /-- What a scalar means. -/
  meaning : σ → Scalar
  /-- The field that a key names. -/
  fieldLabel : σ → Option Label
  /-- The case that a key, or a text on its own, names. -/
  caseLabel : σ → Option Label
  /-- The key of a member of an object without schema; the flag tells the
  first key from the later ones. -/
  memberName : Bool → σ → Option String
  /-- The value that a text under the raw key stands for. -/
  rawValue? : String → Option Any
  /-- The key of a map entry. -/
  mapKey : (k : KeyKind) → Node σ → Option k.Carrier
  /-- A tree where a sequence is wanted: some scalars stand for one. -/
  asSequence : Node σ → Node σ
  /-- Whether a tree may hold more than is wanted of it. What follows the places
  of a record, the two items of a pair or the entry of a choice is then not
  looked at. -/
  openEnded : Node σ → Bool
  /-- Whether maps announce how many entries they have. -/
  counted : Bool
  /-- Whether a case without content may be written as a map to null. -/
  nullCases : Bool
  /-- Whether values that are passed over may nest without limit. -/
  skipsFreely : Bool
  /-- How deep values may nest. -/
  nesting : Budget

/-- The decisions of a format about writing; `none` where the format has no
form for a thing. -/
structure WriteRules (σ : Type) where
  null : σ
  bool : Bool → σ
  integer : IntKind → Int → Option σ
  float : Binary64 → σ
  text : String → σ
  /-- A field's, case's or member's name, as a key. -/
  name : String → Option σ
  /-- A key of a map. -/
  mapKey : (k : KeyKind) → k.Carrier → Option (Node σ)

end Conneg.Wire
