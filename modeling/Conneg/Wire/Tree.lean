import Conneg.Bytes
import Conneg.Number.Binary64

/-!
# Trees: the common form of the formats

Every format reads its bytes into a tree of `Node`s and writes its bytes from one,
and a schema is read from a tree and written to one. So what a body *says*
(brackets, lengths, markers) is settled apart from what it *means* for a schema.

Reading bytes never fails outright. A tree keeps what came before the first
break in the bytes: the break is a `broken` tree, or a list or map that ends
`broken` instead of `done`. A reader that walks the tree from left to right
therefore meets the faults of a body in the order in which they stand in it.

The scalars `σ` are the format's own; `Scalar` is what they can mean.
-/

namespace Conneg.Wire

mutual

/-- A value as it stands in a body. -/
inductive Node (σ : Type)
  | broken
  | scalar (x : σ)
  | seq (items : Items σ)
  | map (entries : Entries σ)

/-- The items of a sequence, and how the sequence ends. -/
inductive Items (σ : Type)
  | done
  | broken
  | cons (head : Node σ) (tail : Items σ)

/-- The entries of a map, and how the map ends. -/
inductive Entries (σ : Type)
  | done
  | broken
  | cons (key value : Node σ) (tail : Entries σ)

end

variable {σ : Type}

/-- The items of a whole sequence. -/
def Items.ofList (ts : List (Node σ)) : Items σ := ts.foldr .cons .done

/-- Items given last to first, in front of `tail`. -/
def Items.prepend (rev : List (Node σ)) (tail : Items σ) : Items σ :=
  rev.foldl (fun xs t => .cons t xs) tail

/-- The entries of a whole map. -/
def Entries.ofList (es : List (Node σ × Node σ)) : Entries σ :=
  es.foldr (fun e rest => .cons e.1 e.2 rest) .done

/-- Entries given last to first, in front of `tail`. -/
def Entries.prepend (rev : List (Node σ × Node σ)) (tail : Entries σ) : Entries σ :=
  rev.foldl (fun es e => .cons e.1 e.2 es) tail

/-- Whether a sequence has no further item and ends. -/
def Items.ends : Items σ → Bool
  | .done => true
  | _ => false

/-- Whether a map has no further entry and ends. -/
def Entries.ends : Entries σ → Bool
  | .done => true
  | _ => false

/-- Prepending the reverse of a list is putting the list in front. -/
theorem Items.prepend_reverse (ts : List (Node σ)) (tail : Items σ) :
    Items.prepend ts.reverse tail = ts.foldr .cons tail := by
  simp [Items.prepend, List.foldl_reverse]

/-- What a scalar means, whatever the format. -/
inductive Scalar
  | null
  | bool (b : Bool)
  | integer (n : Int)
  | float (x : Binary64)
  | text (s : String)
  | bytes (bs : Bytes)
  /-- A scalar that can be passed over but stands for no value. -/
  | void

end Conneg.Wire
