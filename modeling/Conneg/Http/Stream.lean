import Conneg.Bytes

/-!
# Streamed bodies

A body arrives in frames: data, trailers, or a failure of the stream, after
which nothing is read. `collect` puts the data together, and `limited` makes a
stream fail by itself once its data exceeds a bound.

How the data is cut into frames does not matter: `data` and `failure?` say all
that `collect` without a limit depends on (`collect_none`).
-/

namespace Conneg

/-- A frame of a streamed body. -/
inductive StreamFrame
  | data (bs : Bytes)
  | trailers
  | failure (text : String)
  deriving DecidableEq

/-- A streamed body. -/
abbrev Stream := List StreamFrame

/-- Why a stream was not read to its end. -/
inductive StreamError
  /-- The data exceeds the reader's limit. -/
  | tooLarge (max : Nat)
  /-- The stream failed with this text. -/
  | failed (text : String)
  deriving DecidableEq, Repr

namespace Stream

/-- A body in one piece. -/
def whole (bs : Bytes) : Stream := [.data bs]

/-- The data that comes before the first failure. -/
def data : Stream → Bytes
  | [] => []
  | .data bs :: rest => bs ++ data rest
  | .trailers :: rest => data rest
  | .failure _ :: _ => []

/-- The text of the first failure, if there is one. -/
def failure? : Stream → Option String
  | [] => none
  | .data _ :: rest => failure? rest
  | .trailers :: rest => failure? rest
  | .failure text :: _ => some text

/-- A stream that fails by itself at the data frame that brings its total,
counted on from `total`, above `max`. -/
def limitedFrom (max : Nat) : Nat → Stream → Stream
  | _, [] => []
  | total, .data bs :: rest =>
    if max < total + bs.length then [.failure "length limit exceeded"]
    else .data bs :: limitedFrom max (total + bs.length) rest
  | total, .trailers :: rest => .trailers :: limitedFrom max total rest
  | _, .failure text :: _ => [.failure text]

/-- A stream that fails by itself once its data exceeds `max` bytes. -/
def limited (max : Nat) (s : Stream) : Stream := limitedFrom max 0 s

/-- The data of a stream, counted on from `total` against a limit. -/
def collectFrom (limit : Option Nat) : Nat → Stream → Except StreamError Bytes
  | _, [] => .ok []
  | total, .data bs :: rest =>
    let exceeded := match limit with
      | none => false
      | some max => decide (max < total + bs.length)
    if exceeded then .error (.tooLarge (limit.getD 0))
    else (collectFrom limit (total + bs.length) rest).map (bs ++ ·)
  | total, .trailers :: rest => collectFrom limit total rest
  | _, .failure text :: _ => .error (.failed text)

/-- The data of a stream, read to its end within a limit. -/
def collect (limit : Option Nat) (s : Stream) : Except StreamError Bytes := collectFrom limit 0 s

/-- Without a limit, reading gives the data, or the stream's own failure. -/
theorem collect_none (s : Stream) :
    collect none s
      = match s.failure? with
        | none => .ok s.data
        | some text => .error (.failed text) := by
  have key : ∀ (s : Stream) (total : Nat), collectFrom none total s
      = match s.failure? with
        | none => .ok s.data
        | some text => .error (.failed text) := by
    intro s
    induction s with
    | nil => intro total; rfl
    | cons f rest ih =>
      intro total
      cases f with
      | data bs =>
        simp only [collectFrom, Bool.false_eq_true, if_false, ih, failure?, data]
        cases failure? rest <;> rfl
      | trailers => simp only [collectFrom, ih, failure?, data]
      | failure text => rfl
  exact key s 0

end Stream
end Conneg
