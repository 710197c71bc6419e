import Conneg.Bson.Document
import Conneg.Codec.Error
import Conneg.Json.Document
import Conneg.MsgPack.Document

/-!
# Coding a body in a format

Reading and writing by format. An error says which format it was, so the two
functions are all that the rest of the library needs to know of the formats.
-/

namespace Conneg.Format

/-- The bytes of a value in a format. -/
def encode (f : Format) (s : Schema) (v : s.Carrier) : Except CodingError Bytes :=
  let written :=
    match f with
    | .json => Json.encode s v
    | .bson => Bson.encode s v
    | .msgpack => MsgPack.encode s v
  match written with
  | some bs => .ok bs
  | none => .error (.writing f .unwritable)

/-- The value that a body holds in a format. -/
def decode (f : Format) (s : Schema) (body : Bytes) : Except CodingError s.Carrier :=
  let read :=
    match f with
    | .json => Json.decode s body
    | .bson => Bson.decode s body
    | .msgpack => MsgPack.decode s body
  match read with
  | .ok v => .ok v
  | .error cause => .error (.reading f cause)

/-- Writing succeeds with what the format's own writer gives. -/
theorem encode_eq_ok {f : Format} {s : Schema} {v : s.Carrier} {bs : Bytes} :
    f.encode s v = .ok bs ↔
      (match f with
        | .json => Json.encode s v
        | .bson => Bson.encode s v
        | .msgpack => MsgPack.encode s v) = some bs := by
  simp only [encode]
  split <;> simp_all

/-- Reading succeeds with what the format's own reader gives. -/
theorem decode_eq_ok {f : Format} {s : Schema} {body : Bytes} {v : s.Carrier} :
    f.decode s body = .ok v ↔
      (match f with
        | .json => Json.decode s body
        | .bson => Bson.decode s body
        | .msgpack => MsgPack.decode s body) = .ok v := by
  simp only [decode]
  split <;> simp_all

/-- Writing fails only as an error of writing in the same format. -/
theorem encode_error {f : Format} {s : Schema} {v : s.Carrier} {e : CodingError}
    (h : f.encode s v = .error e) : e = .writing f .unwritable := by
  simp only [encode] at h
  split at h
  · simp at h
  · simp only [Except.error.injEq] at h
    exact h.symm

theorem decode_error {f : Format} {s : Schema} {body : Bytes} {e : CodingError}
    (h : f.decode s body = .error e) : ∃ cause, e = .reading f cause := by
  simp only [decode] at h
  split at h
  · simp at h
  · next cause _ =>
    simp only [Except.error.injEq] at h
    exact ⟨cause, h.symm⟩

end Conneg.Format
