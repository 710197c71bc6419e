import Conneg.ContentType
import Conneg.Http.Message

/-!
# Sending a body

A value is sent in three calls to a sink: the content type, the status, the body.
Everything that can fail is done before the first call, so a failed send makes no
call at all: the token is resolved, the value is encoded, and the encoded size is
checked, in this order.

A reply is what a handler returns: a status, a format, perhaps a value, and the
limits to keep. It becomes a response only at the end, and if the value cannot be
sent, the response is that of the error, with nothing of the reply left in it.
-/

namespace Conneg

/-! ## Calls to a sink -/

/-- A call to the sink of a response. -/
inductive SinkCall
  | contentType (token : String)
  | status (code : Nat)
  | body (bs : Bytes)
  deriving DecidableEq

/-- The calls of one send. -/
def SinkCall.ofReply (f : Format) (status : Nat) (body : Bytes) : List SinkCall :=
  [.contentType f.token, .status status, .body body]

namespace Policy

/-- The body of a value in a format; no value has an empty one. -/
def encodeBody (f : Format) (s : Schema) (value : Option s.Carrier) :
    Except ExchangeError Bytes :=
  match value with
  | none => .ok []
  | some v =>
    match f.encode s v with
    | .ok bs => .ok bs
    | .error e => .error (.coding e)

/-- Sends a value, or none, in a format. -/
def sendFormat (p : Policy) (s : Schema) (status : Nat) (value : Option s.Carrier) (f : Format) :
    Except ExchangeError (List SinkCall) := do
  let body ← encodeBody f s value
  p.limits.checkSend body.length
  .ok (SinkCall.ofReply f status body)

/-- Sends a value, or none, in the format that a content type names. -/
def send (p : Policy) (s : Schema) (status : Nat) (value : Option s.Carrier) (token : String) :
    Except ExchangeError (List SinkCall) :=
  match Format.ofContentType token with
  | .ok f => p.sendFormat s status value f
  | .error e => .error (.coding e)

end Policy

namespace Response

/-- A response after a call. A content type replaces all there were. -/
def call (r : Response) : SinkCall → Response
  | .contentType token => { r with headers := r.headers.set contentTypeName (Utf8.encode token) }
  | .status code => { r with status := code }
  | .body bs => { r with body := bs }

/-- A response after a send: unchanged if the send failed. -/
def receive (r : Response) : Except ExchangeError (List SinkCall) → Response
  | .ok calls => calls.foldl call r
  | .error _ => r

end Response

/-! ## Replies -/

/-- A reply with a value of a schema, or without one. -/
structure Reply (s : Schema) where
  status : Nat
  format : Format
  value : Option s.Carrier
  limits : SizeLimits

namespace Reply

variable {s : Schema}

/-- A reply with a value: status 200, no limits. -/
def ofValue (f : Format) (v : s.Carrier) : Reply s := ⟨200, f, some v, {}⟩

/-- A reply without a value: status 204, no limits. -/
def empty (f : Format) : Reply s := ⟨204, f, none, {}⟩

/-- The reply with another status. -/
def withStatus (r : Reply s) (status : Nat) : Reply s := { r with status := status }

/-- The reply with other limits, both of them. -/
def withLimits (r : Reply s) (limits : SizeLimits) : Reply s := { r with limits := limits }

/-- The response of a reply. -/
def toResponse (r : Reply s) : Response :=
  match (Policy.unlimited.withLimits r.limits).sendFormat s r.status r.value r.format with
  | .ok calls => Response.fresh.receive (.ok calls)
  | .error e => e.toResponse

end Reply

end Conneg
