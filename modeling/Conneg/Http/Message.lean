import Conneg.Exchange.Policy
import Conneg.Http.Headers
import Conneg.Http.Stream

/-!
# Requests and responses

A request has header fields, a streamed body, and the policy that a layer may
have installed for it; a response has a status, header fields and a body.
-/

namespace Conneg

/-- A request. -/
structure Request where
  headers : Headers := Headers.empty
  body : Stream := []
  policy : Option Policy := none
  deriving DecidableEq

/-- The policy of a request: the installed one, or the one without limits. -/
def Request.policyInForce (r : Request) : Policy := r.policy.getD .unlimited

/-- A response. -/
structure Response where
  status : Nat := 200
  headers : Headers := Headers.empty
  body : Bytes := []
  deriving DecidableEq

/-- The response that is there before anything is written to it. -/
def Response.fresh : Response := {}

/-- The schema of the body of an error response. -/
def problemFields : Fields := .cons "code" .text (.cons "message" .text .nil)

/-- The body of an error response: its code and the message for clients, as
JSON. -/
def ExchangeError.problem (e : ExchangeError) : Bytes :=
  (Json.encode (.record problemFields) (e.code, e.publicMessage, ())).getD []

/-- The response that an error is answered with. It is JSON, whatever format
the client asked for. -/
def ExchangeError.toResponse (e : ExchangeError) : Response where
  status := e.status
  headers := Headers.empty.set contentTypeName (Utf8.encode Format.json.token)
  body := e.problem

end Conneg
