import Conneg.Codec

/-!
# Errors of an exchange

What can go wrong between a request and its response: an error of coding, a body
that could not be read, a request or a response that is too large. Each error has
a machine-readable code and a status; a failure of the server's own shows clients
only a generic message.
-/

namespace Conneg

/-- An error of receiving a request or sending a response. -/
inductive ExchangeError
  | coding (e : CodingError)
  /-- The body could not be read; the stream's own text. -/
  | body (text : String)
  | requestTooLarge (max : Nat)
  | responseTooLarge (size max : Nat)
  deriving DecidableEq, Repr

namespace ExchangeError

/-- The text of the error. -/
def message : ExchangeError → String
  | .coding e => e.message
  | .body text => "failed to read request body: " ++ text
  | .requestTooLarge max =>
    "request body exceeds maximum allowed size of " ++ decimalText max ++ " bytes"
  | .responseTooLarge size max =>
    "message size " ++ decimalText size ++ " bytes exceeds maximum allowed size of "
      ++ decimalText max ++ " bytes"

/-- The machine-readable code of the error. -/
def code : ExchangeError → String
  | .coding (.unsupported _) => "unsupported_content_type"
  | .coding (.reading _ _) => "decode_error"
  | .coding (.writing _ _) => "encode_error"
  | .body _ => "body_error"
  | .requestTooLarge _ => "request_too_large"
  | .responseTooLarge _ _ => "response_too_large"

/-- The status of the error: 4xx for a client's mistake, 500 for a failure to
produce a response. -/
def status : ExchangeError → Nat
  | .coding (.unsupported _) => 415
  | .coding (.reading _ _) => 400
  | .coding (.writing _ _) => 500
  | .body _ => 400
  | .requestTooLarge _ => 413
  | .responseTooLarge _ _ => 500

/-- The underlying error of coding, if that is what it is. -/
def coding? : ExchangeError → Option CodingError
  | .coding e => some e
  | _ => none

/-- The text of the underlying cause, where there is one. An error of coding
stands for itself, so its own cause counts. -/
def source? : ExchangeError → Option String
  | .coding e => e.source?
  | .body text => some text
  | _ => none

/-- Whether the server is at fault. -/
def isServerError (e : ExchangeError) : Bool := 500 ≤ e.status

/-- The message that clients see. -/
def publicMessage (e : ExchangeError) : String :=
  if e.isServerError then "internal error" else e.message

/-- Exactly a value that cannot be written and a response that is too large
are the server's fault. -/
theorem isServerError_iff {e : ExchangeError} :
    e.isServerError = true ↔
      (∃ f cause, e = .coding (.writing f cause)) ∨ ∃ size max, e = .responseTooLarge size max := by
  rcases e with (_ | _ | _) | _ | _ | _ <;> simp [isServerError, status]

end ExchangeError
end Conneg
