import Conneg.Exchange.Extract
import Conneg.Orders.Order

/-!
# Taking orders

Two handlers answer a placed order with its receipt. `create` follows the policy
in force and answers in the format that the client prefers; an order without an
identifier is refused. `echo` has a receive limit of its own and answers in the
format in which the order came.

The service listens on every interface of the machine. Its port is a setting;
what is set must be a decimal number of 16 bits, and where nothing is set the
port is 3000.
-/

namespace Conneg.Orders

/-! ## Handlers -/

/-- The response to an order, as the client prefers it. -/
def Order.answer (preference : Preference) (o : Order) : Response :=
  if o.id.isEmpty then
    ((preference.respondEmpty : Reply receiptBody.schema).withStatus 400).toResponse
  else ((preference.respond o.receipt.toBody).withStatus 201).toResponse

/-- Takes an order and answers in the preferred format: 201 with the receipt, or
400 without a body for an order without an identifier. -/
def create (r : Request) : Response :=
  match r.extract orderBody with
  | .error e => e.toResponse
  | .ok body => (Order.ofBody body).answer (.ofRequest r)

/-- The policy of `echo`, whatever layers there are. -/
def echoPolicy : Policy := Policy.unlimited.withReceiveLimit (64 * 1024)

/-- The format that `echo` answers in: that of the request, or the preferred one
if the request names none. -/
def echoFormat (h : Headers) : Format :=
  match requestFormat h with
  | .ok f => f
  | .error _ => .preferred

/-- Takes an order and answers 200 with the receipt, in the order's own
format. -/
def echo (r : Request) : Response :=
  let received := echoPolicy.receive r orderBody.schema orderBody.initial
  match received.outcome with
  | .error e => e.toResponse
  | .ok () =>
    let receipt := (Order.ofBody received.destination).receipt
    match echoPolicy.sendFormat receiptBody.schema 200 (some receipt.toBody)
        (echoFormat r.headers) with
    | .error e => e.toResponse
    | .ok calls => Response.fresh.receive (.ok calls)

/-! ## Where the service listens -/

/-- The port that is used where none is set. -/
def defaultPort : String := "3000"

/-- Why there is no address to listen on. -/
inductive AddressError
  /-- The port's setting is not a decimal number of 16 bits. -/
  | malformed
  deriving DecidableEq, Repr

/-- The text of the error. -/
def AddressError.message : AddressError → String
  | .malformed => "invalid socket address syntax"

/-- The port of a setting: one or more digits, at most 65535. -/
def readPort? (setting : String) : Option Nat :=
  match readDecimal? setting.toList with
  | some n => if n < 2 ^ 16 then some n else none
  | none => none

/-- The address to listen on, for a set port or none. -/
def listenAddress (setting : Option String) : Except AddressError String :=
  match readPort? (setting.getD defaultPort) with
  | some n => .ok ("0.0.0.0:" ++ decimalText n)
  | none => .error .malformed

example : (listenAddress none).toOption = some "0.0.0.0:3000" := by decide +kernel
example : (listenAddress (some "00000080")).toOption = some "0.0.0.0:80" := by decide +kernel
example : readPort? "65536" = none := by decide +kernel
example : readPort? "+80" = none := by decide +kernel

end Conneg.Orders
