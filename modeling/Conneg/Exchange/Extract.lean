import Conneg.Accept
import Conneg.Exchange.Receive
import Conneg.Exchange.Send

/-!
# What a handler takes from a request

A layer installs its policy in every request that passes through it, in place of
any policy the request had. Of nested layers the innermost is passed last, so its
policy is the one in force.

A handler may ask for the request's body as a value, and for the client's
preference. Both follow the policy in force: the body its receive limit, the
preference its fallback, and replies made from a preference its send limit.
-/

namespace Conneg

/-! ## Layers -/

/-- A layer. -/
structure Layer where
  policy : Policy := .unlimited
  deriving DecidableEq, Repr

namespace Layer

/-- A request that has passed a layer. -/
def install (l : Layer) (r : Request) : Request := { r with policy := some l.policy }

/-- A request that has passed nested layers, given outermost first. -/
def installAll (ls : List Layer) (r : Request) : Request :=
  ls.foldl (fun r l => l.install r) r

/-- Behind nested layers, the innermost one's policy is in force. -/
theorem policy_installAll (ls : List Layer) (r : Request) :
    (installAll ls r).policy
      = match ls.getLast? with
        | some l => some l.policy
        | none => r.policy := by
  induction ls generalizing r with
  | nil => rfl
  | cons l ls ih =>
    rw [installAll, List.foldl_cons, ← installAll, ih, List.getLast?_cons]
    cases ls.getLast? <;> rfl

end Layer

/-! ## Extractors -/

/-- The value of a request's body; an empty body gives the body type's initial
value. -/
def Request.extract (r : Request) (t : BodyType) : Except ExchangeError t.schema.Carrier :=
  let received := r.policyInForce.receive r t.schema t.initial
  received.outcome.map fun _ => received.destination

/-- What a client prefers, with the limits that replies to it keep. -/
structure Preference where
  format : Format
  limits : SizeLimits
  deriving DecidableEq, Repr

namespace Preference

/-- The preference of a request: the first `Accept` field, if it is text. -/
def ofRequest (r : Request) : Preference where
  format := Accept.negotiate ((r.headers.first? acceptName).bind headerText?)
    r.policyInForce.fallback
  limits := r.policyInForce.limits

variable {s : Schema}

/-- A reply with a value, as preferred. -/
def respond (p : Preference) (v : s.Carrier) : Reply s :=
  (Reply.ofValue p.format v).withLimits p.limits

/-- A reply without a value, as preferred. -/
def respondEmpty (p : Preference) : Reply s := (Reply.empty p.format).withLimits p.limits

end Preference

end Conneg
