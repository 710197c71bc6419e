import Conneg.Exchange.Error

/-!
# Policies

What an application decides about its exchanges: how large a request body and a
response body may be, and which format answers a client that does not care. Both
limits are optional, and a size equal to its limit is allowed.
-/

namespace Conneg

/-- The limits on body sizes, in bytes. -/
structure SizeLimits where
  receive : Option Nat := none
  send : Option Nat := none
  deriving DecidableEq, Repr

namespace SizeLimits

/-- Whether a size is above a limit. -/
def exceeds (limit : Option Nat) (size : Nat) : Option Nat :=
  match limit with
  | some max => if max < size then some max else none
  | none => none

/-- Refuses a request body that is too large. -/
def checkReceive (l : SizeLimits) (size : Nat) : Except ExchangeError Unit :=
  match exceeds l.receive size with
  | some max => .error (.requestTooLarge max)
  | none => .ok ()

/-- Refuses a response body that is too large. -/
def checkSend (l : SizeLimits) (size : Nat) : Except ExchangeError Unit :=
  match exceeds l.send size with
  | some max => .error (.responseTooLarge size max)
  | none => .ok ()

/-- A limit is exceeded exactly by the sizes above it. -/
theorem exceeds_eq_some {limit : Option Nat} {size max : Nat} :
    exceeds limit size = some max ↔ limit = some max ∧ max < size := by
  cases limit with
  | none => simp [exceeds]
  | some m =>
    simp only [exceeds, Option.some.injEq]
    split
    · next h => simp only [Option.some.injEq]; exact ⟨fun e => ⟨e, e ▸ h⟩, fun e => e.1⟩
    · next h =>
      simp only [reduceCtorEq, false_iff, not_and]
      intro e; rw [← e]; exact h

end SizeLimits

/-- What an application decides about its exchanges. -/
structure Policy where
  limits : SizeLimits := {}
  fallback : Format := Format.preferred
  deriving DecidableEq, Repr

namespace Policy

/-- The policy without limits, whose fallback is the preferred format. -/
def unlimited : Policy := {}

/-- The policy with other limits, both of them. -/
def withLimits (p : Policy) (l : SizeLimits) : Policy := { p with limits := l }

/-- The policy with another limit on request bodies. -/
def withReceiveLimit (p : Policy) (max : Nat) : Policy :=
  { p with limits := { p.limits with receive := some max } }

/-- The policy with another limit on response bodies. -/
def withSendLimit (p : Policy) (max : Nat) : Policy :=
  { p with limits := { p.limits with send := some max } }

/-- The policy with another fallback. -/
def withFallback (p : Policy) (f : Format) : Policy := { p with fallback := f }

end Policy
end Conneg
