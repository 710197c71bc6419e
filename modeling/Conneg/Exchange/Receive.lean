import Conneg.ContentType
import Conneg.Http.Message

/-!
# Receiving a body

A request's body is read into a destination in this order: the announced length
is checked against the limit, the body is read within the limit, an empty body
leaves the destination as it is, the format is resolved from the content type,
and the body is read in that format. The destination changes only when all of
that has succeeded.
-/

namespace Conneg

/-- A text without the plus sign in front of it, if there is one. -/
def withoutPlus : List Char → List Char
  | '+' :: cs => cs
  | cs => cs

/-- The length that a request announces, if it is text that is a 64-bit number:
digits, perhaps after a plus sign, and nothing else. -/
def announcedLength? (h : Headers) : Option Nat :=
  match (h.first? contentLengthName).bind headerText? with
  | none => none
  | some s =>
    match readDecimal? (withoutPlus s.toList) with
    | some n => if n < 2 ^ 64 then some n else none
    | none => none

/-- The format that a request's content type names. A missing one counts as
empty, and one that is not text is reported with what can be read of it. -/
def requestFormat (h : Headers) : Except CodingError Format :=
  match h.first? contentTypeName with
  | none => .error (.unsupported "")
  | some value =>
    match headerText? value with
    | some s => Format.ofContentType s
    | none => .error (.unsupported (Utf8.decodeLossy value))

/-- What receiving did: its outcome, and the destination after it. -/
structure Received (s : Schema) where
  outcome : Except ExchangeError Unit
  destination : s.Carrier

/-- Nothing was received; the destination is as it was. -/
def Received.refused {s : Schema} (e : ExchangeError) (dest : s.Carrier) : Received s :=
  ⟨.error e, dest⟩

/-- Receives a body that has been read already. -/
def receiveBytes (h : Headers) (body : Bytes) (s : Schema) (dest : s.Carrier) : Received s :=
  if body.isEmpty then ⟨.ok (), dest⟩
  else
    match requestFormat h with
    | .error e => .refused (.coding e) dest
    | .ok f =>
      match f.decode s body with
      | .error e => .refused (.coding e) dest
      | .ok v => ⟨.ok (), v⟩

/-- The error of a stream that was not read to its end. -/
def ExchangeError.ofStream : StreamError → ExchangeError
  | .tooLarge max => .requestTooLarge max
  | .failed text => .body text

namespace Policy

/-- Refuses a request that announces too large a body. -/
def checkAnnounced (p : Policy) (h : Headers) : Except ExchangeError Unit :=
  match announcedLength? h with
  | some n => p.limits.checkReceive n
  | none => .ok ()

/-- Receives the body of a request. -/
def receive (p : Policy) (r : Request) (s : Schema) (dest : s.Carrier) : Received s :=
  match p.checkAnnounced r.headers with
  | .error e => .refused e dest
  | .ok () =>
    match r.body.collect p.limits.receive with
    | .error e => .refused (.ofStream e) dest
    | .ok body => receiveBytes r.headers body s dest

end Policy

end Conneg
