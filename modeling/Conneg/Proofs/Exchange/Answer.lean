import Conneg.Proofs.Exchange.Problem
import Conneg.Proofs.Http.Headers

/-!
# Replies as the client prefers

A handler makes a reply from the client's preference and may change its status and its
limits in any number of steps. Of the steps of each kind the last one counts, and the two
kinds do not touch each other's part of the reply (`applyAll_eq`, by induction on the steps
from what one step does). The limits of the policy in force are those of a reply that no
step has changed.

So the response is that of the preferred format, the last status and the last limit on what
is sent, or that of the error; it depends on nothing else (`answer_obeysLimits`).
-/

namespace Conneg

/-! ## The preferred format -/

/-- Whether the first `Accept` field is this text. -/
def Headers.Accepts (h : Headers) (text : String) : Prop :=
  ∃ value later, h.values acceptName = value :: later ∧ IsTextValue value ∧
    Utf8.encode text = value

theorem Headers.accepts_iff {h : Headers} {text : String} :
    h.Accepts text ↔ (h.first? acceptName).bind headerText? = some text := by
  rw [Headers.first?]
  cases hvalues : h.values acceptName with
  | nil => simp [Accepts, hvalues]
  | cons value later =>
    rw [List.head?_cons, Option.bind_some, headerText?_eq_some, Accepts, hvalues]
    simp only [List.cons.injEq]
    constructor
    · rintro ⟨value', later', ⟨rfl, rfl⟩, htext⟩
      exact htext
    · intro htext
      exact ⟨value, later, ⟨rfl, rfl⟩, htext⟩

/-- The preferred format is chosen by the first `Accept` field, if that is text. -/
theorem Preference.format_ofRequest (r : Request) :
    (∀ text, r.headers.Accepts text →
      (ofRequest r).format = Accept.negotiate (some text) r.policyInForce.fallback) ∧
    ((∀ text, ¬ r.headers.Accepts text) →
      (ofRequest r).format = r.policyInForce.fallback) := by
  unfold ofRequest
  constructor
  · intro text htext
    rw [Headers.accepts_iff.1 htext]
  · intro hnone
    have htext : (r.headers.first? acceptName).bind headerText? = none :=
      Option.eq_none_iff_forall_ne_some.2 fun text h => hnone text (Headers.accepts_iff.2 h)
    rw [htext]
    rfl

namespace Reply

/-! ## Steps -/

/-- A change that a handler makes to its reply. -/
inductive Step
  | status (code : Nat)
  | limits (l : SizeLimits)

namespace Step

/-- The status that a step sets, if it sets one. -/
def status? : Step → Option Nat
  | .status code => some code
  | .limits _ => none

/-- The limits that a step sets, if it sets them. -/
def limits? : Step → Option SizeLimits
  | .status _ => none
  | .limits l => some l

end Step

/-- The status that the last step of its kind sets. -/
def lastStatus? (steps : List Step) : Option Nat := (steps.filterMap Step.status?).getLast?

/-- The limits that the last step of its kind sets. -/
def lastLimits? (steps : List Step) : Option SizeLimits := (steps.filterMap Step.limits?).getLast?

variable {s : Schema}

/-- A reply after a step. -/
def apply (x : Reply s) : Step → Reply s
  | .status code => x.withStatus code
  | .limits l => x.withLimits l

/-- A reply after steps. -/
def applyAll (x : Reply s) (steps : List Step) : Reply s := steps.foldl apply x

/-- A step changes the part of the reply that it sets, and no other. -/
theorem apply_eq (x : Reply s) (step : Step) :
    x.apply step
      = ⟨step.status?.getD x.status, x.format, x.value, step.limits?.getD x.limits⟩ := by
  cases step <;> rfl

/-- The last value that steps set: of the later steps if they set one, and else of the
first. -/
theorem getD_getLast?_filterMap_cons {α : Type} (set? : Step → Option α) (step : Step)
    (steps : List Step) (initial : α) :
    ((step :: steps).filterMap set?).getLast?.getD initial
      = (steps.filterMap set?).getLast?.getD ((set? step).getD initial) := by
  cases hset : set? step with
  | none => rw [List.filterMap_cons_none hset, Option.getD_none]
  | some a => rw [List.filterMap_cons_some hset, List.getLast?_cons, Option.getD_some, Option.getD_some]

/-- After steps a reply has the last status and the last limits that were set. -/
theorem applyAll_eq (x : Reply s) (steps : List Step) :
    x.applyAll steps
      = ⟨(lastStatus? steps).getD x.status, x.format, x.value,
          (lastLimits? steps).getD x.limits⟩ := by
  induction steps generalizing x with
  | nil => rfl
  | cons step steps ih =>
    rw [applyAll, List.foldl_cons, ← applyAll, ih, apply_eq]
    simp only [lastStatus?, lastLimits?, getD_getLast?_filterMap_cons]

/-- A response depends on the limits of a reply only as to what is sent. -/
theorem toResponse_congr {x x' : Reply s} (hstatus : x'.status = x.status)
    (hformat : x'.format = x.format) (hvalue : x'.value = x.value)
    (hsend : x'.limits.send = x.limits.send) : x'.toResponse = x.toResponse := by
  have hcalls : (Policy.unlimited.withLimits x'.limits).sendFormat s x'.status x'.value x'.format
      = (Policy.unlimited.withLimits x.limits).sendFormat s x.status x.value x.format := by
    simp only [Policy.sendFormat, Policy.withLimits, SizeLimits.checkSend, hstatus, hformat, hvalue,
      hsend]
  rw [toResponse, hcalls, toResponse]

end Reply

/-- The reply that a handler makes with a value, or without one. -/
def Preference.answer {s : Schema} (p : Preference) : Option s.Carrier → Reply s
  | some v => p.respond v
  | none => p.respondEmpty

theorem Preference.answer_eq {s : Schema} (p : Preference) (value : Option s.Carrier) :
    p.answer value = ⟨if value.isSome then 200 else 204, p.format, value, p.limits⟩ := by
  cases value <;> rfl

open Reply in
/-- What becomes of a handler's reply in steps. -/
theorem applyAll_answer {s : Schema} (r : Request) (value : Option s.Carrier)
    (steps : List Step) :
    ((Preference.ofRequest r).answer value).applyAll steps
      = ⟨(lastStatus? steps).getD (if value.isSome then 200 else 204),
          (Preference.ofRequest r).format, value,
          (lastLimits? steps).getD r.policyInForce.limits⟩ := by
  rw [applyAll_eq, Preference.answer_eq]
  rfl

/-- The limit on what is sent, of limits that may have been set. -/
theorem send_getD (limits? : Option SizeLimits) (l : SizeLimits) :
    (limits?.getD l).send = (limits?.map SizeLimits.send).getD l.send := by
  cases limits? <;> rfl

open Reply in
/-- **Replies obey the limits in force, and a failed one shows nothing of itself.** The
format is that of the first `Accept` field, if it is text, or else the fallback of the
policy in force. The status is the last that was set, and the limits are the last that were
set or else those of the policy. Without a value there is no body; a value is sent if it can
be written within the limit, and otherwise a generic error is. Of the limits only that on
what is sent counts, and it does not matter between which steps the others stand. -/
theorem answer_obeysLimits (r : Request) (s : Schema) (value : Option s.Carrier)
    (steps : List Step) :
    let p := Preference.ofRequest r
    let status := (lastStatus? steps).getD (if value.isSome then 200 else 204)
    let limits := (lastLimits? steps).getD r.policyInForce.limits
    let response := ((p.answer value).applyAll steps).toResponse
    ((∀ text, r.headers.Accepts text →
        p.format = Accept.negotiate (some text) r.policyInForce.fallback) ∧
      ((∀ text, ¬ r.headers.Accepts text) → p.format = r.policyInForce.fallback)) ∧
    (value = none → response = .inFormat p.format status []) ∧
    (∀ v, value = some v →
      (∀ bs, p.format.encode s v = .ok bs →
        ((∀ max, limits.send = some max → bs.length ≤ max) →
          response = .inFormat p.format status bs) ∧
        ∀ max, limits.send = some max → max < bs.length →
          response = .inFormat .json 500 (Utf8.encode
            "\x7b\"code\":\"response_too_large\",\"message\":\"internal error\"\x7d")) ∧
      ((∀ bs, p.format.encode s v ≠ .ok bs) →
        response = .inFormat .json 500 (Utf8.encode
          "\x7b\"code\":\"encode_error\",\"message\":\"internal error\"\x7d"))) ∧
    ∀ (r' : Request) (steps' : List Step), (Preference.ofRequest r').format = p.format →
      r'.policyInForce.limits.send = r.policyInForce.limits.send →
      lastStatus? steps' = lastStatus? steps →
      (lastLimits? steps').map SizeLimits.send = (lastLimits? steps).map SizeLimits.send →
      (((Preference.ofRequest r').answer value).applyAll steps').toResponse = response := by
  intro p status limits response
  let x : Reply s := ⟨status, p.format, value, limits⟩
  have hresponse : response = x.toResponse := congrArg toResponse (applyAll_answer r value steps)
  refine ⟨Preference.format_ofRequest r, ?empty, ?written, ?congr⟩
  case empty =>
    intro hvalue
    rw [hresponse]
    exact toResponse_of_none hvalue
  case written =>
    intro v hvalue
    rw [hresponse]
    refine ⟨fun bs hbs => ⟨?_, fun max hmax hover => ?_⟩, fun hnone => ?_⟩
    · exact (toResponse_of_encode (x := x) hvalue hbs).1
    · exact toResponse_of_overLimit ⟨v, bs, max, hvalue, hbs, hmax, hover⟩
    · exact toResponse_of_unwritable ⟨v, hvalue, hnone⟩
  case congr =>
    intro r' steps' hformat hsend hstatus hlimits
    rw [hresponse, applyAll_answer, hstatus]
    refine toResponse_congr rfl hformat rfl ?_
    -- whether the limits were set last or are those in force, they agree in what is sent
    show ((lastLimits? steps').getD r'.policyInForce.limits).send
      = ((lastLimits? steps).getD r.policyInForce.limits).send
    rw [send_getD, send_getD, hlimits, hsend]

/-- A request whose client prefers MessagePack, behind a layer whose limits are narrow. -/
def thrifty : Request where
  headers := Headers.ofList
    [("Accept", Utf8.encode "text/html, application/x-msgpack"), ("Accept", [0xFF])]
  policy := some ⟨⟨some 1, some 5⟩, .bson⟩

open Reply in
/-- Under that policy a text of four letters is sent, with the last status that was set. It is
not sent if a step lowers the limit, whatever status is set after that; and BSON would have
no place for it. -/
theorem answer_thrifty :
    let fits : List Step := [.status 201, .status 202]
    let lowered : List Step := [.limits ⟨none, none⟩, .status 201, .limits ⟨none, some 4⟩, .status 202]
    let reordered : List Step := [.status 202, .limits ⟨some 9, some 4⟩]
    let unheard : Request := { thrifty with headers := Headers.empty }
    let answer (r : Request) (steps : List Step) : Response :=
      (((Preference.ofRequest r).answer (some "abcd" : Option Schema.text.Carrier)).applyAll
        steps).toResponse
    (thrifty.headers.Accepts "text/html, application/x-msgpack" ∧
        (∀ text, ¬ unheard.headers.Accepts text)) ∧
      answer thrifty fits = .inFormat .msgpack 202 [0xA4, 0x61, 0x62, 0x63, 0x64] ∧
      answer thrifty lowered = .serverFailure "response_too_large" ∧
      answer thrifty reordered = answer thrifty lowered ∧
      answer unheard fits = .serverFailure "encode_error" := by
  intro fits lowered reordered unheard answer
  have haccepts : thrifty.headers.Accepts "text/html, application/x-msgpack" :=
    Headers.accepts_iff.2 (by decide +kernel)
  have hnone : ∀ text, ¬ unheard.headers.Accepts text := by
    intro text htext
    exact nomatch Headers.accepts_iff.1 htext
  obtain ⟨hformat, -, hfits, -⟩ := answer_obeysLimits thrifty .text (some "abcd") fits
  obtain ⟨-, -, hlowered, hcongr⟩ := answer_obeysLimits thrifty .text (some "abcd") lowered
  obtain ⟨hfallback, -, hunheard, -⟩ := answer_obeysLimits unheard .text (some "abcd") fits
  have hmsgpack : (Preference.ofRequest thrifty).format = .msgpack :=
    (hformat.1 _ haccepts).trans (by decide +kernel)
  have hbson : (Preference.ofRequest unheard).format = .bson := hfallback.2 hnone
  have hencode : (Preference.ofRequest thrifty).format.encode .text "abcd"
      = .ok [0xA4, 0x61, 0x62, 0x63, 0x64] := by
    rw [hmsgpack]
    rfl
  refine ⟨⟨haccepts, hnone⟩, ?_, ?_, hcongr thrifty reordered rfl rfl rfl rfl, ?_⟩
  · rw [← hmsgpack]
    refine ((hfits _ rfl).1 _ hencode).1 fun max hmax => ?_
    obtain rfl := Option.some.inj hmax
    decide
  · exact ((hlowered _ rfl).1 _ hencode).2 4 rfl (by decide)
  · refine (hunheard _ rfl).2 fun bs hbs => ?_
    rw [hbson] at hbs
    exact nomatch Format.encode_eq_ok.1 hbs

end Conneg
