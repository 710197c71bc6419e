import Conneg.Exchange.Send

/-!
# A sink is written whole or not at all

A handler may send into one sink again and again, by a token or by a format, with
or without a policy. Each such step is a `Sending`; a sink is any type with an
action for the three `SinkCall`s, and a response is one.

Two lemmas say what a step does:

> `calls_eq_error_iff`: it fails exactly for one of the causes of `Refused`, of
> which each presumes that the ones before it did not arise;
>
> `calls_eq_ok_iff`: otherwise it makes three calls, with the canonical token of
> the format that its body is written in (`Sends`).

A failed step so leaves any sink alone, and `runAll_response` follows by induction
on the run: a response shows the last successful step, and of its other headers
none has changed. `sends_allOrNothing` puts the statements together.
-/

namespace Conneg

/-- The ways to send into a sink. -/
inductive Entry
  /-- By the token of a content type, under a policy. -/
  | tokenUnder (p : Policy) (raw : String)
  /-- In a format, under a policy. -/
  | formatUnder (p : Policy) (f : Format)
  /-- By the token of a content type, without limits. -/
  | token (raw : String)
  /-- In a format, without limits. -/
  | format (f : Format)
  | json
  | bson
  | msgpack

namespace Entry

/-- The policy that a way to send is under. -/
def policy : Entry → Policy
  | .tokenUnder p _ => p
  | .formatUnder p _ => p
  | _ => .unlimited

/-- The token that has to be resolved, if there is one. -/
def token? : Entry → Option String
  | .tokenUnder _ raw => some raw
  | .token raw => some raw
  | _ => none

/-- The format that a way to send comes to; none if its token is not known. -/
def format? : Entry → Option Format
  | .tokenUnder _ raw => Format.ofContentType? raw.toList
  | .formatUnder _ f => some f
  | .token raw => Format.ofContentType? raw.toList
  | .format f => some f
  | .json => some .json
  | .bson => some .bson
  | .msgpack => some .msgpack

end Entry

/-- One step of sending into a sink. -/
structure Sending where
  entry : Entry
  schema : Schema
  status : Nat
  value : Option schema.Carrier

namespace Sending

/-- The calls of a step, or why it fails. -/
def calls (x : Sending) : Except ExchangeError (List SinkCall) :=
  match x.entry with
  | .tokenUnder p raw => p.send x.schema x.status x.value raw
  | .formatUnder p f => p.sendFormat x.schema x.status x.value f
  | .token raw => Policy.unlimited.send x.schema x.status x.value raw
  | .format f => Policy.unlimited.sendFormat x.schema x.status x.value f
  | .json => Policy.unlimited.sendFormat x.schema x.status x.value .json
  | .bson => Policy.unlimited.sendFormat x.schema x.status x.value .bson
  | .msgpack => Policy.unlimited.sendFormat x.schema x.status x.value .msgpack

/-- Why a step fails. The causes are in the order in which they are looked for:
each presumes that the token is known, and the last that the value can be
written. -/
inductive Refused (x : Sending) : ExchangeError → Prop
  | token (raw : String) (htoken : x.entry.token? = some raw) (hf : x.entry.format? = none) :
    Refused x (.coding (.unsupported raw))
  | value (f : Format) (v : x.schema.Carrier) (hf : x.entry.format? = some f)
    (hvalue : x.value = some v) (hv : ∀ bs, f.encode x.schema v ≠ .ok bs) :
    Refused x (.coding (.writing f .unwritable))
  | size (f : Format) (v : x.schema.Carrier) (bs : Bytes) (max : Nat)
    (hf : x.entry.format? = some f) (hvalue : x.value = some v)
    (hv : f.encode x.schema v = .ok bs) (hlimit : x.entry.policy.limits.send = some max)
    (hover : max < bs.length) : Refused x (.responseTooLarge bs.length max)

/-- A step sends a body in a format: what the format writes of the value, or
nothing if there is no value, within the limit. -/
structure Sends (x : Sending) (f : Format) (body : Bytes) : Prop where
  format : x.entry.format? = some f
  written : match x.value with
    | some v => f.encode x.schema v = .ok body
    | none => body = []
  within : ∀ max, x.entry.policy.limits.send = some max → body.length ≤ max

/-! ## One step -/

/-- A step resolves its token, if it has one, and sends in the format. -/
theorem calls_eq (x : Sending) :
    (∃ raw, x.entry.token? = some raw ∧ x.entry.format? = none ∧
      x.calls = .error (.coding (.unsupported raw))) ∨
    (∃ f, x.entry.format? = some f ∧
      x.calls = x.entry.policy.sendFormat x.schema x.status x.value f) := by
  have hsend : ∀ (p : Policy) (raw : String),
      (Format.ofContentType? raw.toList = none ∧
        p.send x.schema x.status x.value raw = .error (.coding (.unsupported raw))) ∨
      ∃ f, Format.ofContentType? raw.toList = some f ∧
        p.send x.schema x.status x.value raw = p.sendFormat x.schema x.status x.value f := by
    intro p raw
    cases hf : Format.ofContentType? raw.toList with
    | none => exact .inl ⟨rfl, by simp only [Policy.send, Format.ofContentType, hf]⟩
    | some f => exact .inr ⟨f, rfl, by simp only [Policy.send, Format.ofContentType, hf]⟩
  obtain ⟨entry, s, status, value⟩ := x
  cases entry with
  | tokenUnder p raw =>
    rcases hsend p raw with ⟨hf, hcalls⟩ | ⟨f, hf, hcalls⟩
    · exact .inl ⟨raw, rfl, hf, hcalls⟩
    · exact .inr ⟨f, hf, hcalls⟩
  | token raw =>
    rcases hsend .unlimited raw with ⟨hf, hcalls⟩ | ⟨f, hf, hcalls⟩
    · exact .inl ⟨raw, rfl, hf, hcalls⟩
    · exact .inr ⟨f, hf, hcalls⟩
  | formatUnder p f => exact .inr ⟨f, rfl, rfl⟩
  | format f => exact .inr ⟨f, rfl, rfl⟩
  | json => exact .inr ⟨.json, rfl, rfl⟩
  | bson => exact .inr ⟨.bson, rfl, rfl⟩
  | msgpack => exact .inr ⟨.msgpack, rfl, rfl⟩

end Sending

namespace Policy

/-- A body is sent in three calls, or refused for its length. -/
theorem sendFormat_of_encodeBody {p : Policy} {s : Schema} {status : Nat}
    {value : Option s.Carrier} {f : Format} {body : Bytes} (h : encodeBody f s value = .ok body) :
    ((∀ max, p.limits.send = some max → body.length ≤ max) ∧
      p.sendFormat s status value f = .ok (SinkCall.ofReply f status body)) ∨
    ∃ max, p.limits.send = some max ∧ max < body.length ∧
      p.sendFormat s status value f = .error (.responseTooLarge body.length max) := by
  rw [sendFormat, h]
  cases hexceeds : SizeLimits.exceeds p.limits.send body.length with
  | none =>
    refine .inl ⟨?_, ?_⟩
    · intro max hmax
      refine Nat.not_lt.1 fun hover => ?_
      rw [SizeLimits.exceeds_eq_some.2 ⟨hmax, hover⟩] at hexceeds
      simp at hexceeds
    · show (p.limits.checkSend body.length >>= fun _ => _) = _
      rw [SizeLimits.checkSend, hexceeds]
      rfl
  | some max =>
    obtain ⟨hmax, hover⟩ := SizeLimits.exceeds_eq_some.1 hexceeds
    refine .inr ⟨max, hmax, hover, ?_⟩
    show (p.limits.checkSend body.length >>= fun _ => _) = _
    rw [SizeLimits.checkSend, hexceeds]
    rfl

end Policy

namespace Sending

/-- Everything a step can do: it is refused, or it makes its three calls. -/
theorem calls_cases (x : Sending) :
    (∃ e, x.Refused e ∧ x.calls = .error e) ∨
    (∃ f body, x.Sends f body ∧ x.calls = .ok (SinkCall.ofReply f x.status body)) := by
  rcases calls_eq x with ⟨raw, htoken, hf, hcalls⟩ | ⟨f, hf, hcalls⟩
  · exact .inl ⟨_, .token raw htoken hf, hcalls⟩
  rw [hcalls]
  cases hvalue : x.value with
  | none =>
    have hbody : Policy.encodeBody f x.schema none = .ok [] := rfl
    rcases Policy.sendFormat_of_encodeBody (p := x.entry.policy) hbody with
      ⟨hwithin, hsend⟩ | ⟨max, -, hover, -⟩
    · exact .inr ⟨f, [], ⟨hf, by rw [hvalue], hwithin⟩, hsend⟩
    · simp at hover
  | some v =>
    cases hv : f.encode x.schema v with
    | error e =>
      obtain rfl := Format.encode_error hv
      refine .inl ⟨_, .value f v hf hvalue (by simp [hv]), ?_⟩
      simp only [Policy.sendFormat, Policy.encodeBody, hv]
      rfl
    | ok bs =>
      have hbody : Policy.encodeBody f x.schema (some v) = .ok bs := by
        simp only [Policy.encodeBody, hv]
      rcases Policy.sendFormat_of_encodeBody (p := x.entry.policy) hbody with
        ⟨hwithin, hsend⟩ | ⟨max, hlimit, hover, hsend⟩
      · exact .inr ⟨f, bs, ⟨hf, by rw [hvalue]; exact hv, hwithin⟩, hsend⟩
      · exact .inl ⟨_, .size f v bs max hf hvalue hv hlimit hover, hsend⟩

theorem Refused.eq {x : Sending} {e e' : ExchangeError} (h : x.Refused e) (h' : x.Refused e') :
    e = e' := by
  cases h with
  | token raw htoken hf =>
    cases h' with
    | token raw' htoken' _ =>
      obtain rfl : raw = raw' := Option.some.inj (htoken.symm.trans htoken')
      rfl
    | value f v hf' => simp [hf] at hf'
    | size f v bs max hf' => simp [hf] at hf'
  | value f v hf hvalue hv =>
    cases h' with
    | token raw _ hf' => simp [hf] at hf'
    | value f' v' hf' _ _ =>
      obtain rfl : f = f' := Option.some.inj (hf.symm.trans hf')
      rfl
    | size f' v' bs max hf' hvalue' hv' =>
      obtain rfl : f = f' := Option.some.inj (hf.symm.trans hf')
      obtain rfl : v = v' := Option.some.inj (hvalue.symm.trans hvalue')
      exact absurd hv' (hv bs)
  | size f v bs max hf hvalue hv hlimit hover =>
    cases h' with
    | token raw _ hf' => simp [hf] at hf'
    | value f' v' hf' hvalue' hv' =>
      obtain rfl : f = f' := Option.some.inj (hf.symm.trans hf')
      obtain rfl : v = v' := Option.some.inj (hvalue.symm.trans hvalue')
      exact absurd hv (hv' bs)
    | size f' v' bs' max' hf' hvalue' hv' hlimit' _ =>
      obtain rfl : f = f' := Option.some.inj (hf.symm.trans hf')
      obtain rfl : v = v' := Option.some.inj (hvalue.symm.trans hvalue')
      obtain rfl : bs = bs' := Except.ok.inj (hv.symm.trans hv')
      obtain rfl : max = max' := Option.some.inj (hlimit.symm.trans hlimit')
      rfl

theorem Sends.not_refused {x : Sending} {f : Format} {body : Bytes} {e : ExchangeError}
    (h : x.Sends f body) : ¬ x.Refused e := by
  obtain ⟨hf, hwritten, hwithin⟩ := h
  intro hrefused
  cases hrefused with
  | token raw _ hf' => simp [hf] at hf'
  | value f' v hf' hvalue hv =>
    obtain rfl : f = f' := Option.some.inj (hf.symm.trans hf')
    rw [hvalue] at hwritten
    exact hv body hwritten
  | size f' v bs max hf' hvalue hv hlimit hover =>
    obtain rfl : f = f' := Option.some.inj (hf.symm.trans hf')
    rw [hvalue] at hwritten
    obtain rfl : bs = body := Except.ok.inj (hv.symm.trans hwritten)
    exact absurd (hwithin max hlimit) (Nat.not_le.2 hover)

theorem Sends.eq {x : Sending} {f f' : Format} {body body' : Bytes} (h : x.Sends f body)
    (h' : x.Sends f' body') : f = f' ∧ body = body' := by
  obtain rfl : f = f' := Option.some.inj (h.format.symm.trans h'.format)
  refine ⟨rfl, ?_⟩
  have hbody := h.written
  have hbody' := h'.written
  cases hvalue : x.value with
  | none => rw [hvalue] at hbody hbody'; exact hbody.trans hbody'.symm
  | some v => rw [hvalue] at hbody hbody'; exact Except.ok.inj (hbody.symm.trans hbody')

/-- A step fails exactly for a cause of refusal. -/
theorem calls_eq_error_iff {x : Sending} {e : ExchangeError} :
    x.calls = .error e ↔ x.Refused e := by
  rcases calls_cases x with ⟨e', hrefused, hcalls⟩ | ⟨f, body, hsends, hcalls⟩
  · rw [hcalls, Except.error.injEq]
    exact ⟨fun h => h ▸ hrefused, fun h => hrefused.eq h⟩
  · rw [hcalls]
    exact ⟨fun h => by simp at h, fun h => absurd h hsends.not_refused⟩

/-- A step succeeds exactly if it sends a body, and then makes three calls. -/
theorem calls_eq_ok_iff {x : Sending} {cs : List SinkCall} :
    x.calls = .ok cs ↔ ∃ f body, x.Sends f body ∧
      cs = [.contentType f.token, .status x.status, .body body] := by
  rcases calls_cases x with ⟨e, hrefused, hcalls⟩ | ⟨f, body, hsends, hcalls⟩
  · rw [hcalls]
    refine ⟨fun h => by simp at h, ?_⟩
    rintro ⟨f, body, hsends, -⟩
    exact absurd hrefused hsends.not_refused
  · rw [hcalls, Except.ok.injEq]
    refine ⟨fun h => ⟨f, body, hsends, h.symm⟩, ?_⟩
    rintro ⟨f', body', hsends', rfl⟩
    obtain ⟨rfl, rfl⟩ := hsends.eq hsends'
    rfl

theorem Refused.of_none {x : Sending} {e : ExchangeError} (hvalue : x.value = none)
    (h : x.Refused e) : ∃ raw, x.entry.token? = some raw ∧ e = .coding (.unsupported raw) := by
  cases h with
  | token raw htoken _ => exact ⟨raw, htoken, rfl⟩
  | value f v _ hv => simp [hvalue] at hv
  | size f v bs max _ hv => simp [hvalue] at hv

/-! ## Runs -/

variable {S : Type}

/-- A sink after a step: what its calls make of it, or the same sink if the step
fails. -/
def apply (call : S → SinkCall → S) (sink : S) (x : Sending) : S :=
  match x.calls with
  | .ok cs => cs.foldl call sink
  | .error _ => sink

/-- A sink after a run of steps. -/
def runAll (call : S → SinkCall → S) (sink : S) (xs : List Sending) : S :=
  xs.foldl (apply call) sink

/-- A response takes the calls of a step as `Response.receive` has it. -/
theorem apply_response (r : Response) (x : Sending) :
    apply Response.call r x = r.receive x.calls := by
  unfold apply Response.receive
  rfl

theorem apply_of_refused (call : S → SinkCall → S) (sink : S) {x : Sending} {e : ExchangeError}
    (h : x.Refused e) : apply call sink x = sink := by
  rw [apply, calls_eq_error_iff.2 h]

theorem apply_of_sends (call : S → SinkCall → S) (sink : S) {x : Sending} {f : Format}
    {body : Bytes} (h : x.Sends f body) :
    apply call sink x
      = call (call (call sink (.contentType f.token)) (.status x.status)) (.body body) := by
  rw [apply, calls_eq_ok_iff.2 ⟨f, body, h, rfl⟩]
  rfl

theorem runAll_of_refused (call : S → SinkCall → S) (sink : S) {xs : List Sending}
    (h : ∀ x ∈ xs, ∃ e, x.Refused e) : runAll call sink xs = sink := by
  induction xs with
  | nil => rfl
  | cons x xs ih =>
    obtain ⟨e, he⟩ := h x List.mem_cons_self
    rw [runAll, List.foldl_cons, apply_of_refused call sink he]
    exact ih fun y hy => h y (List.mem_cons_of_mem x hy)

/-- The header fields of a response but for its content type. -/
def otherFields (r : Response) : List (String × Bytes) :=
  r.headers.fields.filter fun field => field.1 != contentTypeName

theorem otherFields_call (r : Response) (c : SinkCall) :
    otherFields (r.call c) = otherFields r := by
  cases c with
  | contentType token => simp [otherFields, Response.call, Headers.set, List.filter_filter]
  | status code => rfl
  | body bs => rfl

theorem otherFields_runAll (r : Response) (xs : List Sending) :
    otherFields (runAll Response.call r xs) = otherFields r := by
  induction xs generalizing r with
  | nil => rfl
  | cons x xs ih =>
    rw [runAll, List.foldl_cons]
    refine (ih _).trans ?_
    rcases calls_cases x with ⟨e, hrefused, -⟩ | ⟨f, body, hsends, -⟩
    · rw [apply_of_refused Response.call r hrefused]
    · rw [apply_of_sends Response.call r hsends, otherFields_call, otherFields_call,
        otherFields_call]

/-- After a step that sends a body, and refused ones after it, a response shows
that body, with the status and the content type of its step. -/
theorem runAll_response {before after : List Sending} {x : Sending} {f : Format} {body : Bytes}
    (r : Response) (hsends : x.Sends f body) (hafter : ∀ y ∈ after, ∃ e, y.Refused e) :
    let shown := runAll Response.call r (before ++ x :: after)
    shown.status = x.status ∧ shown.body = body ∧
      shown.headers.values contentTypeName = [Utf8.encode f.token] := by
  have hrun : runAll Response.call r (before ++ x :: after)
      = apply Response.call (runAll Response.call r before) x := by
    rw [runAll, List.foldl_append, List.foldl_cons]
    exact runAll_of_refused Response.call _ hafter
  rw [hrun, apply_of_sends Response.call _ hsends]
  exact ⟨rfl, rfl, Headers.values_set_self _ _ _⟩

/-- **Sending is all or nothing over whole runs.** A step fails exactly for one
of the causes of `Refused`, without a value only for its token, and then makes no
call. Otherwise it makes the three calls for the format its body is written in,
in their order. After any run a response shows the last step that succeeded, or
is as it was if there is none, and its other header fields are those it had. -/
theorem sends_allOrNothing :
    (∀ (x : Sending) e, x.calls = .error e ↔ x.Refused e) ∧
    (∀ (x : Sending) cs, x.calls = .ok cs ↔ ∃ f body, x.Sends f body ∧
      cs = [.contentType f.token, .status x.status, .body body]) ∧
    (∀ (x : Sending) e, x.value = none → x.Refused e →
      ∃ raw, x.entry.token? = some raw ∧ e = .coding (.unsupported raw)) ∧
    (∀ (r : Response) (x : Sending), apply Response.call r x = r.receive x.calls) ∧
    (∀ (S : Type) (call : S → SinkCall → S) (sink : S) (x : Sending),
      (∀ e, x.Refused e → apply call sink x = sink) ∧
      ∀ f body, x.Sends f body → apply call sink x
        = call (call (call sink (.contentType f.token)) (.status x.status)) (.body body)) ∧
    (∀ (r : Response) (xs : List Sending),
      otherFields (runAll Response.call r xs) = otherFields r ∧
      ((∀ x ∈ xs, ∃ e, x.Refused e) → runAll Response.call r xs = r) ∧
      ∀ before x after f body, xs = before ++ x :: after → x.Sends f body →
        (∀ y ∈ after, ∃ e, y.Refused e) →
        (runAll Response.call r xs).status = x.status ∧
        (runAll Response.call r xs).body = body ∧
        (runAll Response.call r xs).headers.values contentTypeName = [Utf8.encode f.token]) := by
  refine ⟨fun _ _ => calls_eq_error_iff, fun _ _ => calls_eq_ok_iff,
    fun _ _ hvalue h => h.of_none hvalue, apply_response, ?_, ?_⟩
  · intro S call sink x
    exact ⟨fun e h => apply_of_refused call sink h, fun f body h => apply_of_sends call sink h⟩
  · intro r xs
    refine ⟨otherFields_runAll r xs, runAll_of_refused Response.call r, ?_⟩
    rintro before x after f body rfl hsends hafter
    exact runAll_response r hsends hafter

/-- A text is sent as JSON, then one longer than the limit allows, then one to
a token that is not known. -/
def threeSends : List Sending :=
  [⟨.json, .text, 201, some "a"⟩,
    ⟨.formatUnder (Policy.unlimited.withSendLimit 1) .json, .text, 200, some ""⟩,
    ⟨.token "text/plain", .text, 202, none⟩]

/-- A response with two content types and one other field. -/
def crowded : Response where
  headers := Headers.ofList
    [("Content-Type", [0x78]), ("Vary", [0x79]), ("content-type", [0x7A])]

/-- After those three steps that response shows the first one. -/
theorem runAll_threeSends :
    (threeSends[0].Sends .json [0x22, 0x61, 0x22] ∧ ∀ y ∈ threeSends.drop 1, ∃ e, y.Refused e) ∧
      (runAll Response.call crowded threeSends).status = 201 ∧
      (runAll Response.call crowded threeSends).headers.values contentTypeName
        = [Utf8.encode "application/json"] ∧
      otherFields (runAll Response.call crowded threeSends) = [("vary", [0x79])] := by
  have hsends : threeSends[0].Sends .json [0x22, 0x61, 0x22] :=
    ⟨rfl, rfl, by intro max hmax; simp [threeSends, Entry.policy, Policy.unlimited] at hmax⟩
  have hlong : threeSends[1].Refused (.responseTooLarge 2 1) :=
    .size .json "" [0x22, 0x22] 1 rfl rfl (by rfl) rfl (by decide)
  have hunknown : threeSends[2].Refused (.coding (.unsupported "text/plain")) :=
    .token "text/plain" rfl (by decide)
  have hafter : ∀ y ∈ threeSends.drop 1, ∃ e, y.Refused e := by
    intro y hy
    rcases List.mem_cons.1 hy with rfl | hy
    · exact ⟨_, hlong⟩
    · rw [List.mem_singleton.1 hy]; exact ⟨_, hunknown⟩
  obtain ⟨hother, -, hshown⟩ := sends_allOrNothing.2.2.2.2.2 crowded threeSends
  obtain ⟨hstatus, -, htype⟩ := hshown [] _ _ _ _ rfl hsends hafter
  exact ⟨⟨hsends, hafter⟩, hstatus, htype, hother.trans (by decide +kernel)⟩

end Sending

end Conneg
