import Conneg.Exchange.Extract
import Conneg.Proofs.Exchange.Destination
import Conneg.Proofs.Exchange.Sink

/-!
# What a handler is given and what it answers

A handler is given the value of the request's body, or the error of receiving it, which
is always the client's (`Refusal.status_cases`). A body is received exactly if it is
within the limits and came whole, and is empty or can be read (`receive_eq_ok_iff`); the
`Accept` fields have no part in that (`receive_of_agreesBut`).

It answers with a response in a format (`Response.inFormat`), or with that of an error.
-/

namespace Conneg

/-! ## What is given -/

theorem Refusal.status_cases {h : Headers} {e : ExchangeError} (he : Refusal h e) :
    e.status = 400 ∨ e.status = 413 ∨ e.status = 415 := by
  cases he with
  | tooLarge max => exact .inr (.inl rfl)
  | failed text => exact .inl rfl
  | unsupported raw => exact .inr (.inr rfl)
  | malformed f cause hf => exact .inl rfl

variable {p : Policy} {r : Request} {s : Schema} {dest : s.Carrier}

/-- A body that has been read is received exactly if it is empty or can be read in the
format of its content type. -/
theorem receiveBytes_eq_ok_iff {h : Headers} {body : Bytes} :
    (receiveBytes h body s dest).outcome = .ok () ↔
      body = [] ∨ ∃ f v, requestFormat h = .ok f ∧ f.decode s body = .ok v := by
  cases body with
  | nil => exact iff_of_true rfl (.inl rfl)
  | cons b bs =>
    cases hf : requestFormat h with
    | error e => simp [receiveBytes, hf, Received.refused]
    | ok f => cases hv : f.decode s (b :: bs) <;> simp [receiveBytes, hf, hv, Received.refused]

/-- A body is received exactly if neither its announced length nor its data is over the
limit, its stream does not fail, and it is empty or can be read. -/
theorem receive_eq_ok_iff :
    (p.receive r s dest).outcome = .ok () ↔ p.Admits r.headers r.body.data ∧
      r.body.failure? = none ∧
      (r.body.data = [] ∨ ∃ f v, requestFormat r.headers = .ok f ∧
        f.decode s r.body.data = .ok v) := by
  by_cases hadmits : p.Admits r.headers r.body.data
  · rw [Policy.receive_eq_receiveWhole, Policy.receiveWhole_of_admits hadmits]
    cases hfailure : r.body.failure? with
    | none => simp only [receiveBytes_eq_ok_iff, hadmits, true_and]
    | some text =>
      exact iff_of_false (fun h => nomatch h) fun h => nomatch h.2.1
  · refine iff_of_false (fun h => ?_) fun h => hadmits h.1
    rw [Policy.receive_eq_receiveWhole] at h
    simp only [Policy.Admits, Classical.not_forall, Classical.not_not] at hadmits
    obtain ⟨max, hmax, hover⟩ := hadmits
    have hfilter : p.limits.receive.filter (fun max => Oversized max r.headers r.body.data)
        = some max := by
      rw [hmax, Option.filter_some_pos (by simpa using hover)]
    unfold Policy.receiveWhole at h
    rw [hfilter] at h
    exact nomatch h

/-- Whether header fields are the same but for those of one name. -/
def Headers.AgreesBut (name : String) (h h' : Headers) : Prop :=
  ∀ other ≠ name, h.values other = h'.values other

/-- What a client accepts has no part in what is received from it. -/
theorem receive_of_agreesBut {h : Headers} (hagrees : h.AgreesBut acceptName r.headers) :
    p.receive { r with headers := h } s dest = p.receive r s dest := by
  have hlength : h.first? contentLengthName = r.headers.first? contentLengthName :=
    congrArg List.head? (hagrees _ (by decide))
  have htype : h.first? contentTypeName = r.headers.first? contentTypeName :=
    congrArg List.head? (hagrees _ (by decide))
  simp only [Policy.receive, Policy.checkAnnounced, announcedLength?, hlength, receiveBytes,
    requestFormat, htype]

/-- The value that a handler is given, and the error, are those of receiving. -/
theorem extract_eq_ok_iff_receive {t : BodyType} {v : t.schema.Carrier} :
    r.extract t = .ok v ↔
      r.policyInForce.receive r t.schema t.initial = ⟨.ok (), v⟩ := by
  unfold Request.extract
  obtain ⟨outcome, destination⟩ := r.policyInForce.receive r t.schema t.initial
  cases outcome with
  | error e => simp [Except.map]
  | ok u => simp [Except.map]

theorem extract_eq_error_iff_receive {t : BodyType} {e : ExchangeError} :
    r.extract t = .error e ↔
      (r.policyInForce.receive r t.schema t.initial).outcome = .error e := by
  unfold Request.extract
  obtain ⟨outcome, destination⟩ := r.policyInForce.receive r t.schema t.initial
  cases outcome <;> simp [Except.map]

/-- A handler is given the error of receiving, or the initial value for an empty body, or
what the body holds. -/
theorem extract_cases (r : Request) (t : BodyType) :
    (∃ e, Refusal r.headers e ∧ r.extract t = .error e) ∨
    (r.body.data = [] ∧ r.extract t = .ok t.initial) ∨
    (r.body.data ≠ [] ∧ ∃ f v, requestFormat r.headers = .ok f ∧
      f.decode t.schema r.body.data = .ok v ∧ r.extract t = .ok v) := by
  unfold Request.extract
  rcases receive_cases r.policyInForce r t.schema t.initial with
    ⟨e, he, hrefused⟩ | ⟨hempty, hok⟩ | ⟨hne, f, v, hf, hv, hok⟩
  · exact .inl ⟨e, he, by rw [hrefused]; rfl⟩
  · exact .inr (.inl ⟨hempty, by rw [hok]; rfl⟩)
  · exact .inr (.inr ⟨hne, f, v, hf, hv, by rw [hok]; rfl⟩)

/-- What is received in error is the client's fault. -/
theorem status_cases_of_extract {t : BodyType} {e : ExchangeError} (h : r.extract t = .error e) :
    e.status = 400 ∨ e.status = 413 ∨ e.status = 415 := by
  rcases extract_cases r t with ⟨e', hrefusal, he⟩ | ⟨-, hok⟩ | ⟨-, f, v, -, -, hok⟩
  · obtain rfl := Except.error.inj (h.symm.trans he)
    exact hrefusal.status_cases
  · exact nomatch h.symm.trans hok
  · exact nomatch h.symm.trans hok

theorem status_of_extract {t : BodyType} {e : ExchangeError} (h : r.extract t = .error e) :
    e.status < 500 := by
  have hstatus := status_cases_of_extract h
  omega

/-- What is received is the initial value for an empty body, and else what the body
holds in the format of its content type. -/
theorem extract_eq_ok {t : BodyType} {v : t.schema.Carrier} (h : r.extract t = .ok v) :
    (r.body.data = [] → v = t.initial) ∧
      (r.body.data ≠ [] → ∃ f, requestFormat r.headers = .ok f ∧
        f.decode t.schema r.body.data = .ok v) := by
  rcases extract_cases r t with ⟨e, -, he⟩ | ⟨hempty, hok⟩ | ⟨hne, f, w, hf, hdecode, hok⟩
  · exact nomatch h.symm.trans he
  · exact ⟨fun _ => Except.ok.inj (h.symm.trans hok), fun hne => absurd hempty hne⟩
  · obtain rfl := Except.ok.inj (h.symm.trans hok)
    exact ⟨fun hempty => absurd hempty hne, fun _ => ⟨f, hf, hdecode⟩⟩

theorem extract_of_agreesBut {h : Headers} {t : BodyType}
    (hagrees : h.AgreesBut acceptName r.headers) :
    ({ r with headers := h } : Request).extract t = r.extract t := by
  unfold Request.extract
  rw [receive_of_agreesBut hagrees]
  rfl

/-! ## What is answered -/

/-- The response that has a format's token for its content type, no other header field,
and a body. -/
def Response.inFormat (f : Format) (status : Nat) (body : Bytes) : Response :=
  ⟨status, Headers.empty.set contentTypeName (Utf8.encode f.token), body⟩

namespace Reply

variable {x : Reply s} {v : s.Carrier} {bs : Bytes}

theorem toResponse_of_none (h : x.value = none) :
    x.toResponse = .inFormat x.format x.status [] := by
  have hbody : Policy.encodeBody x.format s x.value = .ok [] := by
    rw [h]
    rfl
  rcases Policy.sendFormat_of_encodeBody (p := Policy.unlimited.withLimits x.limits) hbody with
    ⟨-, hsend⟩ | ⟨max, -, hover, -⟩
  · rw [toResponse, hsend]
    rfl
  · exact absurd hover (Nat.not_lt_zero max)

/-- A value is answered with if it can be written within the limit. -/
theorem toResponse_of_encode (h : x.value = some v) (hv : x.format.encode s v = .ok bs) :
    ((∀ max, x.limits.send = some max → bs.length ≤ max) →
      x.toResponse = .inFormat x.format x.status bs) ∧
    ∀ max, x.limits.send = some max → max < bs.length →
      x.toResponse = (ExchangeError.responseTooLarge bs.length max).toResponse := by
  have hbody : Policy.encodeBody x.format s x.value = .ok bs := by
    rw [h]
    simp only [Policy.encodeBody, hv]
  rcases @Policy.sendFormat_of_encodeBody (Policy.unlimited.withLimits x.limits) s x.status
    x.value x.format bs hbody with ⟨hwithin, hsend⟩ | ⟨max, hmax, hover, hsend⟩
  · refine ⟨fun _ => ?_, fun max hmax hover => absurd (hwithin max hmax) (Nat.not_le.2 hover)⟩
    rw [toResponse, hsend]
    rfl
  · refine ⟨fun hwithin => absurd (hwithin max hmax) (Nat.not_le.2 hover), fun max' hmax' _ => ?_⟩
    obtain rfl := Option.some.inj (hmax.symm.trans hmax')
    rw [toResponse, hsend]

end Reply

end Conneg
