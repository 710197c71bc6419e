import Conneg.Proofs.Exchange.Handling
import Conneg.Proofs.Json.RoundTrip

/-!
# What an error response shows

An error is answered with a JSON object of its code and its message for clients, and
that object can be read back (`problem_kept`). A client's mistake is told to it in full.

Of a failure of the server a client is shown the code and nothing else: the status and the
message are the same for all of them (`toResponse_of_serverError`). Two failures with one
code cannot be told apart by their responses, whatever lies behind them, and there are only
two codes, one for each way in which a reply fails. So two replies that fail in the same way
are answered with the same bytes (`serverErrors_lookAlike`).
-/

namespace Conneg

namespace ExchangeError

variable {e : ExchangeError}

theorem isFixed_problemFields : (Schema.record problemFields).isFixed false = true := rfl

/-- The code and the message of an error are written, and read back. -/
theorem problem_kept (e : ExchangeError) :
    Format.json.encode (.record problemFields) (e.code, e.publicMessage, ()) = .ok e.problem ∧
      Format.json.decode (.record problemFields) e.problem
        = .ok (e.code, e.publicMessage, ()) := by
  let v : (Schema.record problemFields).Carrier := (e.code, e.publicMessage, ())
  have hwritable : (Schema.record problemFields).Writable (· ≠ .list) v := ⟨trivial, trivial, trivial⟩
  obtain ⟨bs, hbs, hdecode⟩ :=
    Json.exists_decode_encode rfl isFixed_problemFields (by decide) hwritable
  have hproblem : e.problem = bs := by
    rw [problem, hbs, Option.getD_some]
  rw [hproblem]
  exact ⟨Format.encode_eq_ok.2 hbs, Format.decode_eq_ok.2 hdecode⟩

/-- A client's mistake is told in full. -/
theorem publicMessage_of_clientError (h : e.status < 500) : e.publicMessage = e.message := by
  rw [publicMessage, if_neg]
  rw [isServerError, decide_eq_true_eq]
  omega

end ExchangeError

/-! ## Failures of the server -/

/-- The response to a failure of the server, by its code. -/
def Response.serverFailure (code : String) : Response :=
  .inFormat .json 500 (Utf8.encode
    ("\x7b\"code\":\"" ++ code ++ "\",\"message\":\"internal error\"\x7d"))

namespace ExchangeError

/-- A failure of the server is answered as one of two, by its code alone. -/
theorem toResponse_of_serverError {e : ExchangeError} (h : 500 ≤ e.status) :
    (e.code = "encode_error" ∨ e.code = "response_too_large") ∧
      e.toResponse = .serverFailure e.code := by
  have hresponse : ∀ {e : ExchangeError} (code : String), e.status = 500 → e.code = code →
      Json.encode (.record problemFields) (code, "internal error", ())
        = some (Utf8.encode ("\x7b\"code\":\"" ++ code ++ "\",\"message\":\"internal error\"\x7d")) →
      e.toResponse = .serverFailure code := by
    intro e code hstatus hcode hencode
    have hmessage : e.publicMessage = "internal error" :=
      if_pos (by rw [isServerError, hstatus]; rfl)
    rw [toResponse, problem, hmessage, hcode, hencode, hstatus]
    rfl
  -- the two errors with that status, each with its own code
  rcases isServerError_iff.1 (decide_eq_true h) with ⟨f, cause, rfl⟩ | ⟨size, max, rfl⟩
  · exact ⟨.inl rfl, hresponse "encode_error" rfl rfl (by decide +kernel)⟩
  · exact ⟨.inr rfl, hresponse "response_too_large" rfl rfl (by decide +kernel)⟩

end ExchangeError

namespace Reply

variable {s : Schema} {x : Reply s}

/-- Whether a reply has a value that cannot be written in its format. -/
def Unwritable (x : Reply s) : Prop :=
  ∃ v, x.value = some v ∧ ∀ bs, x.format.encode s v ≠ .ok bs

/-- Whether a reply has a value that is written in more bytes than its limits allow. -/
def OverLimit (x : Reply s) : Prop :=
  ∃ v bs max, x.value = some v ∧ x.format.encode s v = .ok bs ∧ x.limits.send = some max ∧
    max < bs.length

theorem toResponse_of_unwritable (h : x.Unwritable) :
    x.toResponse = .serverFailure "encode_error" := by
  obtain ⟨v, hvalue, hv⟩ := h
  cases hencode : x.format.encode s v with
  | ok bs => exact absurd hencode (hv bs)
  | error e =>
    obtain rfl := Format.encode_error hencode
    have hsend : (Policy.unlimited.withLimits x.limits).sendFormat s x.status x.value x.format
        = .error (.coding (.writing x.format .unwritable)) := by
      simp only [Policy.sendFormat, Policy.encodeBody, hvalue, hencode]
      rfl
    have hstatus : 500 ≤ (ExchangeError.coding (.writing x.format .unwritable)).status :=
      Nat.le_refl 500
    rw [toResponse, hsend]
    exact (ExchangeError.toResponse_of_serverError hstatus).2

theorem toResponse_of_overLimit (h : x.OverLimit) :
    x.toResponse = .serverFailure "response_too_large" := by
  obtain ⟨v, bs, max, hvalue, hencode, hmax, hover⟩ := h
  have hstatus : 500 ≤ (ExchangeError.responseTooLarge bs.length max).status := Nat.le_refl 500
  rw [(toResponse_of_encode hvalue hencode).2 max hmax hover]
  exact (ExchangeError.toResponse_of_serverError hstatus).2

end Reply

/-- **Failures of the server look alike.** Two errors on the side of the server with the same
code are answered with the same response. So are any two replies whose values cannot be
written, and any two that are above their limits: their responses are the same bytes,
whatever the values, schemas, formats, statuses and limits, and say only which of the two
it was. -/
theorem serverErrors_lookAlike :
    (∀ e e' : ExchangeError, 500 ≤ e.status → 500 ≤ e'.status → e.code = e'.code →
      e.toResponse = e'.toResponse) ∧
    (∀ (s s' : Schema) (x : Reply s) (x' : Reply s'),
      (x.Unwritable → x'.Unwritable → x.toResponse = x'.toResponse) ∧
      (x.OverLimit → x'.OverLimit → x.toResponse = x'.toResponse)) ∧
    ∀ (s : Schema) (x : Reply s),
      (x.Unwritable → x.toResponse = .inFormat .json 500 (Utf8.encode
        "\x7b\"code\":\"encode_error\",\"message\":\"internal error\"\x7d")) ∧
      (x.OverLimit → x.toResponse = .inFormat .json 500 (Utf8.encode
        "\x7b\"code\":\"response_too_large\",\"message\":\"internal error\"\x7d")) := by
  refine ⟨?errors, ?replies, ?shown⟩
  case errors =>
    intro e e' h h' hcode
    rw [(ExchangeError.toResponse_of_serverError h).2,
      (ExchangeError.toResponse_of_serverError h').2, hcode]
  case replies =>
    intro s s' x x'
    constructor
    · intro h h'
      rw [Reply.toResponse_of_unwritable h, Reply.toResponse_of_unwritable h']
    · intro h h'
      rw [Reply.toResponse_of_overLimit h, Reply.toResponse_of_overLimit h']
  case shown =>
    intro s x
    exact ⟨Reply.toResponse_of_unwritable, Reply.toResponse_of_overLimit⟩

/-- A text that BSON has no place for, and a value that may not be written; a text and a list,
each one byte longer than its limit. -/
theorem serverErrors_fourReplies :
    let e : ExchangeError := .coding (.writing .bson (.described "secret"))
    let e' : ExchangeError := .coding (.writing .msgpack .unwritable)
    let x : Reply .text := ⟨201, .bson, some "secret", {}⟩
    let x' : Reply (.readOnly .bool) := ⟨404, .msgpack, some true, ⟨some 1, some 0⟩⟩
    let y : Reply .text := ⟨200, .json, some "secret", ⟨none, some 7⟩⟩
    let y' : Reply (.list .bool) := ⟨202, .msgpack, some [true, false], ⟨some 9, some 2⟩⟩
    (500 ≤ e.status ∧ 500 ≤ e'.status ∧ e.code = e'.code ∧ e.toResponse = e'.toResponse) ∧
      (x.Unwritable ∧ x'.Unwritable ∧ x.toResponse = x'.toResponse) ∧
      (y.OverLimit ∧ y'.OverLimit ∧ y.toResponse = y'.toResponse) := by
  intro e e' x x' y y'
  have hx : x.Unwritable := ⟨"secret", rfl, fun bs h => nomatch Format.encode_eq_ok.1 h⟩
  have hx' : x'.Unwritable := ⟨true, rfl, fun bs h => nomatch Format.encode_eq_ok.1 h⟩
  have hy : y.OverLimit :=
    ⟨"secret", [0x22, 0x73, 0x65, 0x63, 0x72, 0x65, 0x74, 0x22], 7, rfl, by rfl, rfl, by decide⟩
  have hy' : y'.OverLimit := ⟨[true, false], [0x92, 0xC3, 0xC2], 2, rfl, by rfl, rfl, by decide⟩
  obtain ⟨herrors, hreplies, -⟩ := serverErrors_lookAlike
  exact ⟨⟨by decide, by decide, rfl, herrors e e' (by decide) (by decide) rfl⟩,
    ⟨hx, hx', (hreplies _ _ x x').1 hx hx'⟩, ⟨hy, hy', (hreplies _ _ y y').2 hy hy'⟩⟩

end Conneg
