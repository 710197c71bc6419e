import Conneg.Orders.Service
import Conneg.Proofs.Exchange.Delivery
import Conneg.Proofs.Exchange.Problem
import Conneg.Proofs.Orders.Receipt

/-!
# Orders are answered as the client prefers

`create` refuses what it cannot receive as JSON, an order without an identifier in the
preferred format, and answers every other order with its receipt in that format. The
receipt for an order that was received can always be written (`Order.receipt_kept`), so
the one failure on the side of the server is a receipt above the send limit.
-/

namespace Conneg.Orders

variable {r : Request} {v : orderBody.schema.Carrier}

/-- What is received from a body shorter than 2^30 is a short order. -/
theorem short_of_extract (h : r.extract orderBody = .ok v) (hbody : r.body.data.length < 2 ^ 30) :
    (Order.ofBody v).Short (3 * 2 ^ 29) := by
  obtain ⟨hempty, hdata⟩ := extract_eq_ok h
  by_cases hne : r.body.data = []
  · rw [hempty hne]
    exact ⟨by decide, by decide⟩
  · obtain ⟨f, -, hdecode⟩ := hdata hne
    exact Order.short_of_decode hdecode hbody

/-- The response to a receipt above the send limit does not say how large it was. -/
theorem toResponse_responseTooLarge (size max : Nat) :
    (ExchangeError.responseTooLarge size max).toResponse
      = .inFormat .json 500 (Utf8.encode
          "\x7b\"code\":\"response_too_large\",\"message\":\"internal error\"\x7d") := by
  have hstatus : 500 ≤ (ExchangeError.responseTooLarge size max).status := Nat.le_refl 500
  exact (ExchangeError.toResponse_of_serverError hstatus).2

/-! ## The answer to an order -/

variable {o : Order} {p : Preference}

theorem Order.answer_of_empty (h : o.id = "") :
    o.answer p = .inFormat p.format 400 [] := by
  rw [Order.answer, if_pos (String.isEmpty_iff.2 h)]
  exact Reply.toResponse_of_none rfl

/-- An order with an identifier is answered with its receipt, within the send limit. -/
theorem Order.answer_of_encode {bs : Bytes} (h : o.id ≠ "")
    (hbs : p.format.encode receiptBody.schema o.receipt.toBody = .ok bs) :
    ((∀ max, p.limits.send = some max → bs.length ≤ max) →
      o.answer p = .inFormat p.format 201 bs) ∧
    ∀ max, p.limits.send = some max → max < bs.length →
      o.answer p = (ExchangeError.responseTooLarge bs.length max).toResponse := by
  rw [Order.answer, if_neg (fun hempty => h (String.isEmpty_iff.1 hempty))]
  exact Reply.toResponse_of_encode
    (x := (p.respond o.receipt.toBody).withStatus 201) rfl hbs

theorem create_of_error {e : ExchangeError} (h : r.extract orderBody = .error e) :
    create r = e.toResponse := by
  simp only [create, h]

theorem create_of_ok (h : r.extract orderBody = .ok v) :
    create r = (Order.ofBody v).answer (.ofRequest r) := by
  simp only [create, h]

/-- **Orders are answered as the client prefers.** What cannot be received is answered
with its error, whatever the client accepts. An order is what the body holds, or the
initial one if the body is empty. Without an identifier it is refused with no body.
Otherwise its receipt can be written in the preferred format and is read back; it is the
answer within the send limit, and above it the client sees a generic error. So without a
send limit the server is never at fault. -/
theorem create_endToEnd (r : Request) (hbody : r.body.data.length < 2 ^ 30) :
    let f := (Preference.ofRequest r).format
    let limit := r.policyInForce.limits.send
    (∀ e, r.extract orderBody = .error e → create r = e.toResponse ∧ e.status < 500 ∧
      ∀ h : Headers, h.AgreesBut acceptName r.headers →
        create { r with headers := h } = e.toResponse) ∧
    (∀ v, r.extract orderBody = .ok v →
      (r.body.data = [] → v = orderBody.initial) ∧
      (r.body.data ≠ [] → ∃ g, requestFormat r.headers = .ok g ∧
        g.decode orderBody.schema r.body.data = .ok v) ∧
      ((Order.ofBody v).id = "" → create r = .inFormat f 400 []) ∧
      ((Order.ofBody v).id ≠ "" → ∃ (x : Receipt) (b : Bytes), x.IsFor (Order.ofBody v) ∧
        f.encode receiptBody.schema x.toBody = .ok b ∧
        f.decode receiptBody.schema b = .ok x.toBody ∧
        ((∀ max, limit = some max → b.length ≤ max) → create r = .inFormat f 201 b) ∧
        ∀ max, limit = some max → max < b.length →
          create r = .inFormat .json 500 (Utf8.encode
            "\x7b\"code\":\"response_too_large\",\"message\":\"internal error\"\x7d"))) ∧
    (limit = none → (create r).status < 500) := by
  intro f limit
  refine ⟨?refused, ?received, ?unlimited⟩
  case refused =>
    intro e he
    refine ⟨create_of_error he, status_of_extract he, fun h hagrees => create_of_error ?_⟩
    rw [extract_of_agreesBut hagrees]
    exact he
  case received =>
    intro v hv
    have hshort := short_of_extract hv hbody
    obtain ⟨b, hencode, hdecode⟩ := Order.receipt_kept f hshort
    rw [create_of_ok hv]
    obtain ⟨hempty, hdata⟩ := extract_eq_ok hv
    refine ⟨hempty, hdata, Order.answer_of_empty, fun hid => ?_⟩
    obtain ⟨hwithin, hover⟩ := Order.answer_of_encode (p := .ofRequest r) hid hencode
    refine ⟨_, b, hshort.isFor_receipt, hencode, hdecode, hwithin, fun max hmax hlt => ?_⟩
    rw [hover max hmax hlt, toResponse_responseTooLarge]
  case unlimited =>
    -- an error of receiving is the client's, and there is no limit to exceed
    intro hlimit
    cases hv : r.extract orderBody with
    | error e =>
      rw [create_of_error hv]
      exact status_of_extract hv
    | ok v =>
      rw [create_of_ok hv]
      by_cases hid : (Order.ofBody v).id = ""
      · rw [Order.answer_of_empty hid]
        show 400 < 500
        decide
      · obtain ⟨b, hencode, -⟩ := Order.receipt_kept f (short_of_extract hv hbody)
        rw [(Order.answer_of_encode hid hencode).1 fun max hmax => nomatch hlimit.symm.trans hmax]
        show 201 < 500
        decide

/-- An order of two items in JSON, whose client prefers MessagePack, behind a layer. -/
def placed : Request where
  headers := Headers.ofList [("Content-Type", Utf8.encode "application/json"),
    ("Accept", Utf8.encode "text/html, application/x-msgpack")]
  body := [.data (Utf8.encode "\x7b\"id\":\"a\",\"items\":[\"x\","), .trailers,
    .data (Utf8.encode "\"y\"],\"total_cents\":5\x7d")]
  policy := some (Policy.unlimited.withSendLimit 37)

/-- That order is answered with its receipt in MessagePack, which is as long as the limit
allows. -/
theorem create_placed :
    let v : orderBody.schema.Carrier := ("a", ["x", "y"], ⟨5, by decide, by decide⟩, ())
    let x : receiptBody.schema.Carrier :=
      ("a", ⟨2, by decide, by decide⟩, ⟨5, by decide, by decide⟩, ())
    let packed := [0x83, 0xA8] ++ Utf8.encode "order_id" ++ [0xA1, 0x61, 0xAA]
      ++ Utf8.encode "item_count" ++ [0x02, 0xAB] ++ Utf8.encode "total_cents" ++ [0x05]
    placed.body.data.length < 2 ^ 30 ∧ placed.extract orderBody = .ok v ∧
      create placed = .inFormat .msgpack 201 packed ∧
      Format.msgpack.decode receiptBody.schema packed = .ok x := by
  intro v x packed
  have hbody : placed.body.data.length < 2 ^ 30 := by decide
  have hextract : placed.extract orderBody = .ok v := by
    have hproper : orderBody.schema.Proper (fun _ => False) v :=
      ⟨trivial, fun _ _ => trivial, trivial, trivial⟩
    have hdata : Format.json.decode orderBody.schema placed.body.data = .ok v := by
      refine Format.decode_eq_ok.2 (Json.decode_encode (fun _ => False.elim)
        (fun _ => False.elim) rfl hproper (fun t ht => ?_) (by decide +kernel))
      obtain rfl := Option.some.inj ht
      decide
    have hcarries : placed.Carries Format.json.token placed.body.data := by
      refine ⟨by decide +kernel, rfl, rfl, fun n hn => ?_⟩
      have hnone : announcedLength? placed.headers = none := by decide +kernel
      exact nomatch hnone.symm.trans (announcedLength?_eq_some.2 hn)
    have hadmits : placed.policyInForce.AdmitsSize placed.body.data.length :=
      fun max hmax => nomatch hmax
    rw [Request.extract, receive_of_decode hcarries hadmits (by decide) hdata]
    rfl
  have hpacked : Format.msgpack.encode receiptBody.schema x = .ok packed :=
    Format.encode_eq_ok.2 (by decide +kernel)
  have hformat : (Preference.ofRequest placed).format = .msgpack := by decide +kernel
  obtain ⟨-, hreceived, -⟩ := create_endToEnd placed hbody
  obtain ⟨-, -, -, hanswer⟩ := hreceived v hextract
  obtain ⟨⟨id, count, total⟩, b, ⟨rfl, hcount, rfl⟩, hencode, hdecode, hwithin, -⟩ :=
    hanswer (by decide)
  obtain rfl : count = ⟨2, by decide, by decide⟩ := Integer.ext hcount
  rw [hformat] at hencode hdecode hwithin
  obtain rfl : packed = b := Except.ok.inj (hpacked.symm.trans hencode)
  refine ⟨hbody, hextract, hwithin fun max hmax => ?_, hdecode⟩
  obtain rfl := Option.some.inj hmax
  decide

end Conneg.Orders
