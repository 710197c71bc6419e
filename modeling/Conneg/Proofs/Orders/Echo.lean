import Conneg.Orders.Service
import Conneg.Proofs.Exchange.Handling
import Conneg.Proofs.Orders.Receipt

/-!
# Orders are answered in kind

`echo` chooses the format of its answer before it receives the order, and receiving
resolves the format again; both look at the same header field, so an order that is not
empty is answered in the format that it came in. Its own limit keeps the order so short
that the receipt can be written in every format (`Order.receipt_kept`), and there is no
limit on what it sends. So no answer is a failure of the server.
-/

namespace Conneg.Orders

variable {r : Request} {v : orderBody.schema.Carrier}

theorem admits_echoPolicy {h : Headers} {data : Bytes} :
    echoPolicy.Admits h data ↔ (∀ n, h.Announces n → n ≤ 65536) ∧ data.length ≤ 65536 := by
  have hlimit : echoPolicy.limits.receive = some 65536 := rfl
  simp only [Policy.Admits, hlimit, Option.some.injEq, forall_eq', Oversized, not_or, not_exists,
    not_and, Nat.not_lt]

/-- An order that was received is answered with its receipt, in the format chosen before. -/
theorem echo_of_ok {v : orderBody.schema.Carrier}
    (h : echoPolicy.receive r orderBody.schema orderBody.initial = ⟨.ok (), v⟩)
    (hshort : (Order.ofBody v).Short (3 * 2 ^ 29)) :
    ∃ b, echo r = .inFormat (echoFormat r.headers) 200 b ∧
      (echoFormat r.headers).decode receiptBody.schema b
        = .ok (Order.ofBody v).receipt.toBody := by
  obtain ⟨b, hencode, hdecode⟩ := Order.receipt_kept (echoFormat r.headers) hshort
  have hbody : Policy.encodeBody (echoFormat r.headers) receiptBody.schema
      (some (Order.ofBody v).receipt.toBody) = .ok b := by
    simp only [Policy.encodeBody, hencode]
  rcases @Policy.sendFormat_of_encodeBody echoPolicy _ 200 _ _ _ hbody with
    ⟨-, hsend⟩ | ⟨max, hmax, -⟩
  · refine ⟨b, ?_, hdecode⟩
    simp only [echo, h, hsend]
    rfl
  · -- there is no limit on what is sent
    have hunlimited : echoPolicy.limits.send = none := rfl
    rw [hunlimited] at hmax
    cases hmax

theorem echo_of_error {e : ExchangeError} {v : orderBody.schema.Carrier}
    (h : echoPolicy.receive r orderBody.schema orderBody.initial = ⟨.error e, v⟩) :
    echo r = e.toResponse := by
  simp only [echo, h]

/-- The initial order has the initial receipt. -/
theorem receipt_initial : (Order.ofBody orderBody.initial).receipt.toBody = receiptBody.initial :=
  rfl

/-- Everything `echo` can do: it answers with the error of receiving, or with the initial
receipt to an empty body, or with the receipt for the order. -/
theorem echo_cases (r : Request) :
    (∃ e, Refusal r.headers e ∧
      (echoPolicy.receive r orderBody.schema orderBody.initial).outcome = .error e ∧
      echo r = e.toResponse) ∨
    ((echoPolicy.receive r orderBody.schema orderBody.initial).outcome = .ok () ∧
      r.body.data = [] ∧ ∃ b, echo r = .inFormat (echoFormat r.headers) 200 b ∧
        (echoFormat r.headers).decode receiptBody.schema b = .ok receiptBody.initial) ∨
    ((echoPolicy.receive r orderBody.schema orderBody.initial).outcome = .ok () ∧
      r.body.data ≠ [] ∧ ∃ f v x b, requestFormat r.headers = .ok f ∧
        f.decode orderBody.schema r.body.data = .ok v ∧ Receipt.IsFor x (Order.ofBody v) ∧
        echo r = .inFormat f 200 b ∧ f.decode receiptBody.schema b = .ok x.toBody) := by
  rcases receive_cases echoPolicy r orderBody.schema orderBody.initial with
    ⟨e, hrefusal, hreceive⟩ | ⟨hempty, hreceive⟩ | ⟨hne, f, v, hf, hv, hreceive⟩
  · exact .inl ⟨e, hrefusal, by rw [hreceive]; rfl, echo_of_error hreceive⟩
  · have hshort : (Order.ofBody orderBody.initial).Short (3 * 2 ^ 29) := ⟨by decide, by decide⟩
    obtain ⟨b, hecho, hdecode⟩ := echo_of_ok hreceive hshort
    rw [receipt_initial] at hdecode
    exact .inr (.inl ⟨by rw [hreceive], hempty, b, hecho, hdecode⟩)
  · have hok : (echoPolicy.receive r orderBody.schema orderBody.initial).outcome = .ok () := by
      rw [hreceive]
    have hlength := (admits_echoPolicy.1 (receive_eq_ok_iff.1 hok).1).2
    have hshort := Order.short_of_decode hv (by omega : r.body.data.length < 2 ^ 30)
    obtain ⟨b, hecho, hdecode⟩ := echo_of_ok hreceive hshort
    have hformat : echoFormat r.headers = f := by rw [echoFormat, hf]
    rw [hformat] at hecho hdecode
    exact .inr (.inr ⟨hok, hne, f, v, _, b, hf, hv, hshort.isFor_receipt, hecho, hdecode⟩)

theorem echo_status_eq_ok_iff :
    (echo r).status = 200 ↔
      (echoPolicy.receive r orderBody.schema orderBody.initial).outcome = .ok () := by
  rcases echo_cases r with ⟨e, hrefusal, houtcome, hecho⟩ | ⟨hok, -, b, hecho, -⟩ |
    ⟨hok, -, f, v, x, b, -, -, -, hecho, -⟩
  · have hstatus := hrefusal.status_cases
    rw [hecho, houtcome]
    exact iff_of_false (fun h : e.status = 200 => by omega) (fun h => nomatch h)
  · rw [hecho]
    exact iff_of_true rfl hok
  · rw [hecho]
    exact iff_of_true rfl hok

/-- **Orders are answered in kind, and never with a failure of the server.** The answer is
200 exactly if the order is within the limit, came whole, and is empty or can be read.
Then it is the receipt for the order in the format that the order came in; the initial
receipt answers an empty body, as JSON if the request names no format. Any other answer is
that of the error of receiving. -/
theorem echo_answersInKind (r : Request) :
    ((echo r).status = 200 ∨ (echo r).status = 400 ∨ (echo r).status = 413 ∨
      (echo r).status = 415) ∧
    ((echo r).status = 200 ↔ (∀ n, r.headers.Announces n → n ≤ 65536) ∧
      r.body.failure? = none ∧ r.body.data.length ≤ 65536 ∧
      (r.body.data = [] ∨ ∃ f v, requestFormat r.headers = .ok f ∧
        f.decode orderBody.schema r.body.data = .ok v)) ∧
    ((echo r).status = 200 → r.body.data ≠ [] → ∃ f v x b, requestFormat r.headers = .ok f ∧
      f.decode orderBody.schema r.body.data = .ok v ∧ Receipt.IsFor x (Order.ofBody v) ∧
      echo r = .inFormat f 200 b ∧ f.decode receiptBody.schema b = .ok x.toBody) ∧
    ((echo r).status = 200 → r.body.data = [] → ∃ f b,
      (requestFormat r.headers = .ok f ∨ (∃ e, requestFormat r.headers = .error e) ∧ f = .json) ∧
      echo r = .inFormat f 200 b ∧ f.decode receiptBody.schema b = .ok receiptBody.initial) ∧
    ((echo r).status ≠ 200 → ∃ e,
      (echoPolicy.receive r orderBody.schema orderBody.initial).outcome = .error e ∧
      echo r = e.toResponse) := by
  refine ⟨?status, ?exactly, ?order, ?empty, ?otherwise⟩
  case status =>
    rcases echo_cases r with ⟨e, hrefusal, -, hecho⟩ | ⟨hok, -⟩ | ⟨hok, -⟩
    · rw [hecho]
      exact .inr hrefusal.status_cases
    · exact .inl (echo_status_eq_ok_iff.2 hok)
    · exact .inl (echo_status_eq_ok_iff.2 hok)
  case exactly =>
    rw [echo_status_eq_ok_iff, receive_eq_ok_iff, admits_echoPolicy, and_and_and_comm, and_assoc]
  case order =>
    intro hstatus hne
    rcases echo_cases r with ⟨e, -, houtcome, -⟩ | ⟨-, hempty, -⟩ | ⟨-, -, horder⟩
    · exact nomatch (echo_status_eq_ok_iff.1 hstatus).symm.trans houtcome
    · exact absurd hempty hne
    · exact horder
  case empty =>
    intro hstatus hempty
    rcases echo_cases r with ⟨e, -, houtcome, -⟩ | ⟨-, -, b, hecho, hdecode⟩ | ⟨-, hne, -⟩
    · exact nomatch (echo_status_eq_ok_iff.1 hstatus).symm.trans houtcome
    · refine ⟨echoFormat r.headers, b, ?_, hecho, hdecode⟩
      unfold echoFormat
      cases requestFormat r.headers with
      | ok f => exact .inl rfl
      | error e => exact .inr ⟨⟨e, rfl⟩, rfl⟩
    · exact absurd hempty hne
  case otherwise =>
    intro hstatus
    rcases echo_cases r with ⟨e, -, houtcome, hecho⟩ | ⟨hok, -⟩ | ⟨hok, -⟩
    · exact ⟨e, houtcome, hecho⟩
    · exact absurd (echo_status_eq_ok_iff.2 hok) hstatus
    · exact absurd (echo_status_eq_ok_iff.2 hok) hstatus

/-- An order without items in MessagePack, in two frames. -/
def packedOrder : Request where
  headers := Headers.ofList [("Content-Type", Utf8.encode "Application/X-MsgPack; v=1"),
    ("Content-Length", [0x32, 0x36])]
  body := [.data ([0x83, 0xA2] ++ Utf8.encode "id" ++ [0xA1, 0x61, 0xA5]),
    .data (Utf8.encode "items" ++ [0x90, 0xAB] ++ Utf8.encode "total_cents" ++ [0x05])]

/-- That order is answered in MessagePack. -/
theorem echo_packedOrder :
    let x : receiptBody.schema.Carrier := ("a", .zero _, ⟨5, by decide, by decide⟩, ())
    packedOrder.body.data ≠ [] ∧ (echo packedOrder).status = 200 ∧
      ∃ b, echo packedOrder = .inFormat .msgpack 200 b ∧
        Format.msgpack.decode receiptBody.schema b = .ok x := by
  intro x
  let v : orderBody.schema.Carrier := ("a", [], ⟨5, by decide, by decide⟩, ())
  have hne : packedOrder.body.data ≠ [] := by decide
  have hformat : requestFormat packedOrder.headers = .ok .msgpack := by rfl
  have hv : Format.msgpack.decode orderBody.schema packedOrder.body.data = .ok v := by
    have hid : ShortText (2 ^ 32) "a" := by decide
    have hshort : orderBody.schema.Short (2 ^ 32) v :=
      ⟨hid, ⟨by decide, fun _ h => nomatch h⟩, trivial, trivial⟩
    have hproper : orderBody.schema.Proper (fun _ => True) v :=
      ⟨trivial, fun _ _ => trivial, trivial, trivial⟩
    refine Format.decode_eq_ok.2 (MsgPack.decode_encode rfl (by decide) hproper hshort
      (fun t ht => ?_) (by decide +kernel))
    obtain rfl := Option.some.inj ht
    decide
  have hannounces : ∀ n, packedOrder.headers.Announces n → n ≤ 65536 := by
    intro n hn
    have hlength : announcedLength? packedOrder.headers = some 26 := by decide +kernel
    obtain rfl := Option.some.inj (hlength.symm.trans (announcedLength?_eq_some.2 hn))
    decide
  obtain ⟨-, hexactly, horder, -⟩ := echo_answersInKind packedOrder
  have hstatus : (echo packedOrder).status = 200 :=
    hexactly.2 ⟨hannounces, rfl, by decide, .inr ⟨_, v, hformat, hv⟩⟩
  obtain ⟨f, w, ⟨id, count, total⟩, b, hf, hw, hfor, hecho, hdecode⟩ := horder hstatus hne
  obtain rfl : .msgpack = f := Except.ok.inj (hformat.symm.trans hf)
  obtain rfl : v = w := Except.ok.inj (hv.symm.trans hw)
  obtain ⟨rfl, hcount, rfl⟩ := hfor
  obtain rfl : count = .zero _ := Integer.ext hcount
  exact ⟨hne, hstatus, b, hecho, hdecode⟩

end Conneg.Orders
