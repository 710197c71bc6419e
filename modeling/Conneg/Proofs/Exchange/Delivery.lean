import Conneg.Proofs.Bson.RoundTrip
import Conneg.Proofs.Exchange.Sink
import Conneg.Proofs.Exchange.WholeBody
import Conneg.Proofs.Json.Double
import Conneg.Proofs.MsgPack.Written

/-!
# What is sent is received

A reply goes out as a content type, a status and a body; it arrives if another party
makes a request of it, with the same content type and the same bytes
(`Request.Carries`). The canonical token resolves to the format that it stands for, so
the body is read in the format it was written in, and what the format keeps is
delivered (`receive_of_carries`).

An empty body is taken for no value. That is right because no value is written as one
(`Format.encode_ne_nil`): a written tree begins with a scalar, a list or a map, and
each of these takes at least a byte.
-/

namespace Conneg

open Wire

/-! ## How a written tree begins -/

/-- Whether a tree is a container, or a scalar that satisfies `P`. -/
def Wire.Node.Begins {σ : Type} (P : σ → Prop) : Node σ → Prop
  | .broken => False
  | .scalar x => P x
  | .seq _ | .map _ => True

section Written

variable {σ : Type} {W : WriteRules σ} {P : σ → Prop} {K : Node σ → Prop}

theorem Any.write_begins (h : W.Within (fun _ => True) P K) (v : Any) {t : Node σ}
    (ht : v.write W = some t) : t.Begins P := by
  cases v with
  | null =>
    obtain rfl := Option.some.inj ht
    exact h.null
  | bool b =>
    obtain rfl := Option.some.inj ht
    exact h.bool b
  | integer n =>
    obtain ⟨x, hx, rfl⟩ := Option.map_eq_some_iff.1 ht
    exact h.integer hx n.mem_kind.1 n.mem_kind.2
  | float x =>
    obtain rfl := Option.some.inj ht
    exact h.float trivial
  | text s =>
    obtain rfl := Option.some.inj ht
    exact h.text s
  | list | object =>
    obtain ⟨x, -, rfl⟩ := Option.map_eq_some_iff.1 ht
    exact trivial

/-- A choice is written as a text or as a map. -/
theorem Cases.write_begins (h : W.Within (fun _ => True) P K) (cs : Cases) (v : cs.Carrier)
    {t : Node σ} (ht : cs.write W v = some t) : t.Begins P := by
  match cs, v with
  | .cons name c rest, .inr y => exact Cases.write_begins h rest y ht
  | .cons name .unit rest, .inl x =>
    obtain rfl := Option.some.inj ht
    exact h.text name
  | .cons name (.value s) rest, .inl x =>
    obtain ⟨key, u, -, -, rfl⟩ := Content.write_value ht
    exact trivial
  | .cons name (.pair a c) rest, .inl x =>
    obtain ⟨key, t', u, -, -, -, rfl⟩ := Content.write_pair ht
    exact trivial
  | .cons name (.record fs) rest, .inl x =>
    obtain ⟨key, es, -, -, rfl⟩ := Content.write_record ht
    exact trivial

/-- A written value begins with what the format writes. -/
theorem Schema.write_begins (h : W.Within (fun _ => True) P K) (s : Schema) (v : s.Carrier)
    {t : Node σ} (ht : s.write W v = some t) : t.Begins P := by
  cases s with
  | any => exact Any.write_begins h v ht
  | bool =>
    obtain rfl := Option.some.inj ht
    exact h.bool v
  | integer k =>
    obtain ⟨x, hx, rfl⟩ := Option.map_eq_some_iff.1 ht
    exact h.integer hx v.low_le v.le_high
  | float =>
    obtain rfl := Option.some.inj ht
    exact h.float trivial
  | text =>
    obtain rfl := Option.some.inj ht
    exact h.text v
  | unit =>
    obtain rfl := Option.some.inj ht
    exact h.null
  | optional s =>
    cases v with
    | none =>
      obtain rfl := Option.some.inj ht
      exact h.null
    | some x => exact Schema.write_begins h s x ht
  | list | map | record =>
    obtain ⟨x, -, rfl⟩ := Option.map_eq_some_iff.1 ht
    exact trivial
  | pair a c =>
    obtain ⟨t', u, -, -, rfl⟩ := Schema.write_pair ht
    exact trivial
  | choice cs => exact Cases.write_begins h cs v ht
  | readOnly s => cases ht

end Written

/-! ## No value is written as nothing -/

namespace Json

theorem print_ne_nil {x : Atom} (hx : x.Printable) : x.print ≠ [] := by
  cases x with
  | null => exact List.cons_ne_nil _ _
  | bool b => cases b <;> exact List.cons_ne_nil _ _
  | number n =>
    obtain ⟨b, bs, hcons, -⟩ := Token.print_eq_cons hx []
    rw [List.append_nil] at hcons
    show n.print ≠ []
    rw [hcons]
    exact List.cons_ne_nil b bs
  | text raw => exact List.cons_ne_nil _ _

theorem encode_ne_nil {s : Schema} {v : s.Carrier} {bs : Bytes} (h : encode s v = some bs) :
    bs ≠ [] := by
  obtain ⟨t, ht, rfl⟩ := Option.map_eq_some_iff.1 h
  have hbegins := Schema.write_begins (within fun x _ => printable_float x) s v ht
  cases t with
  | broken => exact hbegins.elim
  | scalar x => exact print_ne_nil hbegins
  | seq | map => exact List.cons_ne_nil _ _

end Json

namespace Bson

theorem encode_ne_nil {s : Schema} {v : s.Carrier} {bs : Bytes} (h : encode s v = some bs) :
    bs ≠ [] := by
  obtain ⟨es, -, rfl⟩ := encode_eq_some h
  have hlength := length_frame (printEntries es)
  intro hnil
  rw [hnil, List.length_nil] at hlength
  omega

end Bson

namespace MsgPack

/-- Every form begins with a byte of its own. -/
theorem header_ne_nil (short limit : Nat) (one : Option UInt8) (two four : UInt8) (count : Nat) :
    header short limit one two four count ≠ [] := by
  unfold header marked
  cases one <;> repeat' split
  all_goals exact List.cons_ne_nil _ _

theorem print_integerAtom_ne_nil (n : Int) : (integerAtom n).print ≠ [] := by
  unfold integerAtom
  split
  · show printSigned n ≠ []
    unfold printSigned marked
    repeat' split
    all_goals exact List.cons_ne_nil _ _
  · show printUnsigned n.toNat ≠ []
    unfold printUnsigned marked
    repeat' split
    all_goals exact List.cons_ne_nil _ _

/-- Whatever MessagePack writes of a scalar takes a byte at least. -/
theorem within_print :
    writeRules.Within (fun _ => True) (fun x => x.print ≠ []) (fun _ => True) where
  null := List.cons_ne_nil _ _
  bool _ := List.cons_ne_nil _ _
  integer h _ _ := by
    obtain rfl := Option.some.inj h
    exact print_integerAtom_ne_nil _
  float _ := List.cons_ne_nil _ _
  text s := List.append_ne_nil_of_left_ne_nil (header_ne_nil _ _ _ _ _ _) _
  name _ := trivial
  mapKey _ := trivial

theorem encode_ne_nil {s : Schema} {v : s.Carrier} {bs : Bytes} (h : encode s v = some bs) :
    bs ≠ [] := by
  obtain ⟨t, ht, rfl⟩ := Option.map_eq_some_iff.1 h
  have hbegins := Schema.write_begins within_print s v ht
  cases t with
  | broken => exact hbegins.elim
  | scalar x => exact hbegins
  | seq | map => exact List.append_ne_nil_of_left_ne_nil (header_ne_nil _ _ _ _ _ _) _

end MsgPack

/-- No format writes a value as nothing. -/
theorem Format.encode_ne_nil {f : Format} {s : Schema} {v : s.Carrier} {bs : Bytes}
    (h : f.encode s v = .ok bs) : bs ≠ [] := by
  have hwritten := Format.encode_eq_ok.1 h
  cases f with
  | json => exact Json.encode_ne_nil hwritten
  | bson => exact Bson.encode_ne_nil hwritten
  | msgpack => exact MsgPack.encode_ne_nil hwritten

/-! ## Delivery -/

/-- A request carries what a sink was called with: the content type in its first field
of that name, and the body, in any frames. It announces no length, or that of the
body. -/
structure Request.Carries (r : Request) (token : String) (body : Bytes) : Prop where
  contentType : r.headers.first? contentTypeName = some (Utf8.encode token)
  data : r.body.data = body
  whole : r.body.failure? = none
  announced : ∀ n, r.headers.Announces n → n = body.length

/-- The token of a format resolves to it, as a header value. -/
theorem requestFormat_of_token {h : Headers} {f : Format}
    (hh : h.first? contentTypeName = some (Utf8.encode f.token)) : requestFormat h = .ok f := by
  rw [requestFormat, hh]
  cases f <;> rfl

/-- Whether a policy admits a body of so many bytes. -/
def Policy.AdmitsSize (p : Policy) (size : Nat) : Prop :=
  ∀ max, p.limits.receive = some max → size ≤ max

variable {r : Request} {p : Policy} {s : Schema} {dest v : s.Carrier} {f : Format} {body : Bytes}

/-- What a request carries is received as a whole body. -/
theorem receive_of_carries (hr : r.Carries f.token body) (hp : p.AdmitsSize body.length) :
    p.receive r s dest = receiveBytes r.headers body s dest := by
  -- neither an announced length nor the bytes themselves are over the limit
  have hadmits : p.Admits r.headers r.body.data := by
    intro max hmax hover
    have hle := hp max hmax
    rw [hr.data] at hover
    rcases hover with ⟨n, hn, hlt⟩ | hlt
    · rw [hr.announced n hn] at hlt
      omega
    · omega
  rw [Policy.receive_eq_receiveWhole, Policy.receiveWhole_of_admits hadmits, hr.whole, hr.data]

/-- A body that the format keeps is received as its value. -/
theorem receive_of_decode (hr : r.Carries f.token body) (hp : p.AdmitsSize body.length)
    (hbody : body ≠ []) (hv : f.decode s body = .ok v) : p.receive r s dest = ⟨.ok (), v⟩ := by
  -- an empty body would not be decoded
  rw [receive_of_carries hr hp, receiveBytes, if_neg (by simpa using hbody)]
  simp only [requestFormat_of_token hr.contentType, hv]

/-- An empty body is received as none. -/
theorem receive_of_empty (hr : r.Carries f.token []) : p.receive r s dest = ⟨.ok (), dest⟩ := by
  rw [receive_of_carries hr (fun _ _ => Nat.zero_le _)]
  rfl

namespace Sending

/-- A step that sends a body makes the three calls for it. -/
theorem Sends.calls_eq {x : Sending} {f : Format} {body : Bytes} (h : x.Sends f body) :
    x.calls = .ok [.contentType f.token, .status x.status, .body body] :=
  calls_eq_ok_iff.2 ⟨f, body, h, rfl⟩

/-- **What is sent is received.** No format writes a value as nothing. So where a format
keeps a value, and both parties admit its size, the value is sent, and any request that
carries what the sink was called with sets any destination to the value. Without a value
an empty body is sent, and leaves any destination as it is. -/
theorem receive_undoes_send :
    (∀ (f : Format) (s : Schema) (v : s.Carrier) (bs : Bytes), f.encode s v = .ok bs → bs ≠ []) ∧
    (∀ (x : Sending) (f : Format) (v : x.schema.Carrier) (bs : Bytes),
      x.entry.format? = some f → x.value = some v → f.encode x.schema v = .ok bs →
      f.decode x.schema bs = .ok v →
      (∀ max, x.entry.policy.limits.send = some max → bs.length ≤ max) →
      x.calls = .ok [.contentType f.token, .status x.status, .body bs] ∧
      ∀ (r : Request) (p : Policy) (dest : x.schema.Carrier), r.Carries f.token bs →
        p.AdmitsSize bs.length → p.receive r x.schema dest = ⟨.ok (), v⟩) ∧
    (∀ (x : Sending) (f : Format), x.entry.format? = some f → x.value = none →
      x.calls = .ok [.contentType f.token, .status x.status, .body []] ∧
      ∀ (r : Request) (p : Policy) (dest : x.schema.Carrier), r.Carries f.token [] →
        p.receive r x.schema dest = ⟨.ok (), dest⟩) := by
  refine ⟨fun _ _ _ _ => Format.encode_ne_nil, ?_, ?_⟩
  · intro x f v bs hf hvalue hencode hdecode hwithin
    have hsends : x.Sends f bs := ⟨hf, by rw [hvalue]; exact hencode, hwithin⟩
    refine ⟨hsends.calls_eq, fun r p dest hr hp => ?_⟩
    exact receive_of_decode hr hp (Format.encode_ne_nil hencode) hdecode
  · -- no bytes are within any limit
    intro x f hf hvalue
    have hsends : x.Sends f [] := ⟨hf, by rw [hvalue], fun _ _ => Nat.zero_le _⟩
    exact ⟨hsends.calls_eq, fun r p dest hr => receive_of_empty hr⟩

/-- A text is sent as JSON under a limit of three bytes, by a token with a parameter. -/
def shortText : Sending where
  entry := .tokenUnder (Policy.unlimited.withSendLimit 3) "Application/JSON ; charset=utf-8"
  schema := .text
  status := 201
  value := some "a"

/-- A request with the body of that text in two frames, with trailers between them. -/
def inFrames : Request where
  headers := Headers.ofList
    [("Content-Type", Utf8.encode "application/json"), ("Content-Length", [0x33])]
  body := [.data [0x22], .trailers, .data [0x61, 0x22]]

/-- That text is received from that request, under the same limit. -/
theorem receive_shortText :
    shortText.entry.format? = some .json ∧
      Format.json.encode .text "a" = .ok [0x22, 0x61, 0x22] ∧
      Format.json.decode .text [0x22, 0x61, 0x22] = .ok "a" ∧
      inFrames.Carries Format.json.token [0x22, 0x61, 0x22] ∧
      (Policy.unlimited.withReceiveLimit 3).AdmitsSize 3 ∧
      shortText.calls
        = .ok [.contentType "application/json", .status 201, .body [0x22, 0x61, 0x22]] ∧
      (Policy.unlimited.withReceiveLimit 3).receive inFrames .text "kept" = ⟨.ok (), "a"⟩ := by
  have hf : shortText.entry.format? = some .json := by decide
  have hencode : Format.json.encode .text "a" = .ok [0x22, 0x61, 0x22] := by rfl
  have hdecode : Format.json.decode .text [0x22, 0x61, 0x22] = .ok "a" := by
    have hv : Schema.text.Proper (fun _ => False) "a" := trivial
    refine Format.decode_eq_ok.2 (Json.decode_encode (fun _ => False.elim) (fun _ => False.elim)
      rfl hv (fun t ht => ?_) (Format.encode_eq_ok.1 hencode))
    obtain rfl := Option.some.inj ht
    exact Nat.zero_le 127
  have hcarries : inFrames.Carries Format.json.token [0x22, 0x61, 0x22] := by
    refine ⟨by decide +kernel, rfl, rfl, fun n hn => ?_⟩
    have hlength : announcedLength? inFrames.headers = some 3 := by decide +kernel
    exact (Option.some.inj (hlength.symm.trans (announcedLength?_eq_some.2 hn))).symm
  have hadmits : (Policy.unlimited.withReceiveLimit 3).AdmitsSize 3 := by
    intro max hmax
    exact Nat.le_of_eq (Option.some.inj hmax)
  have hsend : ∀ max, shortText.entry.policy.limits.send = some max → 3 ≤ max := by
    intro max hmax
    exact Nat.le_of_eq (Option.some.inj hmax)
  obtain ⟨hcalls, hreceive⟩ :=
    receive_undoes_send.2.1 shortText .json "a" _ hf rfl hencode hdecode hsend
  exact ⟨hf, hencode, hdecode, hcarries, hadmits, hcalls, hreceive _ _ "kept" hcarries hadmits⟩

end Sending
end Conneg
