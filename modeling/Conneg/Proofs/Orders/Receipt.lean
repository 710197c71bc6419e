import Conneg.Orders.Order
import Conneg.Proofs.Bson.Bounded
import Conneg.Proofs.Bson.RoundTrip
import Conneg.Proofs.Json.RoundTrip
import Conneg.Proofs.MsgPack.Bounded
import Conneg.Proofs.MsgPack.RoundTrip

/-!
# Every order that can be read can be answered

A receipt can fail to be written in two ways only. BSON has no number above the signed
64 bits, which the count could be; and no length is kept that is not counted in the bits
for it, which that of the identifier could be. What is decoded is no longer than its body, but
for a third that base 64 adds to bytes of BSON (`Format.decode_short`). So an order that was read
from a body shorter than 2^30 has fewer than 3 * 2^29 items, and an identifier of fewer bytes,
and the receipt for it is written in every format and read back (`Order.receipt_kept`), whatever
format the order came in.
-/

namespace Conneg

/-! ## What is decoded is no longer than its body -/

section

variable {s : Schema} {body : Bytes} {v : s.Carrier} {limit : Nat}

theorem Json.decode_short (h : decode s body = .ok v) (hbody : body.length ≤ limit) :
    s.Short limit v := by
  obtain ⟨tree, rest, hparse, -, hread⟩ := decodeBy_eq_ok.1 h
  exact Schema.read_short keeps s _ tree v (parse_bounded hparse hbody) hread

theorem MsgPack.decode_short (h : decode s body = .ok v) (hbody : body.length ≤ limit)
    (hlimit : 0 < limit) : s.Short limit v := by
  obtain ⟨tree, hparse, hread⟩ := parse_of_decode h
  exact Schema.read_short (keeps hlimit) s _ tree v (parse_bounded hparse hbody) hread

theorem Bson.decode_short (h : decode s body = .ok v) (hbody : 4 * body.length ≤ 3 * limit)
    (hlimit : 24 < limit) : s.Short limit v :=
  Schema.read_short keeps s _ (parse body) v (parse_bounded hbody hlimit) h

/-- **What is decoded is no longer than its body**, but for the third that base 64 adds. -/
theorem Format.decode_short {f : Format} (h : f.decode s body = .ok v)
    (hbody : 4 * body.length ≤ 3 * limit) (hlimit : 24 < limit) : s.Short limit v := by
  have hread := decode_eq_ok.1 h
  cases f with
  | json => exact Json.decode_short hread (by omega)
  | bson => exact Bson.decode_short hread hbody hlimit
  | msgpack => exact MsgPack.decode_short hread (by omega) (by omega)

end

namespace Orders

open Wire

/-- Whether the parts of an order are shorter than a limit. -/
structure Order.Short (limit : Nat) (o : Order) : Prop where
  id : ShortText limit o.id
  items : o.items.length < limit

/-- An order from a body shorter than 2^30 is not much longer. -/
theorem Order.short_of_decode {f : Format} {body : Bytes} {v : orderBody.schema.Carrier}
    (h : f.decode orderBody.schema body = .ok v) (hbody : body.length < 2 ^ 30) :
    (Order.ofBody v).Short (3 * 2 ^ 29) := by
  obtain ⟨id, items, totalCents, ⟨⟩⟩ := v
  have hlimit : 4 * body.length ≤ 3 * (3 * 2 ^ 29) := by omega
  obtain ⟨hid, hitems, -, -⟩ := Format.decode_short h hlimit (by decide)
  exact ⟨hid, hitems.1⟩

/-! ## The receipt in each format -/

namespace Receipt

variable {r : Receipt}

theorem isFixed_receiptBody : receiptBody.schema.isFixed false = true := rfl

theorem proper (ok : Binary64 → Prop) (r : Receipt) : receiptBody.schema.Proper ok r.toBody :=
  Schema.proper_of_isFixed (fun h => (Bool.false_ne_true h).elim) _ isFixed_receiptBody _

/-- A written receipt is a map of scalars. -/
theorem depth_le {σ : Type} {W : WriteRules σ} {t : Node σ}
    (ht : receiptBody.schema.write W r.toBody = some t) : t.depth ≤ 1 :=
  Schema.write_depth_le _ isFixed_receiptBody _ ht

theorem json_kept (r : Receipt) : ∃ bs, Json.encode receiptBody.schema r.toBody = some bs ∧
    Json.decode receiptBody.schema bs = .ok r.toBody := by
  have hwritable : receiptBody.schema.Writable (· ≠ .list) r.toBody :=
    ⟨trivial, trivial, trivial, trivial⟩
  exact Json.exists_decode_encode rfl isFixed_receiptBody (by decide) hwritable

theorem msgpack_kept (hid : ShortText (2 ^ 32) r.orderId) :
    ∃ bs, MsgPack.encode receiptBody.schema r.toBody = some bs ∧
      MsgPack.decode receiptBody.schema bs = .ok r.toBody := by
  have hwritable : receiptBody.schema.Writable (fun _ => True) r.toBody :=
    ⟨trivial, trivial, trivial, trivial⟩
  have hshort : receiptBody.schema.Short (2 ^ 32) r.toBody := ⟨hid, trivial, trivial, trivial⟩
  obtain ⟨bs, hbs⟩ := (MsgPack.exists_encode_iff receiptBody.schema r.toBody).2 hwritable
  exact ⟨bs, hbs, MsgPack.decode_encode rfl (by decide) (proper _ r) hshort
    (fun t ht => Nat.le_trans (depth_le ht) (by decide)) hbs⟩

/-- The document of a receipt. -/
def document (r : Receipt) : Entries Bson.Atom :=
  .cons (.scalar (.text "order_id")) (.scalar (.text r.orderId))
    (.cons (.scalar (.text "item_count")) (.scalar (.int64 r.itemCount.val))
      (.cons (.scalar (.text "total_cents")) (.scalar (.int64 r.totalCents.val)) .done))

theorem bson_write (hcount : r.itemCount.val < 2 ^ 63) :
    receiptBody.schema.write Bson.writeRules r.toBody = some (.map r.document) := by
  have hinteger : Bson.writeInteger .u64 r.itemCount.val = some (.int64 r.itemCount.val) :=
    if_pos hcount
  obtain ⟨hid, hitems, htotal⟩ : Bson.writeName "order_id" = some (.text "order_id") ∧
      Bson.writeName "item_count" = some (.text "item_count") ∧
      Bson.writeName "total_cents" = some (.text "total_cents") := by decide
  simp only [receiptBody, toBody, Schema.write, Fields.write, Bson.writeRules, hinteger, hid,
    hitems, htotal]
  rfl

/-- All of a receipt's document but the identifier has a fixed length. -/
theorem length_document (r : Receipt) :
    (Bson.printEntries r.document).length = (Utf8.encode r.orderId).length + 56 := by
  have hid : (Utf8.encode "order_id").length = 8 := by decide
  have hitems : (Utf8.encode "item_count").length = 10 := by decide
  have htotal : (Utf8.encode "total_cents").length = 11 := by decide
  simp only [document, Bson.printEntries, Bson.printNode, Bson.printKey, Bson.Atom.print,
    Bson.Atom.asKey?, Bson.element, Bson.printText, Option.map_some, Option.getD_some,
    List.length_append, List.length_cons, List.length_nil, Bytes.length_ofNatLE, hid, hitems,
    htotal]
  omega

theorem bson_kept (hid : ShortText (3 * 2 ^ 29) r.orderId) (hcount : r.itemCount.val < 2 ^ 63) :
    ∃ bs, Bson.encode receiptBody.schema r.toBody = some bs ∧
      Bson.decode receiptBody.schema bs = .ok r.toBody := by
  have hbs : Bson.encode receiptBody.schema r.toBody
      = some (Bson.frame (Bson.printEntries r.document)) := by
    rw [Bson.encode, bson_write hcount]
  have hlength : (Bson.frame (Bson.printEntries r.document)).length < 2 ^ 31 := by
    rw [Bson.length_frame, length_document]
    have hid' : (Utf8.encode r.orderId).length < 3 * 2 ^ 29 := hid
    omega
  exact ⟨_, hbs, Bson.decode_encode rfl (proper _ r) hbs hlength⟩

/-- A receipt with a short identifier and a count in the signed 64 bits is kept by every
format. -/
theorem kept (f : Format) (hid : ShortText (3 * 2 ^ 29) r.orderId)
    (hcount : r.itemCount.val < 2 ^ 63) :
    ∃ bs, f.encode receiptBody.schema r.toBody = .ok bs ∧
      f.decode receiptBody.schema bs = .ok r.toBody := by
  simp only [Format.encode_eq_ok, Format.decode_eq_ok]
  cases f with
  | json => exact json_kept r
  | bson => exact bson_kept hid hcount
  | msgpack => exact msgpack_kept (Nat.lt_trans hid (by decide))

end Receipt

/-! ## The receipt for an order -/

variable {o : Order}

/-- Whether a receipt says what there is to be said of an order. -/
structure Receipt.IsFor (x : Receipt) (o : Order) : Prop where
  orderId : x.orderId = o.id
  itemCount : x.itemCount.val = o.items.length
  totalCents : x.totalCents = o.totalCents

theorem Order.Short.isFor_receipt (h : o.Short (3 * 2 ^ 29)) : o.receipt.IsFor o :=
  ⟨rfl, Order.itemCount_receipt (Nat.lt_trans h.items (by decide)), rfl⟩

/-- The receipt for an order is written in every format and read back. -/
theorem Order.receipt_kept (f : Format) (h : o.Short (3 * 2 ^ 29)) :
    ∃ bs, f.encode receiptBody.schema o.receipt.toBody = .ok bs ∧
      f.decode receiptBody.schema bs = .ok o.receipt.toBody := by
  have hitems := h.items
  refine Receipt.kept f h.id ?_
  rw [h.isFor_receipt.itemCount]
  omega

end Orders
end Conneg
