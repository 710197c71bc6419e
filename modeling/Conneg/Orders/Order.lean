import Conneg.Schema

/-!
# Orders and receipts

A small service takes orders and answers with receipts. A receipt repeats the
order's identifier and total and counts its items.
-/

namespace Conneg.Orders

/-- An order that was placed. -/
structure Order where
  id : String
  items : List String
  totalCents : Integer .i64

/-- What a placed order is answered with. -/
structure Receipt where
  orderId : String
  itemCount : Integer .u64
  totalCents : Integer .i64
  deriving DecidableEq

/-- The body of an order. A destination starts without identifier, items or
total. -/
def orderBody : BodyType where
  schema := .record
    (.cons "id" .text (.cons "items" (.list .text) (.cons "total_cents" (.integer .i64) .nil)))
  initial := ("", [], .zero _, ())

/-- The body of a receipt. -/
def receiptBody : BodyType where
  schema := .record
    (.cons "order_id" .text
      (.cons "item_count" (.integer .u64) (.cons "total_cents" (.integer .i64) .nil)))
  initial := ("", .zero _, .zero _, ())

/-- The order that a body holds. -/
def Order.ofBody : orderBody.schema.Carrier → Order
  | (id, items, totalCents, ()) => ⟨id, items, totalCents⟩

/-- The body that holds a receipt. -/
def Receipt.toBody (r : Receipt) : receiptBody.schema.Carrier :=
  (r.orderId, r.itemCount, r.totalCents, ())

/-- The receipt for an order. No list in memory is too long to be counted in 64
bits, so the count is the length. -/
def Order.receipt (o : Order) : Receipt where
  orderId := o.id
  itemCount := .nearest .u64 o.items.length
  totalCents := o.totalCents

/-- A receipt counts the items of its order. -/
theorem Order.itemCount_receipt {o : Order} (h : o.items.length < 2 ^ 64) :
    o.receipt.itemCount.val = o.items.length :=
  Integer.nearest_val (by simp only [IntKind.low]; omega) (by simp only [IntKind.high]; omega)

end Conneg.Orders
