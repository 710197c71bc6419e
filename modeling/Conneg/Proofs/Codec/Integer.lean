import Conneg.Proofs.Bson.Integer
import Conneg.Proofs.Codec.OneValue
import Conneg.Proofs.Json.Integer
import Conneg.Proofs.MsgPack.Integer

/-!
# No integer is wrapped or cut short

An integer in a body is read as itself, or it is out of the range of the type that is wanted and
the body is refused (`decode_exactly`). In JSON that holds of literals of any length, in
MessagePack of every form of an integer, and in BSON of the integers in a document, for a BSON body
is always one, and what is not a document is refused.
-/

namespace Conneg

/-- Whether a number is in the range of an integer type. -/
def IntKind.InRange (k : IntKind) (n : Int) : Prop := k.low ≤ n ∧ n ≤ k.high

instance (k : IntKind) (n : Int) : Decidable (k.InRange n) :=
  inferInstanceAs (Decidable (k.low ≤ n ∧ n ≤ k.high))

/-- A number in the range of an integer type, as an integer of the type. -/
def Integer.ofRange {k : IntKind} {n : Int} (h : k.InRange n) : Integer k := ⟨n, h.1, h.2⟩

theorem Integer.ofInt?_of_inRange {k : IntKind} {n : Int} (h : k.InRange n) :
    Integer.ofInt? k n = some (.ofRange h) := Integer.ofInt?_eq_some.2 rfl

/-- The integers of documents are all in the range of 64-bit ones. -/
theorem Bson.Value.inRange_of_integer? {v : Bson.Value} {n : Int} (h : v.integer? = some n) :
    IntKind.i64.InRange n := by
  cases v with
  | scalar x hx =>
    cases x with
    | null | bool | double | text | label | bytes => cases h
    | int32 m =>
      cases h
      have hstored : -2 ^ 31 ≤ n ∧ n < 2 ^ 31 := hx
      simp only [IntKind.InRange, IntKind.low, IntKind.high]
      omega
    | int64 m =>
      cases h
      have hstored : -2 ^ 63 ≤ n ∧ n < 2 ^ 63 := hx
      simp only [IntKind.InRange, IntKind.low, IntKind.high]
      omega
  | _ => cases h

/-- A number that is the only one under a key is the one that is there. -/
theorem Bson.Document.eq_of_mem_under {d : Bson.Document} {key : String} {v : Bson.Value}
    (hv : v ∈ d.under key) {n c : Int} (hn : v.integer? = some n)
    (h : ∃ u, d.under key = [u] ∧ u.integer? = some c) : c = n := by
  obtain ⟨u, hone, hu⟩ := h
  rw [hone, List.mem_singleton] at hv
  subst hv
  exact Option.some.inj (hu.symm.trans hn)

namespace Format

variable {f : Format} {k : IntKind} {body : Bytes} {n : Int}

/-- Whether a body is read as a number by an integer type that has it, and refused by one that has
it not. -/
structure ReadsNumber (f : Format) (k : IntKind) (body : Bytes) (n : Int) : Prop where
  decode_eq : ∀ h : k.InRange n, f.decode (.integer k) body = .ok (.ofRange h)
  refuses : ¬ k.InRange n → f.Refuses (.integer k) body

theorem ReadsNumber.of_decode
    (h : (match f with
      | .json => Json.decode (.integer k) body
      | .bson => Bson.decode (.integer k) body
      | .msgpack => MsgPack.decode (.integer k) body)
        = (Integer.ofInt? k n).elim (.error .unreadable) .ok) : f.ReadsNumber k body n where
  decode_eq hrange := by
    rw [Integer.ofInt?_of_inRange hrange] at h
    exact decode_eq_ok.2 h
  refuses hrange := by
    rw [Integer.ofInt?_eq_none.2 hrange] at h
    exact ⟨.unreadable, decode_of_error h⟩

open Bson.Document Bson.Value in
/-- **No integer is wrapped or cut short.** A JSON literal of any length and every form of an
integer in MessagePack is read as the number that it is by each integer type that has the number,
and refused by the others. Of a BSON document, the count of a greeting and the one of a receipt
are read as the numbers that are stored in it, in 32 or 64 bits, and the document is refused where
they are out of range; it is read if nothing else is wrong with it. The numbers of a map are what is
stored last under each key. No body but a document is read. -/
theorem decode_exactly :
    (∀ (l : Json.Literal) (k : IntKind), json.ReadsNumber k l.text l.value) ∧
    (∀ (body : Bytes) (n : Int), MsgPack.IsInteger body n →
      ∀ k : IntKind, msgpack.ReadsNumber k body n) ∧
    (∀ d : Bson.Document,
      (∀ v ∈ d.under "count", ∀ n, v.integer? = some n →
        (∀ (name : String) (count : Integer .i32),
          bson.decode Samples.greeting.schema d.bytes = .ok (name, count, ()) → count.val = n) ∧
        (¬ IntKind.i32.InRange n → bson.Refuses Samples.greeting.schema d.bytes) ∧
        ∀ (h : IntKind.i32.InRange n) (u : Bson.Value) (name : String),
          d.under "count" = [v] → d.under "name" = [u] → u.text? = some name →
          bson.decode Samples.greeting.schema d.bytes = .ok (name, .ofRange h, ())) ∧
      (∀ v ∈ d.under "item_count", ∀ n, v.integer? = some n →
        (∀ (id : String) (count : Integer .u64) (total : Integer .i64),
          bson.decode Orders.receiptBody.schema d.bytes = .ok (id, count, total, ()) →
          count.val = n) ∧
        (¬ IntKind.u64.InRange n → bson.Refuses Orders.receiptBody.schema d.bytes) ∧
        ∀ (h : IntKind.u64.InRange n) (u t : Bson.Value) (id : String) (total : Int)
          (htotal : t.integer? = some total),
          d.under "item_count" = [v] → d.under "order_id" = [u] → u.text? = some id →
          d.under "total_cents" = [t] →
          bson.decode Orders.receiptBody.schema d.bytes
            = .ok (id, .ofRange h, .ofRange (inRange_of_integer? htotal), ())) ∧
      (∀ m : SortedMap String (Integer .i64),
        bson.decode (Samples.mapOf .text (.integer .i64)).schema d.bytes = .ok m →
        ∀ (key : String) (c : Integer .i64),
          (key, c) ∈ m.entries ↔ (d.under key).getLast?.bind integer? = some c.val) ∧
      ((∀ e ∈ d.members, e.2.integer? ≠ none) →
        ∃ m, bson.decode (Samples.mapOf .text (.integer .i64)).schema d.bytes = .ok m)) ∧
    ∀ s ∈ [Samples.greeting.schema, Orders.receiptBody.schema,
        (Samples.mapOf .text (.integer .i64)).schema],
      ∀ body w, bson.decode s body = .ok w → ∃ d : Bson.Document, d.bytes = body := by
  refine ⟨fun l k => .of_decode (Json.decode_literal l k),
    fun _ _ h k => .of_decode (MsgPack.decode_of_isInteger h k), fun d => ?_, ?accepted⟩
  · refine ⟨fun v hv n hn => ?greeting, fun v hv n hn => ?receipt, fun m hm key c => ?entry,
      fun hall => ?map⟩
    case greeting =>
      have hexact : ∀ (name : String) (count : Integer .i32),
          bson.decode Samples.greeting.schema d.bytes = .ok (name, count, ()) → count.val = n :=
        fun name count h =>
          eq_of_mem_under hv hn (decode_greeting_iff.1 (decode_eq_ok.1 h)).2
      refine ⟨hexact, fun hrange => refuses_of_forall_ne_ok ?_, fun h u name hcount hname hu => ?_⟩
      · rintro ⟨name, count, ⟨⟩⟩ h
        obtain rfl := hexact name count h
        exact hrange ⟨count.low_le, count.le_high⟩
      · exact decode_eq_ok.2 (decode_greeting_iff.2 ⟨⟨u, hname, hu⟩, v, hcount, hn⟩)
    case receipt =>
      have hexact : ∀ (id : String) (count : Integer .u64) (total : Integer .i64),
          bson.decode Orders.receiptBody.schema d.bytes = .ok (id, count, total, ()) →
          count.val = n :=
        fun id count total h =>
          eq_of_mem_under hv hn (decode_receipt_iff.1 (decode_eq_ok.1 h)).2.1
      refine ⟨hexact, fun hrange => refuses_of_forall_ne_ok ?_,
        fun h u t id total htotal hcount hid hu ht => ?_⟩
      · rintro ⟨id, count, total, ⟨⟩⟩ h
        obtain rfl := hexact id count total h
        exact hrange ⟨count.low_le, count.le_high⟩
      · exact decode_eq_ok.2
          (decode_receipt_iff.2 ⟨⟨u, hid, hu⟩, ⟨v, hcount, hn⟩, t, ht, htotal⟩)
    case entry => exact mem_decode_map (decode_eq_ok.1 hm)
    case map =>
      obtain ⟨m, hm⟩ : ∃ m, Bson.decode (.map .text (.integer .i64)) d.bytes = .ok m := by
        refine exists_decode_map_iff.2 fun e he => ?_
        obtain ⟨n, hn⟩ := Option.ne_none_iff_exists'.1 (hall e he)
        exact ⟨.ofRange (inRange_of_integer? hn), hn⟩
      exact ⟨m, decode_eq_ok.2 hm⟩
  case accepted =>
    refine List.forall_mem_cons.2 ⟨fun body w h => ?_, List.forall_mem_cons.2
      ⟨fun body w h => ?_, List.forall_mem_singleton.2 fun body w h => ?_⟩⟩
    · exact exists_of_decode_greeting (decode_eq_ok.1 h)
    · exact exists_of_decode_receipt (decode_eq_ok.1 h)
    · exact exists_of_decode_map (decode_eq_ok.1 h)

/-- What becomes of integers at the ends of the types' ranges, and just beyond them. -/
theorem decode_exactly_atTheEnds :
    let minusOne : Bytes := [0xD3, 0xFF, 0xFF, 0xFF, 0xFF, 0xFF, 0xFF, 0xFF, 0xFF]
    let count (n : Int) (h : -2 ^ 63 ≤ n ∧ n < 2 ^ 63) : Bson.Key × Bson.Value :=
      (⟨"count", by decide⟩, .scalar (.int64 n) h)
    let name : Bson.Key × Bson.Value := (⟨"name", by decide⟩, .scalar (.text "a") trivial)
    let least : Bson.Document := ⟨[count (-2 ^ 31) (by decide), name], by decide +kernel⟩
    let beyond : Bson.Document := ⟨[count (2 ^ 31) (by decide), name], by decide +kernel⟩
    (json.decode (.integer .u8) [0x32, 0x35, 0x35] = .ok ⟨255, by decide, by decide⟩ ∧
      json.Refuses (.integer .u8) [0x32, 0x35, 0x36] ∧
      json.Refuses (.integer .u64) [0x2D, 0x31]) ∧
    (msgpack.decode (.integer .i32) minusOne = .ok ⟨-1, by decide, by decide⟩ ∧
      msgpack.Refuses (.integer .u64) minusOne) ∧
    bson.decode Samples.greeting.schema least.bytes
      = .ok ("a", ⟨-2 ^ 31, by decide, by decide⟩, ()) ∧
    bson.Refuses Samples.greeting.schema beyond.bytes := by
  intro minusOne count name least beyond
  obtain ⟨hjson, hmsgpack, hbson, -⟩ := decode_exactly
  have hminusOne : MsgPack.IsInteger minusOne (-1) := by
    have hvalue : Bytes.signed 8 (Bytes.toNatBE (List.replicate 8 0xFF)) = -1 := by decide
    exact hvalue ▸ .signed .eight rfl
  refine ⟨⟨?_, ?_, ?_⟩, ⟨?_, ?_⟩, ?_, ?_⟩
  · exact (hjson ⟨false, [2, 5, 5], by decide, by decide, by decide⟩ .u8).decode_eq (by decide)
  · exact (hjson ⟨false, [2, 5, 6], by decide, by decide, by decide⟩ .u8).refuses (by decide)
  · exact (hjson ⟨true, [1], by decide, by decide, by decide⟩ .u64).refuses (by decide)
  · exact (hmsgpack minusOne (-1) hminusOne .i32).decode_eq (by decide)
  · exact (hmsgpack minusOne (-1) hminusOne .u64).refuses (by decide)
  · obtain ⟨hgreeting, -⟩ := hbson least
    obtain ⟨-, -, hread⟩ := hgreeting _ (.head _) _ rfl
    exact hread (by decide) _ "a" rfl rfl rfl
  · obtain ⟨hgreeting, -⟩ := hbson beyond
    obtain ⟨-, hrefuses, -⟩ := hgreeting _ (.head _) _ rfl
    exact hrefuses (by decide)

end Format
end Conneg
