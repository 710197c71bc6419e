import Conneg.Orders.Order
import Conneg.Proofs.Bson.Accepted
import Conneg.Proofs.Wire.Given
import Conneg.Schema.Samples

/-!
# Integers in documents

A document stores an integer in 32 or 64 bits, whatever type it is wanted in. What a record is
read as is said here of the values under its names, and what a map is read as of the last value
under each key (`Document.decode_record_iff`, `Document.mem_decode_map`), so an integer in any of
them is the one that was stored. Where a record has only texts and integers, and a map only
integers, nothing else is read than documents (`Document.exists_of_decode_record`,
`Document.exists_of_decode_map`).
-/

namespace Conneg.Bson

open Wire

namespace Value

/-- The integer that a value is, stored in 32 or 64 bits. -/
def integer? : Value → Option Int
  | .scalar (.int32 n) _ => some n
  | .scalar (.int64 n) _ => some n
  | _ => none

/-- The text that a value is; bytes of the generic subtype are one when they are UTF-8. -/
def text? : Value → Option String
  | .scalar (.text s) _ => some s
  | .binary subtype bs => if subtype = 0 then Utf8.decode? bs else none
  | _ => none

/-- The members of a document as they are read. -/
def named (members : List (Key × Value)) : List (String × Node Atom) :=
  members.map fun m => (m.1.text, m.2.tree)

theorem entries_namedAs (members : List (Key × Value)) :
    (entries members).NamedAs readRules (named members) := by
  induction members with
  | nil => exact trivial
  | cons m members ih => exact ⟨⟨_, rfl, rfl⟩, rfl, ih⟩

theorem entries_keyedAs (members : List (Key × Value)) :
    (entries members).KeyedAs readRules (named members) := by
  induction members with
  | nil => exact trivial
  | cons m members ih => exact ⟨rfl, rfl, ih⟩

/-! ## Single values -/

/-- A value is read as an integer exactly if it is that integer. -/
theorem read_integer_iff (v : Value) {k : IntKind} {c : Integer k} :
    (Schema.integer k).read readRules none v.tree = .ok c ↔ v.integer? = some c.val := by
  cases v with
  | nested nest => cases nest <;> exact ⟨nofun, nofun⟩
  | binary subtype bs =>
    rw [tree, bytesNode]
    split <;> exact ⟨nofun, nofun⟩
  | scalar x hx =>
    have hread : (Schema.integer k).read readRules none (.scalar x)
        = (x.meaning.asInteger? k).elim (.error .unreadable) .ok := Reader.leaf_eq_elim
    have hstored : ∀ n : Int,
        (Integer.ofInt? k n).elim (.error Fault.unreadable) Except.ok = .ok c ↔
          some n = some c.val := by
      intro n
      rw [Option.some_inj, eq_comm (a := n), ← Integer.ofInt?_eq_some]
      cases Integer.ofInt? k n <;> simp
    simp only [tree, hread]
    cases x with
    | int32 n | int64 n => exact hstored n
    | null | bool | double | text => exact ⟨nofun, nofun⟩
    | label | bytes => exact hx.elim
  | _ => exact ⟨nofun, nofun⟩

/-- A value is read as a text exactly if it is that text. -/
theorem read_text_iff (v : Value) {s : String} :
    Schema.text.read readRules none v.tree = .ok s ↔ v.text? = some s := by
  cases v with
  | nested nest => cases nest <;> exact ⟨nofun, nofun⟩
  | binary subtype bs =>
    rw [tree, bytesNode, text?]
    split
    · have hread : Schema.text.read readRules none (.scalar (.bytes bs))
          = (Utf8.decode? bs).elim (.error .unreadable) .ok := Reader.leaf_eq_elim
      rw [hread]
      cases Utf8.decode? bs <;> simp
    · exact ⟨nofun, nofun⟩
  | scalar x hx =>
    cases x with
    | text s' => exact ⟨fun h => congrArg some (Except.ok.inj h), fun h => by cases h; rfl⟩
    | null | bool | int32 | int64 | double => exact ⟨nofun, nofun⟩
    | label | bytes => exact hx.elim
  | _ => exact ⟨nofun, nofun⟩

end Value

/-! ## Records and maps -/

namespace Document

variable {d : Document} {body : Bytes}

/-- The values under a key of a document, in their order. -/
def under (key : String) (d : Document) : List Value :=
  (d.members.filter fun m => m.1.text == key).map Prod.snd

theorem under_named (key : String) (d : Document) :
    Wire.under key (Value.named d.members) = (d.under key).map Value.tree := by
  simp only [Wire.under, Value.named, under, List.filter_map, List.map_map]
  rfl

/-- A record is read from a document exactly if its fields are given. -/
theorem decode_record_iff {fs : Fields} (hfs : fs.names.Nodup) {w : fs.Carrier} :
    decode (.record fs) d.bytes = .ok w ↔
      fs.Given readRules none (Value.named d.members) w := by
  have hskips : ∀ e ∈ Value.named d.members, readRules.skips none e.2 = true :=
    List.forall_mem_map.2 fun m _ => Value.whole_tree m.2
  rw [decode, d.parse_bytes]
  exact fs.record_eq_ok hfs rfl rfl (Value.entries_namedAs d.members) hskips

/-- A field that may not be left out is the one value under its name. -/
theorem given_cons_iff {name : String} {s : Schema} (hs : s.absent? = none) {rest : Fields}
    {w : s.Carrier × rest.Carrier} :
    (Fields.cons name s rest).Given readRules none (Value.named d.members) w ↔
      (∃ v, d.under name = [v] ∧ s.read readRules none v.tree = .ok w.1) ∧
        rest.Given readRules none (Value.named d.members) w.2 := by
  simp only [Fields.Given, hs, reduceCtorEq, and_false, or_false, under_named,
    List.map_eq_singleton_iff]
  refine and_congr_left fun _ => ⟨?_, ?_⟩
  · rintro ⟨-, ⟨v, hone, rfl⟩, hread⟩
    exact ⟨v, hone, hread⟩
  · rintro ⟨v, hone, hread⟩
    exact ⟨_, ⟨v, hone, rfl⟩, hread⟩

theorem given_text_iff {name : String} {rest : Fields} {w : String × rest.Carrier} :
    (Fields.cons name .text rest).Given readRules none (Value.named d.members) w ↔
      (∃ v, d.under name = [v] ∧ v.text? = some w.1) ∧
        rest.Given readRules none (Value.named d.members) w.2 :=
  (given_cons_iff rfl).trans
    (and_congr_left fun _ => exists_congr fun v => and_congr_right fun _ => v.read_text_iff)

theorem given_integer_iff {name : String} {k : IntKind} {rest : Fields}
    {w : Integer k × rest.Carrier} :
    (Fields.cons name (.integer k) rest).Given readRules none (Value.named d.members) w ↔
      (∃ v, d.under name = [v] ∧ v.integer? = some w.1.val) ∧
        rest.Given readRules none (Value.named d.members) w.2 :=
  (given_cons_iff rfl).trans
    (and_congr_left fun _ => exists_congr fun v => and_congr_right fun _ => v.read_integer_iff)

/-- A greeting is what the one name and the one count of a document are. -/
theorem decode_greeting_iff {name : String} {count : Integer .i32} :
    decode Samples.greeting.schema d.bytes = .ok (name, count, ()) ↔
      (∃ v, d.under "name" = [v] ∧ v.text? = some name) ∧
        ∃ v, d.under "count" = [v] ∧ v.integer? = some count.val := by
  refine (decode_record_iff (by decide)).trans ?_
  rw [given_text_iff, given_integer_iff]
  exact and_congr_right fun _ => and_iff_left trivial

/-- A receipt is what the one identifier, count and total of a document are. -/
theorem decode_receipt_iff {id : String} {count : Integer .u64} {total : Integer .i64} :
    decode Orders.receiptBody.schema d.bytes = .ok (id, count, total, ()) ↔
      (∃ v, d.under "order_id" = [v] ∧ v.text? = some id) ∧
        (∃ v, d.under "item_count" = [v] ∧ v.integer? = some count.val) ∧
          ∃ v, d.under "total_cents" = [v] ∧ v.integer? = some total.val := by
  refine (decode_record_iff (by decide)).trans ?_
  rw [given_text_iff, given_integer_iff, given_integer_iff]
  exact and_congr_right fun _ => and_congr_right fun _ => and_iff_left trivial

/-- How a document is read as a map from texts. -/
theorem decode_map (d : Document) (s : Schema) : decode (.map .text s) d.bytes
    = Reader.mapEntries (readRules.mapKey .text) (s.read readRules none)
        (Value.entries d.members) .empty := by
  rw [decode, d.parse_bytes]
  rfl

/-- A map to integers is read exactly if every value is an integer of their type. -/
theorem exists_decode_map_iff {k : IntKind} :
    (∃ m, decode (.map .text (.integer k)) d.bytes = .ok m) ↔
      ∀ m ∈ d.members, ∃ c : Integer k, m.2.integer? = some c.val := by
  rw [d.decode_map]
  refine (Reader.exists_mapEntries_iff (Value.entries_keyedAs d.members)).trans ?_
  rw [Value.named, List.forall_mem_map]
  exact forall₂_congr fun m _ => exists_congr fun c => m.2.read_integer_iff

/-- A key of a map to integers has the last integer under it. -/
theorem mem_decode_map {k : IntKind} {m : SortedMap String (Integer k)}
    (h : decode (.map .text (.integer k)) d.bytes = .ok m) {key : String} {c : Integer k} :
    (key, c) ∈ m.entries ↔ (d.under key).getLast?.bind Value.integer? = some c.val := by
  rw [d.decode_map] at h
  rw [Reader.mem_mapEntries (Value.entries_keyedAs d.members) h, under_named,
    List.getLast?_map]
  cases (d.under key).getLast? with
  | none => exact ⟨nofun, nofun⟩
  | some v => exact v.read_integer_iff

/-! ## Accepted bodies -/

theorem parse_cases (body : Bytes) : (∃ ts, parse body = .map ts) ∨ parse body = .broken := by
  unfold parse
  split
  · exact .inl ⟨_, rfl⟩
  · exact .inr rfl

/-- A body from which a record of plain fields is read is a document. -/
theorem exists_of_decode_record {fs : Fields} (hfs : fs.ReadsWhole readRules none) {w : fs.Carrier}
    (h : decode (.record fs) body = .ok w) : ∃ d : Document, d.bytes = body := by
  rcases parse_cases body with ⟨ts, hparse⟩ | hparse
  · rw [decode, hparse] at h
    obtain ⟨r, hr, -⟩ := exists_of_bind_eq_ok h
    refine exists_document ?_
    rw [hparse]
    exact fs.whole_of_recordEntries hfs rfl hr
  · rw [decode, hparse] at h
    cases h

theorem exists_of_decode_greeting {w : Samples.greeting.schema.Carrier}
    (h : decode Samples.greeting.schema body = .ok w) : ∃ d : Document, d.bytes = body := by
  refine exists_of_decode_record (.cons ?_ (.cons ?_ .nil)) h
  all_goals exact fun _ _ => Reader.whole_of_leaf

theorem exists_of_decode_receipt {w : Orders.receiptBody.schema.Carrier}
    (h : decode Orders.receiptBody.schema body = .ok w) : ∃ d : Document, d.bytes = body := by
  refine exists_of_decode_record (.cons ?_ (.cons ?_ (.cons ?_ .nil))) h
  all_goals exact fun _ _ => Reader.whole_of_leaf

/-- A body from which a map to integers is read is a document. -/
theorem exists_of_decode_map {k : IntKind} {m : SortedMap String (Integer k)}
    (h : decode (.map .text (.integer k)) body = .ok m) : ∃ d : Document, d.bytes = body := by
  have hkey : ∀ t name, readRules.mapKey .text t = some name → t.whole none = true := by
    intro t name hname
    cases t with
    | scalar x => rfl
    | broken | seq | map => cases hname
  rcases parse_cases body with ⟨ts, hparse⟩ | hparse
  · rw [decode, hparse] at h
    refine exists_document ?_
    rw [hparse]
    exact Reader.whole_of_mapEntries hkey (fun _ _ => Reader.whole_of_leaf) h
  · rw [decode, hparse] at h
    cases h

end Document
end Conneg.Bson
