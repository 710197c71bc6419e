import Conneg.Codec
import Conneg.Proofs.Json.RawValue
import Conneg.Proofs.Json.RoundTrip
import Conneg.Proofs.MsgPack.Written
import Conneg.Proofs.Schema.Bodies
import Conneg.Proofs.Text.Utf8

/-!
# A MessagePack body is read back

MessagePack is faithful (`faithful`) and has a form for every value that is not
read-only (`total`): any kind of key may be written, doubles are stored by their
bits, and what limits a value is only that a length has four bytes. So a value whose
parts are shorter than that is encoded and decoded to itself (`exists_decode_encode`).
The reader goes 1023 containers deep. A body has nothing after its value, so the
check for bytes left over never refuses what was written.
-/

namespace Conneg.MsgPack

open Wire

/-! ## The decisions of the format -/

theorem meaning_integerAtom (n : Int) : (integerAtom n).meaning = .integer n := by
  unfold integerAtom
  split
  · rfl
  · show Scalar.integer (n.toNat : Int) = .integer n
    rw [Int.toNat_of_nonneg (by omega)]

theorem asInteger?_integerAtom {k : IntKind} (n : Integer k) :
    (integerAtom n.val).meaning.asInteger? k = some n := by
  rw [meaning_integerAtom]
  exact n.ofInt?_val

theorem integers?_ofList (ns : List (Integer .i64)) :
    integers? (.ofList (ns.map fun n => .scalar (integerAtom n.val))) = some ns := by
  induction ns with
  | nil => rfl
  | cons n ns ih =>
    show integers? (.cons (.scalar (integerAtom n.val)) (.ofList (ns.map _))) = _
    rw [integers?, asInteger?_integerAtom, ih]
    rfl

/-- A key of any kind is read back, a list of numbers too. -/
theorem mapKey?_writeKey {k : KeyKind} {x : k.Carrier} {t : Node Atom}
    (h : writeKey k x = some t) : mapKey? k t = some x := by
  cases k with
  | text =>
    obtain rfl := Option.some.inj h
    exact Utf8.decode?_encode x
  | integer =>
    obtain rfl := Option.some.inj h
    exact asInteger?_integerAtom x
  | boolean =>
    obtain rfl := Option.some.inj h
    rfl
  | list =>
    obtain rfl := Option.some.inj h
    exact integers?_ofList x

/-- MessagePack reads what it writes. -/
theorem faithful : Faithful readRules writeRules (fun _ => True) where
  null := rfl
  bool _ := rfl
  integer h _ _ := by
    obtain rfl := Option.some.inj h
    exact meaning_integerAtom _
  float _ := rfl
  text s := by simp only [readRules, writeRules, Atom.meaning, Utf8.decode?_encode]
  bareCase s := by
    simp only [readRules, writeRules, Atom.caseLabel, Utf8.decode?_encode, Option.map_some]
  field {s x} h := by
    obtain rfl := Option.some.inj h
    simp only [readRules, Atom.fieldLabel, Utf8.decodeLossy_encode]
  case {s x} h := by
    obtain rfl := Option.some.inj h
    simp only [readRules, Atom.caseLabel, Utf8.decode?_encode, Option.map_some]
  member {s x} h _ := by
    obtain rfl := Option.some.inj h
    exact Utf8.decode?_encode s
  mapKey := mapKey?_writeKey
  seq _ := rfl
  map _ := rfl

/-- MessagePack has a form for every scalar and every key. -/
theorem total : writeRules.Total (fun _ => True) where
  integer _ _ := ⟨_, rfl⟩
  name _ := ⟨_, rfl⟩
  mapKey k x := by
    cases k <;> exact iff_of_true ⟨_, rfl⟩ trivial

/-! ## Documents -/

/-- An encoded value is decoded, if its parts are short and it nests no deeper than a
reader goes. -/
theorem decode_encode {s : Schema} (hs : s.isRegular = true)
    (hnames : s.hasShortNames (2 ^ 32) = true) {v : s.Carrier} (hv : s.Proper (fun _ => True) v)
    (hshort : s.Short (2 ^ 32) v)
    (hdepth : ∀ t, s.write writeRules v = some t → t.depth ≤ 1023) {bs : Bytes}
    (h : encode s v = some bs) : decode s bs = .ok v := by
  obtain ⟨t, ht, rfl⟩ := Option.map_eq_some_iff.1 h
  have hparse : parse (printNode t) = ⟨t, some []⟩ :=
    parse_printNode (Schema.write_fits s hnames v hshort ht)
  have hbudget : Budget.Allows readRules.nesting t.depth := by
    intro m hm
    obtain rfl := Option.some.inj hm
    exact hdepth t ht
  have hread : s.read readRules readRules.nesting t = .ok v :=
    Schema.read_write faithful s hs readRules.nesting v t hv ht hbudget
  simp only [decode, hparse, hread]

/-- A value can be encoded exactly if nothing in it is read-only. -/
theorem exists_encode_iff (s : Schema) (v : s.Carrier) :
    (∃ bs, encode s v = some bs) ↔ s.Writable (fun _ => True) v :=
  exists_map_iff.trans (Schema.exists_write_iff total s v)

/-- An object of the raw key and a text is decoded as what the text spells in JSON. -/
theorem decode_rawKey {text : String} (htext : ShortText (2 ^ 32) text) {bs : Bytes}
    (h : encode .any (.object [(Any.rawKey, .text text)]) = some bs) {v : Any} :
    decode .any bs = .ok v ↔ Json.decode .any (Utf8.encode text) = .ok v := by
  let entries : Entries Atom :=
    .cons (.scalar (.text (Utf8.encode Any.rawKey))) (.scalar (.text (Utf8.encode text))) .done
  obtain rfl : printNode (.map entries) = bs := Option.some.inj h
  have hshort : Schema.any.Short (2 ^ 32) (.object [(Any.rawKey, .text text)]) :=
    ⟨(by decide : 1 < 2 ^ 32), by decide, htext, trivial⟩
  have hparse : parse (printNode (.map entries)) = ⟨.map entries, some []⟩ :=
    parse_printNode (Schema.write_fits .any rfl _ hshort rfl)
  have hname : readRules.memberName true (.text (Utf8.encode Any.rawKey)) = some Any.rawKey :=
    Utf8.decode?_encode Any.rawKey
  have hlead : entries.raw? readRules = some (.scalar (.text (Utf8.encode text)), .done) := by
    simp only [entries, Entries.raw?, hname, if_true]
  have hvalue : Node.rawValue? readRules (.scalar (.text (Utf8.encode text)))
      = Json.rawValue? text := by
    simp only [Node.rawValue?, readRules, Atom.meaning, Utf8.decode?_encode]
  have hread : Schema.any.read readRules readRules.nesting (.map entries)
      = (Json.rawValue? text).elim (.error .unreadable) .ok := by
    have henter : readRules.nesting.enter = some (some 1022) := rfl
    refine (Node.readAny_of_raw? henter hlead).trans ?_
    simp only [Node.readRaw, hvalue, Entries.ends, Bool.or_true, if_true]
    cases Json.rawValue? text <;> rfl
  rw [← Json.rawValue?_eq_some]
  simp only [decode, hparse, hread]
  cases Json.rawValue? text <;> simp

end Conneg.MsgPack

namespace Conneg.Body

/-- **MessagePack keeps every body.** A body of any type but the read-only one is
encoded, and what it is encoded to is decoded to the same body, doubles bit for bit
and the order of keys included; its objects may repeat no key and none may be led by
the raw key, its texts and collections must be shorter than 2^32, and it may nest at
most 1023 containers. -/
theorem msgpack_roundTrip (body : Body) (hbody : body ≠ .failing) (v : body.schema.Carrier)
    (hv : body.KeysDistinct v) (hraw : body.NoRawKey v) (hshort : body.schema.Short (2 ^ 32) v)
    (hnesting : body.NestsWithin 1023 v) :
    ∃ bs, Format.msgpack.encode body.schema v = .ok bs ∧
      Format.msgpack.decode body.schema bs = .ok v := by
  have hwritable : body.schema.Writable (fun _ => True) v :=
    body.writable hbody (fun _ _ => trivial) v
  obtain ⟨bs, hbs⟩ := (MsgPack.exists_encode_iff body.schema v).2 hwritable
  have hdecode : MsgPack.decode body.schema bs = .ok v :=
    MsgPack.decode_encode body.isRegular_schema body.hasShortNames_schema (hv.proper hraw) hshort
      (fun t ht => hnesting.depth_le (by decide) ht) hbs
  exact ⟨bs, Format.encode_eq_ok.2 hbs, Format.decode_eq_ok.2 hdecode⟩

/-- Numbers at the ends of their forms, and two keys that are not in their alphabetical
order. -/
theorem msgpack_roundTrip_object :
    let v : Any := .object [("z", .list [.integer ⟨-2 ^ 63, by decide, by decide⟩,
      .integer ⟨-33, by decide, by decide⟩, .integer ⟨-32, by decide, by decide⟩,
      .integer ⟨2 ^ 64 - 1, by decide, by decide⟩]),
      ("a", .float ⟨⟨0x3FB999999999999A⟩, by decide⟩)]
    Body.value ≠ .failing ∧ Body.value.KeysDistinct v ∧ Body.value.NoRawKey v ∧
      Body.value.schema.Short (2 ^ 32) v ∧ Body.value.NestsWithin 1023 v ∧
      ∃ bs, Format.msgpack.encode .any v = .ok bs ∧ Format.msgpack.decode .any bs = .ok v := by
  intro v
  have hbody : Body.value ≠ .failing := nofun
  have hv : Body.value.KeysDistinct v :=
    ⟨by decide, ⟨trivial, trivial, trivial, trivial, trivial⟩, trivial, trivial⟩
  have hraw : Body.value.NoRawKey v :=
    ⟨by decide, ⟨trivial, trivial, trivial, trivial, trivial⟩, trivial, trivial⟩
  have hshort : Body.value.schema.Short (2 ^ 32) v :=
    ⟨by decide, by decide, ⟨by decide, trivial, trivial, trivial, trivial, trivial⟩,
      by decide, trivial, trivial⟩
  have hnesting : Any.nesting v ≤ 1023 := by decide
  exact ⟨hbody, hv, hraw, hshort, hnesting,
    msgpack_roundTrip .value hbody v hv hraw hshort hnesting⟩

/-- An object that is led by the raw key is not kept: it is read as the number that the
text under the key spells. -/
theorem msgpack_opens_rawKey :
    let v : Any := .object [(Any.rawKey, .text "1")]
    Body.value ≠ .failing ∧ Body.value.KeysDistinct v ∧ Body.value.schema.Short (2 ^ 32) v ∧
      Body.value.NestsWithin 127 v ∧ ∃ bs, Format.msgpack.encode .any v = .ok bs ∧
        Format.msgpack.decode .any bs = .ok (.integer ⟨1, by decide, by decide⟩) ∧
        Format.msgpack.decode .any bs ≠ .ok v := by
  intro v
  let one : Any := .integer ⟨1, by decide, by decide⟩
  have hspelled : Json.decode .any (Utf8.encode "1") = .ok one := by
    have hproper : Schema.any.Proper (fun _ => False) one := ⟨trivial, trivial⟩
    refine Json.decode_encode (fun _ => False.elim) (fun _ => False.elim) rfl hproper
      (fun t ht => ?_) (by decide +kernel)
    obtain rfl := Option.some.inj ht
    exact Nat.zero_le _
  have htext : ShortText (2 ^ 32) "1" := by decide
  obtain ⟨bs, hbs⟩ : ∃ bs, MsgPack.encode .any v = some bs := ⟨_, rfl⟩
  have hdecode : Format.msgpack.decode .any bs = .ok one :=
    Format.decode_eq_ok.2 ((MsgPack.decode_rawKey htext hbs).2 hspelled)
  refine ⟨nofun, ⟨by decide, trivial, trivial⟩, ⟨by decide, by decide, htext, trivial⟩,
    (by decide : 1 ≤ 127), bs, Format.encode_eq_ok.2 hbs, hdecode, fun h => ?_⟩
  exact Any.noConfusion (Except.ok.inj (hdecode.symm.trans h))

end Conneg.Body
