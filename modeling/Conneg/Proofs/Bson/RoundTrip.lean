import Conneg.Codec
import Conneg.Proofs.Bson.Document
import Conneg.Proofs.Schema.Bodies

/-!
# A BSON body is read back

BSON is faithful (`faithful`), doubles included, for it stores their bits; and all
that it writes is storable (`within`). So a value that is written as a document is
read back from the document, and the document is parsed back from its bytes, as
long as its length fits the four bytes that it has for it (`decode_encode`). There
is no limit on nesting.

Which values can be written at all is left open here: no scalar can be a body, no
key may hold a NUL, and no number may be above the signed ones.
-/

namespace Conneg.Bson

open Wire

/-! ## The decisions of the format -/

theorem writeName_eq_some {s : String} {x : Atom} (h : writeName s = some x) :
    x = .text s ∧ '\x00' ∉ s.toList := by
  unfold writeName at h
  split at h
  · exact nomatch h
  · next hs => exact ⟨(Option.some.inj h).symm, hs⟩

theorem writeKey_eq_some {k : KeyKind} {x : k.Carrier} {t : Node Atom}
    (h : writeKey k x = some t) : ∃ s, t = .scalar (.text s) ∧ '\x00' ∉ s.toList ∧
      mapKey? k t = some x := by
  cases k with
  | text =>
    obtain ⟨y, hy, rfl⟩ := Option.map_eq_some_iff.1 h
    obtain ⟨rfl, hs⟩ := writeName_eq_some hy
    exact ⟨x, rfl, hs, rfl⟩
  | integer | boolean | list => exact nomatch h

/-- What is written of an integer is storable and means it. -/
theorem writeInteger_eq_some {k : IntKind} {n : Int} {x : Atom} (h : writeInteger k n = some x)
    (hlow : k.low ≤ n) (hhigh : n ≤ k.high) : x.Storable ∧ x.meaning = .integer n := by
  cases k with
  | u8 | i32 | i64 =>
    obtain rfl := Option.some.inj h
    simp only [IntKind.low, IntKind.high] at hlow hhigh
    exact ⟨⟨by omega, by omega⟩, rfl⟩
  | u64 =>
    simp only [writeInteger] at h
    split at h
    · next hn =>
      obtain rfl := Option.some.inj h
      simp only [IntKind.low] at hlow
      exact ⟨⟨by omega, by omega⟩, rfl⟩
    · cases h

/-- BSON reads what it writes. -/
theorem faithful : Faithful readRules writeRules (fun _ => True) where
  null := rfl
  bool _ := rfl
  integer h hlow hhigh := (writeInteger_eq_some h hlow hhigh).2
  float _ := rfl
  text _ := rfl
  bareCase _ := rfl
  field h := by
    obtain ⟨rfl, -⟩ := writeName_eq_some h
    rfl
  case h := by
    obtain ⟨rfl, -⟩ := writeName_eq_some h
    rfl
  member h _ := by
    obtain ⟨rfl, -⟩ := writeName_eq_some h
    rfl
  mapKey h := by
    obtain ⟨s, -, -, hread⟩ := writeKey_eq_some h
    exact hread
  seq _ := rfl
  map _ := rfl

/-- All that BSON writes is storable. -/
theorem within : writeRules.Within (fun _ => True) Atom.Storable IsKey where
  null := trivial
  bool _ := trivial
  integer h hlow hhigh := (writeInteger_eq_some h hlow hhigh).1
  float _ := trivial
  text _ := trivial
  name h := by
    obtain ⟨rfl, hs⟩ := writeName_eq_some h
    exact ⟨_, rfl, hs⟩
  mapKey h := by
    obtain ⟨s, rfl, hs, -⟩ := writeKey_eq_some h
    exact ⟨s, rfl, hs⟩

/-! ## Documents -/

/-- A body is the frame of the entries of a written map. -/
theorem encode_eq_some {s : Schema} {v : s.Carrier} {bs : Bytes} (h : encode s v = some bs) :
    ∃ es, s.write writeRules v = some (.map es) ∧ bs = frame (printEntries es) := by
  unfold encode at h
  split at h
  · next es hes => exact ⟨es, hes, (Option.some.inj h).symm⟩
  · exact nomatch h

/-- An encoded value is decoded, if its length fits. -/
theorem decode_encode {s : Schema} (hs : s.isRegular = true) {v : s.Carrier}
    (hv : s.Proper (fun _ => True) v) {bs : Bytes} (h : encode s v = some bs)
    (hlen : bs.length < 2 ^ 31) : decode s bs = .ok v := by
  obtain ⟨es, hes, rfl⟩ := encode_eq_some h
  have hsound : (Node.map es).Sound Atom.Storable IsKey := Schema.write_sound within s v (.inr hv) hes
  have hbudget : Budget.Allows readRules.nesting (Node.map es).depth := fun _ hm => nomatch hm
  rw [decode, parse_frame hsound hlen]
  exact Schema.read_write faithful s hs readRules.nesting v (.map es) hv hes hbudget

end Conneg.Bson

namespace Conneg.Body

/-- **BSON keeps every body that it can hold.** Whatever is encoded is decoded to the
same body, doubles bit for bit and the order of keys included, if its objects repeat
no key, none of them is led by the raw key, and its length fits. -/
theorem bson_roundTrip (body : Body) (v : body.schema.Carrier) (hv : body.KeysDistinct v)
    (hraw : body.NoRawKey v) (bs : Bytes) (hbs : Format.bson.encode body.schema v = .ok bs)
    (hlen : bs.length < 2 ^ 31) :
    Format.bson.decode body.schema bs = .ok v := by
  have hencode : Bson.encode body.schema v = some bs := Format.encode_eq_ok.1 hbs
  exact Format.decode_eq_ok.2 (Bson.decode_encode body.isRegular_schema (hv.proper hraw) hencode hlen)

/-- A list of two objects, a text with a NUL in it and the double nearest to a tenth,
under two keys that are not in their alphabetical order. -/
theorem bson_roundTrip_nested :
    let v : Any := .object [("z", .list [.object [], .object [("a", .text "\x00")]]),
      ("b", .float ⟨⟨0x3FB999999999999A⟩, by decide⟩)]
    Body.value.KeysDistinct v ∧ Body.value.NoRawKey v ∧ ∃ bs, Format.bson.encode .any v = .ok bs ∧
      bs.length < 2 ^ 31 ∧ Format.bson.decode .any bs = .ok v := by
  intro v
  have hv : Body.value.KeysDistinct v :=
    ⟨by decide, ⟨⟨by decide, trivial⟩, ⟨by decide, trivial, trivial⟩, trivial⟩, trivial, trivial⟩
  have hraw : Body.value.NoRawKey v :=
    ⟨by decide, ⟨⟨by decide, trivial⟩, ⟨by decide, trivial, trivial⟩, trivial⟩, trivial, trivial⟩
  obtain ⟨bs, hbs, hlen⟩ : ∃ bs, Format.bson.encode .any v = .ok bs ∧ bs.length < 2 ^ 31 :=
    ⟨_, rfl, by decide +kernel⟩
  exact ⟨hv, hraw, bs, hbs, hlen, bson_roundTrip .value v hv hraw bs hbs hlen⟩

end Conneg.Body
