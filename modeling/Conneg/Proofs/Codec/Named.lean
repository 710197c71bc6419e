import Conneg.Codec
import Conneg.Proofs.Bson.RoundTrip
import Conneg.Proofs.Codec.OneValue
import Conneg.Proofs.Json.Double
import Conneg.Proofs.MsgPack.RoundTrip
import Conneg.Proofs.Wire.Reordered

/-!
# Bodies made of entries

A body that holds a list of entries is what the format writes of the record that declares just
these (`Format.Holds`): the entries one after the other, with the framing that is right for
them. Each format reads such a body from the trees that were written, if the lengths in it fit the
bytes that the format has for a length (`Format.Codes`). What was shown of trees then holds of
bodies, for all formats at once.
-/

namespace Conneg

open Wire

variable {σ : Type} {R : ReadRules σ} {W : WriteRules σ} {b : Budget} {f : Format}

/-- Whether no length in an entry needs more than four bytes. -/
structure RecordEntry.IsShort (e : RecordEntry) : Prop where
  name : ShortText (2 ^ 32) e.name
  declared : e.schema.hasShortNames (2 ^ 32) = true
  value : e.schema.Short (2 ^ 32) e.value

theorem RecordEntry.length_names (items : List RecordEntry) :
    (fields items).names.length = items.length := by
  induction items with
  | nil => rfl
  | cons e items ih => rw [fields, Fields.names, List.length_cons, ih, List.length_cons]

/-- A record of short entries is short. -/
theorem RecordEntry.short_fields {items : List RecordEntry} (h : ∀ e ∈ items, e.IsShort) :
    (fields items).hasShortNames (2 ^ 32) = true ∧
      (fields items).Short (2 ^ 32) (values items) := by
  induction items with
  | nil => exact ⟨rfl, trivial⟩
  | cons e items ih =>
    obtain ⟨he, hitems⟩ := List.forall_mem_cons.1 h
    obtain ⟨hnames, hvalues⟩ := ih hitems
    refine ⟨?_, he.value, hvalues⟩
    rw [fields, Fields.hasShortNames, he.declared, hnames, decide_eq_true he.name]
    rfl

namespace Format

/-- Whether the lengths in a body that holds some entries fit the bytes that the format has for a
length: four, of which BSON reads a signed number. -/
def Fits (f : Format) (items : List RecordEntry) (body : Bytes) : Prop :=
  match f with
  | .json => True
  | .bson => body.length < 2 ^ 31
  | .msgpack => items.length < 2 ^ 32 ∧ ∀ e ∈ items, e.IsShort

/-- Whether a body holds these entries, in this order. -/
structure Holds (f : Format) (items : List RecordEntry) (body : Bytes) : Prop where
  encoded : f.encode (.record (RecordEntry.fields items)) (RecordEntry.values items) = .ok body
  fits : f.Fits items body

/-- What is needed of a format to read records by name: it reads what it writes, of doubles
those that are `ok`; a record in it leaves room for 100 containers; and a body that holds entries
is read from the trees that are written of them. -/
structure Codes (f : Format) (R : ReadRules σ) (W : WriteRules σ) (ok : Binary64 → Prop)
    (b : Budget) : Prop where
  faithful : Faithful R W ok
  room : b.Allows 100
  decode : ∀ {items : List RecordEntry} {body : Bytes}, f.Holds items body →
    ∃ ts, (RecordEntry.fields items).write W (RecordEntry.values items) = some ts ∧
      ∀ fs : Fields, f.decode (.record fs) body = (fs.readEntries R b ts).mapError (.reading f)

end Format

/-- A format that is faithful for some doubles is so for none. -/
theorem Wire.Faithful.weaken {ok : Binary64 → Prop} (h : Faithful R W ok) :
    Faithful R W fun _ => False where
  null := h.null
  bool := h.bool
  integer := h.integer
  float hfalse := hfalse.elim
  text := h.text
  bareCase := h.bareCase
  field := h.field
  case := h.case
  member := h.member
  mapKey := h.mapKey
  seq := h.seq
  map := h.map

theorem json_codes :
    Format.json.Codes Json.readRules Json.writeRules (fun _ => False) (some 126) where
  faithful := Json.faithful fun _ => False.elim
  room := by
    intro m hm
    obtain rfl := Option.some.inj hm
    decide
  decode {items body} h := by
    obtain ⟨t, ht, rfl⟩ := Option.map_eq_some_iff.1 (Format.json_encode_eq_ok.1 h.encoded)
    obtain ⟨ts, hts, rfl⟩ := Option.map_eq_some_iff.1 ht
    have hsound : (Node.map ts).Sound Json.Atom.Printable Json.IsKey :=
      Schema.write_sound (Json.within fun x (_ : True) => Json.printable_float x) _ _
        (.inl fun _ => trivial) ht
    have hparse := Json.parse_printNode hsound
    refine ⟨ts, hts, fun fs => ?_⟩
    have hread : (Schema.record fs).read Json.readRules Json.readRules.nesting (.map ts)
        = fs.readEntries Json.readRules (some 126) ts := rfl
    simp only [Format.decode, Json.decode, Json.decodeBy, hparse, hread]
    cases fs.readEntries _ _ ts <;> rfl

theorem bson_codes :
    Format.bson.Codes Bson.readRules Bson.writeRules (fun _ => True) none where
  faithful := Bson.faithful
  room _ hm := nomatch hm
  decode {items body} h := by
    obtain ⟨hencode, hlen⟩ := h
    obtain ⟨ts, ht, rfl⟩ := Bson.encode_eq_some (Format.encode_eq_ok.1 hencode)
    have hsound : (Node.map ts).Sound Bson.Atom.Storable Bson.IsKey :=
      Schema.write_sound Bson.within _ _ (.inl fun _ => trivial) ht
    obtain ⟨ts', hts, heq⟩ := Option.map_eq_some_iff.1 ht
    obtain rfl := Node.map.inj heq
    have hparse := Bson.parse_frame hsound hlen
    refine ⟨ts', hts, fun fs => ?_⟩
    have hread : (Schema.record fs).read Bson.readRules Bson.readRules.nesting (.map ts')
        = fs.readEntries Bson.readRules none ts' := rfl
    simp only [Format.decode, Bson.decode, hparse, hread]
    cases fs.readEntries _ _ ts' <;> rfl

theorem msgpack_codes :
    Format.msgpack.Codes MsgPack.readRules MsgPack.writeRules (fun _ => True) (some 1022) where
  faithful := MsgPack.faithful
  room := by
    intro m hm
    obtain rfl := Option.some.inj hm
    decide
  decode {items body} h := by
    obtain ⟨hencode, hlength, hitems⟩ := h
    obtain ⟨hfields, hshort⟩ := RecordEntry.short_fields hitems
    have hnames : (Schema.record (RecordEntry.fields items)).hasShortNames (2 ^ 32) = true := by
      rw [Schema.hasShortNames, RecordEntry.length_names, decide_eq_true hlength, hfields]
      rfl
    obtain ⟨t, ht, rfl⟩ := Option.map_eq_some_iff.1 (Format.encode_eq_ok.1 hencode)
    have hfits := Schema.write_fits _ hnames _ hshort ht
    obtain ⟨ts, hts, rfl⟩ := Option.map_eq_some_iff.1 ht
    have hparse := MsgPack.parse_printNode hfits
    refine ⟨ts, hts, fun fs => ?_⟩
    have hread : (Schema.record fs).read MsgPack.readRules MsgPack.readRules.nesting (.map ts)
        = fs.readEntries MsgPack.readRules (some 1022) ts := rfl
    simp only [Format.decode, MsgPack.decode, hparse, hread]
    cases fs.readEntries _ _ ts <;> rfl

/-- Every format reads records by name. All but JSON keep every double. -/
theorem Format.exists_codes (f : Format) :
    ∃ (σ : Type) (R : ReadRules σ) (W : WriteRules σ) (ok : Binary64 → Prop) (b : Budget),
      f.Codes R W ok b ∧ (f ≠ .json → ∀ x, ok x) := by
  cases f with
  | json => exact ⟨_, _, _, _, _, json_codes, fun h => absurd rfl h⟩
  | bson => exact ⟨_, _, _, _, _, bson_codes, fun _ _ => trivial⟩
  | msgpack => exact ⟨_, _, _, _, _, msgpack_codes, fun _ _ => trivial⟩

/-! ## Bodies whose entries were moved, left out or repeated -/

/-- The entries of a value are encoded as the value is. -/
theorem Format.encode_entries (f : Format) (fs : Fields) (v : fs.Carrier) :
    f.encode (.record (RecordEntry.fields (fs.entries v))) (RecordEntry.values (fs.entries v))
      = f.encode (.record fs) v := by
  cases f <;> simp only [encode, Json.encode, Bson.encode, MsgPack.encode, Schema.write,
    fs.write_entries v]

namespace Format.Codes

variable {ok : Binary64 → Prop} {fs : Fields} {v : fs.Carrier} {further : List (String × Any)}
  {items : List RecordEntry} {whole body : Bytes}

/-- A body is read from trees that can be read in any order, if what it holds beside fields does
not nest too deep. -/
theorem readable (h : f.Codes R W ok b) (hbody : f.Holds items body)
    (hdeep : ∀ m ∈ further, m.2.nesting ≤ 100)
    (hothers : ∀ e ∈ items, e.name ∉ fs.names → ∃ m ∈ further, e = RecordEntry.ofMember m) :
    ∃ ts, Readable R W b fs items ts ∧
      f.decode (.record fs) body = (fs.readEntries R b ts).mapError (.reading f) := by
  obtain ⟨ts, hts, hdecode⟩ := h.decode hbody
  obtain ⟨hnamed, hwritten⟩ := RecordEntry.write_namedAs h.faithful items hts
  refine ⟨ts, ⟨hnamed, hwritten, fun e he hname => ?_⟩, hdecode fs⟩
  obtain ⟨m, hm, rfl⟩ := hothers e he hname
  have ht : m.2.write W = some ((RecordEntry.ofMember m).tree W) := hwritten _ he
  refine Any.write_whole m.2 ht ?_
  rw [Any.write_depth m.2 ht]
  split
  · exact nofun
  · exact h.room.of_le (hdeep m hm)

theorem readable_whole (h : f.Codes R W ok b) (hwhole : f.Holds (fs.entries v) whole) :
    ∃ ts, Readable R W b fs (fs.entries v) ts ∧
      f.decode (.record fs) whole = (fs.readEntries R b ts).mapError (.reading f) :=
  h.readable hwhole (nofun : ∀ m ∈ [], _) fun _ he hname =>
    (fs.lists_entries v).exists_member he hname

theorem exists_of_mapError_eq_ok {α : Type} {x : Except Fault α} {g : Fault → CodingError} {w : α}
    (h : x.mapError g = .ok w) : x = .ok w := by
  cases x with
  | error c => exact nomatch h
  | ok y => exact congrArg _ (Except.ok.inj h)

/-- Entries in another order, and among others, are read as they are in the declared order. -/
theorem decode_reordered (h : f.Codes R W ok b) (hfs : fs.Plain)
    (hwhole : f.Holds (fs.entries v) whole) (hbody : f.Holds items body)
    (hitems : fs.Lists v further items) (hnew : fs.Undeclared further)
    (hdeep : ∀ m ∈ further, m.2.nesting ≤ 100) :
    f.decode (.record fs) body = f.decode (.record fs) whole := by
  obtain ⟨ts, hts, hdecode⟩ := h.readable hbody hdeep fun _ => hitems.exists_member
  obtain ⟨ts', hts', hdecode'⟩ := h.readable_whole hwhole
  have hsame := hts.reordered hts' h.faithful.weaken h.room hfs hitems hnew
    (fs.lists_entries v) nofun
  rw [hdecode, hdecode', Fields.readEntries, hsame]
  rfl

section Without

variable {left : RecordEntry}

theorem readable_without (h : f.Codes R W ok b) (hbody : f.Holds items body)
    (hitems : fs.Lists v further (left :: items)) (hdeep : ∀ m ∈ further, m.2.nesting ≤ 100) :
    ∃ ts, Readable R W b fs items ts ∧
      f.decode (.record fs) body = (fs.readEntries R b ts).mapError (.reading f) :=
  h.readable hbody hdeep fun _ he => hitems.exists_member (List.mem_cons_of_mem _ he)

/-- A body that is read has fields that can all be read. -/
theorem readableBut_of_ok (h : f.Codes R W ok b) (hfs : fs.names.Nodup)
    (hwhole : f.Holds (fs.entries v) whole) {w : fs.Carrier}
    (hw : f.decode (.record fs) whole = .ok w) (name : String) :
    ReadableBut R W b fs v name := by
  obtain ⟨ts, hts, hdecode⟩ := h.readable_whole hwhole
  obtain ⟨r, hr, -⟩ := exists_of_bind_eq_ok (exists_of_mapError_eq_ok (hdecode.symm.trans hw))
  exact hts.readableBut_of_ok hfs hr name

/-- Fields without doubles can all be read. -/
theorem readableBut_of_isFixed (h : f.Codes R W ok b) (hfs : fs.Plain)
    (hwhole : f.Holds (fs.entries v) whole) {name : String}
    (hfixed : ∀ g ∈ fs.toList, g.1 ≠ name → g.2.isFixed false = true) :
    ReadableBut R W b fs v name := by
  obtain ⟨ts, hts, -⟩ := h.readable_whole hwhole
  intro e he hne
  have hmem := fs.mem_entries he
  exact ⟨_, RecordEntry.read_tree h.faithful.weaken h.room hfs hmem (hfixed _ hmem hne)
    (hts.written e he)⟩

/-- A required field that is left out is reported as missing, if the others can be read. -/
theorem decode_without (h : f.Codes R W ok b) (hfs : fs.names.Nodup) (hbody : f.Holds items body)
    (hitems : fs.Lists v further (left :: items)) (hnew : fs.Undeclared further)
    (hdeep : ∀ m ∈ further, m.2.nesting ≤ 100) (hleft : left.name ∈ fs.names)
    (hrequired : left.schema.absent? = none) (hothers : ReadableBut R W b fs v left.name) :
    f.decode (.record fs) body = .error (.reading f (.missingField left.name)) := by
  obtain ⟨ts, hts, hdecode⟩ := h.readable_without hbody hitems hdeep
  rw [hdecode, hts.without hfs hitems hnew hleft hrequired hothers]
  rfl

/-- A field that may be left out is none then, and the others are as they were. -/
theorem decode_without_optional (h : f.Codes R W ok b) (hfs : fs.names.Nodup)
    (hwhole : f.Holds (fs.entries v) whole) (hbody : f.Holds items body)
    (hitems : fs.Lists v further (left :: items)) (hnew : fs.Undeclared further)
    (hdeep : ∀ m ∈ further, m.2.nesting ≤ 100) (hleft : left.name ∈ fs.names)
    {w w' : fs.Carrier} (hw : f.decode (.record fs) whole = .ok w)
    (hw' : fs.leaveOut left.name w = some w') : f.decode (.record fs) body = .ok w' := by
  obtain ⟨ts, hts, hdecode⟩ := h.readable_without hbody hitems hdeep
  obtain ⟨ts', hts', hdecode'⟩ := h.readable_whole hwhole
  have hread := exists_of_mapError_eq_ok (hdecode'.symm.trans hw)
  rw [hdecode, hts.without_optional hts' hfs hitems hnew hleft hread hw']
  rfl

/-- Where the whole is refused, so is the body without any field that has no doubles, and the
fault is not that this field is missing. -/
theorem decode_without_of_refuses (h : f.Codes R W ok b) (hfs : fs.Plain)
    (hwhole : f.Holds (fs.entries v) whole) (hbody : f.Holds items body)
    (hitems : fs.Lists v further (left :: items)) (hnew : fs.Undeclared further)
    (hdeep : ∀ m ∈ further, m.2.nesting ≤ 100) (hleft : left.name ∈ fs.names)
    (hfixed : left.schema.isFixed false = true) (hrefused : f.Refuses (.record fs) whole) :
    f.decode (.record fs) body = .error (.reading f .unreadable) := by
  obtain ⟨ts, hts, hdecode⟩ := h.readable_without hbody hitems hdeep
  obtain ⟨ts', hts', hdecode'⟩ := h.readable_whole hwhole
  rw [hdecode, Fields.readEntries,
    hts.without_of_error hts' h.faithful.weaken h.room hfs hitems hnew hleft hfixed ?_]
  · rfl
  · intro w hw
    rw [hw] at hdecode'
    exact hrefused.ne_ok w hdecode'

end Without

/-- A field that comes twice makes the body one that is refused. -/
theorem refuses_twice (h : f.Codes R W ok b) (hfs : fs.names.Nodup) (hbody : f.Holds items body)
    {again : RecordEntry} {others : List RecordEntry} (hitems : items.Perm (again :: others))
    (hothers : fs.Lists v further others) (hnew : fs.Undeclared further)
    (hdeep : ∀ m ∈ further, m.2.nesting ≤ 100) (hagain : again.name ∈ fs.names) :
    f.Refuses (.record fs) body := by
  have hmember : ∀ e ∈ items, e.name ∉ fs.names → ∃ m ∈ further, e = RecordEntry.ofMember m := by
    intro e he hname
    rcases List.mem_cons.1 (hitems.subset he) with rfl | hmem
    · exact absurd hagain hname
    · exact hothers.exists_member hmem hname
  obtain ⟨ts, hts, hdecode⟩ := h.readable hbody hdeep hmember
  refine refuses_of_forall_ne_ok fun w hw => ?_
  obtain ⟨r, hr, -⟩ := exists_of_bind_eq_ok (exists_of_mapError_eq_ok (hdecode.symm.trans hw))
  exact hts.twice hfs hitems hothers hnew hagain r hr

end Format.Codes
end Conneg
