import Conneg.Codec
import Conneg.Proofs.Json.Document
import Conneg.Proofs.Schema.Bodies

/-!
# A JSON body is read back

JSON is faithful, for what it writes of a scalar, a name or a key it also reads as
that (`faithful`), and all that it writes is printable (`within`). So a value that
is written as a tree is read back from the tree, and the tree is parsed back from
its text (`decode_encode`). That leaves out doubles, of which neither is said
here: the statements take those that are `ok`.

What a map has for keys is text in JSON. Numbers and booleans become the text of
their literals, and only lists have no form as a key.
-/

namespace Conneg.Json

open Wire

/-! ## Keys -/

theorem passes_print_ofInt (n : Int) : Quoting.Passes (Number.ofInt n).print := by
  refine Quoting.passes_of_forall fun b hb => ?_
  rcases Number.mem_print_ofInt hb with rfl | ⟨d, rfl⟩
  · decide
  · have hd := Number.toNat_digitByte d
    exact Quoting.plain_of_toNat (by omega) (by omega) (by omega)

theorem passes_boolBytes (b : Bool) : Quoting.Passes (boolBytes b) := by
  refine Quoting.passes_of_forall ?_
  cases b <;> simp [boolBytes]

theorem integerKey?_print (n : Integer .i64) :
    integerKey? (Number.ofInt n.val).print = some n := by
  have hscan := Number.scan_print (Number.spelled_ofInt n.val) Number.ends_nil
  rw [List.append_nil] at hscan
  have hlow : -2 ^ 63 ≤ n.val := n.low_le
  have hhigh : n.val ≤ 2 ^ 63 - 1 := n.le_high
  have hint := Number.toInt?_ofInt hlow (by omega)
  simp only [integerKey?, hscan, hint, Option.bind_some]
  exact n.ofInt?_val

theorem mapKey?_writeKey {k : KeyKind} {x : k.Carrier} {t : Node Atom}
    (h : writeKey k x = some t) : mapKey? k t = some x := by
  cases k with
  | text =>
    obtain rfl := Option.some.inj h
    exact Quoting.decode?_encode x
  | integer =>
    obtain rfl := Option.some.inj h
    exact integerKey?_print x
  | boolean =>
    obtain rfl := Option.some.inj h
    cases x <;> rfl
  | list => exact nomatch h

theorem isKey_writeKey {k : KeyKind} {x : k.Carrier} {t : Node Atom}
    (h : writeKey k x = some t) : IsKey t := by
  cases k with
  | text =>
    obtain rfl := Option.some.inj h
    exact ⟨_, rfl, Quoting.passes_encode x⟩
  | integer =>
    obtain rfl := Option.some.inj h
    exact ⟨_, rfl, passes_print_ofInt x.val⟩
  | boolean =>
    obtain rfl := Option.some.inj h
    exact ⟨_, rfl, passes_boolBytes x⟩
  | list => exact nomatch h

/-! ## The decisions of the format -/

/-- What is written of an integer of any type means it. -/
theorem meaning_ofInt {k : IntKind} {n : Int} (hlow : k.low ≤ n) (hhigh : n ≤ k.high) :
    (Number.ofInt n).meaning = .integer n := by
  have hint : (Number.ofInt n).toInt? = some n := by
    cases k <;>
    · simp only [IntKind.low, IntKind.high] at hlow hhigh
      exact Number.toInt?_ofInt (by omega) (by omega)
  simp only [Number.meaning, hint]

variable {ok : Binary64 → Prop}

theorem asText?_encode (s : String) : (Atom.text (Quoting.encode s)).asText? = some s :=
  Quoting.decode?_encode s

/-- A name is written as a text. -/
theorem eq_of_writeName {s : String} {x : Atom} (h : writeRules.name s = some x) :
    x = .text (Quoting.encode s) := (Option.some.inj h).symm

/-- JSON reads what it writes, given that it does so for doubles. -/
theorem faithful (hok : ∀ x, ok x → (writeRules.float x).meaning = .float x) :
    Faithful readRules writeRules ok where
  null := rfl
  bool _ := rfl
  integer h hlow hhigh := by
    obtain rfl := Option.some.inj h
    exact meaning_ofInt hlow hhigh
  float {x} hx := hok x hx
  text s := by simp only [readRules, rulesFor, writeRules, Atom.meaning, Quoting.decode?_encode]
  bareCase s := by simp only [readRules, rulesFor, writeRules, asText?_encode, Option.map_some]
  field {s x} h := by
    obtain rfl := eq_of_writeName h
    simp only [readRules, rulesFor, asText?_encode, Option.map_some]
  case {s x} h := by
    obtain rfl := eq_of_writeName h
    simp only [readRules, rulesFor, asText?_encode, Option.map_some]
  member {s x} h _ := by
    obtain rfl := eq_of_writeName h
    simp only [readRules, rulesFor, asText?_encode]
  mapKey := mapKey?_writeKey
  seq _ := rfl
  map _ := rfl

/-- All that JSON writes is printable, given that doubles are. -/
theorem within (hok : ∀ x, ok x → (writeRules.float x).Printable) :
    writeRules.Within ok Atom.Printable IsKey where
  null := trivial
  bool _ := trivial
  integer h _ _ := by
    obtain rfl := Option.some.inj h
    exact Number.spelled_ofInt _
  float {x} hx := hok x hx
  text := Quoting.passes_encode
  name {s x} h := ⟨Quoting.encode s, by rw [eq_of_writeName h], Quoting.passes_encode s⟩
  mapKey := isKey_writeKey

/-- JSON writes everything but the lists that are keys. -/
theorem total : writeRules.Total (· ≠ .list) where
  integer _ _ := ⟨_, rfl⟩
  name _ := ⟨_, rfl⟩
  mapKey k _ := by
    cases k with
    | list => exact iff_of_false (fun ⟨_, h⟩ => nomatch h) (fun h => h rfl)
    | _ => exact iff_of_true ⟨_, rfl⟩ (by decide)

/-! ## Documents -/

/-- A value can be encoded exactly if no list in it is a key and nothing in it is
read-only. -/
theorem exists_encode_iff (s : Schema) (v : s.Carrier) :
    (∃ bs, encode s v = some bs) ↔ s.Writable (· ≠ .list) v :=
  exists_map_iff.trans (Schema.exists_write_iff total s v)

/-- An encoded value is decoded, if it nests no deeper than a reader goes. -/
theorem decode_encode (hmeaning : ∀ x, ok x → (writeRules.float x).meaning = .float x)
    (hprint : ∀ x, ok x → (writeRules.float x).Printable) {s : Schema}
    (hs : s.isRegular = true) {v : s.Carrier} (hv : s.Proper ok v)
    (hdepth : ∀ t, s.write writeRules v = some t → t.depth ≤ 127) {bs : Bytes}
    (h : encode s v = some bs) : decode s bs = .ok v := by
  obtain ⟨t, ht, rfl⟩ := Option.map_eq_some_iff.1 h
  have hparse : parse (printNode t) = ⟨t, some []⟩ :=
    parse_printNode (Schema.write_sound (within hprint) s v (.inr hv) ht)
  have hbudget : Budget.Allows readRules.nesting t.depth := by
    intro m hm
    obtain rfl := Option.some.inj hm
    exact hdepth t ht
  have hread : s.read readRules readRules.nesting t = .ok v :=
    Schema.read_write (faithful hmeaning) s hs readRules.nesting v t hv ht hbudget
  simp only [decode, decodeBy, hparse, hread]
  rfl

/-- A value all of whose parts have a fixed type, and none is a double, is written and
decoded if it is writable. -/
theorem exists_decode_encode {s : Schema} (hs : s.isRegular = true)
    (hfixed : s.isFixed false = true) (hdepth : s.depth ≤ 127) {v : s.Carrier}
    (hv : s.Writable (· ≠ .list) v) : ∃ bs, encode s v = some bs ∧ decode s bs = .ok v := by
  have hproper : s.Proper (fun _ => False) v :=
    Schema.proper_of_isFixed (fun h => (Bool.false_ne_true h).elim) s hfixed v
  obtain ⟨bs, hbs⟩ := (exists_encode_iff s v).2 hv
  refine ⟨bs, hbs, decode_encode (fun _ => False.elim) (fun _ => False.elim) hs hproper ?_ hbs⟩
  intro t ht
  exact Nat.le_trans (Schema.write_depth_le s hfixed v ht) hdepth

end Conneg.Json

namespace Conneg

theorem Format.json_encode_eq_ok {s : Schema} {v : s.Carrier} {bs : Bytes} :
    Format.json.encode s v = .ok bs ↔ Json.encode s v = some bs := Format.encode_eq_ok

theorem Format.json_decode_eq_ok {s : Schema} {v : s.Carrier} {bs : Bytes} :
    Format.json.decode s bs = .ok v ↔ Json.decode s bs = .ok v := Format.decode_eq_ok

namespace Body

/-- Whether a body can be written and has no double in it. A value of no fixed type
must also repeat no key in an object, have no object that is led by the raw key, and
nest at most 127 deep. -/
def Exact : (body : Body) → body.schema.Carrier → Prop
  | .value => fun v => Any.Proper (fun _ => False) v ∧ Any.NoRawKey v ∧ Any.nesting v ≤ 127
  | .order | .float | .floatsByText | .failing => fun _ => False
  | _ => fun _ => True

/-- Whether a body is a map with lists for keys, and has an entry. -/
def KeyedByLists : (body : Body) → body.schema.Carrier → Prop
  | .textsByList => fun m => m.entries ≠ []
  | _ => fun _ => False

/-- A body without doubles is proper for a format that knows of none. -/
theorem Exact.proper {body : Body} {v : body.schema.Carrier} (h : body.Exact v) :
    body.schema.Proper (fun _ => False) v := by
  by_cases hvalue : body = .value
  · subst hvalue
    exact ⟨h.1, h.2.1⟩
  · -- every other body has fixed types, and then only types without doubles are left
    have hdoubles : body.hasDoubles = false := by
      cases body <;> first | exact absurd rfl hvalue | exact h.elim | rfl
    have hfixed : body.schema.isFixed false = true := by
      rw [← hdoubles]
      exact body.isFixed_schema hvalue
    exact Schema.proper_of_isFixed (fun hfalse => absurd hfalse Bool.false_ne_true) _ hfixed v

/-- A body without doubles nests at most 127 deep. -/
theorem Exact.depth_le {body : Body} {v : body.schema.Carrier} (h : body.Exact v)
    {t : Wire.Node Json.Atom} (ht : body.schema.write Json.writeRules v = some t) :
    t.depth ≤ 127 := by
  refine Body.NestsWithin.depth_le ?_ (by decide) ht
  cases body <;> first | exact h.2.2 | exact trivial

/-- A body that is not read-only can be written as JSON unless it has lists for keys. -/
theorem writable_iff_not_keyedByLists {body : Body} (hfailing : body ≠ .failing)
    (v : body.schema.Carrier) :
    body.schema.Writable (· ≠ .list) v ↔ ¬ body.KeyedByLists v := by
  by_cases hlist : body = .textsByList
  · subst hlist
    show (∀ e ∈ v.entries, KeyKind.list ≠ .list ∧ True) ↔ ¬ v.entries ≠ []
    rw [Decidable.not_not, List.eq_nil_iff_forall_not_mem]
    exact forall₂_congr fun e _ => ⟨fun h => h.1 rfl, False.elim⟩
  · have hkeys : ∀ k, body.keys? = some k → k ≠ .list := by
      rintro k hk rfl
      cases body <;> first | exact hlist rfl | exact nomatch hk
    have hnot : ¬ body.KeyedByLists v := by
      cases body <;> first | exact absurd rfl hlist | exact id
    exact iff_of_true (body.writable hfailing hkeys v) hnot

theorem Exact.writable_iff {body : Body} {v : body.schema.Carrier} (h : body.Exact v) :
    body.schema.Writable (· ≠ .list) v ↔ ¬ body.KeyedByLists v := by
  refine writable_iff_not_keyedByLists ?_ v
  rintro rfl
  exact h

/-- **JSON keeps every body that has no double in it.** It can be encoded, unless it
has lists for keys; and what it is encoded to is decoded to the same body, the order
of the keys included. -/
theorem json_roundTrip (body : Body) (v : body.schema.Carrier) (hv : body.Exact v) :
    ((∃ bs, Format.json.encode body.schema v = .ok bs) ↔ ¬ body.KeyedByLists v) ∧
      ∀ bs, Format.json.encode body.schema v = .ok bs →
        Format.json.decode body.schema bs = .ok v := by
  constructor
  · simp only [Format.json_encode_eq_ok]
    rw [Json.exists_encode_iff, hv.writable_iff]
  · intro bs hbs
    rw [Format.json_encode_eq_ok] at hbs
    rw [Format.json_decode_eq_ok]
    exact Json.decode_encode (fun _ => False.elim) (fun _ => False.elim) body.isRegular_schema
      hv.proper (fun t ht => hv.depth_le ht) hbs

/-- The least and the greatest integer, a quote and a control, under two keys that
are not in their alphabetical order. -/
theorem json_roundTrip_object :
    let v : Any := .object [("z", .list [.integer ⟨-2 ^ 63, by decide, by decide⟩,
      .integer ⟨2 ^ 64 - 1, by decide, by decide⟩]), ("\"", .text "\n")]
    Body.value.Exact v ∧ ¬ Body.value.KeyedByLists v ∧
      ∃ bs, Format.json.encode .any v = .ok bs ∧ Format.json.decode .any bs = .ok v := by
  intro v
  have hv : Body.value.Exact v := ⟨⟨by decide, ⟨trivial, trivial, trivial⟩, trivial, trivial⟩,
    ⟨by decide, ⟨trivial, trivial, trivial⟩, trivial, trivial⟩, by decide⟩
  obtain ⟨hencode, hdecode⟩ := json_roundTrip .value v hv
  obtain ⟨bs, hbs⟩ := hencode.2 id
  exact ⟨hv, id, bs, hbs, hdecode bs hbs⟩

end Body
end Conneg
