import Conneg.Proofs.Bson.RoundTrip

/-!
# What can be written as BSON

A value is encoded exactly if it is a document and BSON has a form for all that it holds
(`exists_encode_iff`). What has no form is a key with a NUL in it, a key that is no text, and
a number above the signed ones. A value of no fixed type can hide such a thing at any depth,
while the fixed body types leave few places for it: the keys of a map, the count of a receipt.

Nothing is written of a value that cannot be encoded, and there is only one error for it.
-/

namespace Conneg

namespace Bson

/-- A name can be a key unless a NUL is in it. -/
theorem exists_name_iff {s : String} :
    (∃ x, writeRules.name s = some x) ↔ '\x00' ∉ s.toList := by
  show (∃ x, writeName s = some x) ↔ _
  simp [writeName]

/-- So can a key of a map that is a text. -/
theorem exists_mapKey_text_iff {s : String} :
    (∃ t, writeRules.mapKey .text s = some t) ↔ '\x00' ∉ s.toList :=
  exists_map_iff.trans exists_name_iff

/-- An unsigned number has a form if it is a signed one too. -/
theorem exists_unsigned_iff {n : Int} :
    (∃ x, writeRules.integer .u64 n = some x) ↔ n < 2 ^ 63 := by
  show (∃ x, writeInteger .u64 n = some x) ↔ _
  simp [writeInteger]

/-- So has a number of a value without fixed type. -/
theorem exists_integer_iff {n : WideInt} :
    (∃ x, writeRules.integer (if n.val < 0 then .i64 else .u64) n.val = some x) ↔
      n.val ≤ 2 ^ 63 - 1 := by
  by_cases hneg : n.val < 0
  · rw [if_pos hneg]
    exact iff_of_true ⟨_, rfl⟩ (by omega)
  · rw [if_neg hneg, exists_unsigned_iff]
    omega

/-- A value of no fixed type has a form if no key of an object in it has a NUL and no number
in it is above the signed ones. -/
theorem hasForm_any_iff {v : Any} : v.HasForm writeRules ↔
    (∀ members, Any.Occurs (.object members) v → ∀ m ∈ members, '\x00' ∉ m.1.toList) ∧
      ∀ n, Any.Occurs (.integer n) v → n.val ≤ 2 ^ 63 - 1 := by
  constructor
  · intro h
    exact ⟨fun ms hms m hm => exists_name_iff.1 (h.name ms hms m hm),
      fun n hn => exists_integer_iff.1 (h.integer n hn)⟩
  · rintro ⟨hkeys, hnumbers⟩
    exact ⟨fun n hn => exists_integer_iff.2 (hnumbers n hn),
      fun ms hms m hm => exists_name_iff.2 (hkeys ms hms m hm)⟩

/-- A value is encoded exactly if it is a document and all that it holds has a form. -/
theorem exists_encode_iff (s : Schema) (v : s.Carrier) :
    (∃ bs, encode s v = some bs) ↔ s.IsDocument v ∧ s.HasForm writeRules v := by
  rw [← Schema.exists_write_map_iff]
  constructor
  · rintro ⟨bs, hbs⟩
    obtain ⟨es, hes, -⟩ := encode_eq_some hbs
    exact ⟨es, hes⟩
  · rintro ⟨es, hes⟩
    exact ⟨frame (printEntries es), by rw [encode, hes]⟩

end Bson

namespace Body

/-- Whether BSON can hold a body: an object without a NUL in any key or a number above the
signed ones, wherever they are in it; a map whose keys are texts without a NUL, or one
without entries; a receipt whose count is a signed number; a figure with content; any other
record. -/
def Representable : (body : Body) → body.schema.Carrier → Prop
  | .value => fun v => (∃ members, v = .object members) ∧
      (∀ members, Any.Occurs (.object members) v → ∀ m ∈ members, '\x00' ∉ m.1.toList) ∧
      ∀ n, Any.Occurs (.integer n) v → n.val ≤ 2 ^ 63 - 1
  | .integersByText => fun m => ∀ e ∈ m.entries, '\x00' ∉ e.1.toList
  | .floatsByText => fun m => ∀ e ∈ m.entries, '\x00' ∉ e.1.toList
  | .order | .greeting | .placedOrder | .drawing => fun _ => True
  | .receipt => fun (_, itemCount, _, ()) => itemCount.val < 2 ^ 63
  | .shape => fun v => v ≠ .inl ()
  | .textsByInteger => fun m => m.entries = []
  | .textsByBool => fun m => m.entries = []
  | .textsByList => fun m => m.entries = []
  | .failing | .bool | .integer _ | .float | .text | .unit | .optionalInteger | .integers
  | .pair => fun _ => False

/-- A figure has a form, with or without content. -/
theorem hasForm_figures (v : Samples.figures.Carrier) :
    Samples.figures.HasForm Bson.writeRules v := by
  rcases v with v | v | v | v | v
  · exact trivial
  · exact ⟨⟨_, rfl⟩, _, rfl⟩
  · exact ⟨⟨_, rfl⟩, ⟨_, rfl⟩, _, rfl⟩
  · exact ⟨⟨_, rfl⟩, ⟨_, rfl⟩, ⟨_, rfl⟩, ⟨_, rfl⟩, ⟨_, rfl⟩, trivial⟩
  · exact Empty.elim v

/-- Only the empty figure is without content. -/
theorem hasContent_figures (v : Samples.figures.Carrier) :
    Samples.figures.HasContent v ↔ v ≠ .inl () := by
  rcases v with v | v | v | v | v
  · exact iff_of_false (fun h => h rfl) (fun h => h rfl)
  · exact iff_of_true nofun nofun
  · exact iff_of_true nofun nofun
  · exact iff_of_true nofun nofun
  · exact Empty.elim v

/-- A map whose keys have no form is written only without entries. -/
theorem hasForm_map_iff_nil {k : KeyKind} {s : Schema} (m : (Schema.map k s).Carrier)
    (hk : ∀ x, Bson.writeRules.mapKey k x = none) :
    (Schema.map k s).HasForm Bson.writeRules m ↔ m.entries = [] := by
  rw [List.eq_nil_iff_forall_not_mem]
  refine forall₂_congr fun e _ => iff_of_false ?_ id
  rintro ⟨⟨t, ht⟩, -⟩
  rw [hk] at ht
  exact nomatch ht

/-- A map by texts is written if its keys have no NUL in them and its values have forms. -/
theorem hasForm_map_text_iff {s : Schema} (m : (Schema.map .text s).Carrier)
    (hs : ∀ x, s.HasForm Bson.writeRules x) :
    (Schema.map .text s).HasForm Bson.writeRules m ↔ ∀ e ∈ m.entries, '\x00' ∉ e.1.toList :=
  forall₂_congr fun e _ => (and_iff_left (hs e.2)).trans Bson.exists_mapKey_text_iff

/-- A body is a document that has a form exactly if it is representable. -/
theorem document_iff_representable (body : Body) (v : body.schema.Carrier) :
    body.schema.IsDocument v ∧ body.schema.HasForm Bson.writeRules v ↔ body.Representable v := by
  cases body with
  | value => exact and_congr_right fun _ => Bson.hasForm_any_iff
  -- the names of a record, and its signed numbers, have forms that are known
  | order =>
    exact iff_of_true ⟨trivial, ⟨_, rfl⟩, trivial, ⟨_, rfl⟩, ⟨_, rfl⟩, ⟨_, rfl⟩, trivial,
      ⟨_, rfl⟩, fun _ _ => trivial, ⟨_, rfl⟩, fun _ _ => trivial, ⟨_, rfl⟩,
      ⟨⟨_, rfl⟩, trivial, ⟨_, rfl⟩, trivial, trivial⟩, trivial⟩ trivial
  | greeting =>
    exact iff_of_true ⟨trivial, ⟨_, rfl⟩, trivial, ⟨_, rfl⟩, ⟨_, rfl⟩, trivial⟩ trivial
  | placedOrder =>
    exact iff_of_true ⟨trivial, ⟨_, rfl⟩, trivial, ⟨_, rfl⟩, fun _ _ => trivial, ⟨_, rfl⟩,
      ⟨_, rfl⟩, trivial⟩ trivial
  | drawing =>
    exact iff_of_true ⟨trivial, ⟨_, rfl⟩, trivial, ⟨_, rfl⟩, hasForm_figures v.2.1, trivial⟩
      trivial
  | receipt =>
    constructor
    · rintro ⟨-, -, -, -, hcount, -⟩
      exact Bson.exists_unsigned_iff.1 hcount
    · intro hcount
      exact ⟨trivial, ⟨_, rfl⟩, trivial, ⟨_, rfl⟩, Bson.exists_unsigned_iff.2 hcount, ⟨_, rfl⟩,
        ⟨_, rfl⟩, trivial⟩
  | shape => exact (and_iff_left (hasForm_figures v)).trans (hasContent_figures v)
  | integersByText =>
    exact (and_iff_right trivial).trans (hasForm_map_text_iff v fun _ => ⟨_, rfl⟩)
  | floatsByText => exact (and_iff_right trivial).trans (hasForm_map_text_iff v fun _ => trivial)
  | textsByInteger | textsByBool | textsByList =>
    exact (and_iff_right trivial).trans (hasForm_map_iff_nil v fun _ => rfl)
  | optionalInteger =>
    refine iff_of_false ?_ id
    rintro ⟨⟨x, -, hx⟩, -⟩
    exact hx
  | failing | bool | integer | float | text | unit | integers | pair =>
    exact iff_of_false And.left id

/-- **BSON encodes exactly what it can represent.** A value of no fixed type must be an object
that has no NUL in any key and no number above the signed ones, at any depth; each other body
has a condition of its own, which is always met by plain records and never by what is no
document. Where the condition is not met, encoding fails, and always with the one error of
writing BSON. -/
theorem bson_encodes_iff (body : Body) (v : body.schema.Carrier) :
    ((∃ bs, Format.bson.encode body.schema v = .ok bs) ↔ body.Representable v) ∧
      (Format.bson.encode body.schema v = .error (.writing .bson .unwritable) ↔
        ¬ body.Representable v) := by
  have hok : (∃ bs, Format.bson.encode body.schema v = .ok bs) ↔ body.Representable v := by
    rw [← document_iff_representable, ← Bson.exists_encode_iff]
    exact exists_congr fun _ => Format.encode_eq_ok
  refine ⟨hok, ?_⟩
  rw [← hok]
  cases hencode : Format.bson.encode body.schema v with
  | ok bs => exact iff_of_false nofun fun h => h ⟨bs, rfl⟩
  | error e =>
    obtain rfl := Format.encode_error hencode
    exact iff_of_true rfl fun ⟨_, h⟩ => nomatch h

/-- A number in a list inside an object, just above the signed ones. -/
example : Format.bson.encode .any (.object [("z", .object []),
    ("a", .list [.null, .integer ⟨2 ^ 63, by decide, by decide⟩])])
      = .error (.writing .bson .unwritable) := by rfl

end Body
end Conneg
