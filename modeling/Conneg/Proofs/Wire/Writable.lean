import Conneg.Proofs.Wire.Written

/-!
# What can be written

A value can be written exactly if the format has a form for all that it holds: for each
number, each key of its maps and each name (`Schema.exists_write_iff_hasForm`). In a value of
no fixed type these may sit at any depth, so there they are said of whatever occurs in it
(`Any.exists_write_iff`). One thing without a form is enough for nothing to be written.

A format may have bodies only for documents. Whether a value is one shows in its first
constructor, and exactly then it is written as a map (`Schema.exists_write_map_iff`).

A format that has forms for every number and every name leaves little to ask. There a value
can be written if nothing in it is read-only and its maps have keys of the right kinds
(`Schema.exists_write_iff`).
-/

namespace Conneg

open Wire

variable {σ : Type} {W : WriteRules σ}

/-! ## Values of no fixed type -/

/-- Whether a value is another one or lies in it, at any depth. -/
inductive Any.Occurs (x : Any) : Any → Prop
  | here : Occurs x x
  | item {xs : List Any} {y : Any} (hy : y ∈ xs) (h : Occurs x y) : Occurs x (.list xs)
  | member {members : List (String × Any)} {m : String × Any} (hm : m ∈ members)
      (h : Occurs x m.2) : Occurs x (.object members)

/-- Whether a format has a form for every number in a value and for every key of the objects
in it. -/
structure Any.HasForm (W : WriteRules σ) (v : Any) : Prop where
  integer : ∀ n, Any.Occurs (.integer n) v →
    ∃ x, W.integer (if n.val < 0 then .i64 else .u64) n.val = some x
  name : ∀ members, Any.Occurs (.object members) v → ∀ m ∈ members, ∃ x, W.name m.1 = some x

namespace Any

theorem hasForm_integer {n : WideInt} : (Any.integer n).HasForm W ↔
    ∃ x, W.integer (if n.val < 0 then .i64 else .u64) n.val = some x := by
  constructor
  · intro h
    exact h.integer n .here
  · intro h
    refine ⟨fun m hm => ?_, fun _ hmembers => nomatch hmembers⟩
    cases hm
    exact h

/-- A list has a form if its items have. -/
theorem hasForm_list {xs : List Any} : (Any.list xs).HasForm W ↔ ∀ x ∈ xs, x.HasForm W := by
  constructor
  · intro h x hx
    exact ⟨fun n hn => h.integer n (.item hx hn), fun ms hms => h.name ms (.item hx hms)⟩
  · intro h
    refine ⟨fun n hn => ?_, fun ms hms => ?_⟩
    · cases hn with
      | item hx hn => exact (h _ hx).integer n hn
    · cases hms with
      | item hx hms => exact (h _ hx).name ms hms

/-- An object has a form if its keys and their values have. -/
theorem hasForm_object {members : List (String × Any)} : (Any.object members).HasForm W ↔
    ∀ m ∈ members, (∃ x, W.name m.1 = some x) ∧ m.2.HasForm W := by
  constructor
  · intro h m hm
    exact ⟨h.name members .here m hm, fun n hn => h.integer n (.member hm hn),
      fun ms hms => h.name ms (.member hm hms)⟩
  · intro h
    refine ⟨fun n hn => ?_, fun ms hms => ?_⟩
    · cases hn with
      | member hm hn => exact (h _ hm).2.integer n hn
    · cases hms with
      | here => exact fun m hm => (h m hm).1
      | member hm hms => exact (h _ hm).2.name ms hms

theorem exists_writeItems_iff {xs : List Any} :
    (∃ ts, writeItems W xs = some ts) ↔ ∀ x ∈ xs, ∃ t, x.write W = some t := by
  induction xs with
  | nil => simp [writeItems]
  | cons x xs ih =>
    rw [List.forall_mem_cons, ← ih]
    exact exists_bind_pair_iff

theorem exists_writeMembers_iff {members : List (String × Any)} :
    (∃ es, writeMembers W members = some es) ↔
      ∀ m ∈ members, (∃ x, W.name m.1 = some x) ∧ ∃ t, m.2.write W = some t := by
  induction members with
  | nil => simp [writeMembers]
  | cons m members ih =>
    rw [List.forall_mem_cons, ← ih, and_assoc]
    exact exists_bind_three_iff

/-- The value of a member is smaller than all members. -/
theorem sizeOf_member_lt {m : String × Any} {members : List (String × Any)} (hm : m ∈ members) :
    sizeOf m.2 < sizeOf members := by
  have hmember := List.sizeOf_lt_of_mem hm
  obtain ⟨k, x⟩ := m
  rw [Prod.mk.sizeOf_spec] at hmember
  show sizeOf x < sizeOf members
  omega

/-- A value of no fixed type can be written exactly if all that occurs in it has a form. -/
theorem exists_write_iff (v : Any) : (∃ t, v.write W = some t) ↔ v.HasForm W := by
  cases v with
  | null | bool | float | text =>
    exact iff_of_true ⟨_, rfl⟩ ⟨fun _ hn => (nomatch hn), fun _ hms => (nomatch hms)⟩
  | integer n => exact exists_map_iff.trans hasForm_integer.symm
  | list xs =>
    rw [hasForm_list]
    refine exists_map_iff.trans (exists_writeItems_iff.trans ?_)
    exact forall₂_congr fun x _ => exists_write_iff x
  | object members =>
    rw [hasForm_object]
    refine exists_map_iff.trans (exists_writeMembers_iff.trans ?_)
    refine forall₂_congr fun m hm => and_congr_right fun _ => ?_
    have hsize := sizeOf_member_lt hm
    exact exists_write_iff m.2
termination_by sizeOf v

end Any

/-! ## Values of a schema -/

mutual

/-- Whether a format has a form for all that a value of a schema holds. -/
def Schema.HasForm (W : WriteRules σ) : (s : Schema) → s.Carrier → Prop
  | .any => fun v => v.HasForm W
  | .integer k => fun v => ∃ x, W.integer k v.val = some x
  | .bool | .float | .text | .unit => fun _ => True
  | .optional s => fun v => ∀ x, v = some x → s.HasForm W x
  | .list s => fun v => ∀ x ∈ v, s.HasForm W x
  | .pair a c => fun v => a.HasForm W v.1 ∧ c.HasForm W v.2
  | .map _ s => fun v => ∀ e ∈ v.entries, (∃ t, W.mapKey _ e.1 = some t) ∧ s.HasForm W e.2
  | .record fs => fun v => fs.HasForm W v
  | .choice cs => fun v => cs.HasForm W v
  | .readOnly _ => fun _ => False

/-- The same for the fields of a record, with their names. -/
def Fields.HasForm (W : WriteRules σ) : (fs : Fields) → fs.Carrier → Prop
  | .nil => fun _ => True
  | .cons name s rest => fun v =>
    (∃ key, W.name name = some key) ∧ s.HasForm W v.1 ∧ rest.HasForm W v.2

/-- The same for a choice. -/
def Cases.HasForm (W : WriteRules σ) : (cs : Cases) → cs.Carrier → Prop
  | .nil => fun _ => True
  | .cons name c rest => fun v =>
    match v with
    | .inl x => c.HasForm W name x
    | .inr y => rest.HasForm W y

/-- The same for the content of a case with this name. Without content, the name is not a
key. -/
def Content.HasForm (W : WriteRules σ) : (c : Content) → String → c.Carrier → Prop
  | .unit => fun _ _ => True
  | .value s => fun name v => (∃ key, W.name name = some key) ∧ s.HasForm W v
  | .pair a c => fun name v =>
    (∃ key, W.name name = some key) ∧ a.HasForm W v.1 ∧ c.HasForm W v.2
  | .record fs => fun name v => (∃ key, W.name name = some key) ∧ fs.HasForm W v

end

mutual

/-- A value can be written exactly if the format has a form for all that it holds. -/
theorem Schema.exists_write_iff_hasForm (s : Schema) (v : s.Carrier) :
    (∃ t, s.write W v = some t) ↔ s.HasForm W v := by
  cases s with
  | any => exact Any.exists_write_iff v
  | bool | float | text | unit => exact iff_of_true ⟨_, rfl⟩ trivial
  | integer k => exact exists_map_iff
  | optional s =>
    match v with
    | none => exact iff_of_true ⟨_, rfl⟩ fun x hx => nomatch hx
    | some x =>
      show (∃ t, s.write W x = some t) ↔ ∀ y, some x = some y → s.HasForm W y
      rw [Schema.exists_write_iff_hasForm s x]
      simp
  | list s =>
    refine exists_map_iff.trans (exists_mapM_iff.trans ?_)
    exact forall₂_congr fun x _ => Schema.exists_write_iff_hasForm s x
  | pair a c =>
    refine exists_bind_pair_iff.trans (and_congr ?_ ?_)
    · exact Schema.exists_write_iff_hasForm a v.1
    · exact Schema.exists_write_iff_hasForm c v.2
  | map k s =>
    refine exists_map_iff.trans (exists_mapM_iff.trans (forall₂_congr fun e _ => ?_))
    refine exists_bind_pair_iff.trans (and_congr_right fun _ => ?_)
    exact Schema.exists_write_iff_hasForm s e.2
  | record fs => exact exists_map_iff.trans (Fields.exists_write_iff_hasForm fs v)
  | choice cs => exact Cases.exists_write_iff_hasForm cs v
  | readOnly s => exact iff_of_false (fun ⟨_, ht⟩ => nomatch ht) id

theorem Fields.exists_write_iff_hasForm (fs : Fields) (v : fs.Carrier) :
    (∃ es, fs.write W v = some es) ↔ fs.HasForm W v := by
  cases fs with
  | nil => exact iff_of_true ⟨_, rfl⟩ trivial
  | cons name s rest =>
    refine exists_bind_three_iff.trans (and_congr_right fun _ => and_congr ?_ ?_)
    · exact Schema.exists_write_iff_hasForm s v.1
    · exact Fields.exists_write_iff_hasForm rest v.2

theorem Cases.exists_write_iff_hasForm (cs : Cases) (v : cs.Carrier) :
    (∃ t, cs.write W v = some t) ↔ cs.HasForm W v := by
  cases cs with
  | nil => exact nomatch v
  | cons name c rest =>
    match v with
    | .inl x => exact Content.exists_write_iff_hasForm c name x
    | .inr y => exact Cases.exists_write_iff_hasForm rest y

theorem Content.exists_write_iff_hasForm (c : Content) (name : String) (v : c.Carrier) :
    (∃ t, c.write W name v = some t) ↔ c.HasForm W name v := by
  cases c with
  | unit => exact iff_of_true ⟨_, rfl⟩ trivial
  | value s =>
    refine exists_bind_pair_iff.trans (and_congr_right fun _ => ?_)
    exact Schema.exists_write_iff_hasForm s v
  | pair a c =>
    refine exists_bind_three_iff.trans (and_congr_right fun _ => and_congr ?_ ?_)
    · exact Schema.exists_write_iff_hasForm a v.1
    · exact Schema.exists_write_iff_hasForm c v.2
  | record fs =>
    refine exists_bind_pair_iff.trans (and_congr_right fun _ => ?_)
    exact Fields.exists_write_iff_hasForm fs v

end

/-! ## Documents -/

/-- Whether a case of a choice carries anything. -/
def Cases.HasContent : (cs : Cases) → cs.Carrier → Prop
  | .nil => fun v => nomatch v
  | .cons _ c rest => fun v =>
    match v with
    | .inl _ => c ≠ .unit
    | .inr y => rest.HasContent y

/-- Whether a value of a schema is a document: an object, a map, a record, or a case with
content. -/
def Schema.IsDocument : (s : Schema) → s.Carrier → Prop
  | .any => fun v => ∃ members, v = .object members
  | .map _ _ | .record _ => fun _ => True
  | .optional s => fun v => ∃ x, v = some x ∧ s.IsDocument x
  | .choice cs => fun v => cs.HasContent v
  | .bool | .integer _ | .float | .text | .unit | .list _ | .pair _ _ | .readOnly _ =>
    fun _ => False

theorem Any.isMap_of_write {v : Any} {t : Node σ} (ht : v.write W = some t) :
    (∃ es, t = .map es) ↔ ∃ members, v = .object members := by
  cases v with
  | null | bool | float | text =>
    obtain rfl := Option.some.inj ht
    simp
  | integer | list =>
    obtain ⟨x, -, rfl⟩ := Option.map_eq_some_iff.1 ht
    simp
  | object members =>
    obtain ⟨es, -, rfl⟩ := Option.map_eq_some_iff.1 ht
    simp

theorem Content.isMap_of_write {c : Content} {name : String} {v : c.Carrier} {t : Node σ}
    (ht : c.write W name v = some t) : (∃ es, t = .map es) ↔ c ≠ .unit := by
  cases c with
  | unit =>
    obtain rfl := Option.some.inj ht
    simp
  | value s =>
    obtain ⟨key, u, -, -, rfl⟩ := Content.write_value ht
    simp
  | pair a c =>
    obtain ⟨key, t₁, t₂, -, -, -, rfl⟩ := Content.write_pair ht
    simp
  | record fs =>
    obtain ⟨key, es, -, -, rfl⟩ := Content.write_record ht
    simp

theorem Cases.isMap_of_write (cs : Cases) (v : cs.Carrier) {t : Node σ}
    (ht : cs.write W v = some t) : (∃ es, t = .map es) ↔ cs.HasContent v := by
  cases cs with
  | nil => cases v
  | cons name c rest =>
    cases v with
    | inl x => exact Content.isMap_of_write ht
    | inr y => exact Cases.isMap_of_write rest y ht

/-- What is written of a value is a map exactly if the value is a document. -/
theorem Schema.isMap_of_write (s : Schema) (v : s.Carrier) {t : Node σ}
    (ht : s.write W v = some t) : (∃ es, t = .map es) ↔ s.IsDocument v := by
  cases s with
  | any => exact Any.isMap_of_write ht
  | bool | float | text | unit =>
    obtain rfl := Option.some.inj ht
    simp [Schema.IsDocument]
  | integer | list =>
    obtain ⟨x, -, rfl⟩ := Option.map_eq_some_iff.1 ht
    simp [Schema.IsDocument]
  | optional s =>
    cases v with
    | none =>
      obtain rfl := Option.some.inj ht
      simp [Schema.IsDocument]
    | some x =>
      refine (Schema.isMap_of_write s x ht).trans ?_
      simp [Schema.IsDocument]
  | pair a c =>
    obtain ⟨t₁, t₂, -, -, rfl⟩ := Schema.write_pair ht
    simp [Schema.IsDocument]
  | map | record =>
    obtain ⟨es, -, rfl⟩ := Option.map_eq_some_iff.1 ht
    exact iff_of_true ⟨_, rfl⟩ trivial
  | choice cs => exact Cases.isMap_of_write cs v ht
  | readOnly => cases ht

/-- A value is written as a map exactly if it is a document and all that it holds has a
form. -/
theorem Schema.exists_write_map_iff (s : Schema) (v : s.Carrier) :
    (∃ es, s.write W v = some (.map es)) ↔ s.IsDocument v ∧ s.HasForm W v := by
  rw [← Schema.exists_write_iff_hasForm]
  constructor
  · rintro ⟨es, hes⟩
    exact ⟨(Schema.isMap_of_write s v hes).1 ⟨es, rfl⟩, _, hes⟩
  · rintro ⟨hdocument, t, ht⟩
    obtain ⟨es, rfl⟩ := (Schema.isMap_of_write s v ht).2 hdocument
    exact ⟨es, ht⟩

/-! ## Formats with a form for every number and every name -/

/-- A format writes every number and every name, and the keys of these kinds. -/
structure Wire.WriteRules.Total (W : WriteRules σ) (keys : KeyKind → Prop) : Prop where
  integer : ∀ {k : IntKind} {n : Int}, k.low ≤ n → n ≤ k.high → ∃ x, W.integer k n = some x
  name : ∀ s, ∃ x, W.name s = some x
  mapKey : ∀ (k : KeyKind) (x : k.Carrier), (∃ t, W.mapKey k x = some t) ↔ keys k

mutual

/-- Whether nothing in a value is read-only, and its maps have keys of these kinds
only. -/
def Schema.Writable (keys : KeyKind → Prop) : (s : Schema) → s.Carrier → Prop
  | .any | .bool | .integer _ | .float | .text | .unit => fun _ => True
  | .optional s => fun v => ∀ x, v = some x → s.Writable keys x
  | .list s => fun v => ∀ x ∈ v, s.Writable keys x
  | .pair a c => fun v => a.Writable keys v.1 ∧ c.Writable keys v.2
  | .map k s => fun v => ∀ e ∈ v.entries, keys k ∧ s.Writable keys e.2
  | .record fs => fun v => fs.Writable keys v
  | .choice cs => fun v => cs.Writable keys v
  | .readOnly _ => fun _ => False

/-- The same for the fields of a record. -/
def Fields.Writable (keys : KeyKind → Prop) : (fs : Fields) → fs.Carrier → Prop
  | .nil => fun _ => True
  | .cons _ s rest => fun v => s.Writable keys v.1 ∧ rest.Writable keys v.2

/-- The same for a choice. -/
def Cases.Writable (keys : KeyKind → Prop) : (cs : Cases) → cs.Carrier → Prop
  | .nil => fun _ => True
  | .cons _ c rest => fun v =>
    match v with
    | .inl x => c.Writable keys x
    | .inr y => rest.Writable keys y

/-- The same for the content of a case. -/
def Content.Writable (keys : KeyKind → Prop) : (c : Content) → c.Carrier → Prop
  | .unit => fun _ => True
  | .value s => fun v => s.Writable keys v
  | .pair a c => fun v => a.Writable keys v.1 ∧ c.Writable keys v.2
  | .record fs => fun v => fs.Writable keys v

end

variable {keys : KeyKind → Prop}

/-- In such a format every value of no fixed type has a form. -/
theorem Any.hasForm_of_total (h : W.Total keys) (v : Any) : v.HasForm W where
  integer n _ := h.integer n.mem_kind.1 n.mem_kind.2
  name _ _ m _ := h.name m.1

mutual

/-- What has a form there is what has keys of the right kinds and nothing read-only. -/
theorem Schema.hasForm_iff_writable (h : W.Total keys) (s : Schema) (v : s.Carrier) :
    s.HasForm W v ↔ s.Writable keys v := by
  cases s with
  | any => exact iff_of_true (Any.hasForm_of_total h v) trivial
  | bool | float | text | unit => exact Iff.rfl
  | integer k => exact iff_of_true (h.integer v.low_le v.le_high) trivial
  | optional s => exact forall₂_congr fun x _ => Schema.hasForm_iff_writable h s x
  | list s => exact forall₂_congr fun x _ => Schema.hasForm_iff_writable h s x
  | pair a c =>
    exact and_congr (Schema.hasForm_iff_writable h a v.1) (Schema.hasForm_iff_writable h c v.2)
  | map k s =>
    exact forall₂_congr fun e _ =>
      and_congr (h.mapKey k e.1) (Schema.hasForm_iff_writable h s e.2)
  | record fs => exact Fields.hasForm_iff_writable h fs v
  | choice cs => exact Cases.hasForm_iff_writable h cs v
  | readOnly s => exact Iff.rfl

theorem Fields.hasForm_iff_writable (h : W.Total keys) (fs : Fields) (v : fs.Carrier) :
    fs.HasForm W v ↔ fs.Writable keys v := by
  cases fs with
  | nil => exact Iff.rfl
  | cons name s rest =>
    refine (and_iff_right (h.name name)).trans (and_congr ?_ ?_)
    · exact Schema.hasForm_iff_writable h s v.1
    · exact Fields.hasForm_iff_writable h rest v.2

theorem Cases.hasForm_iff_writable (h : W.Total keys) (cs : Cases) (v : cs.Carrier) :
    cs.HasForm W v ↔ cs.Writable keys v := by
  cases cs with
  | nil => exact nomatch v
  | cons name c rest =>
    match v with
    | .inl x => exact Content.hasForm_iff_writable h c name x
    | .inr y => exact Cases.hasForm_iff_writable h rest y

theorem Content.hasForm_iff_writable (h : W.Total keys) (c : Content) (name : String)
    (v : c.Carrier) : c.HasForm W name v ↔ c.Writable keys v := by
  cases c with
  | unit => exact Iff.rfl
  | value s =>
    exact (and_iff_right (h.name name)).trans (Schema.hasForm_iff_writable h s v)
  | pair a c =>
    refine (and_iff_right (h.name name)).trans (and_congr ?_ ?_)
    · exact Schema.hasForm_iff_writable h a v.1
    · exact Schema.hasForm_iff_writable h c v.2
  | record fs =>
    exact (and_iff_right (h.name name)).trans (Fields.hasForm_iff_writable h fs v)

end

/-- A value can be written there exactly if nothing in it is read-only and all keys of its
maps are of the kinds that the format has. -/
theorem Schema.exists_write_iff (h : W.Total keys) (s : Schema) (v : s.Carrier) :
    (∃ t, s.write W v = some t) ↔ s.Writable keys v :=
  (Schema.exists_write_iff_hasForm s v).trans (Schema.hasForm_iff_writable h s v)

end Conneg
