import Conneg.Proofs.Wire.ByName

/-!
# The entries of a record, one by one

An entry is a name and a value, of whatever schema. A list of entries is a record of its own:
the one that declares exactly these fields, in this order, and perhaps one of them twice. So
what is written of a list of entries is what a format writes of that record, and the entries of
a value make up the record that the value is of (`Fields.write_entries`).

What stands under a name in a written list is what was written of the entries so named
(`RecordEntry.write_namedAs`); among the entries of a value that is one tree for each field
(`under_entries`).
-/

namespace Conneg

open Wire

/-- A named value of some schema. -/
structure RecordEntry where
  name : String
  schema : Schema
  value : schema.Carrier

namespace RecordEntry

/-- The record that declares the fields of a list of entries. -/
def fields : List RecordEntry → Fields
  | [] => .nil
  | e :: items => .cons e.name e.schema (fields items)

/-- The value of that record with the values of the entries. -/
def values : (items : List RecordEntry) → (fields items).Carrier
  | [] => ()
  | e :: items => (e.value, values items)

end RecordEntry

/-- The entries of a value of a record, in their declared order. -/
def Fields.entries : (fs : Fields) → fs.Carrier → List RecordEntry
  | .nil, _ => []
  | .cons name s rest, v => ⟨name, s, v.1⟩ :: rest.entries v.2

variable {σ : Type} {R : ReadRules σ} {W : WriteRules σ} {ok : Binary64 → Prop}

/-- The entries of a value are written as the value is. -/
theorem Fields.write_entries (fs : Fields) (v : fs.Carrier) :
    (RecordEntry.fields (fs.entries v)).write W (RecordEntry.values (fs.entries v))
      = fs.write W v := by
  match fs with
  | .nil => rfl
  | .cons name s rest =>
    have hrest := rest.write_entries v.2
    simp only [Fields.entries, RecordEntry.fields, RecordEntry.values, Fields.write, hrest]

theorem Fields.mem_entries (fs : Fields) {v : fs.Carrier} {e : RecordEntry} (h : e ∈ fs.entries v) :
    (e.name, e.schema) ∈ fs.toList := by
  match fs with
  | .nil => exact nomatch h
  | .cons name s rest =>
    rcases List.mem_cons.1 h with rfl | h
    · exact List.mem_cons_self
    · exact List.mem_cons_of_mem _ (rest.mem_entries h)

theorem Fields.exists_entry (fs : Fields) (v : fs.Carrier) {name : String} {s : Schema}
    (h : (name, s) ∈ fs.toList) : ∃ x, RecordEntry.mk name s x ∈ fs.entries v := by
  match fs with
  | .nil => exact nomatch h
  | .cons name' s' rest =>
    rcases List.mem_cons.1 h with heq | h
    · obtain ⟨rfl, rfl⟩ := Prod.mk.inj heq
      exact ⟨v.1, List.mem_cons_self⟩
    · obtain ⟨x, hx⟩ := rest.exists_entry v.2 h
      exact ⟨x, List.mem_cons_of_mem _ hx⟩

/-! ## Written entries -/

/-- The tree that is written of an entry's value. -/
def RecordEntry.tree (W : WriteRules σ) (e : RecordEntry) : Node σ :=
  (e.schema.write W e.value).getD .broken

/-- The tree of an entry with its name. -/
def RecordEntry.named (W : WriteRules σ) (e : RecordEntry) : String × Node σ := (e.name, e.tree W)

/-- A written list of entries has a tree for each, under its name. -/
theorem RecordEntry.write_namedAs (h : Faithful R W ok) (items : List RecordEntry) {ts : Entries σ}
    (hts : (fields items).write W (values items) = some ts) :
    ts.NamedAs R (items.map (named W)) ∧
      ∀ e ∈ items, e.schema.write W e.value = some (e.tree W) := by
  induction items generalizing ts with
  | nil =>
    obtain rfl := Option.some.inj hts
    exact ⟨trivial, nofun⟩
  | cons e items ih =>
    obtain ⟨key, t, ts', hkey, ht, hts', rfl⟩ := Fields.write_cons hts
    have htree : e.schema.write W e.value = some (e.tree W) := by
      rw [tree, show e.schema.write W e.value = some t from ht]
      rfl
    have hsame : t = e.tree W := Option.some.inj (ht.symm.trans htree)
    obtain ⟨hnamed, hwritten⟩ := ih hts'
    exact ⟨⟨⟨key, rfl, h.field hkey⟩, hsame, hnamed⟩,
      List.forall_mem_cons.2 ⟨htree, hwritten⟩⟩

/-- Under a name that no entry has there is nothing. -/
theorem RecordEntry.under_named_eq_nil {items : List RecordEntry} {name : String} :
    under name (items.map (named W)) = [] ↔ ∀ e ∈ items, e.name ≠ name := by
  rw [under_eq_nil, List.forall_mem_map]
  rfl

/-- Under a field's name there is the tree of the field's value. -/
theorem Fields.under_entries (fs : Fields) (hfs : fs.names.Nodup) {v : fs.Carrier} {e : RecordEntry}
    (he : e ∈ fs.entries v) :
    under e.name ((fs.entries v).map (RecordEntry.named W)) = [e.tree W] := by
  match fs with
  | .nil => exact nomatch he
  | .cons name s rest =>
    obtain ⟨hname, hnames⟩ := List.nodup_cons.1 hfs
    have hmem : ∀ e' ∈ rest.entries v.2, e'.name ∈ rest.names := fun e' he' =>
      Fields.mem_names.2 ⟨e'.schema, rest.mem_entries he'⟩
    rw [Fields.entries, List.map_cons]
    rcases List.mem_cons.1 he with rfl | he
    · -- no other field has the name of the first
      have hothers : under name ((rest.entries v.2).map (RecordEntry.named W)) = [] := by
        rw [RecordEntry.under_named_eq_nil]
        rintro e' he' rfl
        exact hname (hmem e' he')
      have hfirst : (RecordEntry.named W ⟨name, s, v.1⟩).1 = name := rfl
      show under name (_ :: _) = _
      rw [under_cons_self hfirst, hothers]
      rfl
    · have hne : (RecordEntry.named W ⟨name, s, v.1⟩).1 ≠ e.name := by
        rintro rfl
        exact hname (hmem e he)
      rw [under_cons_ne hne, rest.under_entries hnames he]

/-- Every field of a value is given once by its entries. -/
theorem Fields.exists_under (fs : Fields) (hfs : fs.names.Nodup) (v : fs.Carrier) {name : String}
    (hname : name ∈ fs.names) : ∃ e ∈ fs.entries v, e.name = name ∧
      under name ((fs.entries v).map (RecordEntry.named W)) = [e.tree W] := by
  obtain ⟨s, hs⟩ := Fields.mem_names.1 hname
  obtain ⟨x, hx⟩ := fs.exists_entry v hs
  exact ⟨_, hx, rfl, fs.under_entries hfs hx⟩

theorem Fields.under_entries_ne_nil (fs : Fields) (hfs : fs.names.Nodup) (v : fs.Carrier)
    {name : String} (hname : name ∈ fs.names) :
    under name ((fs.entries v).map (RecordEntry.named W)) ≠ [] := by
  obtain ⟨e, -, -, hone⟩ := fs.exists_under hfs v hname (W := W)
  rw [hone]
  exact List.cons_ne_nil _ _

/-! ## Values that are passed over -/

mutual

/-- A written value of no fixed type is whole, within a budget for its depth. -/
theorem Any.write_whole (v : Any) {t : Node σ} (ht : v.write W = some t) {b : Budget}
    (hb : b.Allows t.depth) : t.whole b = true := by
  cases v with
  | null | bool | float | text =>
    obtain rfl := Option.some.inj ht
    rfl
  | integer n =>
    obtain ⟨x, -, rfl⟩ := Option.map_eq_some_iff.1 ht
    rfl
  | list xs =>
    obtain ⟨ts, hts, rfl⟩ := Option.map_eq_some_iff.1 ht
    obtain ⟨b', hb', hallows⟩ := Budget.Allows.enter hb
    simp only [Node.whole, hb']
    exact Any.writeItems_whole xs hts hallows
  | object members =>
    obtain ⟨es, hes, rfl⟩ := Option.map_eq_some_iff.1 ht
    obtain ⟨b', hb', hallows⟩ := Budget.Allows.enter hb
    simp only [Node.whole, hb']
    exact Any.writeMembers_whole members hes hallows

theorem Any.writeItems_whole (xs : List Any) {ts : Items σ} (hts : Any.writeItems W xs = some ts)
    {b : Budget} (hb : b.Allows ts.depth) : ts.whole b = true := by
  cases xs with
  | nil =>
    obtain rfl := Option.some.inj hts
    rfl
  | cons x xs =>
    obtain ⟨t, ts', ht, hts', rfl⟩ := Any.writeItems_cons hts
    have hx := Any.write_whole x ht (hb.of_le (Nat.le_max_left _ _))
    have hxs := Any.writeItems_whole xs hts' (hb.of_le (Nat.le_max_right _ _))
    simp only [Items.whole, hx, hxs, Bool.and_self]

theorem Any.writeMembers_whole (members : List (String × Any)) {es : Entries σ}
    (hes : Any.writeMembers W members = some es) {b : Budget} (hb : b.Allows es.depth) :
    es.whole b = true := by
  match members with
  | [] =>
    obtain rfl := Option.some.inj hes
    rfl
  | (k, x) :: members =>
    obtain ⟨key, t, es', -, ht, hes', rfl⟩ := Any.writeMembers_cons hes
    have hx := Any.write_whole x ht (hb.of_le (Nat.le_max_left _ _))
    have hrest := Any.writeMembers_whole members hes' (hb.of_le (Nat.le_max_right _ _))
    simp only [Entries.whole, Node.whole, hx, hrest, Bool.and_self]

end

end Conneg
