import Conneg.Proofs.Wire.Entries
import Mathlib.Data.List.Nodup

/-!
# Records whose entries were moved, left out or repeated

The entries of a written record may come in any order and stand among entries that are no
field's: it is read as it is in its own order (`Readable.reordered`). A field that is left out is
missing, unless it is one that may be left out (`Readable.without`,
`Readable.without_optional`), and one that comes twice is never read (`Readable.twice`).

Nothing is said here of whether the fields can be read. A format may write a double that it does
not read, and then no order helps; what matters is that such a field has one fault only, the same
wherever it stands (`RecordEntry.read_error`). It is that fault which is reported, and not that
another field is missing (`Readable.without_of_error`).
-/

namespace Conneg

open Wire

variable {σ : Type} {R : ReadRules σ} {W : WriteRules σ} {b : Budget} {fs : Fields}
  {v : fs.Carrier}

/-- Whether the fields of a record have different names and fixed types that nest at most 100
deep, and no doubles in them but those that are fields themselves. -/
structure Fields.Plain (fs : Fields) : Prop where
  nodup : fs.names.Nodup
  regular : ∀ f ∈ fs.toList, f.2.isRegular = true
  shallow : ∀ f ∈ fs.toList, f.2.depth ≤ 100
  fixed : ∀ f ∈ fs.toList, f.2 = .float ∨ f.2.isFixed false = true

/-- The entry of a member of an object. -/
def RecordEntry.ofMember (m : String × Any) : RecordEntry := ⟨m.1, .any, m.2⟩

/-- Whether some members are no fields of a record. -/
def Fields.Undeclared (fs : Fields) (further : List (String × Any)) : Prop :=
  ∀ m ∈ further, m.1 ∉ fs.names

/-- Whether entries are those of a value and further ones, in any order. -/
def Fields.Lists (fs : Fields) (v : fs.Carrier) (further : List (String × Any))
    (items : List RecordEntry) : Prop :=
  items.Perm (fs.entries v ++ further.map RecordEntry.ofMember)

/-! ## One entry -/

section RecordEntry

variable {e : RecordEntry}

/-- What is written of an entry without doubles is read back. -/
theorem RecordEntry.read_tree (h : Faithful R W fun _ => False) (hb : b.Allows 100) (hfs : fs.Plain)
    (hmem : (e.name, e.schema) ∈ fs.toList) (hfixed : e.schema.isFixed false = true)
    (ht : e.schema.write W e.value = some (e.tree W)) :
    e.schema.read R b (e.tree W) = .ok e.value := by
  have hproper : e.schema.Proper (fun _ => False) e.value :=
    Schema.proper_of_isFixed (fun hfalse => absurd hfalse Bool.false_ne_true) _ hfixed _
  have hdepth : (e.tree W).depth ≤ 100 :=
    Nat.le_trans (Schema.write_depth_le _ hfixed _ ht) (hfs.shallow _ hmem)
  exact Schema.read_write h _ (hfs.regular _ hmem) b _ _ hproper ht (hb.of_le hdepth)

/-- What is written of a field has one fault at most when it is read. -/
theorem RecordEntry.read_error (h : Faithful R W fun _ => False) (hb : b.Allows 100)
    (hfs : fs.Plain) (hmem : (e.name, e.schema) ∈ fs.toList)
    (ht : e.schema.write W e.value = some (e.tree W)) {c : Fault}
    (hc : e.schema.read R b (e.tree W) = .error c) : c = .unreadable := by
  rcases hfs.fixed _ hmem with hfloat | hfixed
  · obtain ⟨name, schema, x⟩ := e
    obtain rfl : schema = .float := hfloat
    -- the reader of a double knows of no other fault
    have hleaf : Reader.leaf R Scalar.asFloat? b _ = .error c := hc
    unfold Reader.leaf at hleaf
    split at hleaf
    · split at hleaf
      · cases hleaf
      · exact (Except.error.inj hleaf).symm
    · exact (Except.error.inj hleaf).symm
  · rw [RecordEntry.read_tree h hb hfs hmem hfixed ht] at hc
    cases hc

end RecordEntry

/-- A name stands for one schema. -/
theorem Fields.schema_unique (fs : Fields) (hfs : fs.names.Nodup) {name : String} {s s' : Schema}
    (h : (name, s) ∈ fs.toList) (h' : (name, s') ∈ fs.toList) : s = s' := by
  rw [← fs.map_toList] at hfs
  exact (Prod.mk.inj (List.inj_on_of_nodup_map hfs h h' rfl)).2

/-! ## What stands under a field's name -/

section Under

variable {further : List (String × Any)} {items : List RecordEntry} {name : String}

theorem under_further (hnew : fs.Undeclared further) (hname : name ∈ fs.names) :
    under name ((further.map RecordEntry.ofMember).map (RecordEntry.named W)) = [] := by
  rw [RecordEntry.under_named_eq_nil, List.forall_mem_map]
  rintro m hm rfl
  exact hnew m hm hname

/-- Under a field's name there is what there was in the declared order. -/
theorem Fields.Lists.under (h : fs.Lists v further items) (hnew : fs.Undeclared further)
    (hname : name ∈ fs.names) :
    (under name (items.map (RecordEntry.named W))).Perm
      (under name ((fs.entries v).map (RecordEntry.named W))) := by
  have hperm := under_perm name (h.map (RecordEntry.named W))
  rw [List.map_append, under_append, under_further hnew hname, List.append_nil] at hperm
  exact hperm

/-- An entry that is a field's is that of the value. -/
theorem Fields.Lists.mem_entries (h : fs.Lists v further items) (hnew : fs.Undeclared further)
    {e : RecordEntry} (he : e ∈ items) (hname : e.name ∈ fs.names) : e ∈ fs.entries v := by
  rcases List.mem_append.1 (h.subset he) with hmem | hmem
  · exact hmem
  · obtain ⟨m, hm, rfl⟩ := List.mem_map.1 hmem
    exact absurd hname (hnew m hm)

/-- An entry that is no field's is a further one. -/
theorem Fields.Lists.exists_member (h : fs.Lists v further items) {e : RecordEntry} (he : e ∈ items)
    (hname : e.name ∉ fs.names) : ∃ m ∈ further, e = RecordEntry.ofMember m := by
  rcases List.mem_append.1 (h.subset he) with hmem | hmem
  · exact absurd (Fields.mem_names.2 ⟨e.schema, fs.mem_entries hmem⟩) hname
  · obtain ⟨m, hm, rfl⟩ := List.mem_map.1 hmem
    exact ⟨m, hm, rfl⟩

/-- The entries of a value are such a list, with no further ones. -/
theorem Fields.lists_entries (fs : Fields) (v : fs.Carrier) : fs.Lists v [] (fs.entries v) := by
  rw [Fields.Lists, List.map_nil, List.append_nil]

end Under

/-! ## Reading -/

section Read

variable {further : List (String × Any)} {items : List RecordEntry} {ts : Entries σ}

/-- What is needed of written entries to read a record from them: their trees and names, and
that those which are no field's can be passed over. -/
structure Readable (R : ReadRules σ) (W : WriteRules σ) (b : Budget) (fs : Fields)
    (items : List RecordEntry) (ts : Entries σ) : Prop where
  named : ts.NamedAs R (items.map (RecordEntry.named W))
  written : ∀ e ∈ items, e.schema.write W e.value = some (e.tree W)
  skipped : ∀ e ∈ items, e.name ∉ fs.names → R.skips b (e.tree W) = true

/-- Written entries are read exactly if each field is given once at most, and can be read. -/
theorem Readable.eq_ok (h : Readable R W b fs items ts) (hfs : fs.names.Nodup) {r : fs.Partial} :
    Reader.recordEntries R b (fs.put R b) ts fs.blank = .ok r ↔
      fs.Adds R b (items.map (RecordEntry.named W)) fs.blank r := by
  rw [fs.recordEntries_eq_ok hfs h.named, List.forall_mem_map]
  exact and_iff_left h.skipped

/-- Entries of a value that cannot be read have one fault, in whatever order they come and whether
or not some are left out. -/
theorem Readable.error (h : Readable R W b fs items ts) (hR : Faithful R W fun _ => False)
    (hb : b.Allows 100) (hfs : fs.Plain)
    (hmem : ∀ e ∈ items, e.name ∈ fs.names → e ∈ fs.entries v)
    (hone : ∀ name ∈ fs.names, (under name (items.map (RecordEntry.named W))).length ≤ 1)
    {c : Fault}
    (hc : Reader.recordEntries R b (fs.put R b) ts fs.blank = .error c) : c = .unreadable := by
  have hnothing : fs.Adds R b [] fs.blank fs.blank :=
    (fs.adds_of_undeclared fun _ _ => rfl).2 rfl
  rcases fs.recordEntries_error hfs.nodup h.named hone hnothing hc with
    hunreadable | ⟨e, he, s, hs, hread⟩
  · exact hunreadable
  · obtain ⟨item, hitem, rfl⟩ := List.mem_map.1 he
    have hfield := fs.mem_entries (hmem item hitem (Fields.mem_names.2 ⟨s, hs⟩))
    obtain rfl := fs.schema_unique hfs.nodup hfield hs
    exact RecordEntry.read_error hR hb hfs hfield (h.written item hitem) hread

/-- Each field of a value is given once by its entries and further ones. -/
theorem Fields.Lists.length_under_le (hitems : fs.Lists v further items)
    (hfs : fs.names.Nodup) (hnew : fs.Undeclared further) {name : String}
    (hname : name ∈ fs.names) : (Wire.under name (items.map (RecordEntry.named W))).length ≤ 1 := by
  obtain ⟨e, -, -, hone⟩ := fs.exists_under hfs v hname (W := W)
  rw [(hitems.under hnew hname).length_eq, hone]
  exact Nat.le_refl 1

/-- **The order of a record's entries does not matter**, and no more do entries that are no
field's. -/
theorem Readable.reordered {items' : List RecordEntry} {ts' : Entries σ}
    (h : Readable R W b fs items ts) (h' : Readable R W b fs items' ts')
    (hR : Faithful R W fun _ => False) (hb : b.Allows 100) (hfs : fs.Plain)
    {further' : List (String × Any)} (hitems : fs.Lists v further items)
    (hnew : fs.Undeclared further) (hitems' : fs.Lists v further' items')
    (hnew' : fs.Undeclared further') :
    Reader.recordEntries R b (fs.put R b) ts fs.blank
      = Reader.recordEntries R b (fs.put R b) ts' fs.blank := by
  have hsame : ∀ r, Reader.recordEntries R b (fs.put R b) ts fs.blank = .ok r ↔
      Reader.recordEntries R b (fs.put R b) ts' fs.blank = .ok r := by
    intro r
    rw [h.eq_ok hfs.nodup, h'.eq_ok hfs.nodup]
    apply fs.adds_congr
    intro name hname
    exact (hitems.under hnew hname).trans (hitems'.under hnew' hname).symm
  cases hread : Reader.recordEntries R b (fs.put R b) ts fs.blank with
  | ok r => exact ((hsame r).1 hread).symm
  | error c =>
    cases hread' : Reader.recordEntries R b (fs.put R b) ts' fs.blank with
    | ok r =>
      rw [(hsame r).2 hread'] at hread
      exact nomatch hread
    | error c' =>
      have hc := h.error hR hb hfs (fun _ he => hitems.mem_entries hnew he)
        (fun _ hname => hitems.length_under_le hfs.nodup hnew hname) hread
      have hc' := h'.error hR hb hfs (fun _ he => hitems'.mem_entries hnew' he)
        (fun _ hname => hitems'.length_under_le hfs.nodup hnew' hname) hread'
      rw [hc, hc']

/-- Whether all fields of a value but one can be read from what is written of them. -/
def ReadableBut (R : ReadRules σ) (W : WriteRules σ) (b : Budget) (fs : Fields) (v : fs.Carrier)
    (left : String) : Prop :=
  ∀ e ∈ fs.entries v, e.name ≠ left → ∃ x, e.schema.read R b (e.tree W) = .ok x

/-- A field that entries give once is read when they are. -/
theorem Readable.field_of_ok (h : Readable R W b fs items ts) (hfs : fs.names.Nodup)
    {name : String} {s : Schema} {t : Node σ} (hmem : (name, s) ∈ fs.toList)
    (hone : (under name (items.map (RecordEntry.named W))).Perm [t]) {r : fs.Partial}
    (hr : Reader.recordEntries R b (fs.put R b) ts fs.blank = .ok r) :
    ∃ x, s.read R b t = .ok x := by
  rcases fs.exists_adds_iff.1 ⟨r, (h.eq_ok hfs).1 hr⟩ _ hmem with hnil | ⟨u, x, hu, hx⟩
  · rw [hnil] at hone
    exact absurd hone.length_eq Nat.zero_ne_one
  · rw [hu] at hone
    obtain rfl := List.singleton_inj.1 (List.perm_singleton.1 hone)
    exact ⟨x, hx⟩

/-- A value that is read has fields that can all be read. -/
theorem Readable.readableBut_of_ok (h : Readable R W b fs (fs.entries v) ts) (hfs : fs.names.Nodup)
    {r : fs.Partial} (hr : Reader.recordEntries R b (fs.put R b) ts fs.blank = .ok r)
    (left : String) : ReadableBut R W b fs v left := by
  intro e he _
  refine h.field_of_ok hfs (fs.mem_entries he) ?_ hr
  rw [fs.under_entries hfs he]

section Without

variable {left : RecordEntry}

/-- Without a field's entry, there is nothing under its name, and under the others what there
was. -/
theorem under_without (hfs : fs.names.Nodup) (hitems : fs.Lists v further (left :: items))
    (hnew : fs.Undeclared further) (hleft : left.name ∈ fs.names) {name : String}
    (hname : name ∈ fs.names) :
    (name = left.name → under name (items.map (RecordEntry.named W)) = []) ∧
      (name ≠ left.name → (under name (items.map (RecordEntry.named W))).Perm
        (under name ((fs.entries v).map (RecordEntry.named W)))) := by
  have hperm := hitems.under hnew hname (W := W)
  rw [List.map_cons] at hperm
  constructor
  · rintro rfl
    have he := hitems.mem_entries hnew List.mem_cons_self hleft
    have hhere : (RecordEntry.named W left).1 = left.name := rfl
    rw [under_cons_self hhere, fs.under_entries hfs he] at hperm
    exact List.length_eq_zero_iff.1 (Nat.succ.inj hperm.length_eq)
  · intro hne
    have hother : (RecordEntry.named W left).1 ≠ name := Ne.symm hne
    rw [under_cons_ne hother] at hperm
    exact hperm

/-- Entries without one of a value's are read if the other fields can be. -/
theorem Readable.exists_without (h : Readable R W b fs items ts) (hfs : fs.names.Nodup)
    (hitems : fs.Lists v further (left :: items)) (hnew : fs.Undeclared further)
    (hleft : left.name ∈ fs.names) (hothers : ReadableBut R W b fs v left.name) :
    ∃ r, Reader.recordEntries R b (fs.put R b) ts fs.blank = .ok r ∧
      fs.Adds R b (items.map (RecordEntry.named W)) fs.blank r := by
  have hadds : ∃ r, fs.Adds R b (items.map (RecordEntry.named W)) fs.blank r := by
    rw [fs.exists_adds_iff]
    rintro ⟨name, s⟩ hmem
    have hunder := under_without hfs hitems hnew hleft (Fields.mem_names.2 ⟨s, hmem⟩) (W := W)
    by_cases hname : name = left.name
    · exact .inl (hunder.1 hname)
    · obtain ⟨x, hx⟩ := fs.exists_entry v hmem
      obtain ⟨y, hy⟩ := hothers _ hx hname
      have hperm := hunder.2 hname
      rw [show under name _ = [_] from fs.under_entries hfs hx] at hperm
      exact .inr ⟨_, y, List.perm_singleton.1 hperm, hy⟩
  obtain ⟨r, hr⟩ := hadds
  exact ⟨r, (h.eq_ok hfs).2 hr, hr⟩

/-- A field that is left out is missing, unless it may be left out. -/
theorem Readable.without (h : Readable R W b fs items ts) (hfs : fs.names.Nodup)
    (hitems : fs.Lists v further (left :: items)) (hnew : fs.Undeclared further)
    (hleft : left.name ∈ fs.names) (hrequired : left.schema.absent? = none)
    (hothers : ReadableBut R W b fs v left.name) :
    fs.readEntries R b ts
      = .error (.missingField left.name) := by
  obtain ⟨r, hread, hadds⟩ := h.exists_without hfs hitems hnew hleft hothers
  have hmem := fs.mem_entries (hitems.mem_entries hnew List.mem_cons_self hleft)
  rw [Fields.readEntries, hread]
  refine fs.finish_missing hmem hrequired hfs ?_ hadds
  intro name hname
  have hunder := under_without hfs hitems hnew hleft hname (W := W)
  refine ⟨fun hnil => ?_, hunder.1⟩
  by_contra hne
  have hperm := hunder.2 hne
  rw [hnil] at hperm
  exact fs.under_entries_ne_nil hfs v hname (List.nil_perm.1 hperm)

/-- A field that may be left out is then as if it were not there. -/
theorem Readable.without_optional {whole : Entries σ} (h : Readable R W b fs items ts)
    (hwhole : Readable R W b fs (fs.entries v) whole) (hfs : fs.names.Nodup)
    (hitems : fs.Lists v further (left :: items)) (hnew : fs.Undeclared further)
    (hleft : left.name ∈ fs.names) {w w' : fs.Carrier}
    (hw : fs.readEntries R b whole = .ok w)
    (hw' : fs.leaveOut left.name w = some w') :
    fs.readEntries R b ts = .ok w' := by
  obtain ⟨r, hr, hfinish⟩ := exists_of_bind_eq_ok hw
  have hothers := hwhole.readableBut_of_ok hfs hr left.name
  obtain ⟨r', hread, hadds⟩ := h.exists_without hfs hitems hnew hleft hothers
  rw [Fields.readEntries, hread]
  refine fs.finish_leaveOut hfs (fun name hname => fs.under_entries_ne_nil hfs v hname) ?_ ?_
    ((hwhole.eq_ok hfs).1 hr) hfinish hadds hw'
  · intro name hname hne
    exact ((under_without hfs hitems hnew hleft hname).2 hne).symm
  · intro hmem
    exact (under_without hfs hitems hnew hleft hmem).1 rfl

/-- Entries that are read without one of a value's have only fields that can be read. -/
theorem Readable.others_of_ok (h : Readable R W b fs items ts) (hfs : fs.names.Nodup)
    (hitems : fs.Lists v further (left :: items)) (hnew : fs.Undeclared further)
    (hleft : left.name ∈ fs.names) {r : fs.Partial}
    (hr : Reader.recordEntries R b (fs.put R b) ts fs.blank = .ok r) :
    ReadableBut R W b fs v left.name := by
  intro e he hne
  have hmem := fs.mem_entries he
  have hname := Fields.mem_names.2 ⟨_, hmem⟩
  have hunder := under_without hfs hitems hnew hleft hname (W := W)
  have hone := hunder.2 hne
  rw [fs.under_entries hfs he] at hone
  exact h.field_of_ok hfs hmem hone hr

/-- If a value is read without a field that has no doubles, it is read with it as well. -/
theorem Readable.with_left {whole : Entries σ} (h : Readable R W b fs items ts)
    (hwhole : Readable R W b fs (fs.entries v) whole) (hR : Faithful R W fun _ => False)
    (hb : b.Allows 100) (hfs : fs.Plain) (hitems : fs.Lists v further (left :: items))
    (hnew : fs.Undeclared further) (hleft : left.name ∈ fs.names)
    (hfixed : left.schema.isFixed false = true) {r : fs.Partial}
    (hr : Reader.recordEntries R b (fs.put R b) ts fs.blank = .ok r) :
    ∃ w, fs.readEntries R b whole = .ok w := by
  have hothers := h.others_of_ok hfs.nodup hitems hnew hleft hr
  have hmem := fs.mem_entries (hitems.mem_entries hnew List.mem_cons_self hleft)
  have hadds : ∃ q, fs.Adds R b ((fs.entries v).map (RecordEntry.named W)) fs.blank q := by
    rw [fs.exists_adds_iff]
    rintro ⟨name, s⟩ hs
    obtain ⟨x, hx⟩ := fs.exists_entry v hs
    have hone : under name ((fs.entries v).map (RecordEntry.named W))
        = [RecordEntry.tree W ⟨name, s, x⟩] :=
      fs.under_entries hfs.nodup hx
    by_cases hname : name = left.name
    · subst hname
      obtain rfl := fs.schema_unique hfs.nodup hmem hs
      have hread := hwhole.written _ hx
      exact .inr ⟨_, x, hone, RecordEntry.read_tree (e := ⟨_, _, x⟩) hR hb hfs hmem hfixed hread⟩
    · obtain ⟨y, hy⟩ := hothers _ hx hname
      exact .inr ⟨_, y, hone, hy⟩
  obtain ⟨q, hq⟩ := hadds
  rw [Fields.readEntries, (hwhole.eq_ok hfs.nodup).2 hq]
  exact fs.finish_of_given (fun name hname => fs.under_entries_ne_nil hfs.nodup v hname) hq

/-- If a value cannot be read as a whole, it cannot be read either without a field that has no
doubles, and that field is not reported as missing. -/
theorem Readable.without_of_error {whole : Entries σ} (h : Readable R W b fs items ts)
    (hwhole : Readable R W b fs (fs.entries v) whole) (hR : Faithful R W fun _ => False)
    (hb : b.Allows 100) (hfs : fs.Plain) (hitems : fs.Lists v further (left :: items))
    (hnew : fs.Undeclared further) (hleft : left.name ∈ fs.names)
    (hfixed : left.schema.isFixed false = true)
    (hw : ∀ w, fs.readEntries R b whole ≠ .ok w) :
    Reader.recordEntries R b (fs.put R b) ts fs.blank = .error .unreadable := by
  cases hread : Reader.recordEntries R b (fs.put R b) ts fs.blank with
  | ok r =>
    obtain ⟨w, hok⟩ := h.with_left hwhole hR hb hfs hitems hnew hleft hfixed hread
    exact absurd hok (hw w)
  | error c =>
    rw [h.error (v := v) hR hb hfs ?_ ?_ hread]
    · intro e he
      exact hitems.mem_entries hnew (List.mem_cons_of_mem left he)
    · intro name hname
      refine Nat.le_trans ?_ (hitems.length_under_le hfs.nodup hnew hname (W := W))
      exact (under_sublist name ((List.sublist_cons_self left items).map _)).length_le

end Without

/-- A field that comes twice is never read. -/
theorem Readable.twice (h : Readable R W b fs items ts) (hfs : fs.names.Nodup) {again : RecordEntry}
    {others : List RecordEntry} (hitems : items.Perm (again :: others))
    (hothers : fs.Lists v further others) (hnew : fs.Undeclared further)
    (hagain : again.name ∈ fs.names) (r : fs.Partial) :
    Reader.recordEntries R b (fs.put R b) ts fs.blank ≠ .ok r := by
  intro hr
  obtain ⟨s, hs⟩ := Fields.mem_names.1 hagain
  obtain ⟨e, -, -, hone⟩ := fs.exists_under hfs v hagain (W := W)
  have hhere : (RecordEntry.named W again).1 = again.name := rfl
  have htwo : (under again.name (items.map (RecordEntry.named W))).length = 2 := by
    rw [(under_perm again.name (hitems.map (RecordEntry.named W))).length_eq, List.map_cons,
      under_cons_self hhere, List.length_cons, (hothers.under hnew hagain).length_eq, hone]
    rfl
  rcases fs.exists_adds_iff.1 ⟨r, (h.eq_ok hfs).1 hr⟩ _ hs with hnil | ⟨t, x, ht, -⟩
  · rw [hnil] at htwo
    exact nomatch htwo
  · rw [ht] at htwo
    exact nomatch htwo

end Read

end Conneg
