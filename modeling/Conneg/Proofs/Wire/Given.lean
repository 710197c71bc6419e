import Conneg.Proofs.Wire.ByName

/-!
# What stands under a name is what is read

A record is read from a whole map exactly if each of its fields is what the one tree under its
name is read as, or may be left out (`Fields.record_eq_ok`). In a map by texts, the last tree
under a key is what the key is read with (`Reader.mem_mapEntries`); it is read at all if every
tree in it is (`Reader.exists_mapEntries_iff`).

The first is what is known of the entries by name, followed to the end of the record. The
second is an induction over the entries: an entry replaces what was there under its key, and
leaves the other keys alone (`SortedMap.mem_insert`).

Conversely, where fields and values are only read from whole trees, what a record or a map is read
from is whole (`Fields.whole_of_recordEntries`, `Reader.whole_of_mapEntries`).
-/

namespace Conneg

open Wire

variable {σ : Type} {R : ReadRules σ} {b : Budget} {es : List (String × Node σ)}

/-! ## Records -/

/-- Whether each field is what the one tree under its name is read as, or what it is without
one. -/
def Fields.Given (R : ReadRules σ) (b : Budget) (es : List (String × Node σ)) :
    (fs : Fields) → fs.Carrier → Prop
  | .nil, _ => True
  | .cons name s rest, w =>
    ((∃ t, under name es = [t] ∧ s.read R b t = .ok w.1) ∨
        under name es = [] ∧ s.absent? = some w.1) ∧
      rest.Given R b es w.2

/-- What entries add up to makes a record exactly if its fields are given. -/
theorem Fields.exists_adds_finish_iff (fs : Fields) {w : fs.Carrier} :
    (∃ r, fs.Adds R b es fs.blank r ∧ fs.finish r = .ok w) ↔ fs.Given R b es w := by
  match fs with
  | .nil => exact ⟨fun _ => trivial, fun _ => ⟨(), trivial, rfl⟩⟩
  | .cons name s rest =>
    obtain ⟨v, w⟩ := w
    rw [Fields.Given, ← rest.exists_adds_finish_iff]
    constructor
    · rintro ⟨⟨x, r⟩, ⟨htakes, hr⟩, hfinish⟩
      simp only [Fields.finish] at hfinish
      split at hfinish
      · cases hfinish
      · next v' hv' =>
        obtain ⟨w', hw', heq⟩ := exists_of_map_eq_ok hfinish
        obtain ⟨rfl, rfl⟩ := Prod.mk.inj heq
        refine ⟨?_, r, hr, hw'⟩
        by_cases hnil : under name es = []
        · rw [hnil] at htakes
          obtain rfl : x = none := Takes.eq_none htakes
          exact .inr ⟨hnil, hv'⟩
        · obtain ⟨t, y, hone, hread, rfl⟩ : ∃ t y, under name es = [t] ∧
              s.read R b t = .ok y ∧ x = some y := Takes.exists_read htakes hnil
          obtain rfl := Option.some.inj hv'
          exact .inl ⟨t, hone, hread⟩
    · rintro ⟨hfirst, r, hr, hfinish⟩
      rcases hfirst with ⟨t, hone, hread⟩ | ⟨hnil, habsent⟩
      · refine ⟨(some v, r), ⟨?_, hr⟩, ?_⟩
        · rw [hone]
          exact .one hread
        · simp only [Fields.finish, Option.some_or, hfinish]
          rfl
      · refine ⟨(none, r), ⟨?_, hr⟩, ?_⟩
        · rw [hnil]
          exact .nothing none
        · simp only [Fields.finish, Option.none_or, habsent, hfinish]
          rfl

/-- A record is read from entries that can all be passed over exactly if its fields are given. -/
theorem Fields.record_eq_ok (fs : Fields) (hfs : fs.names.Nodup) {ts : Entries σ}
    (hmap : R.asSequence (.map ts) = .map ts) {b' : Budget} (hb : b.enter = some b')
    (hts : ts.NamedAs R es) (hskips : ∀ e ∈ es, R.skips b' e.2 = true) {w : fs.Carrier} :
    (Schema.record fs).read R b (.map ts) = .ok w ↔ fs.Given R b' es w := by
  have hread : (Schema.record fs).read R b (.map ts) = fs.readEntries R b' ts := by
    simp only [Schema.read, Reader.record, hmap, hb]
    rfl
  have hentries := fun r => fs.recordEntries_eq_ok hfs hts (b := b') (p := fs.blank) (r := r)
  rw [hread, ← fs.exists_adds_finish_iff]
  constructor
  · intro h
    obtain ⟨r, hr, hfinish⟩ := exists_of_bind_eq_ok h
    exact ⟨r, ((hentries r).1 hr).1, hfinish⟩
  · rintro ⟨r, hadds, hfinish⟩
    rw [Fields.readEntries, (hentries r).2 ⟨hadds, fun e he _ => hskips e he⟩]
    exact hfinish

/-- Whether fields are only read from whole trees. -/
def Fields.ReadsWhole (R : ReadRules σ) (b : Budget) (fs : Fields) : Prop :=
  ∀ f ∈ fs.toList, ∀ t v, f.2.read R b t = .ok v → t.whole none = true

theorem Fields.ReadsWhole.nil : Fields.nil.ReadsWhole R b := List.forall_mem_nil _

theorem Fields.ReadsWhole.cons {name : String} {s : Schema} {rest : Fields}
    (hs : ∀ t v, s.read R b t = .ok v → t.whole none = true) (h : rest.ReadsWhole R b) :
    (Fields.cons name s rest).ReadsWhole R b :=
  List.forall_mem_cons.2 ⟨hs, h⟩

theorem Fields.whole_of_put (fs : Fields) (hfs : fs.ReadsWhole R b) {l : Label} {t : Node σ}
    {p q : fs.Partial} (h : fs.put R b l t p = .ok (some q)) : t.whole none = true := by
  match fs with
  | .nil => cases h
  | .cons name s rest =>
    obtain ⟨x, p⟩ := p
    obtain ⟨hfirst, hrest⟩ := List.forall_mem_cons.1 hfs
    simp only [Fields.put] at h
    split at h
    · cases x with
      | some x => cases h
      | none =>
        obtain ⟨v, hv, -⟩ := exists_of_map_eq_ok h
        exact hfirst t v hv
    · obtain ⟨r, hr, heq⟩ := exists_of_map_eq_ok h
      obtain ⟨q', rfl, -⟩ := Option.map_eq_some_iff.1 heq
      exact rest.whole_of_put hrest hr

/-- What a record is read from is whole, where unknown fields have to be. -/
theorem Fields.whole_of_recordEntries (fs : Fields) (hfs : fs.ReadsWhole R b)
    (hfree : R.skipsFreely = true) {ts : Entries σ} {p r : fs.Partial}
    (h : Reader.recordEntries R b (fs.put R b) ts p = .ok r) : ts.whole none = true := by
  match ts with
  | .done => rfl
  | .broken => cases h
  | .cons key t ts =>
    cases key with
    | broken | seq | map => cases h
    | scalar x =>
      simp only [Reader.recordEntries] at h
      split at h
      · split at h
        · next hput =>
          have ht := fs.whole_of_put hfs hput
          have hts := fs.whole_of_recordEntries hfs hfree h
          simp only [Entries.whole, Node.whole, ht, hts, Bool.and_self]
        · split at h
          · next hskips =>
            have hts := fs.whole_of_recordEntries hfs hfree h
            simp only [ReadRules.skips, hfree, if_true] at hskips
            simp only [Entries.whole, Node.whole, hskips, hts, Bool.and_self]
          · cases h
        · cases h
      · cases h

/-! ## Maps by texts -/

namespace SortedMap

variable {κ ν : Type} [Ord κ] [Std.TransOrd κ] [Std.LawfulEqOrd κ] {k : κ} {v : ν}

theorem mem_place {es : List (κ × ν)}
    (hes : es.Pairwise fun a b => (compare a.1 b.1).isLT) {x : κ × ν} :
    x ∈ place k v es ↔ x = (k, v) ∨ x ∈ es ∧ x.1 ≠ k := by
  have hself : ∀ k : κ, compare k k = .eq := fun _ => Std.ReflCmp.compare_self
  induction es with
  | nil => simp [place]
  | cons e es ih =>
    obtain ⟨hhead, htail⟩ := List.pairwise_cons.1 hes
    have hne : ∀ y ∈ es, y.1 ≠ e.1 := by
      intro y hy heq
      have hlt := hhead y hy
      rw [heq, hself] at hlt
      cases hlt
    simp only [place]
    split
    · next hlt =>
      -- all that is there is above the key
      have habove : ∀ y ∈ e :: es, y.1 ≠ k := by
        rintro y hy rfl
        rcases List.mem_cons.1 hy with rfl | hy
        · rw [hself] at hlt
          cases hlt
        · have hlast := hhead y hy
          rw [Std.OrientedCmp.gt_of_lt hlt] at hlast
          cases hlast
      rw [List.mem_cons]
      exact or_congr_right ⟨fun h => ⟨h, habove x h⟩, And.left⟩
    · next heq =>
      obtain rfl : k = e.1 := Std.LawfulEqOrd.eq_of_compare heq
      rw [List.mem_cons, List.mem_cons]
      constructor
      · rintro (rfl | hx)
        · exact .inl rfl
        · exact .inr ⟨.inr hx, hne x hx⟩
      · rintro (rfl | ⟨rfl | hx, hk⟩)
        · exact .inl rfl
        · exact absurd rfl hk
        · exact .inr hx
    · next hgt =>
      have hfirst : e.1 ≠ k := by
        rintro rfl
        rw [hself] at hgt
        cases hgt
      have hplace : x ∈ place k v es ↔ x = (k, v) ∨ x ∈ es ∧ x.1 ≠ k := ih htail
      rw [List.mem_cons, List.mem_cons, hplace]
      constructor
      · rintro (rfl | rfl | ⟨hx, hk⟩)
        · exact .inr ⟨.inl rfl, hfirst⟩
        · exact .inl rfl
        · exact .inr ⟨.inr hx, hk⟩
      · rintro (rfl | ⟨rfl | hx, hk⟩)
        · exact .inr (.inl rfl)
        · exact .inl rfl
        · exact .inr (.inr ⟨hx, hk⟩)

/-- An entry replaces the one with its key, and leaves the others. -/
theorem mem_insert {m : SortedMap κ ν} {x : κ × ν} :
    x ∈ (m.insert k v).entries ↔ x = (k, v) ∨ x ∈ m.entries ∧ x.1 ≠ k :=
  mem_place m.ascending

end SortedMap

instance : Std.LawfulEqOrd KeyKind.text.Carrier := inferInstanceAs (Std.LawfulEqOrd String)

/-- Whether a map ends and has these entries, each with a key that is read as a text. -/
def Wire.Entries.KeyedAs (R : ReadRules σ) : Entries σ → List (String × Node σ) → Prop
  | .done, [] => True
  | .cons key t rest, e :: es => R.mapKey .text key = some e.1 ∧ t = e.2 ∧ rest.KeyedAs R es
  | _, _ => False

namespace Wire.Reader

variable {α : Type} {read : Node σ → Except Fault α} {ts : Entries σ}
  {acc m : SortedMap KeyKind.text.Carrier α}

/-- What a scalar is read from is whole. -/
theorem whole_of_leaf {view : Scalar → Option α} {t : Node σ} {v : α}
    (h : leaf R view b t = .ok v) : t.whole none = true := by
  cases t with
  | scalar x => rfl
  | broken | seq | map => cases h

/-- What a map is read from is whole. -/
theorem whole_of_mapEntries {ts : Entries σ} {acc : SortedMap KeyKind.text.Carrier α}
    (hkey : ∀ t name, R.mapKey .text t = some name → t.whole none = true)
    (hread : ∀ t v, read t = .ok v → t.whole none = true)
    (h : mapEntries (R.mapKey .text) read ts acc = .ok m) : ts.whole none = true := by
  match ts with
  | .done => rfl
  | .broken => cases h
  | .cons k t ts =>
    simp only [mapEntries] at h
    split at h
    · next name hname =>
      split at h
      · next v hv =>
        have hts := whole_of_mapEntries hkey hread h
        simp only [Entries.whole, hkey k name hname, hread t v hv, hts, Bool.and_self]
      · cases h
    · cases h

/-- A map is read exactly if every tree in it is. -/
theorem exists_mapEntries_iff (hts : ts.KeyedAs R es) :
    (∃ m, mapEntries (R.mapKey .text) read ts acc = .ok m) ↔ ∀ e ∈ es, ∃ v, read e.2 = .ok v := by
  induction es generalizing ts acc with
  | nil =>
    cases ts with
    | done => exact ⟨fun _ => nofun, fun _ => ⟨acc, rfl⟩⟩
    | broken | cons => exact hts.elim
  | cons e es ih =>
    cases ts with
    | done | broken => exact hts.elim
    | cons key t ts =>
      obtain ⟨hkey, rfl, hts⟩ := hts
      rw [List.forall_mem_cons]
      simp only [mapEntries, hkey]
      cases hread : read e.2 with
      | ok v => simp only [ih hts, Except.ok.injEq, exists_eq', true_and]
      | error c => simp only [reduceCtorEq, exists_false, false_and]

/-- A key of the map that is read has the last of the trees under it, or what it had before. -/
theorem mem_mapEntries (hts : ts.KeyedAs R es)
    (h : mapEntries (R.mapKey .text) read ts acc = .ok m) {name : String} {v : α} :
    (name, v) ∈ m.entries ↔
      (under name es).getLast?.elim ((name, v) ∈ acc.entries) fun t => read t = .ok v := by
  induction es generalizing ts acc with
  | nil =>
    cases ts with
    | done =>
      obtain rfl := Except.ok.inj h
      exact Iff.rfl
    | broken | cons => exact hts.elim
  | cons e es ih =>
    cases ts with
    | done | broken => exact hts.elim
    | cons key t ts =>
      obtain ⟨hkey, rfl, hts⟩ := hts
      simp only [mapEntries, hkey] at h
      split at h
      · next x hx =>
        rw [ih hts h]
        by_cases hname : e.1 = name
        · rw [under_cons_self hname, List.getLast?_cons]
          cases (under name es).getLast? with
          | some t => exact Iff.rfl
          | none =>
            -- the first entry is the last with its name
            simp only [Option.elim, Option.getD_none, SortedMap.mem_insert, Prod.mk.injEq, hx,
              Except.ok.injEq, hname, true_and, ne_eq, not_true_eq_false, and_false, or_false,
              eq_comm]
        · rw [under_cons_ne hname]
          cases (under name es).getLast? with
          | some t => exact Iff.rfl
          | none =>
            simp only [Option.elim, SortedMap.mem_insert, Prod.mk.injEq, Ne.symm hname, ne_eq,
              not_false_eq_true, false_and, false_or, and_true]
      · cases h

end Wire.Reader
end Conneg
