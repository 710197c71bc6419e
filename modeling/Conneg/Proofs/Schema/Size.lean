import Conneg.Schema
import Conneg.Text.Utf8

/-!
# How long the parts of a value are

A format that announces lengths has so many bytes for a length, so it can only write
values whose parts are shorter than some limit. What counts is the bytes of a text,
the items of a list, the entries of a map and the members of an object, wherever in
a value they are (`Schema.Short`); and the same of what a schema itself adds to a
value, which are the names that it declares (`Schema.hasShortNames`).
-/

namespace Conneg

variable (limit : Nat)

/-- Whether a text takes fewer bytes than a limit. -/
def ShortText (s : String) : Prop := (Utf8.encode s).length < limit

instance (s : String) : Decidable (ShortText limit s) :=
  inferInstanceAs (Decidable ((Utf8.encode s).length < limit))

mutual

/-- Whether every text, list and object in a value is shorter than a limit. -/
def Any.Short : Any → Prop
  | .text s => ShortText limit s
  | .list xs => xs.length < limit ∧ Any.ShortItems xs
  | .object members => members.length < limit ∧ Any.ShortMembers members
  | _ => True

/-- The same for the values of a list. -/
def Any.ShortItems : List Any → Prop
  | [] => True
  | x :: xs => x.Short ∧ Any.ShortItems xs

/-- The same for the keys and values of an object. -/
def Any.ShortMembers : List (String × Any) → Prop
  | [] => True
  | (k, x) :: members => ShortText limit k ∧ x.Short ∧ Any.ShortMembers members

end

/-- The same for a key of a map. -/
def KeyKind.Short : (k : KeyKind) → k.Carrier → Prop
  | .text => fun s => ShortText limit s
  | .list => fun ns => ns.length < limit
  | .integer | .boolean => fun _ => True

mutual

/-- Whether every text, list, map and object in a value of a schema is shorter than a
limit. -/
def Schema.Short : (s : Schema) → s.Carrier → Prop
  | .any => fun v => v.Short limit
  | .text => fun v => ShortText limit v
  | .optional s => fun v => ∀ x, v = some x → s.Short x
  | .list s => fun v => v.length < limit ∧ ∀ x ∈ v, s.Short x
  | .pair a c => fun v => a.Short v.1 ∧ c.Short v.2
  | .map k s => fun v => v.entries.length < limit ∧
      ∀ e ∈ v.entries, k.Short limit e.1 ∧ s.Short e.2
  | .record fs => fun v => fs.Short v
  | .choice cs => fun v => cs.Short v
  | .readOnly s => fun v => s.Short v
  | .bool | .integer _ | .float | .unit => fun _ => True

/-- The same for the fields of a record. -/
def Fields.Short : (fs : Fields) → fs.Carrier → Prop
  | .nil => fun _ => True
  | .cons _ s rest => fun v => s.Short v.1 ∧ rest.Short v.2

/-- The same for the content of a choice. -/
def Cases.Short : (cs : Cases) → cs.Carrier → Prop
  | .nil => fun _ => True
  | .cons _ c rest => fun v =>
    match v with
    | .inl x => c.Short x
    | .inr y => rest.Short y

/-- The same for the content of a case. -/
def Content.Short : (c : Content) → c.Carrier → Prop
  | .unit => fun _ => True
  | .value s => fun v => s.Short v
  | .pair a c => fun v => a.Short v.1 ∧ c.Short v.2
  | .record fs => fun v => fs.Short v

end

/-! ## Objects and maps under construction -/

section

variable {limit}

theorem Any.length_put_le (key : String) (value : Any) (members : List (String × Any)) :
    (Any.put key value members).length ≤ members.length + 1 := by
  induction members with
  | nil => exact Nat.le_refl 1
  | cons m members ih =>
    obtain ⟨k, v⟩ := m
    simp only [Any.put]
    split
    · exact Nat.le_succ _
    · exact Nat.succ_le_succ ih

theorem Any.shortMembers_put {key : String} {value : Any} {members : List (String × Any)}
    (hkey : ShortText limit key) (hvalue : value.Short limit)
    (hmembers : Any.ShortMembers limit members) :
    Any.ShortMembers limit (Any.put key value members) := by
  induction members with
  | nil => exact ⟨hkey, hvalue, trivial⟩
  | cons m members ih =>
    obtain ⟨k, v⟩ := m
    simp only [Any.put]
    split
    · exact ⟨hmembers.1, hvalue, hmembers.2.2⟩
    · exact ⟨hmembers.1, hmembers.2.1, ih hmembers.2.2⟩

theorem Any.shortItems_iff {xs : List Any} :
    Any.ShortItems limit xs ↔ ∀ x ∈ xs, x.Short limit := by
  induction xs with
  | nil => exact iff_of_true trivial (fun _ h => nomatch h)
  | cons x xs ih => rw [Any.ShortItems, ih, List.forall_mem_cons]

/-- Placing an entry makes a map at most one entry longer. -/
theorem SortedMap.length_place_le {κ ν : Type} [Ord κ] (k : κ) (v : ν) (es : List (κ × ν)) :
    (SortedMap.place k v es).length ≤ es.length + 1 := by
  induction es with
  | nil => exact Nat.le_refl 1
  | cons e es ih =>
    simp only [SortedMap.place]
    split
    · exact Nat.le_refl _
    · exact Nat.le_succ _
    · exact Nat.succ_le_succ ih

/-- What holds of the keys and of the values holds of them with one more entry. -/
theorem SortedMap.forall_mem_place {κ ν : Type} [Ord κ] {p : κ → Prop} {q : ν → Prop} {k : κ}
    {v : ν} {es : List (κ × ν)} (hk : p k) (hv : q v) (hes : ∀ e ∈ es, p e.1 ∧ q e.2) :
    ∀ e ∈ SortedMap.place k v es, p e.1 ∧ q e.2 := by
  induction es with
  | nil => exact List.forall_mem_singleton.2 ⟨hk, hv⟩
  | cons e es ih =>
    obtain ⟨hhead, htail⟩ := List.forall_mem_cons.1 hes
    simp only [SortedMap.place]
    split
    · exact List.forall_mem_cons.2 ⟨⟨hk, hv⟩, hes⟩
    · exact List.forall_mem_cons.2 ⟨⟨hhead.1, hv⟩, htail⟩
    · exact List.forall_mem_cons.2 ⟨hhead, ih htail⟩

end

mutual

/-- Whether every name that a schema declares is shorter than a limit, and no record
declares as many as that. -/
def Schema.hasShortNames : Schema → Bool
  | .any | .bool | .integer _ | .float | .text | .unit => true
  | .optional s | .list s | .map _ s | .readOnly s => s.hasShortNames
  | .pair a c => a.hasShortNames && c.hasShortNames
  | .record fs => decide (fs.names.length < limit) && fs.hasShortNames
  | .choice cs => cs.hasShortNames

/-- The same for the fields of a record. -/
def Fields.hasShortNames : Fields → Bool
  | .nil => true
  | .cons name s rest => decide (ShortText limit name) && s.hasShortNames && rest.hasShortNames

/-- The same for the cases of a choice. -/
def Cases.hasShortNames : Cases → Bool
  | .nil => true
  | .cons name c rest => decide (ShortText limit name) && c.hasShortNames && rest.hasShortNames

/-- The same for the content of a case. -/
def Content.hasShortNames : Content → Bool
  | .unit => true
  | .value s => s.hasShortNames
  | .pair a c => a.hasShortNames && c.hasShortNames
  | .record fs => decide (fs.names.length < limit) && fs.hasShortNames

end

end Conneg
