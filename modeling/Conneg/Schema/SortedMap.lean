/-!
# Maps in key order

A map is the list of its entries in strictly ascending order of the keys, so two
maps with the same entries are equal. `insert` keeps the order and lets the last
value of a key win.

Main statement: inserting the entries of a map, in order, into the empty map
gives the map back (`ofList_entries`).
-/

namespace Conneg

/-- Entries in strictly ascending order of their keys. -/
structure SortedMap (κ ν : Type) [Ord κ] where
  entries : List (κ × ν)
  ascending : entries.Pairwise fun a b => (compare a.1 b.1).isLT

namespace SortedMap

variable {κ ν : Type} [Ord κ]

@[ext] theorem ext {a b : SortedMap κ ν} (h : a.entries = b.entries) : a = b := by
  cases a; cases b; simp_all

/-- The map without entries. -/
def empty : SortedMap κ ν := ⟨[], List.Pairwise.nil⟩

/-- An entry put in its place among ascending entries. -/
def place (k : κ) (v : ν) : List (κ × ν) → List (κ × ν)
  | [] => [(k, v)]
  | e :: es =>
    match compare k e.1 with
    | .lt => (k, v) :: e :: es
    | .eq => (e.1, v) :: es
    | .gt => e :: place k v es

/-- Placing an entry adds no key but its own. -/
theorem key_of_mem_place {k : κ} {v : ν} {es : List (κ × ν)} {x : κ × ν}
    (h : x ∈ place k v es) : x.1 = k ∨ ∃ e ∈ es, x.1 = e.1 := by
  induction es with
  | nil => simp [place] at h; exact .inl (by rw [h])
  | cons e es ih =>
    simp only [place] at h
    split at h
    · rcases List.mem_cons.1 h with rfl | h
      · exact .inl rfl
      · exact .inr ⟨x, h, rfl⟩
    · rcases List.mem_cons.1 h with rfl | h
      · exact .inr ⟨e, List.mem_cons_self, rfl⟩
      · exact .inr ⟨x, List.mem_cons_of_mem _ h, rfl⟩
    · rcases List.mem_cons.1 h with rfl | h
      · exact .inr ⟨x, List.mem_cons_self, rfl⟩
      · rcases ih h with h | ⟨e', he', hx⟩
        · exact .inl h
        · exact .inr ⟨e', List.mem_cons_of_mem _ he', hx⟩

theorem pairwise_place [Std.TransOrd κ] {k : κ} {v : ν} {es : List (κ × ν)}
    (h : es.Pairwise fun a b => (compare a.1 b.1).isLT) :
    (place k v es).Pairwise fun a b => (compare a.1 b.1).isLT := by
  induction es with
  | nil => exact List.pairwise_singleton _ _
  | cons e es ih =>
    obtain ⟨hhead, htail⟩ := List.pairwise_cons.1 h
    simp only [place]
    split
    · next hlt =>
      refine List.pairwise_cons.2 ⟨fun x hx => ?_, h⟩
      rcases List.mem_cons.1 hx with rfl | hx
      · simp [hlt]
      · have := hhead x hx
        rw [Ordering.isLT_iff_eq_lt] at this
        rw [Ordering.isLT_iff_eq_lt]
        exact Std.TransCmp.lt_trans hlt this
    · exact List.pairwise_cons.2 ⟨hhead, htail⟩
    · next hgt =>
      refine List.pairwise_cons.2 ⟨fun x hx => ?_, ih htail⟩
      rcases key_of_mem_place hx with hk | ⟨e', he', hk⟩
      · rw [hk, Ordering.isLT_iff_eq_lt]
        exact Std.OrientedCmp.lt_of_gt hgt
      · rw [hk]; exact hhead e' he'

/-- A map with one more entry; an entry with the same key is replaced. -/
def insert [Std.TransOrd κ] (m : SortedMap κ ν) (k : κ) (v : ν) : SortedMap κ ν :=
  ⟨place k v m.entries, pairwise_place m.ascending⟩

/-- The map of a list of entries; the last value of a key wins. -/
def ofList [Std.TransOrd κ] (es : List (κ × ν)) : SortedMap κ ν :=
  es.foldl (fun m e => m.insert e.1 e.2) empty

/-- An entry above all others is placed at the end. -/
theorem place_of_forall_lt [Std.TransOrd κ] {k : κ} {v : ν} {es : List (κ × ν)}
    (h : ∀ e ∈ es, (compare e.1 k).isLT) : place k v es = es ++ [(k, v)] := by
  induction es with
  | nil => rfl
  | cons e es ih =>
    have he := h e List.mem_cons_self
    rw [Ordering.isLT_iff_eq_lt] at he
    have hgt : compare k e.1 = .gt := Std.OrientedCmp.gt_of_lt he
    simp [place, hgt, ih fun e' he' => h e' (List.mem_cons_of_mem _ he')]

/-- Inserting a map's entries one by one, in order, builds the map. -/
theorem ofList_entries [Std.TransOrd κ] (m : SortedMap κ ν) : ofList m.entries = m := by
  have key : ∀ (es : List (κ × ν)) (acc : SortedMap κ ν),
      (acc.entries ++ es).Pairwise (fun a b => (compare a.1 b.1).isLT) →
      (es.foldl (fun m e => m.insert e.1 e.2) acc).entries = acc.entries ++ es := by
    intro es
    induction es with
    | nil => intro acc _; simp
    | cons e es ih =>
      intro acc h
      have hlt : ∀ x ∈ acc.entries, (compare x.1 e.1).isLT := fun x hx =>
        (List.pairwise_append.1 h).2.2 x hx e List.mem_cons_self
      have hplace : (acc.insert e.1 e.2).entries = acc.entries ++ [e] :=
        place_of_forall_lt hlt
      rw [List.foldl_cons, ih _ (by rw [hplace, List.append_assoc]; exact h), hplace,
        List.append_assoc]
      rfl
  exact ext (by rw [ofList, key m.entries empty (by simpa [empty] using m.ascending)]; rfl)

end SortedMap
end Conneg
