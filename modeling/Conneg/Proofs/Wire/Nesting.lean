import Conneg.Proofs.Wire.Written

/-!
# How deep a written tree nests

A reader has a budget of containers that it may enter, so what it makes of a tree
depends on how deep the tree nests. A tree nests as deep as the value that was
written if that value has no fixed type (`Any.write_depth`), and no deeper than
its schema allows if every part has one (`Schema.write_depth_le`).
-/

namespace Conneg

open Wire

namespace Wire

variable {σ : Type}

mutual

/-- How many containers a tree nests; keys do not count. -/
def Node.depth : Node σ → Nat
  | .broken => 0
  | .scalar _ => 0
  | .seq xs => xs.depth + 1
  | .map es => es.depth + 1

/-- The same for the items of a sequence. -/
def Items.depth : Items σ → Nat
  | .done => 0
  | .broken => 0
  | .cons t rest => max t.depth rest.depth

/-- The same for the entries of a map. -/
def Entries.depth : Entries σ → Nat
  | .done => 0
  | .broken => 0
  | .cons _ t rest => max t.depth rest.depth

end

theorem Items.depth_ofList_le {ts : List (Node σ)} {n : Nat} :
    (Items.ofList ts).depth ≤ n ↔ ∀ t ∈ ts, t.depth ≤ n := by
  induction ts with
  | nil => simp [Items.ofList, Items.depth]
  | cons t ts ih =>
    show max t.depth (Items.ofList ts).depth ≤ n ↔ _
    rw [Nat.max_le, ih, List.forall_mem_cons]

theorem Entries.depth_ofList_le {es : List (Node σ × Node σ)} {n : Nat} :
    (Entries.ofList es).depth ≤ n ↔ ∀ e ∈ es, e.2.depth ≤ n := by
  induction es with
  | nil => simp [Entries.ofList, Entries.depth]
  | cons e es ih =>
    show max e.2.depth (Entries.ofList es).depth ≤ n ↔ _
    rw [Nat.max_le, ih, List.forall_mem_cons]

end Wire

variable {σ : Type} {W : WriteRules σ}

/-! ## Values of no fixed type -/

mutual

/-- How many lists and objects a value nests. -/
def Any.nesting : Any → Nat
  | .list xs => Any.nestingItems xs + 1
  | .object members => Any.nestingMembers members + 1
  | _ => 0

/-- The same for the items of a list. -/
def Any.nestingItems : List Any → Nat
  | [] => 0
  | x :: xs => max x.nesting (Any.nestingItems xs)

/-- The same for the members of an object. -/
def Any.nestingMembers : List (String × Any) → Nat
  | [] => 0
  | (_, x) :: members => max x.nesting (Any.nestingMembers members)

end

mutual

/-- A written value of no fixed type nests as deep as the value. -/
theorem Any.write_depth (v : Any) {t : Node σ} (ht : v.write W = some t) :
    t.depth = v.nesting := by
  cases v with
  | null | bool | float | text =>
    obtain rfl := Option.some.inj ht
    rfl
  | integer n =>
    obtain ⟨x, -, rfl⟩ := Option.map_eq_some_iff.1 ht
    rfl
  | list xs =>
    obtain ⟨ts, hts, rfl⟩ := Option.map_eq_some_iff.1 ht
    exact congrArg (· + 1) (Any.writeItems_depth xs hts)
  | object members =>
    obtain ⟨es, hes, rfl⟩ := Option.map_eq_some_iff.1 ht
    exact congrArg (· + 1) (Any.writeMembers_depth members hes)

theorem Any.writeItems_depth (xs : List Any) {ts : Items σ}
    (hts : Any.writeItems W xs = some ts) : ts.depth = Any.nestingItems xs := by
  cases xs with
  | nil =>
    obtain rfl := Option.some.inj hts
    rfl
  | cons x xs =>
    obtain ⟨t, ts', ht, hts', rfl⟩ := Any.writeItems_cons hts
    show max t.depth ts'.depth = max x.nesting (Any.nestingItems xs)
    rw [Any.write_depth x ht, Any.writeItems_depth xs hts']

theorem Any.writeMembers_depth (members : List (String × Any)) {es : Entries σ}
    (hes : Any.writeMembers W members = some es) : es.depth = Any.nestingMembers members := by
  match members with
  | [] =>
    obtain rfl := Option.some.inj hes
    rfl
  | (k, x) :: members =>
    obtain ⟨key, t, es', -, ht, hes', rfl⟩ := Any.writeMembers_cons hes
    show max t.depth es'.depth = max x.nesting (Any.nestingMembers members)
    rw [Any.write_depth x ht, Any.writeMembers_depth members hes']

end

/-! ## Values of a schema -/

mutual

/-- How deep a value of a schema can nest, if every part has a fixed type. -/
def Schema.depth : Schema → Nat
  | .any | .bool | .integer _ | .float | .text | .unit => 0
  | .optional s | .readOnly s => s.depth
  | .list s | .map _ s => s.depth + 1
  | .pair a c => max a.depth c.depth + 1
  | .record fs => fs.depth + 1
  | .choice cs => cs.depth

/-- The same for the fields of a record. -/
def Fields.depth : Fields → Nat
  | .nil => 0
  | .cons _ s rest => max s.depth rest.depth

/-- The same for the cases of a choice. -/
def Cases.depth : Cases → Nat
  | .nil => 0
  | .cons _ c rest => max c.depth rest.depth

/-- The same for a case with its content. -/
def Content.depth : Content → Nat
  | .unit => 0
  | .value s => s.depth + 1
  | .pair a c => max a.depth c.depth + 2
  | .record fs => fs.depth + 2

end

variable {doubles : Bool}

mutual

/-- A value all of whose parts have a fixed type nests no deeper than its
schema. -/
theorem Schema.write_depth_le (s : Schema) (hs : s.isFixed doubles = true) (v : s.Carrier)
    {t : Node σ} (ht : s.write W v = some t) : t.depth ≤ s.depth := by
  cases s with
  | any => exact nomatch hs
  | bool | float | text | unit =>
    obtain rfl := Option.some.inj ht
    exact Nat.le_refl 0
  | integer k =>
    obtain ⟨x, -, rfl⟩ := Option.map_eq_some_iff.1 ht
    exact Nat.le_refl 0
  | optional s =>
    match v with
    | none =>
      obtain rfl := Option.some.inj ht
      exact Nat.zero_le _
    | some x => exact Schema.write_depth_le s hs x ht
  | list s =>
    obtain ⟨ts, hts, rfl⟩ := Option.map_eq_some_iff.1 ht
    refine Nat.succ_le_succ (Items.depth_ofList_le.2 fun t ht => ?_)
    obtain ⟨x, -, htx⟩ := exists_of_mem_mapM hts ht
    exact Schema.write_depth_le s hs x htx
  | pair a c =>
    have hac := Bool.and_eq_true_iff.1 hs
    obtain ⟨t', u, ht', hu, rfl⟩ := Schema.write_pair ht
    have h1 := Schema.write_depth_le a hac.1 v.1 ht'
    have h2 := Schema.write_depth_le c hac.2 v.2 hu
    show max t'.depth (max u.depth 0) + 1 ≤ max a.depth c.depth + 1
    omega
  | map k s =>
    obtain ⟨es, hes, rfl⟩ := Option.map_eq_some_iff.1 ht
    refine Nat.succ_le_succ (Entries.depth_ofList_le.2 fun e he => ?_)
    obtain ⟨x, -, hex⟩ := exists_of_mem_mapM hes he
    exact Schema.write_depth_le s hs x.2 (WriteRules.entry_eq_some.1 hex).2
  | record fs =>
    obtain ⟨es, hes, rfl⟩ := Option.map_eq_some_iff.1 ht
    exact Nat.succ_le_succ (Fields.write_depth_le fs hs v hes)
  | choice cs => exact Cases.write_depth_le cs hs v ht
  | readOnly s => exact nomatch ht

theorem Fields.write_depth_le (fs : Fields) (hfs : fs.isFixed doubles = true)
    (v : fs.Carrier) {es : Entries σ} (hes : fs.write W v = some es) :
    es.depth ≤ fs.depth := by
  cases fs with
  | nil =>
    obtain rfl := Option.some.inj hes
    exact Nat.le_refl 0
  | cons name s rest =>
    have hsr := Bool.and_eq_true_iff.1 hfs
    obtain ⟨key, t, es', -, ht, hes', rfl⟩ := Fields.write_cons hes
    have h1 := Schema.write_depth_le s hsr.1 v.1 ht
    have h2 := Fields.write_depth_le rest hsr.2 v.2 hes'
    show max t.depth es'.depth ≤ max s.depth rest.depth
    omega

theorem Cases.write_depth_le (cs : Cases) (hcs : cs.isFixed doubles = true)
    (v : cs.Carrier) {t : Node σ} (ht : cs.write W v = some t) : t.depth ≤ cs.depth := by
  cases cs with
  | nil => exact nomatch v
  | cons name c rest =>
    have hcr := Bool.and_eq_true_iff.1 hcs
    match v with
    | .inl x =>
      have h := Content.write_depth_le c hcr.1 name x ht
      exact Nat.le_trans h (Nat.le_max_left _ _)
    | .inr y =>
      have h := Cases.write_depth_le rest hcr.2 y ht
      exact Nat.le_trans h (Nat.le_max_right _ _)

theorem Content.write_depth_le (c : Content) (hc : c.isFixed doubles = true) (name : String)
    (v : c.Carrier) {t : Node σ} (ht : c.write W name v = some t) : t.depth ≤ c.depth := by
  cases c with
  | unit =>
    obtain rfl := Option.some.inj ht
    exact Nat.le_refl 0
  | value s =>
    obtain ⟨key, u, -, hu, rfl⟩ := Content.write_value ht
    have h := Schema.write_depth_le s hc v hu
    show max u.depth 0 + 1 ≤ s.depth + 1
    omega
  | pair a c =>
    have hac := Bool.and_eq_true_iff.1 hc
    obtain ⟨key, t', u, -, ht', hu, rfl⟩ := Content.write_pair ht
    have h1 := Schema.write_depth_le a hac.1 v.1 ht'
    have h2 := Schema.write_depth_le c hac.2 v.2 hu
    show max (max t'.depth (max u.depth 0) + 1) 0 + 1 ≤ max a.depth c.depth + 2
    omega
  | record fs =>
    obtain ⟨key, es, -, hes, rfl⟩ := Content.write_record ht
    have h := Fields.write_depth_le fs hc v hes
    show max (es.depth + 1) 0 + 1 ≤ fs.depth + 2
    omega

end

end Conneg
