import Conneg.Wire.Write

/-!
# What a written tree is made of

A format writes a tree from the scalars and keys it has chosen, and puts nothing
else in it. So what holds of each scalar and each key holds of the whole tree
(`Schema.write_sound`).

A value is *proper* when its objects repeat no key, none is led by the raw key, and
its doubles are among those of interest, which is all that the formats may ask of a
value.
-/

namespace Conneg

open Wire

/-! ## Proper values -/

mutual

/-- Whether the objects in a value repeat no key, and its doubles are all `ok`. -/
def Any.Proper (ok : Binary64 → Prop) : Any → Prop
  | .float x => ok x.val
  | .list xs => Any.ProperItems ok xs
  | .object members => (members.map Prod.fst).Nodup ∧ Any.ProperMembers ok members
  | _ => True

/-- Whether all values of a list are proper. -/
def Any.ProperItems (ok : Binary64 → Prop) : List Any → Prop
  | [] => True
  | x :: xs => x.Proper ok ∧ Any.ProperItems ok xs

/-- Whether all values of an object are proper. -/
def Any.ProperMembers (ok : Binary64 → Prop) : List (String × Any) → Prop
  | [] => True
  | (_, x) :: members => x.Proper ok ∧ Any.ProperMembers ok members

end

mutual

/-- Whether no object in a value is led by the raw key. -/
def Any.NoRawKey : Any → Prop
  | .list xs => Any.NoRawKeyItems xs
  | .object members =>
    members.head?.map Prod.fst ≠ some Any.rawKey ∧ Any.NoRawKeyMembers members
  | _ => True

/-- Whether none is in the values of a list. -/
def Any.NoRawKeyItems : List Any → Prop
  | [] => True
  | x :: xs => x.NoRawKey ∧ Any.NoRawKeyItems xs

/-- Whether none is in the values of an object. -/
def Any.NoRawKeyMembers : List (String × Any) → Prop
  | [] => True
  | (_, x) :: members => x.NoRawKey ∧ Any.NoRawKeyMembers members

end

mutual

/-- Whether all that a value of a schema holds is proper; a value of no fixed type also
has no object that is led by the raw key. -/
def Schema.Proper (ok : Binary64 → Prop) : (s : Schema) → s.Carrier → Prop
  | .any => fun v => v.Proper ok ∧ v.NoRawKey
  | .float => fun v => ok v
  | .optional s => fun v => ∀ x, v = some x → s.Proper ok x
  | .list s => fun v => ∀ x ∈ v, s.Proper ok x
  | .pair a c => fun v => a.Proper ok v.1 ∧ c.Proper ok v.2
  | .map _ s => fun v => ∀ e ∈ v.entries, s.Proper ok e.2
  | .record fs => fun v => fs.Proper ok v
  | .choice cs => fun v => cs.Proper ok v
  | .readOnly s => fun v => s.Proper ok v
  | .bool | .integer _ | .text | .unit => fun _ => True

/-- Whether all fields of a record are. -/
def Fields.Proper (ok : Binary64 → Prop) : (fs : Fields) → fs.Carrier → Prop
  | .nil => fun _ => True
  | .cons _ s rest => fun v => s.Proper ok v.1 ∧ rest.Proper ok v.2

/-- Whether the content of a choice is. -/
def Cases.Proper (ok : Binary64 → Prop) : (cs : Cases) → cs.Carrier → Prop
  | .nil => fun _ => True
  | .cons _ c rest => fun v =>
    match v with
    | .inl x => c.Proper ok x
    | .inr y => rest.Proper ok y

/-- Whether the content of a case is. -/
def Content.Proper (ok : Binary64 → Prop) : (c : Content) → c.Carrier → Prop
  | .unit => fun _ => True
  | .value s => fun v => s.Proper ok v
  | .pair a c => fun v => a.Proper ok v.1 ∧ c.Proper ok v.2
  | .record fs => fun v => fs.Proper ok v

end

mutual

/-- Whether every part of a schema has a fixed type; doubles may be left out. -/
def Schema.isFixed (doubles : Bool) : Schema → Bool
  | .any => false
  | .float => doubles
  | .bool | .integer _ | .text | .unit => true
  | .optional s | .list s | .map _ s | .readOnly s => s.isFixed doubles
  | .pair a c => a.isFixed doubles && c.isFixed doubles
  | .record fs => fs.isFixed doubles
  | .choice cs => cs.isFixed doubles

/-- The same for the fields of a record. -/
def Fields.isFixed (doubles : Bool) : Fields → Bool
  | .nil => true
  | .cons _ s rest => s.isFixed doubles && rest.isFixed doubles

/-- The same for the cases of a choice. -/
def Cases.isFixed (doubles : Bool) : Cases → Bool
  | .nil => true
  | .cons _ c rest => c.isFixed doubles && rest.isFixed doubles

/-- The same for the content of a case. -/
def Content.isFixed (doubles : Bool) : Content → Bool
  | .unit => true
  | .value s => s.isFixed doubles
  | .pair a c => a.isFixed doubles && c.isFixed doubles
  | .record fs => fs.isFixed doubles

end

variable {doubles : Bool} {ok : Binary64 → Prop}

mutual

/-- A value all of whose parts have a fixed type is proper. -/
theorem Schema.proper_of_isFixed (hok : doubles = true → ∀ x, ok x) (s : Schema)
    (hs : s.isFixed doubles = true) (v : s.Carrier) : s.Proper ok v := by
  cases s with
  | any => exact nomatch hs
  | bool | integer | text | unit => exact trivial
  | float => exact hok hs v
  | optional s => exact fun x _ => Schema.proper_of_isFixed hok s hs x
  | list s => exact fun x _ => Schema.proper_of_isFixed hok s hs x
  | pair a c =>
    have hac := Bool.and_eq_true_iff.1 hs
    exact ⟨Schema.proper_of_isFixed hok a hac.1 v.1, Schema.proper_of_isFixed hok c hac.2 v.2⟩
  | map k s => exact fun e _ => Schema.proper_of_isFixed hok s hs e.2
  | record fs => exact Fields.proper_of_isFixed hok fs hs v
  | choice cs => exact Cases.proper_of_isFixed hok cs hs v
  | readOnly s => exact Schema.proper_of_isFixed hok s hs v

theorem Fields.proper_of_isFixed (hok : doubles = true → ∀ x, ok x) (fs : Fields)
    (hfs : fs.isFixed doubles = true) (v : fs.Carrier) : fs.Proper ok v := by
  cases fs with
  | nil => exact trivial
  | cons name s rest =>
    have hsr := Bool.and_eq_true_iff.1 hfs
    exact ⟨Schema.proper_of_isFixed hok s hsr.1 v.1,
      Fields.proper_of_isFixed hok rest hsr.2 v.2⟩

theorem Cases.proper_of_isFixed (hok : doubles = true → ∀ x, ok x) (cs : Cases)
    (hcs : cs.isFixed doubles = true) (v : cs.Carrier) : cs.Proper ok v := by
  cases cs with
  | nil => exact nomatch v
  | cons name c rest =>
    have hcr := Bool.and_eq_true_iff.1 hcs
    match v with
    | .inl x => exact Content.proper_of_isFixed hok c hcr.1 x
    | .inr y => exact Cases.proper_of_isFixed hok rest hcr.2 y

theorem Content.proper_of_isFixed (hok : doubles = true → ∀ x, ok x) (c : Content)
    (hc : c.isFixed doubles = true) (v : c.Carrier) : c.Proper ok v := by
  cases c with
  | unit => exact trivial
  | value s => exact Schema.proper_of_isFixed hok s hc v
  | pair a c =>
    have hac := Bool.and_eq_true_iff.1 hc
    exact ⟨Schema.proper_of_isFixed hok a hac.1 v.1, Schema.proper_of_isFixed hok c hac.2 v.2⟩
  | record fs => exact Fields.proper_of_isFixed hok fs hc v

end

/-- A number of a value without fixed type is written as signed or unsigned, as
it fits. -/
theorem WideInt.mem_kind (n : WideInt) :
    (if n.val < 0 then IntKind.i64 else .u64).low ≤ n.val ∧
      n.val ≤ (if n.val < 0 then IntKind.i64 else .u64).high := by
  have hlow := n.low_le
  have hhigh := n.lt_high
  by_cases h : n.val < 0
  · rw [if_pos h]
    simp only [IntKind.low, IntKind.high]
    omega
  · rw [if_neg h]
    simp only [IntKind.low, IntKind.high]
    omega

/-! ## Optional results -/

variable {α β γ : Type}

/-- A list is mapped to results when its head and its tail are. -/
theorem mapM_cons_eq_some {f : α → Option β} {x : α} {xs : List α} {l : List β} :
    (x :: xs).mapM f = some l ↔ ∃ y ys, f x = some y ∧ xs.mapM f = some ys ∧ l = y :: ys := by
  rw [List.mapM_cons]
  cases f x <;> cases xs.mapM f <;> simp [eq_comm]

/-- There are as many results as members. -/
theorem length_of_mapM {f : α → Option β} {xs : List α} {ys : List β}
    (h : xs.mapM f = some ys) : ys.length = xs.length := by
  induction xs generalizing ys with
  | nil =>
    obtain rfl : ([] : List β) = ys := by simpa using h
    rfl
  | cons x xs ih =>
    obtain ⟨y, zs, -, hzs, rfl⟩ := mapM_cons_eq_some.1 h
    exact congrArg (· + 1) (ih hzs)

/-- Each result comes from a member of the list. -/
theorem exists_of_mem_mapM {f : α → Option β} {xs : List α} {ys : List β}
    (h : xs.mapM f = some ys) {y : β} (hy : y ∈ ys) : ∃ x ∈ xs, f x = some y := by
  induction xs generalizing ys with
  | nil =>
    obtain rfl : ([] : List β) = ys := by simpa using h
    simp at hy
  | cons x xs ih =>
    obtain ⟨z, zs, hz, hzs, rfl⟩ := mapM_cons_eq_some.1 h
    rcases List.mem_cons.1 hy with rfl | hy
    · exact ⟨x, List.mem_cons_self, hz⟩
    · obtain ⟨x', hx', hfx'⟩ := ih hzs hy
      exact ⟨x', List.mem_cons_of_mem _ hx', hfx'⟩

/-- A list is mapped to results exactly if every member has one. -/
theorem exists_mapM_iff {f : α → Option β} {xs : List α} :
    (∃ ys, xs.mapM f = some ys) ↔ ∀ x ∈ xs, ∃ y, f x = some y := by
  induction xs with
  | nil => simp
  | cons x xs ih =>
    rw [List.forall_mem_cons, ← ih]
    constructor
    · rintro ⟨l, hl⟩
      obtain ⟨y, ys, hy, hys, -⟩ := mapM_cons_eq_some.1 hl
      exact ⟨⟨y, hy⟩, ys, hys⟩
    · rintro ⟨⟨y, hy⟩, ys, hys⟩
      exact ⟨y :: ys, mapM_cons_eq_some.2 ⟨y, ys, hy, hys, rfl⟩⟩

/-- Something is made of a result exactly if there is one. -/
theorem exists_map_iff {o : Option α} {f : α → β} :
    (∃ y, o.map f = some y) ↔ ∃ x, o = some x := by
  cases o <;> simp

/-- Two results make one exactly if there are both. -/
theorem exists_bind_pair_iff {r : Option α} {q : Option β} {f : α → β → γ} :
    (∃ t, (do let x ← r; let y ← q; some (f x y)) = some t) ↔
      (∃ x, r = some x) ∧ ∃ y, q = some y := by
  cases r <;> cases q <;> simp

/-- Three results make one exactly if there are all of them. -/
theorem exists_bind_three_iff {δ : Type} {p : Option α} {r : Option β} {q : Option γ}
    {f : α → β → γ → δ} :
    (∃ t, (do let x ← p; let y ← r; let z ← q; some (f x y z)) = some t) ↔
      (∃ x, p = some x) ∧ (∃ y, r = some y) ∧ ∃ z, q = some z := by
  cases p <;> cases r <;> cases q <;> simp

/-- What is made of two results is made of one each. -/
theorem bind_pair_eq_some {r : Option α} {q : Option β} {f : α → β → Option γ} {z : γ}
    (h : (do let x ← r; let y ← q; f x y) = some z) :
    ∃ x y, r = some x ∧ q = some y ∧ f x y = some z := by
  simp only [Option.bind_eq_bind, Option.bind_eq_some_iff] at h
  obtain ⟨x, hx, y, hy, hf⟩ := h
  exact ⟨x, y, hx, hy, hf⟩

variable {σ : Type} {W : WriteRules σ}

/-! ## What a writer makes of the parts -/

theorem Any.writeItems_cons {x : Any} {xs : List Any} {ts : Items σ}
    (h : Any.writeItems W (x :: xs) = some ts) :
    ∃ t rest, x.write W = some t ∧ Any.writeItems W xs = some rest ∧ ts = .cons t rest := by
  rw [Any.writeItems] at h
  obtain ⟨t, rest, ht, hrest, heq⟩ := bind_pair_eq_some h
  exact ⟨t, rest, ht, hrest, (Option.some.inj heq).symm⟩

theorem Any.writeMembers_cons {k : String} {x : Any} {members : List (String × Any)}
    {es : Entries σ} (h : Any.writeMembers W ((k, x) :: members) = some es) :
    ∃ key t rest, W.name k = some key ∧ x.write W = some t ∧
      Any.writeMembers W members = some rest ∧ es = .cons (.scalar key) t rest := by
  rw [Any.writeMembers] at h
  obtain ⟨key, hkey, h⟩ := Option.bind_eq_some_iff.1 h
  obtain ⟨t, rest, ht, hrest, heq⟩ := bind_pair_eq_some h
  exact ⟨key, t, rest, hkey, ht, hrest, (Option.some.inj heq).symm⟩

/-- A written entry is a written key and a written value. -/
theorem Wire.WriteRules.entry_eq_some {k : KeyKind} {write : α → Option (Node σ)}
    {e : k.Carrier × α} {p : Node σ × Node σ} :
    W.entry write e = some p ↔ W.mapKey k e.1 = some p.1 ∧ write e.2 = some p.2 := by
  simp only [WriteRules.entry, Option.bind_eq_bind, Option.bind_eq_some_iff]
  constructor
  · rintro ⟨key, hkey, t, ht, hp⟩
    obtain rfl := Option.some.inj hp
    exact ⟨hkey, ht⟩
  · rintro ⟨hkey, ht⟩
    exact ⟨p.1, hkey, p.2, ht, rfl⟩

theorem Schema.write_pair {a c : Schema} {v : (Schema.pair a c).Carrier} {t : Node σ}
    (h : (Schema.pair a c).write W v = some t) :
    ∃ t₁ t₂, a.write W v.1 = some t₁ ∧ c.write W v.2 = some t₂ ∧
      t = .seq (.ofList [t₁, t₂]) := by
  obtain ⟨t₁, t₂, ht₁, ht₂, heq⟩ := bind_pair_eq_some h
  exact ⟨t₁, t₂, ht₁, ht₂, (Option.some.inj heq).symm⟩

theorem Fields.write_cons {name : String} {s : Schema} {rest : Fields}
    {v : (Fields.cons name s rest).Carrier} {es : Entries σ}
    (h : (Fields.cons name s rest).write W v = some es) :
    ∃ key t es', W.name name = some key ∧ s.write W v.1 = some t ∧
      rest.write W v.2 = some es' ∧ es = .cons (.scalar key) t es' := by
  obtain ⟨key, hkey, h⟩ := Option.bind_eq_some_iff.1 h
  obtain ⟨t, es', ht, hes', heq⟩ := bind_pair_eq_some h
  exact ⟨key, t, es', hkey, ht, hes', (Option.some.inj heq).symm⟩

/-- A case with content is a map of one entry, from its name to what is written of
the content. -/
theorem Content.write_value {s : Schema} {name : String} {v : s.Carrier} {t : Node σ}
    (h : (Content.value s).write W name v = some t) :
    ∃ key u, W.name name = some key ∧ s.write W v = some u ∧
      t = .map (.ofList [(.scalar key, u)]) := by
  obtain ⟨key, u, hkey, hu, heq⟩ := bind_pair_eq_some h
  exact ⟨key, u, hkey, hu, (Option.some.inj heq).symm⟩

theorem Content.write_pair {a c : Schema} {name : String} {v : (Content.pair a c).Carrier}
    {t : Node σ} (h : (Content.pair a c).write W name v = some t) :
    ∃ key t₁ t₂, W.name name = some key ∧ a.write W v.1 = some t₁ ∧
      c.write W v.2 = some t₂ ∧ t = .map (.ofList [(.scalar key, .seq (.ofList [t₁, t₂]))]) := by
  obtain ⟨key, hkey, h⟩ := Option.bind_eq_some_iff.1 h
  obtain ⟨t₁, t₂, ht₁, ht₂, heq⟩ := bind_pair_eq_some h
  exact ⟨key, t₁, t₂, hkey, ht₁, ht₂, (Option.some.inj heq).symm⟩

theorem Content.write_record {fs : Fields} {name : String} {v : fs.Carrier} {t : Node σ}
    (h : (Content.record fs).write W name v = some t) :
    ∃ key es, W.name name = some key ∧ fs.write W v = some es ∧
      t = .map (.ofList [(.scalar key, .map es)]) := by
  obtain ⟨key, es, hkey, hes, heq⟩ := bind_pair_eq_some h
  exact ⟨key, es, hkey, hes, (Option.some.inj heq).symm⟩

/-! ## Scalars and keys of a tree -/

namespace Wire

mutual

/-- Whether a tree is unbroken, its scalars satisfy `P` and its keys `K`. -/
def Node.Sound (P : σ → Prop) (K : Node σ → Prop) : Node σ → Prop
  | .broken => False
  | .scalar x => P x
  | .seq xs => xs.Sound P K
  | .map es => es.Sound P K

/-- The same for the items of a sequence. -/
def Items.Sound (P : σ → Prop) (K : Node σ → Prop) : Items σ → Prop
  | .done => True
  | .broken => False
  | .cons t rest => t.Sound P K ∧ rest.Sound P K

/-- The same for the entries of a map. -/
def Entries.Sound (P : σ → Prop) (K : Node σ → Prop) : Entries σ → Prop
  | .done => True
  | .broken => False
  | .cons key t rest => K key ∧ t.Sound P K ∧ rest.Sound P K

end

variable {P : σ → Prop} {K : Node σ → Prop}

theorem Items.sound_ofList {ts : List (Node σ)} (h : ∀ t ∈ ts, t.Sound P K) :
    (Items.ofList ts).Sound P K := by
  induction ts with
  | nil => exact trivial
  | cons t ts ih =>
    exact ⟨h t List.mem_cons_self, ih fun t' ht' => h t' (List.mem_cons_of_mem _ ht')⟩

theorem Entries.sound_ofList {es : List (Node σ × Node σ)}
    (h : ∀ e ∈ es, K e.1 ∧ e.2.Sound P K) : (Entries.ofList es).Sound P K := by
  induction es with
  | nil => exact trivial
  | cons e es ih =>
    obtain ⟨hkey, ht⟩ := h e List.mem_cons_self
    exact ⟨hkey, ht, ih fun e' he' => h e' (List.mem_cons_of_mem _ he')⟩

/-- All that a format writes is of these kinds: scalars `P` and keys `K`, for
numbers in the range of their type and doubles that are `ok`. -/
structure WriteRules.Within (W : WriteRules σ) (ok : Binary64 → Prop) (P : σ → Prop)
    (K : Node σ → Prop) : Prop where
  null : P W.null
  bool : ∀ b, P (W.bool b)
  integer : ∀ {k : IntKind} {n : Int} {x : σ}, W.integer k n = some x →
    k.low ≤ n → n ≤ k.high → P x
  float : ∀ {x : Binary64}, ok x → P (W.float x)
  text : ∀ s, P (W.text s)
  name : ∀ {s : String} {x : σ}, W.name s = some x → K (.scalar x)
  mapKey : ∀ {k : KeyKind} {x : k.Carrier} {t : Node σ}, W.mapKey k x = some t → K t

end Wire

variable {P : σ → Prop} {K : Node σ → Prop}

mutual

/-- A written value of no fixed type is made of what the format writes. -/
theorem Any.write_sound (h : W.Within ok P K) (v : Any) {t : Node σ}
    (hv : (∀ x, ok x) ∨ v.Proper ok) (ht : v.write W = some t) : t.Sound P K := by
  cases v with
  | null =>
    obtain rfl := Option.some.inj ht
    exact h.null
  | bool b =>
    obtain rfl := Option.some.inj ht
    exact h.bool b
  | integer n =>
    obtain ⟨x, hx, rfl⟩ := Option.map_eq_some_iff.1 ht
    exact h.integer hx n.mem_kind.1 n.mem_kind.2
  | float x =>
    obtain rfl := Option.some.inj ht
    exact h.float (hv.elim (· x.val) id)
  | text s =>
    obtain rfl := Option.some.inj ht
    exact h.text s
  | list xs =>
    obtain ⟨ts, hts, rfl⟩ := Option.map_eq_some_iff.1 ht
    exact Any.writeItems_sound h xs hv hts
  | object members =>
    obtain ⟨es, hes, rfl⟩ := Option.map_eq_some_iff.1 ht
    exact Any.writeMembers_sound h members (hv.imp_right And.right) hes

theorem Any.writeItems_sound (h : W.Within ok P K) (xs : List Any) {ts : Items σ}
    (hxs : (∀ x, ok x) ∨ Any.ProperItems ok xs) (hts : Any.writeItems W xs = some ts) :
    ts.Sound P K := by
  cases xs with
  | nil =>
    obtain rfl := Option.some.inj hts
    exact trivial
  | cons x xs =>
    obtain ⟨t, ts', ht, hts', rfl⟩ := Any.writeItems_cons hts
    exact ⟨Any.write_sound h x (hxs.imp_right And.left) ht,
      Any.writeItems_sound h xs (hxs.imp_right And.right) hts'⟩

theorem Any.writeMembers_sound (h : W.Within ok P K) (members : List (String × Any))
    {es : Entries σ} (hm : (∀ x, ok x) ∨ Any.ProperMembers ok members)
    (hes : Any.writeMembers W members = some es) : es.Sound P K := by
  match members with
  | [] =>
    obtain rfl := Option.some.inj hes
    exact trivial
  | (k, x) :: members =>
    obtain ⟨key, t, es', hkey, ht, hes', rfl⟩ := Any.writeMembers_cons hes
    exact ⟨h.name hkey, Any.write_sound h x (hm.imp_right And.left) ht,
      Any.writeMembers_sound h members (hm.imp_right And.right) hes'⟩

end

mutual

/-- A written value is made of what the format writes, if its doubles are `ok`; where all
doubles are, nothing is asked of the value. -/
theorem Schema.write_sound (h : W.Within ok P K) (s : Schema) (v : s.Carrier) {t : Node σ}
    (hv : (∀ x, ok x) ∨ s.Proper ok v) (ht : s.write W v = some t) : t.Sound P K := by
  cases s with
  | any => exact Any.write_sound h v (hv.imp_right And.left) ht
  | bool =>
    obtain rfl := Option.some.inj ht
    exact h.bool v
  | integer k =>
    obtain ⟨x, hx, rfl⟩ := Option.map_eq_some_iff.1 ht
    exact h.integer hx v.low_le v.le_high
  | float =>
    obtain rfl := Option.some.inj ht
    exact h.float (hv.elim (· v) id)
  | text =>
    obtain rfl := Option.some.inj ht
    exact h.text v
  | unit =>
    obtain rfl := Option.some.inj ht
    exact h.null
  | optional s =>
    match v with
    | none =>
      obtain rfl := Option.some.inj ht
      exact h.null
    | some x => exact Schema.write_sound h s x (hv.imp_right (· x rfl)) ht
  | list s =>
    obtain ⟨ts, hts, rfl⟩ := Option.map_eq_some_iff.1 ht
    refine Items.sound_ofList fun t ht => ?_
    obtain ⟨x, hx, htx⟩ := exists_of_mem_mapM hts ht
    exact Schema.write_sound h s x (hv.imp_right (· x hx)) htx
  | pair a c =>
    obtain ⟨t', u, ht', hu, rfl⟩ := Schema.write_pair ht
    exact ⟨Schema.write_sound h a v.1 (hv.imp_right And.left) ht',
      Schema.write_sound h c v.2 (hv.imp_right And.right) hu, trivial⟩
  | map k s =>
    obtain ⟨es, hes, rfl⟩ := Option.map_eq_some_iff.1 ht
    refine Entries.sound_ofList fun e he => ?_
    obtain ⟨x, hx, hex⟩ := exists_of_mem_mapM hes he
    obtain ⟨hkey, ht⟩ := WriteRules.entry_eq_some.1 hex
    exact ⟨h.mapKey hkey, Schema.write_sound h s x.2 (hv.imp_right (· x hx)) ht⟩
  | record fs =>
    obtain ⟨es, hes, rfl⟩ := Option.map_eq_some_iff.1 ht
    exact Fields.write_sound h fs v hv hes
  | choice cs => exact Cases.write_sound h cs v hv ht
  | readOnly s => exact nomatch ht

theorem Fields.write_sound (h : W.Within ok P K) (fs : Fields) (v : fs.Carrier)
    {es : Entries σ} (hv : (∀ x, ok x) ∨ fs.Proper ok v) (hes : fs.write W v = some es) :
    es.Sound P K := by
  cases fs with
  | nil =>
    obtain rfl := Option.some.inj hes
    exact trivial
  | cons name s rest =>
    obtain ⟨key, t, es', hkey, ht, hes', rfl⟩ := Fields.write_cons hes
    exact ⟨h.name hkey, Schema.write_sound h s v.1 (hv.imp_right And.left) ht,
      Fields.write_sound h rest v.2 (hv.imp_right And.right) hes'⟩

theorem Cases.write_sound (h : W.Within ok P K) (cs : Cases) (v : cs.Carrier) {t : Node σ}
    (hv : (∀ x, ok x) ∨ cs.Proper ok v) (ht : cs.write W v = some t) : t.Sound P K := by
  cases cs with
  | nil => exact nomatch v
  | cons name c rest =>
    match v with
    | .inl x => exact Content.write_sound h c name x hv ht
    | .inr y => exact Cases.write_sound h rest y hv ht

theorem Content.write_sound (h : W.Within ok P K) (c : Content) (name : String)
    (v : c.Carrier) {t : Node σ} (hv : (∀ x, ok x) ∨ c.Proper ok v)
    (ht : c.write W name v = some t) : t.Sound P K := by
  cases c with
  | unit =>
    obtain rfl := Option.some.inj ht
    exact h.text name
  | value s =>
    obtain ⟨key, u, hkey, hu, rfl⟩ := Content.write_value ht
    exact ⟨h.name hkey, Schema.write_sound h s v hv hu, trivial⟩
  | pair a c =>
    obtain ⟨key, t', u, hkey, ht', hu, rfl⟩ := Content.write_pair ht
    exact ⟨h.name hkey, ⟨Schema.write_sound h a v.1 (hv.imp_right And.left) ht',
      Schema.write_sound h c v.2 (hv.imp_right And.right) hu, trivial⟩, trivial⟩
  | record fs =>
    obtain ⟨key, es, hkey, hes, rfl⟩ := Content.write_record ht
    exact ⟨h.name hkey, Fields.write_sound h fs v hv hes, trivial⟩

end

end Conneg
