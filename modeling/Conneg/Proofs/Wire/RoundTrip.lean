import Conneg.Proofs.Wire.Nesting
import Conneg.Wire.Read

/-!
# A written tree is read back

The readers and the writers of a schema are the same for every format, and so is
the reason why the one undoes the other. A format is `Faithful` if its own
decisions fit together: what it writes for a scalar, a name or a key it also reads
as that. Then every reader undoes its writer (`Schema.read_write`), for proper
values, on a schema in which nothing is said twice (`Schema.isRegular`), and
within a budget that allows the depth of the tree.

There is one lemma for each kind of schema, about any reader that undoes a writer
(`ReadsBack`); the induction over the schema puts them together. A record is the
kind that takes an argument: its entries are read by name, so each of them passes
over the fields declared before (`recordEntries_skip`).
-/

namespace Conneg.Wire

variable {σ : Type}

/-! ## Budgets -/

/-- Whether a budget lets a reader enter that many nested containers. -/
def Budget.Allows (b : Budget) (n : Nat) : Prop := ∀ m, b = some m → n ≤ m

theorem Budget.Allows.of_le {b : Budget} {m n : Nat} (h : b.Allows n) (hle : m ≤ n) :
    b.Allows m := fun k hk => Nat.le_trans hle (h k hk)

/-- A container may be entered, and what is left allows what is inside. -/
theorem Budget.Allows.enter {b : Budget} {n : Nat} (h : b.Allows (n + 1)) :
    ∃ b', b.enter = some b' ∧ b'.Allows n := by
  match b with
  | none => exact ⟨none, rfl, fun k hk => nomatch hk⟩
  | some 0 => exact absurd (h 0 rfl) (Nat.not_succ_le_zero n)
  | some (m + 1) =>
    refine ⟨some m, rfl, fun k hk => ?_⟩
    obtain rfl := Option.some.inj hk
    exact Nat.le_of_succ_le_succ (h (m + 1) rfl)

/-! ## Formats that read what they write -/

/-- What a format writes for a scalar, a name or a key, it reads as that; doubles
need to be `ok`. -/
structure Faithful (R : ReadRules σ) (W : WriteRules σ) (ok : Binary64 → Prop) : Prop where
  null : R.meaning W.null = .null
  bool : ∀ b, R.meaning (W.bool b) = .bool b
  integer : ∀ {k : IntKind} {n : Int} {x : σ}, W.integer k n = some x →
    k.low ≤ n → n ≤ k.high → R.meaning x = .integer n
  float : ∀ {x : Binary64}, ok x → R.meaning (W.float x) = .float x
  text : ∀ s, R.meaning (W.text s) = .text s
  bareCase : ∀ s, R.caseLabel (W.text s) = some (.name s)
  field : ∀ {s : String} {x : σ}, W.name s = some x → R.fieldLabel x = some (.name s)
  case : ∀ {s : String} {x : σ}, W.name s = some x → R.caseLabel x = some (.name s)
  member : ∀ {s : String} {x : σ}, W.name s = some x → ∀ first, R.memberName first x = some s
  mapKey : ∀ {k : KeyKind} {x : k.Carrier} {t : Node σ}, W.mapKey k x = some t →
    R.mapKey k t = some x
  seq : ∀ xs, R.asSequence (.seq xs) = .seq xs
  map : ∀ es, R.asSequence (.map es) = .map es

/-- A reader undoes a writer on good values, within a budget that allows the
tree. -/
def ReadsBack {α : Type} (read : Reader σ α) (write : α → Option (Node σ))
    (good : α → Prop) : Prop :=
  ∀ (b : Budget) (v : α) (t : Node σ), good v → write v = some t → b.Allows t.depth →
    read b t = .ok v

variable {R : ReadRules σ} {W : WriteRules σ} {ok : Binary64 → Prop} {α β : Type}

/-! ## The kinds of schema -/

namespace Reader

/-- A scalar is read as what is seen in its meaning, if that is anything. -/
theorem leaf_eq_elim {view : Scalar → Option α} {b : Budget} {x : σ} :
    leaf R view b (.scalar x) = (view (R.meaning x)).elim (.error .unreadable) .ok := by
  cases h : view (R.meaning x) <;> simp only [leaf, h, Option.elim]

/-- A scalar with the wanted meaning is read. -/
theorem leaf_scalar {view : Scalar → Option α} {b : Budget} {x : σ} {v : α}
    (h : view (R.meaning x) = some v) : leaf R view b (.scalar x) = .ok v := by
  rw [leaf_eq_elim, h]
  rfl

/-- An optional value is read back if no value is written as null. -/
theorem optional_readsBack (h : Faithful R W ok) {read : Reader σ α}
    {write : α → Option (Node σ)} {good : α → Prop} (hread : ReadsBack read write good)
    (hnull : ∀ v t, good v → write v = some t → isNull R t = false)
    {b : Budget} {v : Option α} {t : Node σ} (hv : ∀ x, v = some x → good x)
    (ht : v.elim (some (.scalar W.null)) write = some t)
    (hb : b.Allows t.depth) : optional R read b t = .ok v := by
  cases v with
  | none =>
    obtain rfl := Option.some.inj ht
    have hisNull : isNull R (.scalar W.null) = true := by
      simp only [isNull, h.null, Scalar.asUnit?, Option.isSome_some]
    rw [optional, if_pos hisNull]
  | some x =>
    have hx := hv x rfl
    have hisNull : ¬ isNull R t = true := by
      rw [hnull x t hx ht]
      exact Bool.false_ne_true
    rw [optional, if_neg hisNull, hread b x t hx ht hb]
    rfl

/-- The items written of a list are read back, onto those read so far. -/
theorem items_of_mapM {read : Node σ → Except Fault α} {write : α → Option (Node σ)}
    {vs : List α} {ts : List (Node σ)} (hts : vs.mapM write = some ts)
    (hread : ∀ v ∈ vs, ∀ t ∈ ts, write v = some t → read t = .ok v) (rev : List α) :
    items read (.ofList ts) rev = .ok (rev.reverse ++ vs) := by
  induction vs generalizing ts rev with
  | nil =>
    obtain rfl : ([] : List (Node σ)) = ts := by simpa using hts
    simp [Items.ofList, items]
  | cons v vs ih =>
    obtain ⟨t, ts', ht, hts', rfl⟩ := mapM_cons_eq_some.1 hts
    have hv := hread v List.mem_cons_self t List.mem_cons_self ht
    have hvs := ih hts' (fun v' hv' t' ht' =>
      hread v' (List.mem_cons_of_mem _ hv') t' (List.mem_cons_of_mem _ ht')) (v :: rev)
    show items read (.cons t (.ofList ts')) rev = _
    simp only [items, hv]
    rw [hvs, List.reverse_cons, List.append_assoc]
    rfl

/-- A list is read back if its items are. -/
theorem list_readsBack (h : Faithful R W ok) {read : Reader σ α}
    {write : α → Option (Node σ)} {good : α → Prop} (hread : ReadsBack read write good)
    {b : Budget} {vs : List α} {t : Node σ} (hvs : ∀ v ∈ vs, good v)
    (ht : (vs.mapM write).map (fun ts => Node.seq (.ofList ts)) = some t)
    (hb : b.Allows t.depth) : list R read b t = .ok vs := by
  obtain ⟨ts, hts, rfl⟩ := Option.map_eq_some_iff.1 ht
  obtain ⟨b', hb', hallows⟩ := Budget.Allows.enter hb
  have hitems : items (read b') (.ofList ts) [] = .ok ([].reverse ++ vs) := by
    refine items_of_mapM hts (fun v hv t ht htv => ?_) []
    exact hread b' v t (hvs v hv) htv
      (hallows.of_le (Items.depth_ofList_le.1 (Nat.le_refl _) t ht))
  simp only [list, h.seq, hb']
  exact hitems

/-- A pair is read back if both parts are. -/
theorem pair_readsBack (h : Faithful R W ok) {read : Reader σ α} {read' : Reader σ β}
    {write : α → Option (Node σ)} {write' : β → Option (Node σ)} {good : α → Prop}
    {good' : β → Prop} (hread : ReadsBack read write good)
    (hread' : ReadsBack read' write' good') {b : Budget} {v : α × β} {t u : Node σ}
    (hv : good v.1 ∧ good' v.2) (ht : write v.1 = some t) (hu : write' v.2 = some u)
    (hb : b.Allows (Node.seq (.ofList [t, u])).depth) :
    pair R read read' b (.seq (.ofList [t, u])) = .ok v := by
  obtain ⟨b', hb', hallows⟩ := Budget.Allows.enter hb
  have hdepth := Items.depth_ofList_le.1 (Nat.le_refl (Items.ofList [t, u]).depth)
  have hfirst := hread b' v.1 t hv.1 ht (hallows.of_le (hdepth t (by simp)))
  have hsecond := hread' b' v.2 u hv.2 hu (hallows.of_le (hdepth u (by simp)))
  simp only [pair, h.seq, hb']
  show two _ (read b') (read' b') (.cons t (.cons u .done)) = _
  simp only [two, hfirst, hsecond, Items.ends, Bool.or_true, if_true]
  rfl

/-- The entries written of a map are read back, into those read so far. -/
theorem mapEntries_of_mapM (h : Faithful R W ok) {k : KeyKind}
    {read : Node σ → Except Fault α} {write : α → Option (Node σ)}
    {ms : List (k.Carrier × α)} {es : List (Node σ × Node σ)}
    (hes : ms.mapM (W.entry write) = some es)
    (hread : ∀ m ∈ ms, ∀ e ∈ es, write m.2 = some e.2 → read e.2 = .ok m.2)
    (acc : SortedMap k.Carrier α) :
    mapEntries (R.mapKey k) read (.ofList es) acc
      = .ok (ms.foldl (fun m e => m.insert e.1 e.2) acc) := by
  induction ms generalizing es acc with
  | nil =>
    obtain rfl : ([] : List (Node σ × Node σ)) = es := by simpa using hes
    rfl
  | cons m ms ih =>
    obtain ⟨e, es', he, hes', rfl⟩ := mapM_cons_eq_some.1 hes
    obtain ⟨hkey, hvalue⟩ := WriteRules.entry_eq_some.1 he
    have hm := hread m List.mem_cons_self e List.mem_cons_self hvalue
    have hms := ih hes' (fun m' hm' e' he' =>
      hread m' (List.mem_cons_of_mem _ hm') e' (List.mem_cons_of_mem _ he'))
      (acc.insert m.1 m.2)
    show mapEntries (R.mapKey k) read (.cons e.1 e.2 (.ofList es')) acc = _
    simp only [mapEntries, h.mapKey hkey, hm]
    exact hms

/-- A map is read back if its values are. -/
theorem map_readsBack (h : Faithful R W ok) {k : KeyKind} {read : Reader σ α}
    {write : α → Option (Node σ)} {good : α → Prop} (hread : ReadsBack read write good)
    {b : Budget} {m : SortedMap k.Carrier α} {t : Node σ} (hm : ∀ e ∈ m.entries, good e.2)
    (ht : (m.entries.mapM (W.entry write)).map (fun es => Node.map (.ofList es)) = some t)
    (hb : b.Allows t.depth) : map R k read b t = .ok m := by
  obtain ⟨es, hes, rfl⟩ := Option.map_eq_some_iff.1 ht
  obtain ⟨b', hb', hallows⟩ := Budget.Allows.enter hb
  have hentries : mapEntries (R.mapKey k) (read b') (.ofList es) .empty
      = .ok (m.entries.foldl (fun m e => m.insert e.1 e.2) .empty) := by
    refine mapEntries_of_mapM h hes (fun e he p hp hep => ?_) .empty
    exact hread b' e.2 p.2 (hm e he) hep
      (hallows.of_le (Entries.depth_ofList_le.1 (Nat.le_refl _) p hp))
  simp only [map, hb']
  rw [hentries]
  -- a map that is filled with its own entries, in their order, is the map
  exact congrArg Except.ok (SortedMap.ofList_entries m)

end Reader

/-- Whether all keys are names among these, and the map ends. -/
def Entries.NamedIn (R : ReadRules σ) (names : List String) : Entries σ → Prop
  | .done => True
  | .broken => False
  | .cons key _ rest =>
    (∃ x name, key = .scalar x ∧ R.fieldLabel x = some (.name name) ∧ name ∈ names) ∧
      rest.NamedIn R names

theorem Entries.NamedIn.of_subset {names names' : List String} (hsub : names ⊆ names')
    {es : Entries σ} (h : es.NamedIn R names) : es.NamedIn R names' := by
  cases es with
  | done => exact trivial
  | broken => exact h
  | cons key t rest =>
    obtain ⟨⟨x, name, hkey, hlabel, hname⟩, hrest⟩ := h
    exact ⟨⟨x, name, hkey, hlabel, hsub hname⟩, NamedIn.of_subset hsub hrest⟩

end Conneg.Wire

namespace Conneg

open Wire

variable {σ : Type} {R : ReadRules σ} {W : WriteRules σ} {ok : Binary64 → Prop}

/-! ## Records -/

/-- The entries of a written record are named by its fields. -/
theorem Fields.write_namedIn (h : Faithful R W ok) (fs : Fields) (v : fs.Carrier)
    {es : Entries σ} (hes : fs.write W v = some es) : es.NamedIn R fs.names := by
  cases fs with
  | nil =>
    obtain rfl := Option.some.inj hes
    exact trivial
  | cons name s rest =>
    obtain ⟨key, t, es', hkey, -, hes', rfl⟩ := Fields.write_cons hes
    refine ⟨⟨key, name, rfl, h.field hkey, List.mem_cons_self⟩, ?_⟩
    exact (Fields.write_namedIn h rest v.2 hes').of_subset (List.subset_cons_self _ _)

/-- All fields of a record, read. -/
def Fields.filled : (fs : Fields) → fs.Carrier → fs.Partial
  | .nil, _ => ()
  | .cons _ _ rest, v => (some v.1, rest.filled v.2)

/-- The record of all its fields is the record. -/
theorem Fields.finish_filled (fs : Fields) (v : fs.Carrier) :
    fs.finish (fs.filled v) = .ok v := by
  cases fs with
  | nil => rfl
  | cons name s rest =>
    simp only [Fields.filled, Fields.finish, Option.some_or]
    rw [Fields.finish_filled rest v.2]
    rfl

/-- Entries that are not named by the first field are read into the others. -/
theorem Fields.recordEntries_skip (name : String) (s : Schema) (rest : Fields)
    {names : List String} (hname : name ∉ names) {b : Budget} (x : Option s.Carrier)
    (es : Entries σ) (hes : es.NamedIn R names) (p : rest.Partial) :
    Reader.recordEntries R b ((Fields.cons name s rest).put R b) es (x, p)
      = (Reader.recordEntries R b (rest.put R b) es p).map fun q => (x, q) := by
  match es with
  | .done => rfl
  | .broken => exact hes.elim
  | .cons key t es =>
    obtain ⟨⟨y, other, rfl, hlabel, hother⟩, hes⟩ := hes
    have hne : Label.here name (.name other) = false := by
      have hne : other ≠ name := fun heq => hname (heq ▸ hother)
      exact beq_eq_false_iff_ne.2 hne
    have hput : (Fields.cons name s rest).put R b (.name other) t (x, p)
        = (rest.put R b (.name other) t p).map fun q => q.map fun q => (x, q) := by
      simp only [Fields.put, hne]
      rfl
    have ih := fun p => Fields.recordEntries_skip name s rest hname (b := b) x es hes p
    simp only [Reader.recordEntries, hlabel, hput]
    -- the field is read, unknown, or at fault, and each is so in both readings
    cases rest.put R b (.name other) t p with
    | error e => rfl
    | ok q =>
      cases q with
      | some q => exact ih q
      | none =>
        simp only [Except.map, Option.map_none]
        rw [ih p]
        split <;> rfl

/-- A record is read back if its first field is and the others are. -/
theorem Fields.recordEntries_cons (h : Faithful R W ok) (name : String) (s : Schema)
    (rest : Fields) (hname : name ∉ rest.names) {b : Budget} {v : s.Carrier}
    {w : rest.Carrier} {key : σ} {t : Node σ} {es : Entries σ} (hkey : W.name name = some key)
    (hes : rest.write W w = some es) (hfirst : s.read R b t = .ok v)
    (hrest : Reader.recordEntries R b (rest.put R b) es rest.blank = .ok (rest.filled w)) :
    Reader.recordEntries R b ((Fields.cons name s rest).put R b) (.cons (.scalar key) t es)
      (Fields.cons name s rest).blank = .ok ((Fields.cons name s rest).filled (v, w)) := by
  have hput : (Fields.cons name s rest).put R b (.name name) t (none, rest.blank)
      = .ok (some (some v, rest.blank)) := by
    have hhere : Label.here name (.name name) = true := beq_self_eq_true name
    simp only [Fields.put, hhere, if_true, Fields.fill, hfirst]
    rfl
  show Reader.recordEntries R b ((Fields.cons name s rest).put R b)
    (.cons (.scalar key) t es) (none, rest.blank) = .ok (some v, rest.filled w)
  simp only [Reader.recordEntries, h.field hkey, hput]
  -- the entries that are left are named by the other fields
  rw [Fields.recordEntries_skip name s rest hname (some v) es
    (Fields.write_namedIn h rest w hes) rest.blank, hrest]
  rfl

/-- A record is read from its entries, once they are. -/
theorem Fields.record_of_entries (h : Faithful R W ok) (fs : Fields) {v : fs.Carrier}
    {es : Entries σ} {b : Budget} (hb : b.Allows (Node.map es).depth)
    (hread : ∀ b : Budget, b.Allows es.depth →
      Reader.recordEntries R b (fs.put R b) es fs.blank = .ok (fs.filled v)) :
    Reader.record R (fs.put R) fs.blank fs.finish (fs.places R) b (.map es) = .ok v := by
  obtain ⟨b', hb', hallows⟩ := Budget.Allows.enter hb
  simp only [Reader.record, h.map, hb', hread b' hallows]
  exact fs.finish_filled v

/-! ## Choices -/

/-- How a written case is read: by its name alone, or by its name and content. -/
inductive Cases.ReadsAs (R : ReadRules σ) (W : WriteRules σ) (cs : Cases) (v : cs.Carrier) :
    Node σ → Prop
  | bare (name : String) (hname : name ∈ cs.names) (hread : cs.bare (.name name) = .ok v) :
    ReadsAs R W cs v (.scalar (W.text name))
  | content (name : String) (key : σ) (u : Node σ) (hname : name ∈ cs.names)
    (hkey : W.name name = some key)
    (hread : ∀ b : Budget, b.Allows u.depth → cs.content R (.name name) b u = .ok v) :
    ReadsAs R W cs v (.map (.ofList [(.scalar key, u)]))

/-- A case of the others is read past the first. -/
theorem Cases.ReadsAs.skip {name : String} (c : Content) {rest : Cases}
    (hname : name ∉ rest.names) {v : rest.Carrier} {t : Node σ}
    (h : rest.ReadsAs R W v t) : (Cases.cons name c rest).ReadsAs R W (.inr v) t := by
  have hne : ∀ other ∈ rest.names, Label.here name (.name other) = false := by
    intro other hother
    have hne : other ≠ name := fun heq => hname (heq ▸ hother)
    exact beq_eq_false_iff_ne.2 hne
  cases h with
  | bare other hother hread =>
    refine .bare other (List.mem_cons_of_mem _ hother) ?_
    cases c <;>
    · simp only [Cases.bare, hne other hother, Label.next, hread]
      rfl
  | content other key u hother hkey hread =>
    refine .content other key u (List.mem_cons_of_mem _ hother) hkey fun b hb => ?_
    simp only [Cases.content, hne other hother, Label.next, hread b hb]
    rfl

/-- The first case is read if its content is. -/
theorem Cases.ReadsAs.first {name : String} {c : Content} {rest : Cases} {v : c.Carrier}
    {key : σ} {u : Node σ} (hkey : W.name name = some key)
    (hread : ∀ b : Budget, b.Allows u.depth → c.read R b u = .ok v) :
    (Cases.cons name c rest).ReadsAs R W (.inl v) (.map (.ofList [(.scalar key, u)])) := by
  refine .content name key u List.mem_cons_self hkey fun b hb => ?_
  have hhere : Label.here name (.name name) = true := beq_self_eq_true name
  simp only [Cases.content, hhere, if_true, hread b hb]
  rfl

/-- A choice is read back if its case is. -/
theorem Cases.ReadsAs.choice (h : Faithful R W ok) {cs : Cases} {v : cs.Carrier}
    {t : Node σ} (ht : cs.ReadsAs R W v t) {b : Budget} (hb : b.Allows t.depth) :
    Reader.choice R cs.bare (cs.content R) b t = .ok v := by
  cases ht with
  | bare name hname hread => simp only [Reader.choice, h.bareCase, hread]
  | content name key u hname hkey hread =>
    -- the entry costs no budget, so the content has one more than it needs
    have hu : u.depth ≤ (Node.map (.ofList [(Node.scalar key, u)])).depth := by
      show u.depth ≤ max u.depth 0 + 1
      omega
    have hcontent := hread b (hb.of_le hu)
    show Reader.choice R cs.bare (cs.content R) b (.map (.cons (.scalar key) u .done)) = _
    simp only [Reader.choice, h.case hkey, hcontent, Entries.ends, Bool.or_true, if_true,
      Bool.not_true, Bool.and_false]
    rfl

/-! ## Values of no fixed type -/

/-- What is written of members that are not led by the raw key is not either. -/
theorem Any.raw?_writeMembers (h : Faithful R W ok) {members : List (String × Any)}
    (hraw : members.head?.map Prod.fst ≠ some Any.rawKey) {es : Entries σ}
    (hes : Any.writeMembers W members = some es) : es.raw? R = none := by
  match members with
  | [] =>
    obtain rfl := Option.some.inj hes
    rfl
  | (k, x) :: members =>
    obtain ⟨key, t, es', hkey, -, -, rfl⟩ := Any.writeMembers_cons hes
    have hne : ¬ R.memberName true key = some Any.rawKey := by
      rw [h.member hkey true]
      exact hraw
    exact if_neg hne

mutual

/-- A value of no fixed type is read back. -/
theorem Any.read_write (h : Faithful R W ok) (v : Any) {b : Budget} {t : Node σ}
    (hv : v.Proper ok) (hraw : v.NoRawKey) (ht : v.write W = some t) (hb : b.Allows t.depth) :
    t.readAny R b = .ok v := by
  cases v with
  | null =>
    obtain rfl := Option.some.inj ht
    simp only [Node.readAny, h.null, Scalar.asAny?]
  | bool c =>
    obtain rfl := Option.some.inj ht
    simp only [Node.readAny, h.bool, Scalar.asAny?]
  | integer n =>
    obtain ⟨x, hx, rfl⟩ := Option.map_eq_some_iff.1 ht
    have hmeaning := h.integer hx n.mem_kind.1 n.mem_kind.2
    simp only [Node.readAny, hmeaning, Scalar.asAny?, n.ofInt?_val, Option.map_some]
  | float x =>
    obtain rfl := Option.some.inj ht
    have hmeaning : R.meaning (W.float x.val) = .float x.val := h.float hv
    simp only [Node.readAny, hmeaning, Scalar.asAny?, x.of?_val]
  | text s =>
    obtain rfl := Option.some.inj ht
    simp only [Node.readAny, h.text, Scalar.asAny?]
  | list xs =>
    obtain ⟨ts, hts, rfl⟩ := Option.map_eq_some_iff.1 ht
    obtain ⟨b', hb', hallows⟩ := Budget.Allows.enter hb
    have hitems := Any.readItems_write h xs hv hraw hts hallows []
    simp only [Node.readAny, hb', hitems, List.reverse_nil, List.nil_append]
    rfl
  | object members =>
    obtain ⟨es, hes, rfl⟩ := Option.map_eq_some_iff.1 ht
    obtain ⟨b', hb', hallows⟩ := Budget.Allows.enter hb
    have hmembers := Any.readMembers_write h members hv.2 hraw.2 hes hallows true [] hv.1
    have hplain := Any.raw?_writeMembers h hraw.1 hes
    simp only [Node.readAny, hb', hplain, hmembers, List.nil_append]
    rfl

/-- The items of a list are read back, onto those read so far. -/
theorem Any.readItems_write (h : Faithful R W ok) (xs : List Any) {b : Budget} {ts : Items σ}
    (hxs : Any.ProperItems ok xs) (hraw : Any.NoRawKeyItems xs)
    (hts : Any.writeItems W xs = some ts)
    (hb : b.Allows ts.depth) (rev : List Any) :
    ts.readAny R b rev = .ok (rev.reverse ++ xs) := by
  cases xs with
  | nil =>
    obtain rfl := Option.some.inj hts
    simp only [Items.readAny, List.append_nil]
  | cons x xs =>
    obtain ⟨t, ts', ht, hts', rfl⟩ := Any.writeItems_cons hts
    have hx := Any.read_write h x hxs.1 hraw.1 ht (hb.of_le (Nat.le_max_left _ _))
    have hrest := Any.readItems_write h xs hxs.2 hraw.2 hts' (hb.of_le (Nat.le_max_right _ _))
      (x :: rev)
    simp only [Items.readAny, hx]
    rw [hrest, List.reverse_cons, List.append_assoc]
    rfl

/-- The members of an object are read back, after those read so far, for no key
comes twice. -/
theorem Any.readMembers_write (h : Faithful R W ok) (members : List (String × Any))
    {b : Budget} {es : Entries σ} (hm : Any.ProperMembers ok members)
    (hraw : Any.NoRawKeyMembers members) (hes : Any.writeMembers W members = some es)
    (hb : b.Allows es.depth) (first : Bool) (acc : List (String × Any))
    (hkeys : ((acc ++ members).map Prod.fst).Nodup) :
    es.readAny R b first acc = .ok (acc ++ members) := by
  match members with
  | [] =>
    obtain rfl := Option.some.inj hes
    simp only [Entries.readAny, List.append_nil]
  | (k, x) :: members =>
    obtain ⟨key, t, es', hkey, ht, hes', rfl⟩ := Any.writeMembers_cons hes
    have hx := Any.read_write h x hm.1 hraw.1 ht (hb.of_le (Nat.le_max_left _ _))
    -- the key is new, so it goes to the end
    have hnew : k ∉ acc.map Prod.fst := by
      intro hk
      rw [List.map_append, List.nodup_append] at hkeys
      exact hkeys.2.2 k hk k (by simp) rfl
    have hassoc : acc ++ [(k, x)] ++ members = acc ++ (k, x) :: members := by
      rw [List.append_assoc]
      rfl
    have hrest := Any.readMembers_write h members hm.2 hraw.2 hes'
      (hb.of_le (Nat.le_max_right _ _)) false (acc ++ [(k, x)]) (by rw [hassoc]; exact hkeys)
    simp only [Entries.readAny, h.member hkey, hx, Any.put_of_notMem hnew]
    rw [hrest, hassoc]

end

/-! ## Schemas -/

/-- Whether no value of a schema is written as null. -/
def Schema.neverNull : Schema → Bool
  | .any | .unit | .optional _ | .readOnly _ => false
  | _ => true

mutual

/-- Whether the values of a schema are told apart by what is written: an optional
part is never null itself, and no name is declared twice. -/
def Schema.isRegular : Schema → Bool
  | .any | .bool | .integer _ | .float | .text | .unit => true
  | .optional s => s.neverNull && s.isRegular
  | .list s | .map _ s | .readOnly s => s.isRegular
  | .pair a c => a.isRegular && c.isRegular
  | .record fs => fs.isRegular
  | .choice cs => cs.isRegular

/-- The same for the fields of a record. -/
def Fields.isRegular : Fields → Bool
  | .nil => true
  | .cons name s rest => !rest.names.contains name && s.isRegular && rest.isRegular

/-- The same for the cases of a choice. -/
def Cases.isRegular : Cases → Bool
  | .nil => true
  | .cons name c rest => !rest.names.contains name && c.isRegular && rest.isRegular

/-- The same for the content of a case. -/
def Content.isRegular : Content → Bool
  | .unit => true
  | .value s => s.isRegular
  | .pair a c => a.isRegular && c.isRegular
  | .record fs => fs.isRegular

end

/-- A choice is written as a text or a map, never as null. -/
theorem Cases.isNull_write (h : Faithful R W ok) (cs : Cases) (v : cs.Carrier) {t : Node σ}
    (ht : cs.write W v = some t) : Reader.isNull R t = false := by
  cases cs with
  | nil => exact Empty.elim v
  | cons name c rest =>
    cases v with
    | inr y => exact Cases.isNull_write h rest y ht
    | inl x =>
      cases c with
      | unit =>
        obtain rfl := Option.some.inj ht
        simp only [Reader.isNull, h.text, Scalar.asUnit?, Option.isSome_none]
      | value s =>
        obtain ⟨key, u, -, -, rfl⟩ := Content.write_value ht
        rfl
      | pair a c =>
        obtain ⟨key, t', u, -, -, -, rfl⟩ := Content.write_pair ht
        rfl
      | record fs =>
        obtain ⟨key, es, -, -, rfl⟩ := Content.write_record ht
        rfl

/-- What is never written as null is never read as null. -/
theorem Schema.isNull_write (h : Faithful R W ok) (s : Schema) (hs : s.neverNull = true)
    (v : s.Carrier) {t : Node σ} (hv : s.Proper ok v) (ht : s.write W v = some t) :
    Reader.isNull R t = false := by
  cases s with
  | any | unit | optional | readOnly => exact nomatch hs
  | bool =>
    obtain rfl := Option.some.inj ht
    simp only [Reader.isNull, h.bool, Scalar.asUnit?, Option.isSome_none]
  | integer k =>
    obtain ⟨x, hx, rfl⟩ := Option.map_eq_some_iff.1 ht
    simp only [Reader.isNull, h.integer hx v.low_le v.le_high, Scalar.asUnit?,
      Option.isSome_none]
  | float =>
    obtain rfl := Option.some.inj ht
    have hmeaning : R.meaning (W.float v) = .float v := h.float hv
    simp only [Reader.isNull, hmeaning, Scalar.asUnit?, Option.isSome_none]
  | text =>
    obtain rfl := Option.some.inj ht
    simp only [Reader.isNull, h.text, Scalar.asUnit?, Option.isSome_none]
  | list | map | record =>
    obtain ⟨x, -, rfl⟩ := Option.map_eq_some_iff.1 ht
    rfl
  | pair a c =>
    obtain ⟨t', u, -, -, rfl⟩ := Schema.write_pair ht
    rfl
  | choice cs => exact Cases.isNull_write h cs v ht

/-- The first name of a regular record or choice is not declared again. -/
theorem notMem_of_isRegular {name : String} {names : List String} {p q : Bool}
    (h : (!names.contains name && p && q) = true) : name ∉ names ∧ p = true ∧ q = true := by
  simp only [Bool.and_eq_true, Bool.not_eq_true', List.contains_eq_mem, decide_eq_false_iff_not] at h
  exact ⟨h.1.1, h.1.2, h.2⟩

mutual

/-- A format that is faithful reads back what it writes of a schema. -/
theorem Schema.read_write (h : Faithful R W ok) (s : Schema) (hs : s.isRegular = true) :
    ReadsBack (s.read R) (s.write W) (s.Proper ok) := by
  intro b v t hv ht hb
  cases s with
  | any => exact Any.read_write h v hv.1 hv.2 ht hb
  | bool =>
    obtain rfl := Option.some.inj ht
    exact Reader.leaf_scalar (by rw [h.bool]; rfl)
  | integer k =>
    obtain ⟨x, hx, rfl⟩ := Option.map_eq_some_iff.1 ht
    refine Reader.leaf_scalar ?_
    rw [h.integer hx v.low_le v.le_high]
    exact v.ofInt?_val
  | float =>
    obtain rfl := Option.some.inj ht
    exact Reader.leaf_scalar (by rw [h.float hv]; rfl)
  | text =>
    obtain rfl := Option.some.inj ht
    exact Reader.leaf_scalar (by rw [h.text]; rfl)
  | unit =>
    obtain rfl := Option.some.inj ht
    exact Reader.leaf_scalar (by rw [h.null]; rfl)
  | optional s =>
    obtain ⟨hnull, hs⟩ := Bool.and_eq_true_iff.1 hs
    refine Reader.optional_readsBack h (Schema.read_write h s hs)
      (fun x u hx hu => Schema.isNull_write h s hnull x hx hu) hv ?_ hb
    cases v <;> exact ht
  | list s => exact Reader.list_readsBack h (Schema.read_write h s hs) hv ht hb
  | pair a c =>
    obtain ⟨ha, hc⟩ := Bool.and_eq_true_iff.1 hs
    obtain ⟨t', u, ht', hu, rfl⟩ := Schema.write_pair ht
    exact Reader.pair_readsBack h (Schema.read_write h a ha) (Schema.read_write h c hc) hv
      ht' hu hb
  | map k s => exact Reader.map_readsBack h (Schema.read_write h s hs) hv ht hb
  | record fs =>
    obtain ⟨es, hes, rfl⟩ := Option.map_eq_some_iff.1 ht
    exact Fields.record_of_entries h fs hb fun b hb => Fields.read_write h fs hs v hv hes hb
  | choice cs => exact (Cases.read_write h cs hs v hv ht).choice h hb
  | readOnly s => exact nomatch ht

/-- The entries of a written record are read into its fields. -/
theorem Fields.read_write (h : Faithful R W ok) (fs : Fields) (hfs : fs.isRegular = true)
    (v : fs.Carrier) {b : Budget} {es : Entries σ} (hv : fs.Proper ok v)
    (hes : fs.write W v = some es) (hb : b.Allows es.depth) :
    Reader.recordEntries R b (fs.put R b) es fs.blank = .ok (fs.filled v) := by
  cases fs with
  | nil =>
    obtain rfl := Option.some.inj hes
    rfl
  | cons name s rest =>
    obtain ⟨hname, hs, hrest⟩ := notMem_of_isRegular hfs
    obtain ⟨key, t, es', hkey, ht, hes', rfl⟩ := Fields.write_cons hes
    have hfirst := Schema.read_write h s hs b v.1 t hv.1 ht (hb.of_le (Nat.le_max_left _ _))
    have hothers := Fields.read_write h rest hrest v.2 hv.2 hes'
      (hb.of_le (Nat.le_max_right _ _))
    exact Fields.recordEntries_cons h name s rest hname hkey hes' hfirst hothers

/-- A written case is read as that case. -/
theorem Cases.read_write (h : Faithful R W ok) (cs : Cases) (hcs : cs.isRegular = true)
    (v : cs.Carrier) {t : Node σ} (hv : cs.Proper ok v) (ht : cs.write W v = some t) :
    cs.ReadsAs R W v t := by
  cases cs with
  | nil => exact nomatch v
  | cons name c rest =>
    obtain ⟨hname, hc, hrest⟩ := notMem_of_isRegular hcs
    match v with
    | .inl x => exact Content.read_write h c name rest hc x hv ht
    | .inr y => exact (Cases.read_write h rest hrest y hv ht).skip c hname

/-- The content of a written case is read back, where the case is declared first. -/
theorem Content.read_write (h : Faithful R W ok) (c : Content) (name : String) (rest : Cases)
    (hc : c.isRegular = true) (v : c.Carrier) {t : Node σ} (hv : c.Proper ok v)
    (ht : c.write W name v = some t) :
    (Cases.cons name c rest).ReadsAs R W (.inl v) t := by
  cases c with
  | unit =>
    obtain rfl := Option.some.inj ht
    refine .bare name List.mem_cons_self ?_
    have hhere : Label.here name (.name name) = true := beq_self_eq_true name
    simp only [Cases.bare, hhere, if_true]
  | value s =>
    obtain ⟨key, u, hkey, hu, rfl⟩ := Content.write_value ht
    exact .first hkey fun b hb => Schema.read_write h s hc b v u hv hu hb
  | pair a c =>
    obtain ⟨ha, hc⟩ := Bool.and_eq_true_iff.1 hc
    obtain ⟨key, t', u, hkey, ht', hu, rfl⟩ := Content.write_pair ht
    exact .first hkey fun b hb => Reader.pair_readsBack h (Schema.read_write h a ha)
      (Schema.read_write h c hc) hv ht' hu hb
  | record fs =>
    obtain ⟨key, es, hkey, hes, rfl⟩ := Content.write_record ht
    exact .first hkey fun b hb =>
      Fields.record_of_entries h fs hb fun b hb => Fields.read_write h fs hc v hv hes hb

end

end Conneg
