import Conneg.Proofs.MsgPack.Document
import Conneg.Proofs.Schema.Size
import Conneg.Proofs.Wire.Written

/-!
# What is written fits

A tree written of a value announces the lengths of the value's texts and containers,
and of the names that the schema declares. Where all of these are below 2^32, the
tree has a form in bytes (`Schema.write_fits`). Numbers always fit: the writer takes
the unsigned form from zero up and the signed one below, and no integer type goes
beyond 64 bits.
-/

namespace Conneg

open Wire MsgPack

/-! ## Scalars and keys -/

theorem MsgPack.integerAtom_fits {k : IntKind} {n : Int} (hlow : k.low ≤ n)
    (hhigh : n ≤ k.high) : (integerAtom n).Fits := by
  have hrange : -2 ^ 63 ≤ n ∧ n < 2 ^ 64 := by
    cases k <;> simp only [IntKind.low, IntKind.high] at hlow hhigh <;> omega
  unfold integerAtom
  split
  · next hneg => exact ⟨hrange.1, hneg⟩
  · show n.toNat < 2 ^ 64
    omega

theorem MsgPack.fits_ofList {ts : List (Node Atom)} (h : ∀ t ∈ ts, Node.Fits t) :
    Items.Fits (.ofList ts) := by
  induction ts with
  | nil => exact trivial
  | cons t ts ih =>
    exact ⟨h t List.mem_cons_self, ih fun u hu => h u (List.mem_cons_of_mem _ hu)⟩

theorem MsgPack.countItems_ofList (ts : List (Node Atom)) :
    countItems (.ofList ts) = ts.length := by
  induction ts with
  | nil => rfl
  | cons t ts ih => exact congrArg (· + 1) ih

theorem MsgPack.entriesFit_ofList {es : List (Node Atom × Node Atom)}
    (h : ∀ e ∈ es, Node.Fits e.1 ∧ Node.Fits e.2) : Entries.Fits (.ofList es) := by
  induction es with
  | nil => exact trivial
  | cons e es ih =>
    have he := h e List.mem_cons_self
    exact ⟨he.1, he.2, ih fun e' he' => h e' (List.mem_cons_of_mem _ he')⟩

theorem MsgPack.countEntries_ofList (es : List (Node Atom × Node Atom)) :
    countEntries (.ofList es) = es.length := by
  induction es with
  | nil => rfl
  | cons e es ih => exact congrArg (· + 1) ih

theorem MsgPack.writeKey_fits {k : KeyKind} {x : k.Carrier} (hx : k.Short (2 ^ 32) x)
    {t : Node Atom} (ht : writeKey k x = some t) : Node.Fits t := by
  cases k with
  | text =>
    obtain rfl := Option.some.inj ht
    exact hx
  | integer =>
    obtain rfl := Option.some.inj ht
    exact integerAtom_fits x.low_le x.le_high
  | boolean =>
    obtain rfl := Option.some.inj ht
    exact trivial
  | list =>
    obtain rfl := Option.some.inj ht
    refine ⟨?_, fits_ofList fun t ht => ?_⟩
    · rw [countItems_ofList, List.length_map]
      exact hx
    · obtain ⟨n, -, rfl⟩ := List.mem_map.1 ht
      exact integerAtom_fits n.low_le n.le_high

/-- A name is written as a text that fits if it is short. -/
theorem MsgPack.name_fits {s : String} {key : Atom} (hs : ShortText (2 ^ 32) s)
    (hkey : writeRules.name s = some key) : Node.Fits (.scalar key) := by
  obtain rfl := Option.some.inj hkey
  exact hs

/-- A case with content fits if its name and its content do. -/
theorem MsgPack.case_fits {key : Atom} {t : Node Atom} (hkey : Node.Fits (.scalar key))
    (ht : Node.Fits t) : Node.Fits (.map (.ofList [(.scalar key, t)])) :=
  ⟨Nat.one_lt_two_pow (by decide), hkey, ht, trivial⟩

theorem MsgPack.pair_fits {t u : Node Atom} (ht : Node.Fits t) (hu : Node.Fits u) :
    Node.Fits (.seq (.ofList [t, u])) :=
  ⟨(by decide : 2 < 2 ^ 32), ht, hu, trivial⟩

/-! ## As many items as were written -/

theorem Any.countItems_writeItems {W : WriteRules Atom} (xs : List Any) {ts : Items Atom}
    (hts : Any.writeItems W xs = some ts) : countItems ts = xs.length := by
  induction xs generalizing ts with
  | nil =>
    obtain rfl := Option.some.inj hts
    rfl
  | cons x xs ih =>
    obtain ⟨t, ts', -, hts', rfl⟩ := Any.writeItems_cons hts
    exact congrArg (· + 1) (ih hts')

theorem Any.countEntries_writeMembers {W : WriteRules Atom} (members : List (String × Any))
    {es : Entries Atom} (hes : Any.writeMembers W members = some es) :
    countEntries es = members.length := by
  induction members generalizing es with
  | nil =>
    obtain rfl := Option.some.inj hes
    rfl
  | cons m members ih =>
    obtain ⟨key, t, es', -, -, hes', rfl⟩ := Any.writeMembers_cons hes
    exact congrArg (· + 1) (ih hes')

theorem Fields.countEntries_write {W : WriteRules Atom} {fs : Fields} (v : fs.Carrier)
    {es : Entries Atom} (hes : fs.write W v = some es) : countEntries es = fs.names.length := by
  match fs with
  | .nil =>
    obtain rfl := Option.some.inj hes
    rfl
  | .cons name s rest =>
    obtain ⟨key, t, es', -, -, hes', rfl⟩ := Fields.write_cons hes
    exact congrArg (· + 1) (Fields.countEntries_write v.2 hes')

/-! ## Trees -/

mutual

/-- A written value of no fixed type fits if its parts are short. -/
theorem Any.write_fits (v : Any) {t : Node Atom} (hv : v.Short (2 ^ 32))
    (ht : v.write writeRules = some t) : Node.Fits t := by
  cases v with
  | null | bool | float =>
    obtain rfl := Option.some.inj ht
    exact trivial
  | integer n =>
    obtain rfl := Option.some.inj ht
    exact integerAtom_fits n.mem_kind.1 n.mem_kind.2
  | text s =>
    obtain rfl := Option.some.inj ht
    exact hv
  | list xs =>
    -- a container fits if its count does, and then its parts
    obtain ⟨ts, hts, rfl⟩ := Option.map_eq_some_iff.1 ht
    refine ⟨?_, Any.writeItems_fits xs hv.2 hts⟩
    rw [Any.countItems_writeItems xs hts]
    exact hv.1
  | object members =>
    obtain ⟨es, hes, rfl⟩ := Option.map_eq_some_iff.1 ht
    refine ⟨?_, Any.writeMembers_fits members hv.2 hes⟩
    rw [Any.countEntries_writeMembers members hes]
    exact hv.1

theorem Any.writeItems_fits (xs : List Any) {ts : Items Atom}
    (hxs : Any.ShortItems (2 ^ 32) xs) (hts : Any.writeItems writeRules xs = some ts) :
    Items.Fits ts := by
  cases xs with
  | nil =>
    obtain rfl := Option.some.inj hts
    exact trivial
  | cons x xs =>
    obtain ⟨t, ts', ht, hts', rfl⟩ := Any.writeItems_cons hts
    exact ⟨Any.write_fits x hxs.1 ht, Any.writeItems_fits xs hxs.2 hts'⟩

theorem Any.writeMembers_fits (members : List (String × Any)) {es : Entries Atom}
    (hm : Any.ShortMembers (2 ^ 32) members)
    (hes : Any.writeMembers writeRules members = some es) : Entries.Fits es := by
  match members with
  | [] =>
    obtain rfl := Option.some.inj hes
    exact trivial
  | (k, x) :: members =>
    obtain ⟨key, t, es', hkey, ht, hes', rfl⟩ := Any.writeMembers_cons hes
    exact ⟨name_fits hm.1 hkey, Any.write_fits x hm.2.1 ht,
      Any.writeMembers_fits members hm.2.2 hes'⟩

end

/-- The names of a record or a choice are short if the first and the others are. -/
theorem shortNames_cons {name : String} {p q : Bool}
    (h : (decide (ShortText (2 ^ 32) name) && p && q) = true) :
    ShortText (2 ^ 32) name ∧ p = true ∧ q = true := by
  simp only [Bool.and_eq_true, decide_eq_true_eq] at h
  exact ⟨h.1.1, h.1.2, h.2⟩

/-- A record whose names are short is a map that fits if its entries do. -/
theorem MsgPack.record_fits {fs : Fields} {v : fs.Carrier} {es : Entries Atom}
    (hes : fs.write writeRules v = some es)
    (hfs : (decide (fs.names.length < 2 ^ 32) && fs.hasShortNames (2 ^ 32)) = true)
    (h : fs.hasShortNames (2 ^ 32) = true → Entries.Fits es) : Node.Fits (.map es) := by
  obtain ⟨hcount, hnames⟩ := Bool.and_eq_true_iff.1 hfs
  refine ⟨?_, h hnames⟩
  rw [Fields.countEntries_write v hes]
  exact of_decide_eq_true hcount

mutual

/-- A written value fits if its parts and the names of its schema are short. -/
theorem Schema.write_fits (s : Schema) (hs : s.hasShortNames (2 ^ 32) = true) (v : s.Carrier)
    {t : Node Atom} (hv : s.Short (2 ^ 32) v) (ht : s.write writeRules v = some t) :
    Node.Fits t := by
  cases s with
  | any => exact Any.write_fits v hv ht
  | bool | float | unit =>
    obtain rfl := Option.some.inj ht
    exact trivial
  | integer k =>
    obtain rfl := Option.some.inj ht
    exact integerAtom_fits v.low_le v.le_high
  | text =>
    obtain rfl := Option.some.inj ht
    exact hv
  | optional s =>
    match v with
    | none =>
      obtain rfl := Option.some.inj ht
      exact trivial
    | some x => exact Schema.write_fits s hs x (hv x rfl) ht
  | list s =>
    obtain ⟨ts, hts, rfl⟩ := Option.map_eq_some_iff.1 ht
    refine ⟨?_, fits_ofList fun t ht => ?_⟩
    · rw [countItems_ofList, length_of_mapM hts]
      exact hv.1
    · obtain ⟨x, hx, htx⟩ := exists_of_mem_mapM hts ht
      exact Schema.write_fits s hs x (hv.2 x hx) htx
  | pair a c =>
    obtain ⟨ha, hc⟩ := Bool.and_eq_true_iff.1 hs
    obtain ⟨t', u, ht', hu, rfl⟩ := Schema.write_pair ht
    exact pair_fits (Schema.write_fits a ha v.1 hv.1 ht') (Schema.write_fits c hc v.2 hv.2 hu)
  | map k s =>
    obtain ⟨es, hes, rfl⟩ := Option.map_eq_some_iff.1 ht
    refine ⟨?_, entriesFit_ofList fun e he => ?_⟩
    · rw [countEntries_ofList, length_of_mapM hes]
      exact hv.1
    · obtain ⟨x, hx, hex⟩ := exists_of_mem_mapM hes he
      obtain ⟨hkey, ht⟩ := WriteRules.entry_eq_some.1 hex
      exact ⟨writeKey_fits (hv.2 x hx).1 hkey, Schema.write_fits s hs x.2 (hv.2 x hx).2 ht⟩
  | record fs =>
    obtain ⟨es, hes, rfl⟩ := Option.map_eq_some_iff.1 ht
    exact record_fits hes hs fun hfs => Fields.write_fits fs hfs v hv hes
  | choice cs => exact Cases.write_fits cs hs v hv ht
  | readOnly s => exact nomatch ht

theorem Fields.write_fits (fs : Fields) (hfs : fs.hasShortNames (2 ^ 32) = true)
    (v : fs.Carrier) {es : Entries Atom} (hv : fs.Short (2 ^ 32) v)
    (hes : fs.write writeRules v = some es) : Entries.Fits es := by
  cases fs with
  | nil =>
    obtain rfl := Option.some.inj hes
    exact trivial
  | cons name s rest =>
    obtain ⟨hname, hs, hrest⟩ := shortNames_cons hfs
    obtain ⟨key, t, es', hkey, ht, hes', rfl⟩ := Fields.write_cons hes
    exact ⟨name_fits hname hkey, Schema.write_fits s hs v.1 hv.1 ht,
      Fields.write_fits rest hrest v.2 hv.2 hes'⟩

theorem Cases.write_fits (cs : Cases) (hcs : cs.hasShortNames (2 ^ 32) = true)
    (v : cs.Carrier) {t : Node Atom} (hv : cs.Short (2 ^ 32) v)
    (ht : cs.write writeRules v = some t) : Node.Fits t := by
  cases cs with
  | nil => exact nomatch v
  | cons name c rest =>
    obtain ⟨hname, hc, hrest⟩ := shortNames_cons hcs
    match v with
    | .inl x => exact Content.write_fits c hc name hname x hv ht
    | .inr y => exact Cases.write_fits rest hrest y hv ht

theorem Content.write_fits (c : Content) (hc : c.hasShortNames (2 ^ 32) = true) (name : String)
    (hname : ShortText (2 ^ 32) name) (v : c.Carrier) {t : Node Atom}
    (hv : c.Short (2 ^ 32) v) (ht : c.write writeRules name v = some t) : Node.Fits t := by
  cases c with
  | unit =>
    obtain rfl := Option.some.inj ht
    exact hname
  | value s =>
    obtain ⟨key, u, hkey, hu, rfl⟩ := Content.write_value ht
    exact case_fits (name_fits hname hkey) (Schema.write_fits s hc v hv hu)
  | pair a c =>
    obtain ⟨ha, hc⟩ := Bool.and_eq_true_iff.1 hc
    obtain ⟨key, t', u, hkey, ht', hu, rfl⟩ := Content.write_pair ht
    exact case_fits (name_fits hname hkey)
      (pair_fits (Schema.write_fits a ha v.1 hv.1 ht') (Schema.write_fits c hc v.2 hv.2 hu))
  | record fs =>
    obtain ⟨key, es, hkey, hes, rfl⟩ := Content.write_record ht
    exact case_fits (name_fits hname hkey)
      (record_fits hes hc fun hfs => Fields.write_fits fs hfs v hv hes)

end

end Conneg
