import Conneg.Proofs.Schema.Size
import Conneg.Proofs.Wire.Run
import Conneg.Wire.Read

/-!
# What is read from short parts is short

A tree is *bounded* when its scalars are short, in the sense of the format, and no list
or map in it has as many items or entries as the limit. What a schema reads from a
bounded tree has then only short parts (`Schema.read_short`): a text is what a scalar
means, a list has at most an item for each item, and an object or a map at most an entry
for each entry. A format `Keeps` a limit if its own decisions add nothing to that.

Containers under construction have *room* as long as their trees and the bytes still to
be read are together below the limit. Each tree takes at least a byte, so a token keeps
the room, and a run over no more bytes than the limit finishes a bounded tree
(`Grammar.run_bounded`).
-/

namespace Conneg.Wire

variable {σ α β π : Type} {P : σ → Prop} {limit : Nat}

/-! ## Results -/

theorem exists_of_map_eq_ok {x : Except Fault α} {f : α → β} {v : β} (h : x.map f = .ok v) :
    ∃ w, x = .ok w ∧ f w = v := by
  cases x with
  | error e => cases h
  | ok w => exact ⟨w, rfl, Except.ok.inj h⟩

theorem exists_of_bind_eq_ok {x : Except Fault α} {f : α → Except Fault β} {v : β}
    (h : x.bind f = .ok v) : ∃ w, x = .ok w ∧ f w = .ok v := by
  cases x with
  | error e => cases h
  | ok w => exact ⟨w, rfl, h⟩

/-! ## Trees -/

/-- The number of items. -/
def Items.length : Items σ → Nat
  | .cons _ rest => rest.length + 1
  | _ => 0

/-- The number of entries. -/
def Entries.length : Entries σ → Nat
  | .cons _ _ rest => rest.length + 1
  | _ => 0

mutual

/-- Whether the scalars of a tree have a property, and its lists and maps are shorter
than a limit. -/
def Node.Bounded (P : σ → Prop) (limit : Nat) : Node σ → Prop
  | .broken => True
  | .scalar x => P x
  | .seq xs => xs.length < limit ∧ xs.Bounded P limit
  | .map es => es.length < limit ∧ es.Bounded P limit

/-- The same for the items of a list. -/
def Items.Bounded (P : σ → Prop) (limit : Nat) : Items σ → Prop
  | .done => True
  | .broken => True
  | .cons t rest => t.Bounded P limit ∧ rest.Bounded P limit

/-- The same for the entries of a map. -/
def Entries.Bounded (P : σ → Prop) (limit : Nat) : Entries σ → Prop
  | .done => True
  | .broken => True
  | .cons k t rest => k.Bounded P limit ∧ t.Bounded P limit ∧ rest.Bounded P limit

end

theorem Items.length_prepend (rev : List (Node σ)) (xs : Items σ) :
    (Items.prepend rev xs).length = rev.length + xs.length := by
  induction rev generalizing xs with
  | nil => exact (Nat.zero_add _).symm
  | cons t rev ih =>
    show (Items.prepend rev (.cons t xs)).length = _
    rw [ih, Items.length, List.length_cons]
    omega

theorem Entries.length_prepend (rev : List (Node σ × Node σ)) (es : Entries σ) :
    (Entries.prepend rev es).length = rev.length + es.length := by
  induction rev generalizing es with
  | nil => exact (Nat.zero_add _).symm
  | cons e rev ih =>
    show (Entries.prepend rev (.cons e.1 e.2 es)).length = _
    rw [ih, Entries.length, List.length_cons]
    omega

theorem Items.bounded_prepend {rev : List (Node σ)} {xs : Items σ}
    (hrev : ∀ t ∈ rev, t.Bounded P limit) (hxs : xs.Bounded P limit) :
    (Items.prepend rev xs).Bounded P limit := by
  induction rev generalizing xs with
  | nil => exact hxs
  | cons t rev ih =>
    exact ih (fun u hu => hrev u (List.mem_cons_of_mem t hu)) ⟨hrev t List.mem_cons_self, hxs⟩

theorem Entries.bounded_prepend {rev : List (Node σ × Node σ)} {es : Entries σ}
    (hrev : ∀ e ∈ rev, e.1.Bounded P limit ∧ e.2.Bounded P limit) (hes : es.Bounded P limit) :
    (Entries.prepend rev es).Bounded P limit := by
  induction rev generalizing es with
  | nil => exact hes
  | cons e rev ih =>
    obtain ⟨hkey, hvalue⟩ := hrev e List.mem_cons_self
    exact ih (fun u hu => hrev u (List.mem_cons_of_mem e hu)) ⟨hkey, hvalue, hes⟩

theorem Items.length_ofList (ts : List (Node σ)) : (Items.ofList ts).length = ts.length := by
  rw [Items.ofList, ← Items.prepend_reverse, Items.length_prepend, List.length_reverse]
  rfl

theorem Items.bounded_ofList {ts : List (Node σ)} (h : ∀ t ∈ ts, t.Bounded P limit) :
    (Items.ofList ts).Bounded P limit := by
  rw [Items.ofList, ← Items.prepend_reverse]
  exact Items.bounded_prepend (fun t ht => h t (List.mem_reverse.1 ht)) trivial

/-! ## Containers under construction -/

namespace Frame

/-- The number of trees in a container. -/
def size : Frame σ → Nat
  | .items rev => rev.length
  | .entries rev none => 2 * rev.length
  | .entries rev (some _) => 2 * rev.length + 1

/-- Whether the trees in a container are bounded. -/
def Bounded (P : σ → Prop) (limit : Nat) : Frame σ → Prop
  | .items rev => ∀ t ∈ rev, t.Bounded P limit
  | .entries rev pending =>
    (∀ e ∈ rev, e.1.Bounded P limit ∧ e.2.Bounded P limit) ∧
      ∀ key, pending = some key → key.Bounded P limit

theorem size_add (f : Frame σ) (t : Node σ) : (f.add t).size = f.size + 1 := by
  match f with
  | .items rev => rfl
  | .entries rev none => rfl
  | .entries rev (some key) =>
    show 2 * (rev.length + 1) = 2 * rev.length + 1 + 1
    omega

theorem Bounded.add {f : Frame σ} {t : Node σ} (hf : f.Bounded P limit) (ht : t.Bounded P limit) :
    (f.add t).Bounded P limit := by
  match f with
  | .items rev => exact List.forall_mem_cons.2 ⟨ht, hf⟩
  | .entries rev none =>
    refine ⟨hf.1, fun key hkey => ?_⟩
    obtain rfl := Option.some.inj hkey
    exact ht
  | .entries rev (some key) =>
    exact ⟨List.forall_mem_cons.2 ⟨⟨hf.2 key rfl, ht⟩, hf.1⟩, fun _ h => nomatch h⟩

/-- A container with fewer trees than the limit closes to a bounded tree. -/
theorem Bounded.close {f : Frame σ} (hf : f.Bounded P limit) (hsize : f.size < limit) :
    f.close.Bounded P limit := by
  match f with
  | .items rev =>
    refine ⟨?_, Items.bounded_prepend hf trivial⟩
    rw [Items.length_prepend]
    exact hsize
  | .entries rev none =>
    refine ⟨?_, Entries.bounded_prepend hf.1 trivial⟩
    rw [Entries.length_prepend]
    simp only [size, Entries.length] at hsize ⊢
    omega
  | .entries rev (some key) =>
    refine ⟨?_, Entries.bounded_prepend
      (List.forall_mem_cons.2 ⟨⟨hf.2 key rfl, trivial⟩, hf.1⟩) trivial⟩
    rw [Entries.length_prepend]
    simp only [size, Entries.length, List.length_cons] at hsize ⊢
    omega

/-- Whether the trees of a container are bounded, and with those that the bytes left can
make are still fewer than the limit. -/
structure Room (P : σ → Prop) (limit left : Nat) (f : Frame σ) : Prop where
  bounded : f.Bounded P limit
  size_lt : f.size + left < limit

variable {f : Frame σ} {t : Node σ} {left left' : Nat}

theorem room_items_nil (hleft : left < limit) : (items []).Room P limit left :=
  ⟨List.forall_mem_nil _, by simpa [size] using hleft⟩

theorem room_entries_nil (hleft : left < limit) : (entries [] none).Room P limit left :=
  ⟨⟨List.forall_mem_nil _, fun _ h => nomatch h⟩, by simpa [size] using hleft⟩

theorem Room.mono (h : f.Room P limit left) (hle : left' ≤ left) : f.Room P limit left' :=
  ⟨h.bounded, Nat.lt_of_le_of_lt (Nat.add_le_add_left hle _) h.size_lt⟩

/-- A tree takes at least a byte. -/
theorem Room.add (h : f.Room P limit left) (ht : t.Bounded P limit) (hlt : left' < left) :
    (f.add t).Room P limit left' := by
  have hsize := h.size_lt
  refine ⟨h.bounded.add ht, ?_⟩
  rw [size_add]
  omega

theorem Room.close (h : f.Room P limit left) : f.close.Bounded P limit :=
  h.bounded.close (Nat.lt_of_le_of_lt (Nat.le_add_right _ _) h.size_lt)

end Frame

/-- Whether each open container has room. -/
def Roomy (P : σ → Prop) (limit left : Nat) (fs : List (Frame σ)) : Prop :=
  ∀ f ∈ fs, f.Room P limit left

/-- Whether what a token does keeps the room of the open containers of a state, and
finishes only bounded trees. -/
structure KeepsRoom {S : Type} (P : σ → Prop) (limit left : Nat) (frames : S → List (Frame σ))
    (next : Next S σ) : Prop where
  go : ∀ s, next = .go s → Roomy P limit left (frames s)
  finish : ∀ tree, next = .finish tree → tree.Bounded P limit

section Steps

variable {S τ : Type} {frames : S → List (Frame σ)} {f : Frame σ} {fs : List (Frame σ)}
  {left left' : Nat}

theorem roomy_nil : Roomy P limit left [] := List.forall_mem_nil _

theorem roomy_cons : Roomy P limit left (f :: fs) ↔
    f.Room P limit left ∧ Roomy P limit left fs :=
  List.forall_mem_cons

theorem Roomy.mono (h : Roomy P limit left fs) (hlt : left' < left) : Roomy P limit left' fs :=
  fun f hf => (h f hf).mono (Nat.le_of_lt hlt)

theorem keepsRoom_refuse : KeepsRoom P limit left frames .refuse :=
  ⟨fun _ h => (nomatch h), fun _ h => nomatch h⟩

theorem keepsRoom_go {s : S} (h : Roomy P limit left (frames s)) :
    KeepsRoom P limit left frames (.go s) := by
  refine ⟨fun s' hs' => ?_, fun _ h => nomatch h⟩
  obtain rfl := Next.go.inj hs'
  exact h

theorem keepsRoom_finish {t : Node σ} (h : t.Bounded P limit) :
    KeepsRoom P limit left frames (.finish t) := by
  refine ⟨fun _ h => (nomatch h), fun tree htree => ?_⟩
  obtain rfl := Next.finish.inj htree
  exact h

/-- A run over no more bytes than the limit finishes a bounded tree, if each token holds
less than it takes and keeps the room of the open containers. -/
theorem Grammar.run_bounded {G : Grammar τ S σ} (held : τ → Nat)
    (hheld : ∀ {bs t rest}, G.token bs = some (t, rest) → held t + rest.length < bs.length)
    (hstep : ∀ {t s left left'}, held t < limit → Roomy P limit left (frames s) → left' < limit →
      left' < left → KeepsRoom P limit left' frames (G.step t s))
    {bs rest : Bytes} {s : S} {tree : Node σ} (hrun : G.run bs s = ⟨tree, some rest⟩)
    (hbs : bs.length ≤ limit) (hs : Roomy P limit bs.length (frames s)) :
    tree.Bounded P limit := by
  refine run_invariant (fun left s => left.length ≤ limit ∧ Roomy P limit left.length (frames s))
    (fun tree _ => tree.Bounded P limit) ?_ ?_ hrun ⟨hbs, hs⟩
  · intro left t rest s s' ht _ hgo ⟨hleft, hroomy⟩
    have htake := hheld ht
    have hrest : rest.length < limit := by omega
    exact ⟨Nat.le_of_lt hrest, (hstep (by omega) hroomy hrest (by omega)).go s' hgo⟩
  · intro left t rest s tree ht hfinish ⟨hleft, hroomy⟩
    have htake := hheld ht
    have hrest : rest.length < limit := by omega
    exact (hstep (by omega) hroomy hrest (by omega)).finish tree hfinish

end Steps

/-! ## Formats that keep a limit -/

/-- Whether what a format takes from short scalars and bounded trees is short. -/
structure ReadRules.Keeps (R : ReadRules σ) (P : σ → Prop) (limit : Nat) : Prop where
  text : ∀ {x : σ} {s : String}, P x → (R.meaning x).asText? = some s → ShortText limit s
  member : ∀ {first : Bool} {x : σ} {s : String}, P x → R.memberName first x = some s →
    ShortText limit s
  rawValue : ∀ {s : String} {v : Any}, ShortText limit s → R.rawValue? s = some v →
    v.Short limit
  mapKey : ∀ {k : KeyKind} {t : Node σ} {key : k.Carrier}, t.Bounded P limit →
    R.mapKey k t = some key → k.Short limit key
  asSequence : ∀ {t : Node σ}, t.Bounded P limit → (R.asSequence t).Bounded P limit

/-- Whether a reader takes only short values from bounded trees. -/
def ReadsShort (P : σ → Prop) (limit : Nat) (read : Reader σ α) (short : α → Prop) : Prop :=
  ∀ (b : Budget) (t : Node σ) (v : α), t.Bounded P limit → read b t = .ok v → short v

variable {R : ReadRules σ}

/-! ## Values of no fixed type -/

theorem Scalar.asAny?_short {x : Scalar} {v : Any} (h : x.asAny? = some v)
    (htext : ∀ s, x.asText? = some s → ShortText limit s) : v.Short limit := by
  cases x with
  | null =>
    obtain rfl := Option.some.inj h
    exact trivial
  | bool b =>
    obtain rfl := Option.some.inj h
    exact trivial
  | integer n =>
    obtain ⟨w, -, rfl⟩ := Option.map_eq_some_iff.1 h
    exact trivial
  | float x =>
    simp only [Scalar.asAny?] at h
    split at h
    · obtain rfl := Option.some.inj h
      exact trivial
    · obtain rfl := Option.some.inj h
      exact trivial
  | text s =>
    obtain rfl := Option.some.inj h
    exact htext s rfl
  | bytes bs => cases h
  | void => cases h

/-- A map that has something under the raw key is led by that key. -/
theorem Entries.raw?_eq_some {es : Entries σ} {t : Node σ} {rest : Entries σ}
    (h : es.raw? R = some (t, rest)) : ∃ x, es = .cons (.scalar x) t rest := by
  unfold Entries.raw? at h
  split at h
  · next x t' rest' =>
    split at h
    · obtain ⟨rfl, rfl⟩ := Prod.mk.inj (Option.some.inj h)
      exact ⟨x, rfl⟩
    · cases h
  · cases h

theorem Node.rawValue?_of_readRaw {more : Bool} {t : Node σ} {rest : Entries σ} {v : Any}
    (h : t.readRaw R more rest = .ok v) : t.rawValue? R = some v := by
  unfold Node.readRaw at h
  split at h
  · next w hw =>
    split at h
    · obtain rfl := Except.ok.inj h
      exact hw
    · cases h
  · cases h

theorem Node.rawValue?_short (hR : R.Keeps P limit) {t : Node σ} {v : Any}
    (ht : t.Bounded P limit) (h : t.rawValue? R = some v) : v.Short limit := by
  cases t with
  | broken | seq | map => cases h
  | scalar x =>
    simp only [Node.rawValue?] at h
    split at h
    · next s hs => exact hR.rawValue (hR.text ht (by rw [hs]; rfl)) h
    · cases h

mutual

theorem Node.readAny_short (hR : R.Keeps P limit) {b : Budget} {t : Node σ} {v : Any}
    (ht : t.Bounded P limit) (h : t.readAny R b = .ok v) : v.Short limit := by
  cases t with
  | broken => cases h
  | scalar x =>
    simp only [Node.readAny] at h
    split at h
    · next w hw =>
      obtain rfl := Except.ok.inj h
      exact Scalar.asAny?_short hw fun s hs => hR.text ht hs
    · cases h
  | seq xs =>
    simp only [Node.readAny] at h
    split at h
    · next b' _ =>
      obtain ⟨vs, hxs, rfl⟩ := exists_of_map_eq_ok h
      obtain ⟨hlength, hshort⟩ := Items.readAny_short hR ht.2 hxs trivial
      exact ⟨Nat.lt_of_le_of_lt hlength (by simpa using ht.1), hshort⟩
    · cases h
  | map es =>
    simp only [Node.readAny] at h
    split at h
    · next b' _ =>
      split at h
      · next u rest hraw =>
        obtain ⟨x, rfl⟩ := Entries.raw?_eq_some hraw
        exact Node.rawValue?_short hR ht.2.2.1 (Node.rawValue?_of_readRaw h)
      · obtain ⟨ms, hes, rfl⟩ := exists_of_map_eq_ok h
        obtain ⟨hlength, hshort⟩ := Entries.readAny_short hR ht.2 hes trivial
        exact ⟨Nat.lt_of_le_of_lt hlength (by simpa using ht.1), hshort⟩
    · cases h

/-- The items read are at most as many as there are, and short. -/
theorem Items.readAny_short (hR : R.Keeps P limit) {b : Budget} {xs : Items σ} {rev vs : List Any}
    (hxs : xs.Bounded P limit) (h : xs.readAny R b rev = .ok vs)
    (hrev : Any.ShortItems limit rev) :
    vs.length ≤ rev.length + xs.length ∧ Any.ShortItems limit vs := by
  cases xs with
  | done =>
    obtain rfl := Except.ok.inj h
    refine ⟨by simp, Any.shortItems_iff.2 fun x hx => ?_⟩
    exact Any.shortItems_iff.1 hrev x (List.mem_reverse.1 hx)
  | broken => cases h
  | cons t rest =>
    simp only [Items.readAny] at h
    split at h
    · next w hw =>
      have hshort : Any.ShortItems limit (w :: rev) := ⟨Node.readAny_short hR hxs.1 hw, hrev⟩
      obtain ⟨hlength, hvs⟩ := Items.readAny_short hR hxs.2 h hshort
      simp only [List.length_cons, Items.length] at hlength ⊢
      exact ⟨by omega, hvs⟩
    · cases h

/-- The members read are at most as many as there are entries, and short. -/
theorem Entries.readAny_short (hR : R.Keeps P limit) {b : Budget} {es : Entries σ}
    {first : Bool} {members ms : List (String × Any)} (hes : es.Bounded P limit)
    (h : es.readAny R b first members = .ok ms) (hmembers : Any.ShortMembers limit members) :
    ms.length ≤ members.length + es.length ∧ Any.ShortMembers limit ms := by
  cases es with
  | done =>
    obtain rfl := Except.ok.inj h
    exact ⟨Nat.le_refl _, hmembers⟩
  | broken => cases h
  | cons key t rest =>
    simp only [Entries.readAny] at h
    split at h
    · next x =>
      split at h
      · next name hname =>
        split at h
        · next w hw =>
          -- a repeated member takes the place of the earlier one, so the count may fall behind
          have hput : Any.ShortMembers limit (Any.put name w members) :=
            Any.shortMembers_put (hR.member hes.1 hname) (Node.readAny_short hR hes.2.1 hw) hmembers
          obtain ⟨hlength, hms⟩ := Entries.readAny_short hR hes.2.2 h hput
          have hputLength := Any.length_put_le name w members
          simp only [Entries.length] at hlength ⊢
          exact ⟨by omega, hms⟩
        · cases h
      · cases h
    · cases h

end

/-! ## The kinds of schema -/

namespace Reader

theorem leaf_short {view : Scalar → Option α} {short : α → Prop}
    (hview : ∀ {x v}, P x → view (R.meaning x) = some v → short v) :
    ReadsShort P limit (leaf R view) short := by
  intro b t v ht h
  unfold leaf at h
  split at h
  · split at h
    · next hw =>
      obtain rfl := Except.ok.inj h
      exact hview ht hw
    · cases h
  · cases h

variable {r : Reader σ α} {q : Reader σ β} {short : α → Prop} {short' : β → Prop}

theorem optional_short (hr : ReadsShort P limit r short) :
    ReadsShort P limit (optional R r) fun v => ∀ x, v = some x → short x := by
  intro b t v ht h x hx
  subst hx
  unfold optional at h
  split at h
  · cases h
  · obtain ⟨w, hread, hw⟩ := exists_of_map_eq_ok h
    obtain rfl := Option.some.inj hw
    exact hr b t w ht hread

theorem items_short {read : Node σ → Except Fault α}
    (hread : ∀ {t v}, t.Bounded P limit → read t = .ok v → short v) {xs : Items σ}
    {rev vs : List α} (hxs : xs.Bounded P limit) (h : items read xs rev = .ok vs)
    (hrev : ∀ x ∈ rev, short x) : vs.length ≤ rev.length + xs.length ∧ ∀ x ∈ vs, short x := by
  fun_induction items read xs rev with
  | case1 rev =>
    obtain rfl := Except.ok.inj h
    exact ⟨by simp, fun x hx => hrev x (List.mem_reverse.1 hx)⟩
  | case3 t rest rev v hv ih =>
    obtain ⟨hlength, hvs⟩ := ih hxs.2 h (List.forall_mem_cons.2 ⟨hread hxs.1 hv, hrev⟩)
    simp only [List.length_cons, Items.length] at hlength ⊢
    exact ⟨by omega, hvs⟩
  | _ => cases h

theorem list_short (hR : R.Keeps P limit) (hr : ReadsShort P limit r short) :
    ReadsShort P limit (list R r) fun v => v.length < limit ∧ ∀ x ∈ v, short x := by
  intro b t v ht h
  have ht' := hR.asSequence ht
  unfold list at h
  split at h
  · next xs hxs =>
    rw [hxs] at ht'
    split at h
    · next b' _ =>
      obtain ⟨hlength, hshort⟩ := items_short (fun hu hv => hr b' _ _ hu hv) ht'.2 h (by simp)
      exact ⟨Nat.lt_of_le_of_lt hlength (by simpa using ht'.1), hshort⟩
    · cases h
  · cases h

theorem pair_short (hR : R.Keeps P limit) (hr : ReadsShort P limit r short)
    (hq : ReadsShort P limit q short') :
    ReadsShort P limit (pair R r q) fun v => short v.1 ∧ short' v.2 := by
  intro b t v ht h
  have ht' := hR.asSequence ht
  unfold pair at h
  split at h
  · next xs hxs =>
    rw [hxs] at ht'
    split at h
    · next b' _ =>
      unfold two at h
      split at h
      · next t u rest =>
        obtain ⟨x, hx, h⟩ := exists_of_bind_eq_ok h
        obtain ⟨y, hy, h⟩ := exists_of_bind_eq_ok h
        split at h
        · obtain rfl := Except.ok.inj h
          exact ⟨hr b' t x ht'.2.1 hx, hq b' u y ht'.2.2.1 hy⟩
        · cases h
      · obtain ⟨x, -, h⟩ := exists_of_bind_eq_ok h
        cases h
      · cases h
    · cases h
  · cases h

theorem mapEntries_short {k : KeyKind} {key : Node σ → Option k.Carrier}
    {read : Node σ → Except Fault α}
    (hkey : ∀ {t x}, t.Bounded P limit → key t = some x → k.Short limit x)
    (hread : ∀ {t v}, t.Bounded P limit → read t = .ok v → short v) {es : Entries σ}
    {m m' : SortedMap k.Carrier α} (hes : es.Bounded P limit)
    (h : mapEntries key read es m = .ok m')
    (hm : ∀ e ∈ m.entries, k.Short limit e.1 ∧ short e.2) :
    m'.entries.length ≤ m.entries.length + es.length ∧
      ∀ e ∈ m'.entries, k.Short limit e.1 ∧ short e.2 := by
  fun_induction mapEntries key read es m with
  | case1 m =>
    obtain rfl := Except.ok.inj h
    exact ⟨Nat.le_refl _, hm⟩
  | case3 kt t rest m x hx v hv ih =>
    -- an equal key keeps its one place in the map, with the later value
    have hplace := SortedMap.forall_mem_place (hkey hes.1 hx) (hread hes.2.1 hv) hm
    obtain ⟨hlength, hshort⟩ := ih hes.2.2 h hplace
    have hstep : (m.insert x v).entries.length ≤ m.entries.length + 1 :=
      SortedMap.length_place_le x v m.entries
    simp only [Entries.length] at hlength ⊢
    exact ⟨by omega, hshort⟩
  | _ => cases h

theorem map_short (hR : R.Keeps P limit) {k : KeyKind} (hr : ReadsShort P limit r short) :
    ReadsShort P limit (map R k r) fun v =>
      v.entries.length < limit ∧ ∀ e ∈ v.entries, k.Short limit e.1 ∧ short e.2 := by
  intro b t v ht h
  unfold map at h
  split at h
  · next es =>
    split at h
    · next b' _ =>
      obtain ⟨hlength, hshort⟩ := mapEntries_short (fun hu hk => hR.mapKey hu hk)
        (fun hu hv => hr b' _ _ hu hv) ht.2 h (List.forall_mem_nil _)
      exact ⟨Nat.lt_of_le_of_lt hlength (by simpa [SortedMap.empty] using ht.1), hshort⟩
    · cases h
  · cases h

/-- What holds of the fields read so far, and is kept by reading one more, holds of the
fields read from a map. -/
theorem recordEntries_short {put : Label → Node σ → π → Except Fault (Option π)}
    {held : π → Prop}
    (hput : ∀ {l t p p'}, t.Bounded P limit → put l t p = .ok (some p') → held p → held p')
    {b : Budget} {es : Entries σ} {p p' : π} (hes : es.Bounded P limit)
    (h : recordEntries R b put es p = .ok p') (hp : held p) : held p' := by
  fun_induction recordEntries R b put es p with
  | case1 p =>
    obtain rfl := Except.ok.inj h
    exact hp
  | case3 t rest p x l _ q hq ih => exact ih hes.2.2 h (hput hes.2.1 hq hp)
  | case4 t rest p x l _ _ _ ih => exact ih hes.2.2 h hp
  | _ => cases h

theorem record_short (hR : R.Keeps P limit)
    {put : Budget → Label → Node σ → π → Except Fault (Option π)} {blank : π}
    {finish : π → Except Fault α} {places : Bool → Budget → Items σ → Except Fault α}
    {held : π → Prop}
    (hput : ∀ {b l t p p'}, t.Bounded P limit → put b l t p = .ok (some p') → held p → held p')
    (hblank : held blank) (hfinish : ∀ {p v}, held p → finish p = .ok v → short v)
    (hplaces : ∀ {more b xs v}, xs.Bounded P limit → places more b xs = .ok v → short v) :
    ReadsShort P limit (record R put blank finish places) short := by
  intro b t v ht h
  have ht' := hR.asSequence ht
  unfold record at h
  split at h
  · next es hes =>
    rw [hes] at ht'
    split at h
    · obtain ⟨p, hp, h⟩ := exists_of_bind_eq_ok h
      exact hfinish (recordEntries_short hput ht'.2 hp hblank) h
    · cases h
  · next xs hxs =>
    rw [hxs] at ht'
    split at h
    · exact hplaces ht'.2 h
    · cases h
  · cases h

theorem choice_short {bare : Label → Except Fault α} {content : Label → Reader σ α}
    (hbare : ∀ {l v}, bare l = .ok v → short v)
    (hcontent : ∀ l, ReadsShort P limit (content l) short) :
    ReadsShort P limit (choice R bare content) short := by
  intro b t v ht h
  unfold choice at h
  split at h
  · split at h
    · exact hbare h
    · cases h
  · split at h
    · cases h
    split at h
    · next l _ =>
      split at h
      · next w hw =>
        split at h
        · obtain rfl := Except.ok.inj h
          exact hcontent l b _ w ht.2.2.1 hw
        · cases h
      · cases h
    · cases h
  · cases h

end Reader

end Conneg.Wire

namespace Conneg

open Wire

variable {σ : Type} {P : σ → Prop} {limit : Nat} {R : ReadRules σ}

/-! ## Schemas -/

/-- Whether the fields of a record that have been read are short. -/
def Fields.PartialShort (limit : Nat) : (fs : Fields) → fs.Partial → Prop
  | .nil => fun _ => True
  | .cons _ s rest => fun p => (∀ v, p.1 = some v → s.Short limit v) ∧ rest.PartialShort limit p.2

theorem Fields.partialShort_blank (fs : Fields) : fs.PartialShort limit fs.blank := by
  cases fs with
  | nil => exact trivial
  | cons name s rest => exact ⟨fun _ h => (nomatch h), rest.partialShort_blank⟩

theorem Schema.absent?_short {s : Schema} {v : s.Carrier} (h : s.absent? = some v) :
    s.Short limit v := by
  cases s with
  | optional s =>
    obtain rfl := Option.some.inj h
    exact fun _ hx => nomatch hx
  | _ => cases h

theorem Fields.finish_short (fs : Fields) {p : fs.Partial} {v : fs.Carrier}
    (hp : fs.PartialShort limit p) (h : fs.finish p = .ok v) : fs.Short limit v := by
  cases fs with
  | nil => exact trivial
  | cons name s rest =>
    obtain ⟨x, p⟩ := p
    simp only [Fields.finish] at h
    split at h
    · cases h
    · next w hw =>
      obtain ⟨vs, hvs, rfl⟩ := exists_of_map_eq_ok h
      refine ⟨?_, rest.finish_short hp.2 hvs⟩
      rcases Option.or_eq_some_iff.1 hw with hx | ⟨-, habsent⟩
      · exact hp.1 w hx
      · exact Schema.absent?_short habsent

/-- A case without content has nothing that could be long. -/
theorem Cases.bare_short (cs : Cases) {l : Label} {v : cs.Carrier} (h : cs.bare l = .ok v) :
    cs.Short limit v := by
  cases cs with
  | nil => exact nomatch v
  | cons name c rest =>
    cases c with
    | unit =>
      simp only [Cases.bare] at h
      split at h
      · obtain rfl := Except.ok.inj h
        exact trivial
      · obtain ⟨w, hw, rfl⟩ := exists_of_map_eq_ok h
        exact rest.bare_short hw
    | value | pair | record =>
      simp only [Cases.bare] at h
      split at h
      · cases h
      · obtain ⟨w, hw, rfl⟩ := exists_of_map_eq_ok h
        exact rest.bare_short hw

mutual

/-- **What is read from short parts is short.** -/
theorem Schema.read_short (hR : R.Keeps P limit) (s : Schema) :
    ReadsShort P limit (s.read R) (s.Short limit) := by
  cases s with
  | any => exact fun b t v ht h => Node.readAny_short hR ht h
  | bool | integer | float | unit => exact Reader.leaf_short fun _ _ => trivial
  | text => exact Reader.leaf_short hR.text
  | optional s => exact Reader.optional_short (s.read_short hR)
  | list s => exact Reader.list_short hR (s.read_short hR)
  | pair a c => exact Reader.pair_short hR (a.read_short hR) (c.read_short hR)
  | map k s => exact Reader.map_short hR (s.read_short hR)
  | record fs =>
    exact Reader.record_short hR (fun ht h hp => fs.put_short hR ht h hp) fs.partialShort_blank
      fs.finish_short (fun hxs h => fs.places_short hR hxs h)
  | choice cs => exact Reader.choice_short cs.bare_short (cs.content_short hR)
  | readOnly s => exact s.read_short hR

/-- Reading a field's value keeps what has been read short. -/
theorem Fields.put_short (hR : R.Keeps P limit) (fs : Fields) {b : Budget} {l : Label}
    {t : Node σ} {p p' : fs.Partial} (ht : t.Bounded P limit)
    (h : fs.put R b l t p = .ok (some p')) (hp : fs.PartialShort limit p) :
    fs.PartialShort limit p' := by
  cases fs with
  | nil => cases h
  | cons name s rest =>
    obtain ⟨x, p⟩ := p
    simp only [Fields.put] at h
    split at h
    · cases x with
      | some _ => cases h
      | none =>
        obtain ⟨v, hv, heq⟩ := exists_of_map_eq_ok h
        obtain rfl := Option.some.inj heq
        refine ⟨fun w hw => ?_, hp.2⟩
        obtain rfl := Option.some.inj hw
        exact s.read_short hR b t v ht hv
    · obtain ⟨q, hq, heq⟩ := exists_of_map_eq_ok h
      obtain ⟨q', rfl, rfl⟩ := Option.map_eq_some_iff.1 heq
      exact ⟨hp.1, rest.put_short hR ht hq hp.2⟩

/-- The fields of a record read by their places are short. -/
theorem Fields.places_short (hR : R.Keeps P limit) (fs : Fields) {more : Bool} {b : Budget}
    {xs : Items σ} {v : fs.Carrier} (hxs : xs.Bounded P limit)
    (h : fs.places R more b xs = .ok v) : fs.Short limit v := by
  cases fs with
  | nil => exact trivial
  | cons name s rest =>
    cases xs with
    | done | broken => cases h
    | cons t xs =>
      simp only [Fields.places] at h
      obtain ⟨x, hx, h⟩ := exists_of_bind_eq_ok h
      obtain ⟨vs, hvs, h⟩ := exists_of_bind_eq_ok h
      obtain rfl := Except.ok.inj h
      exact ⟨s.read_short hR b t x hxs.1 hx, rest.places_short hR hxs.2 hvs⟩

/-- The content of a case is short. -/
theorem Cases.content_short (hR : R.Keeps P limit) (cs : Cases) (l : Label) :
    ReadsShort P limit (cs.content R l) (cs.Short limit) := by
  cases cs with
  | nil => exact fun _ _ v => nomatch v
  | cons name c rest =>
    intro b t v ht h
    simp only [Cases.content] at h
    split at h
    · obtain ⟨w, hw, rfl⟩ := exists_of_map_eq_ok h
      exact c.read_short hR b t w ht hw
    · obtain ⟨w, hw, rfl⟩ := exists_of_map_eq_ok h
      exact rest.content_short hR l.next b t w ht hw

theorem Content.read_short (hR : R.Keeps P limit) (c : Content) :
    ReadsShort P limit (c.read R) (c.Short limit) := by
  cases c with
  | unit => exact fun _ _ _ _ _ => trivial
  | value s => exact s.read_short hR
  | pair a c => exact Reader.pair_short hR (a.read_short hR) (c.read_short hR)
  | record fs =>
    exact Reader.record_short hR (fun ht h hp => fs.put_short hR ht h hp) fs.partialShort_blank
      fs.finish_short (fun hxs h => fs.places_short hR hxs h)

end

end Conneg
