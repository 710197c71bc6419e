import Conneg.Proofs.Json.RawValue
import Conneg.Proofs.MsgPack.Extent
import Conneg.Proofs.Text.Decoded
import Conneg.Proofs.Wire.Bounded

/-!
# No part of a MessagePack value is longer than its body

A list or a map announces how many trees it holds, but it is only complete once they
have come, and each takes at least a byte. So the trees of an open container and the
bytes left are together fewer than the bytes of the body (`parse_bounded`). A string
holds less than it takes, and as a text it has the bytes that it holds; as a list of
numbers it has a number for each of them. So the format keeps the limit (`keeps`).
-/

namespace Conneg.MsgPack

open Wire

variable {limit : Nat}

/-- Whether a scalar holds fewer bytes than a limit. -/
def Atom.Short (limit : Nat) (x : Atom) : Prop := x.held < limit

/-! ## The decisions of the format -/

theorem shortText_of_decode? {bs : Bytes} {s : String} (h : Utf8.decode? bs = some s)
    (hbs : bs.length < limit) : ShortText limit s := by
  rw [ShortText, Utf8.encode_of_decode? h]
  exact hbs

theorem length_of_integers? {xs : Items Atom} {ns : List (Integer .i64)}
    (h : integers? xs = some ns) : ns.length = xs.length := by
  fun_induction integers? xs generalizing ns with
  | case1 =>
    obtain rfl := Option.some.inj h
    rfl
  | case3 x rest ih =>
    simp only [Option.bind_eq_bind, Option.bind_eq_some_iff] at h
    obtain ⟨n, -, ns', hns', h⟩ := h
    obtain rfl := Option.some.inj h
    rw [List.length_cons, ih hns', Items.length]
  | _ => cases h

/-- A byte string is a list of as many small numbers. -/
theorem bounded_asSequence {t : Node Atom} (hlimit : 0 < limit)
    (ht : t.Bounded (Atom.Short limit) limit) :
    (asSequence t).Bounded (Atom.Short limit) limit := by
  unfold asSequence
  split
  · next bs =>
    refine ⟨?_, Items.bounded_ofList fun t ht => ?_⟩
    · rw [Items.length_ofList, List.length_map]
      exact ht
    · obtain ⟨b, -, rfl⟩ := List.mem_map.1 ht
      exact hlimit
  · exact ht

theorem keeps (hlimit : 0 < limit) : readRules.Keeps (Atom.Short limit) limit where
  text {x s} hx h := by
    cases x with
    | text bs =>
      simp only [readRules, Atom.meaning] at h
      split at h
      · next s' hs' =>
        obtain rfl := Option.some.inj h
        exact shortText_of_decode? hs' hx
      · cases h
    | binary bs => exact shortText_of_decode? h hx
    | _ => cases h
  member {first x s} hx h := by
    cases x with
    | text bs => exact shortText_of_decode? h hx
    | binary bs =>
      simp only [readRules, Atom.memberName] at h
      split at h
      · cases h
      · exact shortText_of_decode? h hx
    | _ => cases h
  mapKey {k t key} ht h := by
    cases k with
    | text =>
      cases t with
      | scalar x =>
        cases x with
        | text bs | binary bs => exact shortText_of_decode? h ht
        | _ => cases h
      | _ => cases h
    | integer | boolean => exact trivial
    | list =>
      have ht' := bounded_asSequence hlimit ht
      simp only [readRules, mapKey?] at h
      split at h
      · next xs hxs =>
        rw [hxs] at ht'
        show key.length < limit
        rw [length_of_integers? h]
        exact ht'.1
      · cases h
  rawValue := Json.rawValue?_short
  asSequence := bounded_asSequence hlimit

/-! ## Documents -/

variable {t : Node Atom} {s : State} {left left' : Nat}

/-- The open containers of a state, without what they still wait for. -/
def State.frames (s : State) : List (Frame Atom) := s.map Prod.snd

theorem keepsRoom_deliver (ht : t.Bounded (Atom.Short limit) limit)
    (hs : Roomy (Atom.Short limit) limit left s.frames) (hlt : left' < left) :
    KeepsRoom (Atom.Short limit) limit left' State.frames (deliver t s) := by
  induction s generalizing t with
  | nil => exact keepsRoom_finish ht
  | cons e outer ih =>
    obtain ⟨count, f⟩ := e
    obtain ⟨hf, houter⟩ := roomy_cons.1 hs
    have hadd : (f.add t).Room (Atom.Short limit) limit left' := hf.add ht hlt
    rw [deliver]
    split
    · -- the container is complete and goes to the one around it
      exact ih hadd.close houter
    · exact keepsRoom_go (roomy_cons.2 ⟨hadd, houter.mono hlt⟩)

theorem keepsRoom_openFrame {f : Frame Atom} {count : Nat}
    (hf : f.Room (Atom.Short limit) limit left')
    (hs : Roomy (Atom.Short limit) limit left s.frames) (hlt : left' < left) :
    KeepsRoom (Atom.Short limit) limit left' State.frames (openFrame f count s) := by
  unfold openFrame
  split
  · exact keepsRoom_deliver hf.close hs hlt
  · exact keepsRoom_go (roomy_cons.2 ⟨hf, hs.mono hlt⟩)

theorem keepsRoom_step {x : Token} (hx : x.held < limit)
    (hs : Roomy (Atom.Short limit) limit left s.frames) (hleft : left' < limit)
    (hlt : left' < left) : KeepsRoom (Atom.Short limit) limit left' State.frames (step x s) := by
  cases x with
  | atom x => exact keepsRoom_deliver hx hs hlt
  | openList count => exact keepsRoom_openFrame (Frame.room_items_nil hleft) hs hlt
  | openMap count => exact keepsRoom_openFrame (Frame.room_entries_nil hleft) hs hlt

/-- No part of a parsed tree is as long as the body or longer. -/
theorem parse_bounded {bs rest : Bytes} {tree : Node Atom} (h : parse bs = ⟨tree, some rest⟩)
    (hbs : bs.length ≤ limit) : tree.Bounded (Atom.Short limit) limit :=
  Grammar.run_bounded Token.held Token.next_held keepsRoom_step h hbs roomy_nil

end Conneg.MsgPack
