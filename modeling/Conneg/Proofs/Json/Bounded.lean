import Conneg.Proofs.Json.Extent
import Conneg.Proofs.Text.Decoded
import Conneg.Proofs.Wire.Bounded

/-!
# No part of a JSON value is longer than its body

What stands between the quotes of a text takes its place in the body, and the text that
it means takes no more: an escape is never shorter than the character that it stands for
(`Quoting.length_decode?_le`). An item of a list or a member of an object takes at least
a byte. So the trees of an open container and the bytes left are together fewer than the
bytes of the body (`parse_bounded`), and the format keeps the limit (`keeps`).
-/

namespace Conneg.Json

open Wire

variable {limit : Nat}

/-! ## Texts -/

namespace Quoting

open Utf8

/-- A short escape stands for a character that is no longer than its last one. -/
theorem utf8Size_shortEscape_le (c : Char) : (shortEscape c).utf8Size ≤ c.utf8Size := by
  unfold shortEscape
  split <;> exact Nat.le_refl _

/-- An escape by number is longer than any character. -/
theorem four_le_escape (a b c d : Char) (rest : List Char) :
    4 + bytesOf rest ≤ bytesOf ('\\' :: 'u' :: a :: b :: c :: d :: rest) := by
  have ha := a.utf8Size_pos
  have hb := b.utf8Size_pos
  have hc := c.utf8Size_pos
  have hd := d.utf8Size_pos
  simp only [bytesOf]
  omega

/-- Taking escapes for what they stand for makes no text longer. -/
theorem bytesOf_unescape_le {cs rev out : List Char} (h : unescape cs rev = some out) :
    bytesOf out ≤ bytesOf cs + bytesOf rev := by
  fun_induction unescape cs rev with
  | case1 rev =>
    obtain rfl := Option.some.inj h
    rw [bytesOf_reverse]
    exact Nat.le_add_left _ _
  | case3 a b c d rev unit _ _ a' b' c' d' rest low _ ih =>
    -- both halves of a pair stand for one character
    have hle := ih h
    have hsize := Char.utf8Size_le_four
      (Char.ofNat (0x10000 + (unit - 0xD800) * 0x400 + (low - 0xDC00)))
    have hfirst := four_le_escape a b c d ('\\' :: 'u' :: a' :: b' :: c' :: d' :: rest)
    have hsecond := four_le_escape a' b' c' d' rest
    rw [bytesOf] at hle
    omega
  | case6 a b c d rest rev unit _ _ ih =>
    have hle := ih h
    have hsize := Char.utf8Size_le_four (Char.ofNat unit)
    have hescape := four_le_escape a b c d rest
    rw [bytesOf] at hle
    omega
  | case7 e rest rev _ ih =>
    have hle := ih h
    have hsize := utf8Size_shortEscape_le e
    rw [bytesOf] at hle
    rw [bytesOf, bytesOf]
    omega
  | case8 c rest rev _ _ ih =>
    have hle := ih h
    rw [bytesOf] at hle
    rw [bytesOf]
    omega
  | _ => cases h

theorem length_decode?_le {raw : Bytes} {s : String} (h : decode? raw = some s) :
    (Utf8.encode s).length ≤ raw.length := by
  simp only [decode?, Option.bind_eq_bind, Option.bind_eq_some_iff] at h
  obtain ⟨t, ht, cs, hcs, h⟩ := h
  obtain rfl := Option.some.inj h
  have hle := bytesOf_unescape_le hcs
  have hraw := congrArg List.length (Utf8.encode_of_decode? ht)
  rw [length_encode] at hraw
  rw [length_encode, String.toList_ofList]
  rw [bytesOf, Nat.add_zero, hraw] at hle
  exact hle

end Quoting

/-! ## The decisions of the format -/

/-- Whether a scalar holds fewer bytes than a limit. -/
def Atom.Short (limit : Nat) (x : Atom) : Prop := Token.held (.atom x) < limit

theorem shortText_of_decode? {raw : Bytes} {s : String} (h : Quoting.decode? raw = some s)
    (hraw : raw.length < limit) : ShortText limit s :=
  Nat.lt_of_le_of_lt (Quoting.length_decode?_le h) hraw

theorem asText?_meaning_number (n : Number) : n.meaning.asText? = none := by
  unfold Number.meaning
  split
  · rfl
  · split <;> rfl

theorem keeps_rulesFor {rawValue? : String → Option Any}
    (hraw : ∀ {s v}, ShortText limit s → rawValue? s = some v → v.Short limit) :
    (rulesFor rawValue?).Keeps (Atom.Short limit) limit where
  text {x s} hx h := by
    cases x with
    | text raw =>
      simp only [rulesFor, Atom.meaning] at h
      split at h
      · next s' hs' =>
        obtain rfl := Option.some.inj h
        exact shortText_of_decode? hs' hx
      · cases h
    | number n => exact nomatch (asText?_meaning_number n).symm.trans h
    | _ => cases h
  member {first x s} hx h := by
    cases x with
    | text raw => exact shortText_of_decode? h hx
    | _ => cases h
  rawValue := hraw
  mapKey {k t key} ht h := by
    cases k with
    | text =>
      cases t with
      | scalar x =>
        cases x with
        | text raw => exact shortText_of_decode? h ht
        | _ => cases h
      | _ => cases h
    | integer | boolean => exact trivial
    | list => cases h
  asSequence ht := ht

/-! ## Documents -/

variable {t : Node Atom} {x : Token} {frames : List (Frame Atom)} {left left' : Nat}

theorem keepsRoom_deliver (ht : t.Bounded (Atom.Short limit) limit)
    (hframes : Roomy (Atom.Short limit) limit left frames) (hlt : left' < left) :
    KeepsRoom (Atom.Short limit) limit left' State.frames (deliver t frames) := by
  cases frames with
  | nil => exact keepsRoom_finish ht
  | cons f fs =>
    obtain ⟨hf, hfs⟩ := roomy_cons.1 hframes
    exact keepsRoom_go (roomy_cons.2 ⟨hf.add ht hlt, hfs.mono hlt⟩)

theorem keepsRoom_close {f : Frame Atom} {fs : List (Frame Atom)}
    (hframes : Roomy (Atom.Short limit) limit left (f :: fs)) (hlt : left' < left) :
    KeepsRoom (Atom.Short limit) limit left' State.frames (deliver f.close fs) := by
  obtain ⟨hf, hfs⟩ := roomy_cons.1 hframes
  exact keepsRoom_deliver hf.close hfs hlt

theorem keepsRoom_beginValue (hx : x.held < limit)
    (hframes : Roomy (Atom.Short limit) limit left frames) (hleft : left' < limit)
    (hlt : left' < left) :
    KeepsRoom (Atom.Short limit) limit left' State.frames (beginValue x frames) := by
  cases x with
  | atom a => exact keepsRoom_deliver hx hframes hlt
  | openList => exact keepsRoom_go (roomy_cons.2 ⟨Frame.room_items_nil hleft, hframes.mono hlt⟩)
  | openObject =>
    exact keepsRoom_go (roomy_cons.2 ⟨Frame.room_entries_nil hleft, hframes.mono hlt⟩)
  | _ => exact keepsRoom_refuse

theorem keepsRoom_beginKey (hx : x.held < limit)
    (hframes : Roomy (Atom.Short limit) limit left frames) (hlt : left' < left) :
    KeepsRoom (Atom.Short limit) limit left' State.frames (beginKey x frames) := by
  unfold beginKey
  split
  · obtain ⟨hf, hfs⟩ := roomy_cons.1 hframes
    exact keepsRoom_go (roomy_cons.2 ⟨hf.add hx hlt, hfs.mono hlt⟩)
  · exact keepsRoom_refuse

/-- A token takes a byte and adds at most one tree to a container. -/
theorem keepsRoom_step {s : State} (hx : x.held < limit)
    (hs : Roomy (Atom.Short limit) limit left s.frames) (hleft : left' < limit)
    (hlt : left' < left) : KeepsRoom (Atom.Short limit) limit left' State.frames (step x s) := by
  obtain ⟨place, frames⟩ := s
  change Roomy (Atom.Short limit) limit left frames at hs
  unfold step
  dsimp only
  split
  · exact keepsRoom_beginValue hx hs hleft hlt
  · exact keepsRoom_close hs hlt
  · exact keepsRoom_beginValue hx hs hleft hlt
  · exact keepsRoom_close hs hlt
  · exact keepsRoom_beginKey hx hs hlt
  · exact keepsRoom_beginKey hx hs hlt
  · exact keepsRoom_go (hs.mono hlt)
  · exact keepsRoom_go (hs.mono hlt)
  · exact keepsRoom_go (hs.mono hlt)
  · exact keepsRoom_close hs hlt
  · exact keepsRoom_close hs hlt
  · exact keepsRoom_refuse

/-- No part of a parsed tree is as long as the body or longer. -/
theorem parse_bounded {bs rest : Bytes} {tree : Node Atom} (h : parse bs = ⟨tree, some rest⟩)
    (hbs : bs.length ≤ limit) : tree.Bounded (Atom.Short limit) limit :=
  Grammar.run_bounded Token.held Token.next_held keepsRoom_step h hbs roomy_nil

end Conneg.Json
