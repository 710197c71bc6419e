import Conneg.MsgPack.Document
import Conneg.Proofs.Wire.Run

/-!
# Where a MessagePack value ends

A token says how long it is in its first byte, or in a length after it, and there are
only a few ways in which it can go on (`Token.Form`). So no token is disturbed by what
stands behind it (`Token.next_undisturbed`), nor does it hold more bytes than it takes
(`Token.next_held`). The first holds of a whole value: what is left of a body is its end
(`parse_suffix`), and a tail behind the body is left besides (`parse_append`).

A body that is accepted has nothing left. With a tail behind it, what is left is the
tail, and that many bytes are counted in the refusal (`decode_append`).
-/

namespace Conneg.MsgPack

open Wire

/-! ## Tokens -/

/-- How many bytes a scalar holds as they stand in the body. -/
def Atom.held : Atom → Nat
  | .text bs | .binary bs | .extension bs => bs.length
  | _ => 0

namespace Token

/-- The same for a token. -/
def held : Token → Nat
  | .atom x => x.held
  | _ => 0

/-- The ways in which a token goes on after its first byte. -/
inductive Form : (Bytes → Option (Token × Bytes)) → Prop
  | plain {t : Token} (ht : t.held = 0) : Form fun bs => some (t, bs)
  | string {make : Bytes → Atom} (hmake : ∀ front, (make front).held = front.length) (count : Nat) :
      Form (string? make count)
  | sized {make : Bytes → Atom} (hmake : ∀ front, (make front).held = front.length) (width : Nat) :
      Form (sized? make width)
  | extension (width : Nat) : Form (extensionSized? width)
  | scalar {make : Nat → Token} (hmake : ∀ n, (make n).held = 0) (width : Nat) :
      Form (scalar? make width)
  | none : Form fun _ => none

/-- The first byte of a token tells its form. -/
theorem form_ofMarker (marker : UInt8) : Form (ofMarker marker) := by
  unfold ofMarker
  dsimp only
  -- the short forms, which have their number in the first byte
  split
  · exact .plain rfl
  split
  · exact .plain rfl
  split
  · exact .plain rfl
  split
  · exact .string (fun _ => rfl) _
  split
  · exact .plain rfl
  -- the forms with a marker, in its order
  split
  · exact .plain rfl
  · exact .plain rfl
  · exact .plain rfl
  · exact .sized (fun _ => rfl) _
  · exact .sized (fun _ => rfl) _
  · exact .sized (fun _ => rfl) _
  · exact .extension _
  · exact .extension _
  · exact .extension _
  · exact .scalar (fun _ => rfl) _
  · exact .scalar (fun _ => rfl) _
  · exact .scalar (fun _ => rfl) _
  · exact .scalar (fun _ => rfl) _
  · exact .scalar (fun _ => rfl) _
  · exact .scalar (fun _ => rfl) _
  · exact .scalar (fun _ => rfl) _
  · exact .scalar (fun _ => rfl) _
  · exact .scalar (fun _ => rfl) _
  · exact .scalar (fun _ => rfl) _
  · exact .string (fun _ => rfl) _
  · exact .string (fun _ => rfl) _
  · exact .string (fun _ => rfl) _
  · exact .string (fun _ => rfl) _
  · exact .string (fun _ => rfl) _
  · exact .sized (fun _ => rfl) _
  · exact .sized (fun _ => rfl) _
  · exact .sized (fun _ => rfl) _
  · exact .scalar (fun _ => rfl) _
  · exact .scalar (fun _ => rfl) _
  · exact .scalar (fun _ => rfl) _
  · exact .scalar (fun _ => rfl) _
  · exact .none

variable {bs rest tail : Bytes} {make : Bytes → Atom} {count width : Nat}

theorem number?_undisturbed : Undisturbed (number? width) bs tail :=
  (undisturbed_split? width bs tail).map Bytes.toNatBE

theorem string?_undisturbed : Undisturbed (string? make count) bs tail :=
  (undisturbed_split? count bs tail).map fun front => Token.atom (make front)

/-- Whatever its form, a token is not disturbed. -/
theorem Form.undisturbed {read : Bytes → Option (Token × Bytes)} (h : Form read)
    (bs tail : Bytes) : Undisturbed read bs tail := by
  cases h with
  | plain => exact undisturbed_pure _ bs tail
  | string => exact string?_undisturbed
  | sized => exact number?_undisturbed.bind fun _ _ => string?_undisturbed
  | extension => exact number?_undisturbed.bind fun _ _ => string?_undisturbed
  | scalar _ _ => exact number?_undisturbed.map _
  | none => exact undisturbed_none bs tail

theorem string?_held (hmake : ∀ front, (make front).held = front.length) {t : Token}
    (h : string? make count bs = some (t, rest)) : t.held + rest.length ≤ bs.length := by
  obtain ⟨⟨front, rest'⟩, hs, heq⟩ := Option.map_eq_some_iff.1 h
  obtain ⟨rfl, rfl⟩ := Prod.mk.inj heq
  rw [(Bytes.split?_eq_some hs).2, List.length_append]
  exact Nat.le_of_eq (congrArg (· + rest'.length) (hmake front))

/-- What a token holds and what it leaves are together no more than there was. -/
theorem Form.held_add_length_le {read : Bytes → Option (Token × Bytes)} (h : Form read)
    {t : Token} (hread : read bs = some (t, rest)) : t.held + rest.length ≤ bs.length := by
  cases h with
  | plain ht =>
    obtain ⟨rfl, rfl⟩ := Prod.mk.inj (Option.some.inj hread)
    omega
  | string hmake => exact string?_held hmake hread
  | sized hmake =>
    obtain ⟨⟨count, rest'⟩, hn, hs⟩ := Option.bind_eq_some_iff.1 hread
    exact Nat.le_trans (string?_held hmake hs) (number?_le hn)
  | extension =>
    obtain ⟨⟨count, rest'⟩, hn, hs⟩ := Option.bind_eq_some_iff.1 hread
    exact Nat.le_trans (string?_held (fun _ => rfl) hs) (number?_le hn)
  | scalar hmake =>
    obtain ⟨⟨n, rest'⟩, hn, heq⟩ := Option.map_eq_some_iff.1 hread
    obtain ⟨rfl, rfl⟩ := Prod.mk.inj heq
    rw [hmake, Nat.zero_add]
    exact number?_le hn
  | none => exact nomatch hread

/-- A token holds less than it takes. -/
theorem next_held {t : Token} (h : next bs = some (t, rest)) :
    t.held + rest.length < bs.length := by
  cases bs with
  | nil => cases h
  | cons marker bs => exact Nat.lt_succ_of_le ((form_ofMarker marker).held_add_length_le h)

/-- A token does not see what stands behind it. -/
theorem next_undisturbed : Undisturbed next bs tail := by
  intro t rest h
  cases bs with
  | nil => cases h
  | cons marker bs =>
    obtain ⟨hsuffix, htail⟩ := (form_ofMarker marker).undisturbed bs tail t rest h
    exact ⟨hsuffix.trans (List.suffix_cons marker bs), htail⟩

theorem next_suffix {t : Token} (h : next bs = some (t, rest)) :
    rest <:+ bs :=
  (@next_undisturbed bs [] t rest h).1

end Token

/-! ## Documents -/

variable {bs rest tail : Bytes} {tree : Node Atom}

/-- The place that a reading has come to lies within the body. -/
theorem parse_suffix (h : parse bs = ⟨tree, some rest⟩) : rest <:+ bs :=
  Grammar.run_suffix Token.next_suffix h

/-- A value does not see what stands behind it. -/
theorem parse_append (h : parse bs = ⟨tree, some rest⟩) (tail : Bytes) :
    parse (bs ++ tail) = ⟨tree, some (rest ++ tail)⟩ := by
  have htoken : ∀ {bs : Bytes} {t rest}, Token.next bs = some (t, rest) →
      Token.next (bs ++ tail) = some (t, rest ++ tail) :=
    fun ht => (Token.next_undisturbed _ _ ht).2
  exact Grammar.run_append (fun _ => True) (fun ht _ => htoken ht)
    (fun ht _ _ => htoken ht) h trivial

/-- A body that is accepted is one value, from its first byte to its last. -/
theorem parse_of_decode {s : Schema} {v : s.Carrier} (h : decode s bs = .ok v) :
    ∃ tree, parse bs = ⟨tree, some []⟩ ∧
      s.read readRules readRules.nesting tree = .ok v := by
  simp only [decode] at h
  split at h
  · cases h
  next w hread =>
  split at h
  · next hrest =>
    obtain rfl : w = v := by simpa using h
    exact ⟨(parse bs).tree, by rw [← hrest], hread⟩
  · cases h
  · cases h

/-- Bytes behind an accepted body are counted and refused. -/
theorem decode_append {s : Schema} {v : s.Carrier} (h : decode s bs = .ok v)
    (htail : tail ≠ []) : decode s (bs ++ tail) = .error (.trailingBytes tail.length) := by
  obtain ⟨tree, hparse, hread⟩ := parse_of_decode h
  have hparse' : parse (bs ++ tail) = ⟨tree, some tail⟩ := parse_append hparse tail
  obtain ⟨b, tail', rfl⟩ := List.exists_cons_of_ne_nil htail
  simp only [decode, hparse', hread]

end Conneg.MsgPack
