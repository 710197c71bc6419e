import Conneg.MsgPack.Atom

/-!
# Tokens of MessagePack

A token is a scalar with all its bytes, or the marker of a list or a map with the
number of its items or entries. Its first byte tells its form; lengths and
numbers that follow are most significant byte first.
-/

namespace Conneg.MsgPack

/-- A token. -/
inductive Token
  | atom (x : Atom)
  | openList (count : Nat)
  | openMap (count : Nat)
  deriving DecidableEq

namespace Token

/-- A number of `width` bytes, and the bytes after it. -/
def number? (width : Nat) (bs : Bytes) : Option (Nat × Bytes) :=
  (Bytes.split? width bs).map fun (front, rest) => (Bytes.toNatBE front, rest)

/-- A string of `count` bytes, made a token. -/
def string? (make : Bytes → Atom) (count : Nat) (bs : Bytes) : Option (Token × Bytes) :=
  (Bytes.split? count bs).map fun (front, rest) => (.atom (make front), rest)

/-- A string after its length of `width` bytes. -/
def sized? (make : Bytes → Atom) (width : Nat) (bs : Bytes) : Option (Token × Bytes) :=
  (number? width bs).bind fun (count, rest) => string? make count rest

/-- A token that is a number of `width` bytes. -/
def scalar? (make : Nat → Token) (width : Nat) (bs : Bytes) : Option (Token × Bytes) :=
  (number? width bs).map fun (n, rest) => (make n, rest)

/-- An extension has one byte for its kind in front of its content. -/
def extensionSized? (width : Nat) (bs : Bytes) : Option (Token × Bytes) :=
  (number? width bs).bind fun (count, rest) => string? .extension (count + 1) rest

/-- A signed number of `width` bytes, made a token. -/
def signedAtom (width n : Nat) : Token := .atom (.signed (Bytes.signed width n))

/-- The token that begins with a byte, and the bytes after it. -/
def ofMarker (marker : UInt8) (bs : Bytes) : Option (Token × Bytes) :=
  let m := marker.toNat
  if m < 0x80 then some (.atom (.unsigned m), bs)
  else if m < 0x90 then some (.openMap (m - 0x80), bs)
  else if m < 0xA0 then some (.openList (m - 0x90), bs)
  else if m < 0xC0 then string? .text (m - 0xA0) bs
  else if 0xE0 ≤ m then some (.atom (.signed ((m : Int) - 256)), bs)
  else
    match m with
    | 0xC0 => some (.atom .null, bs)
    | 0xC2 => some (.atom (.bool false), bs)
    | 0xC3 => some (.atom (.bool true), bs)
    | 0xC4 => sized? .binary 1 bs
    | 0xC5 => sized? .binary 2 bs
    | 0xC6 => sized? .binary 4 bs
    | 0xC7 => extensionSized? 1 bs
    | 0xC8 => extensionSized? 2 bs
    | 0xC9 => extensionSized? 4 bs
    | 0xCA => scalar? (fun n => .atom (.float (.ofBinary32 n))) 4 bs
    | 0xCB => scalar? (fun n => .atom (.float ⟨UInt64.ofNat n⟩)) 8 bs
    | 0xCC => scalar? (fun n => .atom (.unsigned n)) 1 bs
    | 0xCD => scalar? (fun n => .atom (.unsigned n)) 2 bs
    | 0xCE => scalar? (fun n => .atom (.unsigned n)) 4 bs
    | 0xCF => scalar? (fun n => .atom (.unsigned n)) 8 bs
    | 0xD0 => scalar? (signedAtom 1) 1 bs
    | 0xD1 => scalar? (signedAtom 2) 2 bs
    | 0xD2 => scalar? (signedAtom 4) 4 bs
    | 0xD3 => scalar? (signedAtom 8) 8 bs
    | 0xD4 => string? .extension 2 bs
    | 0xD5 => string? .extension 3 bs
    | 0xD6 => string? .extension 5 bs
    | 0xD7 => string? .extension 9 bs
    | 0xD8 => string? .extension 17 bs
    | 0xD9 => sized? .text 1 bs
    | 0xDA => sized? .text 2 bs
    | 0xDB => sized? .text 4 bs
    | 0xDC => scalar? .openList 2 bs
    | 0xDD => scalar? .openList 4 bs
    | 0xDE => scalar? .openMap 2 bs
    | 0xDF => scalar? .openMap 4 bs
    | _ => none

/-- The next token, and the bytes after it. -/
def next : Bytes → Option (Token × Bytes)
  | [] => none
  | marker :: bs => ofMarker marker bs

theorem number?_le {width n : Nat} {bs rest : Bytes} (h : number? width bs = some (n, rest)) :
    rest.length ≤ bs.length := by
  obtain ⟨⟨front, r⟩, hs, h⟩ := Option.map_eq_some_iff.1 h
  simp only [Prod.mk.injEq] at h
  rw [(Bytes.split?_eq_some hs).2, h.2]
  simp

theorem string?_le {make : Bytes → Atom} {count : Nat} {bs rest : Bytes} {t : Token}
    (h : string? make count bs = some (t, rest)) : rest.length ≤ bs.length := by
  obtain ⟨⟨front, r⟩, hs, h⟩ := Option.map_eq_some_iff.1 h
  simp only [Prod.mk.injEq] at h
  rw [(Bytes.split?_eq_some hs).2, h.2]
  simp

theorem sized?_le {make : Bytes → Atom} {width : Nat} {bs rest : Bytes} {t : Token}
    (h : sized? make width bs = some (t, rest)) : rest.length ≤ bs.length := by
  obtain ⟨⟨count, r⟩, hn, h⟩ := Option.bind_eq_some_iff.1 h
  exact Nat.le_trans (string?_le h) (number?_le hn)

theorem scalar?_le {make : Nat → Token} {width : Nat} {bs rest : Bytes} {t : Token}
    (h : scalar? make width bs = some (t, rest)) : rest.length ≤ bs.length := by
  obtain ⟨⟨n, r⟩, hn, h⟩ := Option.map_eq_some_iff.1 h
  simp only [Prod.mk.injEq] at h
  rw [← h.2]
  exact number?_le hn

theorem extensionSized?_le {width : Nat} {bs rest : Bytes} {t : Token}
    (h : extensionSized? width bs = some (t, rest)) : rest.length ≤ bs.length := by
  obtain ⟨⟨count, r⟩, hn, h⟩ := Option.bind_eq_some_iff.1 h
  exact Nat.le_trans (string?_le h) (number?_le hn)

theorem ofMarker_le {marker : UInt8} {bs rest : Bytes} {t : Token}
    (h : ofMarker marker bs = some (t, rest)) : rest.length ≤ bs.length := by
  have same : ∀ {u : Token}, some (u, bs) = some (t, rest) → rest.length ≤ bs.length := by
    intro u h
    simp only [Option.some.injEq, Prod.mk.injEq] at h
    exact Nat.le_of_eq (congrArg List.length h.2.symm)
  simp only [ofMarker] at h
  split at h
  · exact same h
  split at h
  · exact same h
  split at h
  · exact same h
  split at h
  · exact string?_le h
  split at h
  · exact same h
  split at h
  · exact same h
  · exact same h
  · exact same h
  · exact sized?_le h
  · exact sized?_le h
  · exact sized?_le h
  · exact extensionSized?_le h
  · exact extensionSized?_le h
  · exact extensionSized?_le h
  · exact scalar?_le h
  · exact scalar?_le h
  · exact scalar?_le h
  · exact scalar?_le h
  · exact scalar?_le h
  · exact scalar?_le h
  · exact scalar?_le h
  · exact scalar?_le h
  · exact scalar?_le h
  · exact scalar?_le h
  · exact string?_le h
  · exact string?_le h
  · exact string?_le h
  · exact string?_le h
  · exact string?_le h
  · exact sized?_le h
  · exact sized?_le h
  · exact sized?_le h
  · exact scalar?_le h
  · exact scalar?_le h
  · exact scalar?_le h
  · exact scalar?_le h
  · simp at h

/-- A token takes at least one byte. -/
theorem next_shorter {bs : Bytes} {t : Token} {rest : Bytes}
    (h : next bs = some (t, rest)) : rest.length < bs.length := by
  cases bs with
  | nil => simp [next] at h
  | cons m bs =>
    have := ofMarker_le h
    simp only [List.length_cons]
    omega

end Token
end Conneg.MsgPack
