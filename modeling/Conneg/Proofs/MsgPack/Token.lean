import Conneg.MsgPack.Document
import Conneg.Proofs.Bytes

/-!
# Tokens are read back

The printer has several forms for a number, a text or a container and takes the
shortest that holds it; the reader tells them apart by the first byte alone. So each
form has first bytes of its own, and what was printed in it is read back in front of
any rest (`next_printUnsigned`, `next_printSigned`, `next_text`, `next_list`,
`next_map`).

A short form keeps a small number in the first byte itself, whose range says what
kind of token it is. Any other form is a marker and a number of one, two, four or
eight bytes (`next_marked`), after which a text has its bytes (`next_sized`).
-/

namespace Conneg.MsgPack

namespace Token

/-! ## Forms with a marker -/

theorem number?_ofNatBE {width n : Nat} (h : n < Nat.pow 256 width) (rest : Bytes) :
    number? width (Bytes.ofNatBE width n ++ rest) = some (n, rest) := by
  rw [number?, Bytes.split?_of_length (Bytes.length_ofNatBE width n), Option.map_some]
  simp only [Bytes.toNatBE_ofNatBE h]

theorem string?_append (make : Bytes → Atom) {n : Nat} {bs : Bytes} (h : bs.length = n)
    (rest : Bytes) : string? make n (bs ++ rest) = some (.atom (make bs), rest) := by
  rw [string?, Bytes.split?_of_length h, Option.map_some]

/-- A number after its marker. -/
theorem next_marked {marker : UInt8} {width n : Nat} (make : Nat → Token)
    (hmarker : ∀ bs, next (marker :: bs) = scalar? make width bs) (h : n < Nat.pow 256 width)
    (rest : Bytes) : next (marked marker width n ++ rest) = some (make n, rest) := by
  show next (marker :: (Bytes.ofNatBE width n ++ rest)) = _
  rw [hmarker, scalar?, number?_ofNatBE h, Option.map_some]

/-- A string after its marker and its length. -/
theorem next_sized {marker : UInt8} {width : Nat} {bs : Bytes} (make : Bytes → Atom)
    (hmarker : ∀ bs, next (marker :: bs) = sized? make width bs)
    (h : bs.length < Nat.pow 256 width) (rest : Bytes) :
    next (marked marker width bs.length ++ (bs ++ rest)) = some (.atom (make bs), rest) := by
  show next (marker :: (Bytes.ofNatBE width bs.length ++ (bs ++ rest))) = _
  rw [hmarker, sized?, number?_ofNatBE h, Option.bind_some]
  exact string?_append make rfl rest

/-! ## Numbers -/

theorem next_printUnsigned {n : Nat} (h : n < 2 ^ 64) (rest : Bytes) :
    next (printUnsigned n ++ rest) = some (.atom (.unsigned n), rest) := by
  unfold printUnsigned
  by_cases h7 : n < 2 ^ 7
  · have hn : (UInt8.ofNat n).toNat = n := UInt8.toNat_ofNat_of_lt' (by show n < 256; omega)
    rw [if_pos h7]
    show ofMarker (UInt8.ofNat n) rest = _
    simp only [ofMarker, hn]
    rw [if_pos h7]
  rw [if_neg h7]
  by_cases h8 : n < 2 ^ 8
  · rw [if_pos h8]
    exact next_marked (fun n => .atom (.unsigned n)) (fun _ => rfl) h8 rest
  rw [if_neg h8]
  by_cases h16 : n < 2 ^ 16
  · rw [if_pos h16]
    exact next_marked (fun n => .atom (.unsigned n)) (fun _ => rfl) h16 rest
  rw [if_neg h16]
  by_cases h32 : n < 2 ^ 32
  · rw [if_pos h32]
    exact next_marked (fun n => .atom (.unsigned n)) (fun _ => rfl) h32 rest
  rw [if_neg h32]
  exact next_marked (fun n => .atom (.unsigned n)) (fun _ => rfl) h rest

/-- A signed number after its marker. -/
theorem next_signed {marker : UInt8} {width : Nat} (hw : 0 < width)
    (hmarker : ∀ bs, next (marker :: bs) = scalar? (signedAtom width) width bs) {n : Int}
    (hlow : -(Nat.pow 2 (8 * width - 1) : Nat) ≤ n) (hneg : n < 0) (rest : Bytes) :
    next (marked marker width (Bytes.pattern width n) ++ rest)
      = some (.atom (.signed n), rest) := by
  have hhigh : n < (Nat.pow 2 (8 * width - 1) : Nat) :=
    Int.lt_of_lt_of_le hneg (Int.natCast_nonneg _)
  rw [next_marked _ hmarker (Bytes.pattern_lt width n), signedAtom,
    Bytes.signed_pattern hw hlow hhigh]

theorem next_printSigned {n : Int} (hlow : -2 ^ 63 ≤ n) (hneg : n < 0) (rest : Bytes) :
    next (printSigned n ++ rest) = some (.atom (.signed n), rest) := by
  unfold printSigned
  by_cases h5 : -32 ≤ n
  · -- the pattern of one byte is the number moved up by 256
    have hpattern : (Bytes.pattern 1 n : Int) = n + 256 := by
      show (((n % (256 : Int)).toNat : Nat) : Int) = n + 256
      omega
    have hn : (UInt8.ofNat (Bytes.pattern 1 n)).toNat = Bytes.pattern 1 n :=
      UInt8.toNat_ofNat_of_lt' (by show _ < 256; omega)
    rw [if_pos h5]
    show ofMarker (UInt8.ofNat (Bytes.pattern 1 n)) rest = _
    simp only [ofMarker, hn]
    rw [if_neg (by omega), if_neg (by omega), if_neg (by omega), if_neg (by omega),
      if_pos (by omega), hpattern, Int.add_sub_cancel]
  rw [if_neg h5]
  by_cases h8 : -2 ^ 7 ≤ n
  · rw [if_pos h8]
    exact next_signed (by decide) (fun _ => rfl) h8 hneg rest
  rw [if_neg h8]
  by_cases h16 : -2 ^ 15 ≤ n
  · rw [if_pos h16]
    exact next_signed (by decide) (fun _ => rfl) h16 hneg rest
  rw [if_neg h16]
  by_cases h32 : -2 ^ 31 ≤ n
  · rw [if_pos h32]
    exact next_signed (by decide) (fun _ => rfl) h32 hneg rest
  rw [if_neg h32]
  exact next_signed (by decide) (fun _ => rfl) hlow hneg rest

/-! ## Texts and containers -/

theorem next_text {bs : Bytes} (h : bs.length < 2 ^ 32) (rest : Bytes) :
    next ((Atom.text bs).print ++ rest) = some (.atom (.text bs), rest) := by
  show next (header 0xA0 32 (some 0xD9) 0xDA 0xDB bs.length ++ bs ++ rest) = _
  rw [List.append_assoc]
  unfold header
  by_cases h5 : bs.length < 32
  · -- the first byte falls into the range of the short texts, behind three others
    have hn : (UInt8.ofNat (0xA0 + bs.length)).toNat = 0xA0 + bs.length :=
      UInt8.toNat_ofNat_of_lt' (by show _ < 256; omega)
    rw [if_pos h5]
    show ofMarker (UInt8.ofNat (0xA0 + bs.length)) (bs ++ rest) = _
    simp only [ofMarker, hn]
    rw [if_neg (by omega), if_neg (by omega), if_neg (by omega), if_pos (by omega)]
    exact string?_append .text (by omega) rest
  rw [if_neg h5]
  by_cases h8 : bs.length < 2 ^ 8
  · simp only [if_pos h8]
    exact next_sized .text (fun _ => rfl) h8 rest
  simp only [if_neg h8]
  by_cases h16 : bs.length < 2 ^ 16
  · rw [if_pos h16]
    exact next_sized .text (fun _ => rfl) h16 rest
  rw [if_neg h16]
  exact next_sized .text (fun _ => rfl) h rest

/-- The header of a container, whose short form and two markers are its own. -/
theorem next_container {short : Nat} {two four : UInt8} (make : Nat → Token)
    (hshort : ∀ {count : Nat}, count < 16 → ∀ rest,
      next (UInt8.ofNat (short + count) :: rest) = some (make count, rest))
    (htwo : ∀ bs, next (two :: bs) = scalar? make 2 bs)
    (hfour : ∀ bs, next (four :: bs) = scalar? make 4 bs) {count : Nat} (h : count < 2 ^ 32)
    (rest : Bytes) :
    next (header short 16 none two four count ++ rest) = some (make count, rest) := by
  unfold header
  by_cases h4 : count < 16
  · rw [if_pos h4]
    exact hshort h4 rest
  simp only [if_neg h4]
  by_cases h16 : count < 2 ^ 16
  · rw [if_pos h16]
    exact next_marked make htwo h16 rest
  rw [if_neg h16]
  exact next_marked make hfour h rest

theorem next_list {count : Nat} (h : count < 2 ^ 32) (rest : Bytes) :
    next (header 0x90 16 none 0xDC 0xDD count ++ rest) = some (.openList count, rest) := by
  refine next_container .openList (fun {count} h4 rest => ?_) (fun _ => rfl) (fun _ => rfl) h rest
  have hn : (UInt8.ofNat (0x90 + count)).toNat = 0x90 + count :=
    UInt8.toNat_ofNat_of_lt' (by show _ < 256; omega)
  simp only [next, ofMarker, hn]
  rw [if_neg (by omega), if_neg (by omega), if_pos (by omega), Nat.add_sub_cancel_left]

theorem next_map {count : Nat} (h : count < 2 ^ 32) (rest : Bytes) :
    next (header 0x80 16 none 0xDE 0xDF count ++ rest) = some (.openMap count, rest) := by
  refine next_container .openMap (fun {count} h4 rest => ?_) (fun _ => rfl) (fun _ => rfl) h rest
  have hn : (UInt8.ofNat (0x80 + count)).toNat = 0x80 + count :=
    UInt8.toNat_ofNat_of_lt' (by show _ < 256; omega)
  simp only [next, ofMarker, hn]
  rw [if_neg (by omega), if_pos (by omega), Nat.add_sub_cancel_left]

end Token
end Conneg.MsgPack
