import Conneg.Bytes

/-!
# Fixed-width numbers are read back

A natural number that fits `width` bytes is read back from them in either byte
order (`toNatLE_ofNatLE`, `toNatBE_ofNatBE`), and an integer from its two's
complement pattern (`signed_pattern`). The digits carry the first, the second is
the first turned round, and the third is arithmetic modulo the number of patterns.
-/

namespace Conneg.Bytes

/-- A front of the right length splits off. -/
theorem split?_of_length {n : Nat} {front : Bytes} (h : front.length = n) (rest : Bytes) :
    split? n (front ++ rest) = some (front, rest) := by
  subst h
  exact split?_append front rest

theorem toNatLE_ofNatLE {width n : Nat} (h : n < Nat.pow 256 width) :
    toNatLE (ofNatLE width n) = n := by
  induction width generalizing n with
  | zero =>
    have h0 : n < 1 := h
    show 0 = n
    omega
  | succ w ih =>
    have hpow : Nat.pow 256 (w + 1) = Nat.pow 256 w * 256 := Nat.pow_succ 256 w
    have hrest : toNatLE (ofNatLE w (n / 256)) = n / 256 := ih (by omega)
    show (UInt8.ofNat (n % 256)).toNat + 256 * toNatLE (ofNatLE w (n / 256)) = n
    rw [hrest, UInt8.toNat_ofNat_of_lt' (by show n % 256 < 256; omega)]
    omega

theorem ofNatLE_toNatLE (bs : Bytes) : ofNatLE bs.length (toNatLE bs) = bs := by
  induction bs with
  | nil => rfl
  | cons b bs ih =>
    have hb : b.toNat < 256 := b.toNat_lt
    have hfirst : (b.toNat + 256 * toNatLE bs) % 256 = b.toNat := by omega
    have hrest : (b.toNat + 256 * toNatLE bs) / 256 = toNatLE bs := by omega
    show UInt8.ofNat ((b.toNat + 256 * toNatLE bs) % 256) ::
      ofNatLE bs.length ((b.toNat + 256 * toNatLE bs) / 256) = _
    rw [hfirst, hrest, ih, UInt8.ofNat_toNat]

theorem toNatLE_lt (bs : Bytes) : toNatLE bs < Nat.pow 256 bs.length := by
  induction bs with
  | nil => decide
  | cons b bs ih =>
    have hb : b.toNat < 256 := b.toNat_lt
    have hpow : Nat.pow 256 (bs.length + 1) = Nat.pow 256 bs.length * 256 :=
      Nat.pow_succ 256 bs.length
    show b.toNat + 256 * toNatLE bs < Nat.pow 256 (bs.length + 1)
    omega

theorem toNatBE_reverse (bs : Bytes) : toNatBE bs.reverse = toNatLE bs := by
  rw [toNatBE, toNatLE, List.foldl_reverse]
  congr 1
  funext b n
  omega

theorem toNatBE_ofNatBE {width n : Nat} (h : n < Nat.pow 256 width) :
    toNatBE (ofNatBE width n) = n := by
  rw [ofNatBE, toNatBE_reverse, toNatLE_ofNatLE h]

/-- The patterns of `width` bytes, counted in bits. -/
theorem pow_bytes (width : Nat) : Nat.pow 256 width = Nat.pow 2 (8 * width) :=
  (Nat.pow_mul 2 8 width).symm

/-- Half of the patterns stand for the negative numbers. -/
theorem pow_half {width : Nat} (hw : 0 < width) :
    Nat.pow 2 (8 * width) = 2 * Nat.pow 2 (8 * width - 1) := by
  obtain ⟨bits, hbits⟩ : ∃ bits, 8 * width = bits + 1 := ⟨8 * width - 1, by omega⟩
  rw [hbits, Nat.add_sub_cancel, Nat.mul_comm]
  exact Nat.pow_succ 2 bits

theorem pattern_lt (width : Nat) (n : Int) : pattern width n < Nat.pow 256 width := by
  have hpos : 0 < Nat.pow 2 (8 * width) := Nat.pow_pos (by decide)
  have hlt := Int.emod_lt_of_pos n (Int.natCast_pos.2 hpos)
  have hnonneg := Int.emod_nonneg n (b := (Nat.pow 2 (8 * width) : Nat)) (by omega)
  rw [pow_bytes]
  unfold pattern
  omega

/-- An integer in the range of its width is the reading of its pattern. -/
theorem signed_pattern {width : Nat} (hw : 0 < width) {n : Int}
    (hlow : -(Nat.pow 2 (8 * width - 1) : Nat) ≤ n)
    (hhigh : n < (Nat.pow 2 (8 * width - 1) : Nat)) :
    signed width (pattern width n) = n := by
  have hhalf := pow_half hw
  unfold signed pattern
  by_cases hneg : n < 0
  · -- a negative number is moved up by the number of patterns
    have hmod : n % (Nat.pow 2 (8 * width) : Nat) = n + (Nat.pow 2 (8 * width) : Nat) := by
      rw [← Int.add_emod_right]
      exact Int.emod_eq_of_lt (by omega) (by omega)
    rw [hmod, if_neg (by omega)]
    omega
  · have hmod : n % (Nat.pow 2 (8 * width) : Nat) = n :=
      Int.emod_eq_of_lt (by omega) (by omega)
    rw [hmod, if_pos (by omega)]
    omega

/-- The reading of a pattern lies in the range of its width. -/
theorem signed_bounds {width n : Nat} (hw : 0 < width) (hn : n < Nat.pow 256 width) :
    -(Nat.pow 2 (8 * width - 1) : Nat) ≤ signed width n ∧
      signed width n < (Nat.pow 2 (8 * width - 1) : Nat) := by
  have hhalf := pow_half hw
  rw [pow_bytes] at hn
  unfold signed
  split <;> omega

/-- A pattern is the pattern of its reading. -/
theorem pattern_signed {width n : Nat} (hw : 0 < width) (hn : n < Nat.pow 256 width) :
    pattern width (signed width n) = n := by
  have hhalf := pow_half hw
  rw [pow_bytes] at hn
  unfold signed pattern
  split
  · rw [Int.emod_eq_of_lt (by omega) (by omega)]
    omega
  · rw [← Int.add_emod_right, Int.emod_eq_of_lt (by omega) (by omega)]
    omega

end Conneg.Bytes
