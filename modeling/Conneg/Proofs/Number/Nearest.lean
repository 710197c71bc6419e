import Conneg.Number.Binary64

/-!
# What a quotient is rounded to

A quotient of units is rounded in its binade, at the shift of the binade
(`nearestWord_eq`); which binade that is can be told by comparing the quotient with
powers of two (`log2_sub_eq`), and the rounding at the shift by how far it is from a
whole number (`roundHalfEven_eq`).

A whole number below 2^53 needs no rounding (`units_ofNat`). So the product or the
quotient of two such is rounded only once, and is the double nearest to the true result
(`mul_eq`, `div_eq`).
-/

namespace Conneg

/-! ## Rounding to a whole number -/

/-- A number is the rounding if it is at most one half away, and an odd one less than
that. -/
theorem roundHalfEven_eq {num den m : Nat} (hlow : 2 * (m * den) ≤ 2 * num + den)
    (hhigh : 2 * num ≤ 2 * (m * den) + den)
    (hodd : m % 2 = 1 → 2 * (m * den) < 2 * num + den ∧ 2 * num < 2 * (m * den) + den)
    (hden : 0 < den) : roundHalfEven num den = m := by
  have hdiv := Nat.div_add_mod num den
  have hrem := Nat.mod_lt num hden
  rw [Nat.mul_comm] at hdiv
  -- the quotient is the number itself or the one below
  have hupper : num / den ≤ m := by
    refine Nat.le_of_not_lt fun hlt => ?_
    have hmul := Nat.mul_le_mul_right den (Nat.succ_le_of_lt hlt)
    rw [Nat.succ_mul] at hmul
    omega
  have hlower : m ≤ num / den + 1 := by
    refine Nat.le_of_not_lt fun hlt => ?_
    have hmul := Nat.mul_le_mul_right den (Nat.succ_le_of_lt hlt)
    rw [Nat.succ_mul, Nat.succ_mul] at hmul
    omega
  unfold roundHalfEven
  rcases Nat.lt_or_ge (num / den) m with hlt | hge
  · obtain rfl : m = num / den + 1 := by omega
    rw [Nat.succ_mul (num / den) den] at hlow hhigh hodd
    simp only
    split
    · omega
    · split
      · rfl
      · omega
  · obtain rfl : m = num / den := by omega
    simp only
    split
    · rfl
    · split
      · omega
      · omega

/-- The rounding is one of the two whole numbers around a quotient. -/
theorem roundHalfEven_cases (num den : Nat) :
    roundHalfEven num den = num / den ∨ roundHalfEven num den = num / den + 1 := by
  unfold roundHalfEven
  simp only
  split
  · exact .inl rfl
  split
  · exact .inr rfl
  · omega

/-- A common factor does not change the rounding. -/
theorem roundHalfEven_mul_mul (num den : Nat) {c : Nat} (hc : 0 < c) :
    roundHalfEven (num * c) (den * c) = roundHalfEven num den := by
  have hmod : 2 * (num * c % (den * c)) = 2 * (num % den) * c := by
    rw [Nat.mul_mod_mul_right, Nat.mul_assoc]
  unfold roundHalfEven
  rw [Nat.mul_div_mul_right _ _ hc, hmod]
  simp only [Nat.mul_lt_mul_right hc]

namespace Binary64

/-! ## Magnitudes -/

/-- The bit pattern without its sign. -/
def magnitude (x : Binary64) : Nat := x.word % 2 ^ 63

theorem word_lt (x : Binary64) : x.word < 2 ^ 64 := UInt64.toNat_lt x.bits

/-- The pattern of a magnitude is its shift, moved above the fraction, and its
significand. -/
theorem magnitude_eq (x : Binary64) : x.magnitude = x.shift * 2 ^ 52 + x.significand := by
  have hword := x.word_lt
  unfold magnitude shift significand
  split <;> simp only [field, fraction] at * <;> omega

theorem significand_lt (x : Binary64) : x.significand < 2 ^ 53 := by
  unfold significand fraction
  split <;> omega

/-- Only a subnormal magnitude has a short significand. -/
theorem le_significand (x : Binary64) (h : x.shift ≠ 0) : 2 ^ 52 ≤ x.significand := by
  unfold shift at h
  unfold significand
  rw [if_neg (by omega)]
  omega

/-- Only a zero has no significand. -/
theorem significand_ne_zero {x : Binary64} (hx : x.isZero = false) : x.significand ≠ 0 := by
  have hmagnitude : x.magnitude ≠ 0 := beq_eq_false_iff_ne.1 hx
  have hlong := x.le_significand
  rw [magnitude_eq] at hmagnitude
  omega

theorem magnitude_lt (x : Binary64) (hx : x.isFinite = true) : x.magnitude < infinityWord := by
  have hfield : x.field ≠ 2047 := by simpa [isFinite] using hx
  have hword := x.word_lt
  unfold field at hfield
  unfold magnitude infinityWord
  omega

/-! ## Quotients -/

/-- The shift that a quotient is rounded at, by the binade in which it lies. -/
theorem log2_sub_eq {num den s : Nat} (hden : 0 < den)
    (hlow : s ≠ 0 → 2 ^ 52 * (den * Nat.pow 2 s) ≤ num)
    (hhigh : num < 2 ^ 53 * (den * Nat.pow 2 s)) : Nat.log2 (num / den) - 52 = s := by
  have hpow : ∀ k, 2 ^ k * (den * Nat.pow 2 s) = Nat.pow 2 (k + s) * den := by
    intro k
    show 2 ^ k * (den * 2 ^ s) = 2 ^ (k + s) * den
    rw [Nat.pow_add, Nat.mul_left_comm, Nat.mul_comm]
  rw [hpow] at hlow hhigh
  have hlt : num / den < 2 ^ (53 + s) := Nat.div_lt_of_lt_mul (by rw [Nat.mul_comm]; exact hhigh)
  by_cases hzero : num / den = 0
  · -- a quotient below one is in the lowest binade
    rw [hzero]
    refine Decidable.byContradiction fun hs => ?_
    have hle : 2 ^ (52 + s) ≤ num / den :=
      (Nat.le_div_iff_mul_le hden).2 (hlow fun h => hs (by rw [h]; rfl))
    have hpos := Nat.two_pow_pos (52 + s)
    omega
  · have hupper := (Nat.log2_lt hzero).2 hlt
    by_cases hs : s = 0
    · omega
    · have hlower := (Nat.le_log2 hzero).2 ((Nat.le_div_iff_mul_le hden).2 (hlow hs))
      omega

/-- A quotient is rounded in its binade, if that gives no infinity. -/
theorem nearestWord_eq {num den s m : Nat} (hshift : Nat.log2 (num / den) - 52 = s)
    (hround : roundHalfEven num (den * Nat.pow 2 s) = m) (hfinite : s * 2 ^ 52 + m ≤ infinityWord) :
    nearestWord num den = s * 2 ^ 52 + m := by
  unfold nearestWord
  simp only [hshift, hround]
  exact Nat.min_eq_left hfinite

/-- A common factor does not change what a quotient is rounded to. -/
theorem nearestWord_mul_mul (num den : Nat) {c : Nat} (hc : 0 < c) :
    nearestWord (num * c) (den * c) = nearestWord num den := by
  unfold nearestWord
  simp only [Nat.mul_div_mul_right _ _ hc]
  rw [Nat.mul_right_comm, roundHalfEven_mul_mul _ _ hc]

/-! ## Numbers that need no rounding -/

theorem word_ofWord {w : Nat} (h : w < 2 ^ 63) : (ofWord false w).word = w := by
  show (UInt64.ofNat (w + 0)).toNat = w
  exact UInt64.toNat_ofNat_of_lt' (by
    show w + 0 < 2 ^ 64
    omega)

/-- A double is its sign and its magnitude. -/
theorem ofWord_magnitude (x : Binary64) : ofWord x.negative x.magnitude = x := by
  have hword := x.word_lt
  have hsum : x.magnitude + (if x.negative then 2 ^ 63 else 0) = x.word := by
    unfold magnitude negative
    by_cases h : 2 ^ 63 ≤ x.word
    · simp only [decide_eq_true h, if_true]
      omega
    · simp only [decide_eq_false h, Bool.false_eq_true, if_false]
      omega
  unfold ofWord
  rw [hsum, word, UInt64.ofNat_toNat]

/-- The double without its sign. -/
def abs (x : Binary64) : Binary64 := ofWord false x.magnitude

theorem isFinite_abs {x : Binary64} (hx : x.isFinite = true) : x.abs.isFinite = true := by
  have hlt := x.magnitude_lt hx
  have hword : x.abs.word = x.magnitude := word_ofWord (by unfold infinityWord at hlt; omega)
  have hfield : x.abs.field ≠ 2047 := by
    unfold field
    unfold infinityWord at hlt
    rw [hword]
    omega
  exact bne_iff_ne.2 hfield

theorem neg_ofWord (w : Nat) : (ofWord false w).neg = ofWord true w := by
  have hsign : (0x8000000000000000 : UInt64) = UInt64.ofNat (2 ^ 63) := by decide
  unfold neg ofWord
  rw [hsign, ← UInt64.ofNat_add]
  rfl

theorem neg_neg (x : Binary64) : x.neg.neg = x := by
  have hturn : (0x8000000000000000 : UInt64) + 0x8000000000000000 = 0 := rfl
  show (⟨x.bits + 0x8000000000000000 + 0x8000000000000000⟩ : Binary64) = x
  rw [UInt64.add_assoc, hturn, UInt64.add_zero]

/-- With its sign put back, a double is itself; and no other one is. -/
theorem sign_eq_iff {x y : Binary64} : (if x.negative then y.neg else y) = x ↔ y = x.abs := by
  have hx := ofWord_magnitude x
  cases hsign : x.negative with
  | false =>
    rw [hsign] at hx
    rw [if_neg Bool.false_ne_true, abs, hx]
  | true =>
    rw [hsign, ← neg_ofWord] at hx
    rw [if_pos rfl, abs]
    constructor
    · intro h
      rw [← neg_neg y, h, ← hx, neg_neg, hx]
    · rintro rfl
      exact hx

/-- A magnitude with a long significand has that significand, at its shift. -/
theorem units_ofWord {s m : Nat} (hlow : 2 ^ 52 ≤ m) (hhigh : m < 2 ^ 53) (hs : s < 2046) :
    (ofWord false (s * 2 ^ 52 + m)).units = m * Nat.pow 2 s := by
  have hword : (ofWord false (s * 2 ^ 52 + m)).word = s * 2 ^ 52 + m := word_ofWord (by omega)
  have hfield : (ofWord false (s * 2 ^ 52 + m)).field = s + 1 := by
    unfold field
    rw [hword]
    omega
  have hsignificand : (ofWord false (s * 2 ^ 52 + m)).significand = m := by
    unfold significand
    rw [hfield, if_neg (Nat.succ_ne_zero s), fraction, hword]
    omega
  rw [units, hsignificand, shift, hfield, Nat.add_sub_cancel]

/-- A long significand at a shift is not rounded. -/
theorem nearestWord_exact {s m : Nat} (hlow : 2 ^ 52 ≤ m) (hhigh : m < 2 ^ 53) (hs : s < 2046) :
    nearestWord (m * Nat.pow 2 s) 1 = s * 2 ^ 52 + m := by
  have hpos : 0 < 1 * Nat.pow 2 s := by
    rw [Nat.one_mul]
    exact Nat.two_pow_pos s
  rw [← Nat.one_mul (Nat.pow 2 s)]
  refine nearestWord_eq (log2_sub_eq Nat.one_pos (fun _ => ?_) ?_) (roundHalfEven_mul m hpos) ?_
  · exact Nat.mul_le_mul_right _ hlow
  · exact Nat.mul_lt_mul_of_pos_right hhigh hpos
  · unfold infinityWord
    omega

/-- A natural number of at most 53 bits is a double. -/
theorem units_ofNat {n : Nat} (hn : n < 2 ^ 53) : (ofNat n).units = n * unitsInOne := by
  by_cases hzero : n = 0
  · rw [hzero, Nat.zero_mul]
    decide +kernel
  · have hk : n.log2 ≤ 52 := Nat.le_of_lt_succ ((Nat.log2_lt hzero).2 hn)
    have hle : Nat.pow 2 n.log2 ≤ n := Nat.log2_self_le hzero
    have hlt : n < Nat.pow 2 (n.log2 + 1) := Nat.lt_log2_self
    have hlow : Nat.pow 2 n.log2 * Nat.pow 2 (52 - n.log2) = 2 ^ 52 := by
      show 2 ^ n.log2 * 2 ^ (52 - n.log2) = 2 ^ 52
      rw [← Nat.pow_add, Nat.add_sub_cancel' hk]
    have hhigh : Nat.pow 2 (n.log2 + 1) * Nat.pow 2 (52 - n.log2) = 2 ^ 53 := by
      show Nat.pow 2 n.log2 * 2 * Nat.pow 2 (52 - n.log2) = 2 ^ 53
      rw [Nat.mul_right_comm, hlow]
    have hpos : 0 < Nat.pow 2 (52 - n.log2) := Nat.two_pow_pos _
    -- the number, moved up to 53 bits
    have hm1 := Nat.mul_le_mul_right (Nat.pow 2 (52 - n.log2)) hle
    have hm2 := Nat.mul_lt_mul_of_pos_right hlt hpos
    rw [hlow] at hm1
    rw [hhigh] at hm2
    have hunits : n * unitsInOne
        = n * Nat.pow 2 (52 - n.log2) * Nat.pow 2 (1022 + n.log2) := by
      have hexp : 52 - n.log2 + (1022 + n.log2) = 1074 := by omega
      show _ = n * 2 ^ (52 - n.log2) * 2 ^ (1022 + n.log2)
      rw [Nat.mul_assoc, ← Nat.pow_add, hexp]
      rfl
    rw [ofNat, ofUnits, hunits, nearestWord_exact hm1 hm2 (by omega),
      units_ofWord hm1 hm2 (by omega)]

/-- What a quotient is rounded to depends on its value alone. -/
theorem nearestWord_congr {a b c d : Nat} (hb : 0 < b) (hd : 0 < d) (h : a * d = c * b) :
    nearestWord a b = nearestWord c d := by
  rw [← nearestWord_mul_mul a b hd, ← nearestWord_mul_mul c d hb, h, Nat.mul_comm b]

theorem unitsInOne_pos : 0 < unitsInOne := by decide +kernel

variable {x y : Binary64} {a b : Nat}

/-- The product of two whole numbers is rounded once. -/
theorem mul_eq (hx : x.units = a * unitsInOne) (hy : y.units = b * unitsInOne) :
    x.mul y = ofWord false (nearestWord (a * b * unitsInOne) 1) := by
  have hproduct : x.units * y.units = a * b * unitsInOne * unitsInOne := by
    rw [hx, hy, Nat.mul_mul_mul_comm, Nat.mul_assoc (a * b)]
  rw [mul, ofUnits, hproduct, ← nearestWord_mul_mul _ 1 unitsInOne_pos, Nat.one_mul]

/-- The quotient of two whole numbers is rounded once. -/
theorem div_eq (hx : x.units = a * unitsInOne) (hy : y.units = b * unitsInOne) :
    x.div y = ofWord false (nearestWord (a * unitsInOne) b) := by
  rw [div, ofUnits, hx, hy, nearestWord_mul_mul _ _ unitsInOne_pos]

end Binary64
end Conneg
