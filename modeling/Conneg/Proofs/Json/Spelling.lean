import Conneg.Proofs.Json.Number
import Conneg.Proofs.Number.Shortest

/-!
# Decimals are spelled

A decimal is spelled in one of four ways, by where its point falls: between its
digits, behind zeros that are put to their end, in front of zeros that are put before
them, or behind the first digit with an exponent. However it is spelled, its digits
and its power of ten say the decimal (`spells_ofDigits`), and no digit is lost to the
64 bits that a reader has for them. So what a reader makes of it is the digits, scaled
by the power of ten (`toFloat?_eq`).
-/

namespace Conneg.Json.Number

/-! ## What a spelling says -/

/-- All digits of a number, taken as a whole number. -/
def digits (n : Number) : Nat := valueOf (n.whole ++ n.fraction)

/-- The exponent that a number shows. -/
def power (n : Number) : Int :=
  match n.exponent with
  | none => 0
  | some (negative, ds) => if negative then -valueOf ds else valueOf ds

/-- The power of ten that the digits are multiples of. -/
def place (n : Number) : Int := n.power - n.fraction.length

/-- Digits that fit 64 bits are all taken. -/
theorem absorb_eq {ds : List Digit} {n : Nat}
    (h : n * Nat.pow 10 ds.length + valueOf ds < 2 ^ 64) :
    absorb ds n = (n * Nat.pow 10 ds.length + valueOf ds, ds.length) := by
  induction ds generalizing n with
  | nil =>
    show (n, 0) = (n * 1 + 0, 0)
    rw [Nat.mul_one, Nat.add_zero]
  | cons d ds ih =>
    have hvalue : n * Nat.pow 10 (d :: ds).length + valueOf (d :: ds)
        = (n * 10 + d.val) * Nat.pow 10 ds.length + valueOf ds := by
      have hpow : Nat.pow 10 (d :: ds).length = 10 * Nat.pow 10 ds.length := Nat.mul_comm _ _
      rw [valueOf_cons, hpow, Nat.add_mul, Nat.mul_assoc, Nat.add_assoc]
    rw [hvalue] at h ⊢
    have hfirst : n * 10 + d.val < 2 ^ 64 := by
      have hle : n * 10 + d.val ≤ (n * 10 + d.val) * Nat.pow 10 ds.length :=
        Nat.le_mul_of_pos_right _ (Nat.pow_pos (by decide))
      omega
    rw [absorb, if_pos hfirst, ih h]
    rfl

/-- A number whose digits fit 64 bits means its digits, scaled by its power of ten. -/
theorem toFloat?_eq {n : Number} (hdigits : n.digits < 2 ^ 64)
    (hexponent : ∀ negative ds, n.exponent = some (negative, ds) → valueOf ds ≤ maxExponent) :
    n.toFloat? =
      (scale (.ofNat n.digits) n.place).map fun x => if n.negative then x.neg else x := by
  have happend : n.digits = valueOf n.whole * Nat.pow 10 n.fraction.length + valueOf n.fraction :=
    valueOf_append _ _
  have hwhole : absorb n.whole 0 = (valueOf n.whole, n.whole.length) := by
    have hle : valueOf n.whole ≤ valueOf n.whole * Nat.pow 10 n.fraction.length :=
      Nat.le_mul_of_pos_right _ (Nat.pow_pos (by decide))
    rw [absorb_eq (by rw [Nat.zero_mul, Nat.zero_add]; omega), Nat.zero_mul, Nat.zero_add]
  have hfraction : absorb n.fraction (valueOf n.whole) = (n.digits, n.fraction.length) := by
    rw [absorb_eq (by omega), ← happend]
  simp only [toFloat?, hwhole, hfraction, Nat.sub_self]
  cases he : n.exponent with
  | none => simp only [place, power, he]; rfl
  | some e =>
    obtain ⟨negative, ds⟩ := e
    have hsize := hexponent negative ds he
    simp only [if_neg (Nat.not_lt_of_le hsize), place, power, he]
    cases negative
    · have h : ((0 : Nat) : Int) - n.fraction.length + valueOf ds
          = valueOf ds - n.fraction.length := by omega
      simp only [Bool.false_eq_true, if_false, h]
    · have h : ((0 : Nat) : Int) - n.fraction.length - valueOf ds
          = -valueOf ds - n.fraction.length := by omega
      simp only [if_true, h]

/-! ## What is spelled -/

/-- A number that spells the decimal `c * 10 ^ e`, and is no integer. -/
structure Spells (n : Number) (c : Nat) (e : Int) : Prop where
  spelled : n.Spelled
  double : n.fraction ≠ [] ∨ n.exponent ≠ none
  digits_lt : n.digits < 2 ^ 64
  exponent_le : ∀ negative ds, n.exponent = some (negative, ds) → valueOf ds ≤ maxExponent
  value : ∃ j : Nat, n.digits = c * Nat.pow 10 j ∧ n.place = e - j

/-- A spelled decimal is not read as an integer. -/
theorem Spells.toInt? {n : Number} {c : Nat} {e : Int} (h : n.Spells c e) : n.toInt? = none := by
  unfold Number.toInt?
  rw [if_neg]
  rcases h.double with h | h <;> simp [h]

section Spellings

variable {negative : Bool} {ds : List Digit}

/-- With the point between the digits. -/
theorem spells_point (hfirst : ∀ d es, ds = d :: es → d ≠ 0) (hlt : valueOf ds < 2 ^ 64)
    {size : Nat} (hpos : 0 < size) (hsize : size < ds.length) :
    Spells ⟨negative, ds.take size, ds.drop size, none⟩ (valueOf ds) (size - ds.length) where
  spelled := by
    obtain ⟨k, rfl⟩ : ∃ k, size = k + 1 := ⟨size - 1, by omega⟩
    cases ds with
    | nil => exact absurd hsize (Nat.not_lt_zero _)
    | cons d es =>
      refine ⟨List.cons_ne_nil _ _, fun d' es' h _ => ?_, fun _ _ h => nomatch h⟩
      obtain ⟨rfl, -⟩ := List.cons.inj h
      exact hfirst d es rfl
  double := .inl fun h => by
    have hdrop := List.drop_eq_nil_iff.1 h
    omega
  digits_lt := by rwa [digits, List.take_append_drop]
  exponent_le _ _ h := nomatch h
  value := by
    refine ⟨0, ?_, ?_⟩
    · rw [digits, List.take_append_drop]
      exact (Nat.mul_one _).symm
    · show (0 : Int) - (ds.drop size).length = size - ds.length - 0
      rw [List.length_drop]
      omega

/-- With zeros behind the digits, and one behind the point. -/
theorem spells_whole (hne : ds ≠ []) (hfirst : ∀ d es, ds = d :: es → d ≠ 0) {size : Nat}
    (hsize : ds.length ≤ size) (hsize' : size ≤ 16) :
    Spells ⟨negative, ds ++ List.replicate (size - ds.length) 0, [0], none⟩ (valueOf ds)
      (size - ds.length) where
  spelled := by
    cases ds with
    | nil => exact absurd rfl hne
    | cons d es =>
      refine ⟨List.cons_ne_nil _ _, fun d' es' h _ => ?_, fun _ _ h => nomatch h⟩
      obtain ⟨rfl, -⟩ := List.cons.inj h
      exact hfirst d es rfl
  double := .inl (List.cons_ne_nil _ _)
  digits_lt := by
    have hlength : (ds ++ List.replicate (size - ds.length) 0 ++ [0]).length ≤ 17 := by
      simp only [List.length_append, List.length_replicate, List.length_singleton]
      omega
    calc digits _ < Nat.pow 10 _ := valueOf_lt _
      _ ≤ Nat.pow 10 17 := Nat.pow_le_pow_right (by decide) hlength
      _ ≤ 2 ^ 64 := by decide
  exponent_le _ _ h := nomatch h
  value := by
    refine ⟨size - ds.length + 1, ?_, ?_⟩
    · rw [digits, List.append_assoc, ← List.replicate_succ', valueOf_append, valueOf_zeros,
        List.length_replicate, Nat.add_zero]
    · show (0 : Int) - 1 = size - ds.length - (size - ds.length + 1 : Nat)
      omega

/-- With zeros in front of the digits, all behind the point. -/
theorem spells_small (hne : ds ≠ []) (hlt : valueOf ds < 2 ^ 64) (k : Nat) :
    Spells ⟨negative, [0], List.replicate k 0 ++ ds, none⟩ (valueOf ds) (-(k + ds.length)) := by
  have hdigits : digits ⟨negative, [0], List.replicate k 0 ++ ds, none⟩ = valueOf ds := by
    show valueOf (List.replicate (k + 1) 0 ++ ds) = valueOf ds
    rw [valueOf_append, valueOf_zeros, Nat.zero_mul, Nat.zero_add]
  exact {
    spelled := {
      whole := List.cons_ne_nil _ _
      leading := fun d es h hes => by
        obtain ⟨-, rfl⟩ := List.cons.inj h
        exact absurd rfl hes
      exponent := fun _ _ h => nomatch h }
    double := .inl fun h => hne (List.append_eq_nil_iff.1 h).2
    digits_lt := hdigits ▸ hlt
    exponent_le := fun _ _ h => nomatch h
    value := by
      refine ⟨0, hdigits.trans (Nat.mul_one _).symm, ?_⟩
      show (0 : Int) - (List.replicate k (0 : Digit) ++ ds).length = -(k + ds.length) - 0
      rw [List.length_append, List.length_replicate]
      omega }

/-- With the point behind the first digit, and an exponent. -/
theorem spells_exponent (hne : ds ≠ []) (hlt : valueOf ds < 2 ^ 64) {p : Int}
    (hp : p.natAbs ≤ maxExponent) :
    Spells ⟨negative, ds.take 1, ds.drop 1, some (p < 0, digitsOf p.natAbs)⟩ (valueOf ds)
      (p + 1 - ds.length) where
  spelled := by
    cases ds with
    | nil => exact absurd rfl hne
    | cons d es =>
      refine ⟨List.cons_ne_nil _ _, fun d' es' h hes => ?_, fun negative ds h => ?_⟩
      · obtain ⟨-, rfl⟩ := List.cons.inj h
        exact absurd rfl hes
      · obtain ⟨-, rfl⟩ := Prod.mk.inj (Option.some.inj h)
        exact digitsOf_ne_nil _
  double := .inr nofun
  digits_lt := by rwa [digits, List.take_append_drop]
  exponent_le _ es h := by
    obtain ⟨-, rfl⟩ := Prod.mk.inj (Option.some.inj h)
    rwa [valueOf_digitsOf]
  value := by
    refine ⟨0, ?_, ?_⟩
    · rw [digits, List.take_append_drop]
      exact (Nat.mul_one _).symm
    · have hpos : 0 < ds.length := List.length_pos_iff.2 hne
      have hpower :
          power ⟨negative, ds.take 1, ds.drop 1, some (p < 0, digitsOf p.natAbs)⟩ = p := by
        simp only [power, valueOf_digitsOf, decide_eq_true_eq]
        split <;> omega
      rw [place, hpower]
      show p - (ds.drop 1).length = p + 1 - ds.length - 0
      rw [List.length_drop]
      omega

end Spellings

/-- However a decimal is spelled, it is that decimal. -/
theorem spells_ofDigits {negative : Bool} {c : Nat} {e : Int} (hc : 0 < c) (hc' : c < 2 ^ 64)
    (hlow : -325 < e) (hhigh : e ≤ 309) :
    (ofDigits negative (digitsOf c) (e + (digitsOf c).length - 1)).Spells c e := by
  have hne := digitsOf_ne_nil c
  have hpos : 0 < (digitsOf c).length := List.length_pos_iff.2 hne
  -- so the exponent that is shown has three digits at most
  have hlength : (digitsOf c).length ≤ 20 :=
    length_digitsOf_le (by decide) (Nat.lt_trans hc' (by decide))
  have hfirst : ∀ d ds, digitsOf c = d :: ds → d ≠ 0 := fun d ds h => first_digitsOf hc h
  have hvalue := valueOf_digitsOf c
  rw [← hvalue] at hc'
  generalize digitsOf c = ds at *
  obtain ⟨p, hp⟩ : ∃ p, e + (ds.length : Int) - 1 = p := ⟨_, rfl⟩
  rw [hp, ofDigits]
  subst hvalue
  by_cases hwhole : 0 ≤ p ∧ p < 16
  · rw [if_pos hwhole]
    by_cases hsize : p.toNat + 1 < ds.length
    · have he : e = (p.toNat + 1 : Nat) - ds.length := by omega
      rw [he]
      simp only [if_pos hsize]
      exact spells_point hfirst hc' (Nat.succ_pos _) hsize
    · have he : e = (p.toNat + 1 : Nat) - ds.length := by omega
      rw [he]
      simp only [if_neg hsize]
      exact spells_whole hne hfirst (Nat.le_of_not_lt hsize) (by omega)
  rw [if_neg hwhole]
  by_cases hsmall : -5 ≤ p ∧ p < 0
  · have he : e = -((-p - 1).toNat + ds.length) := by omega
    rw [if_pos hsmall, he]
    exact spells_small hne hc' _
  · -- the point is too far off on either side
    have he : e = p + 1 - ds.length := by omega
    have hmax : p.natAbs ≤ maxExponent := by
      unfold maxExponent
      omega
    rw [if_neg hsmall, he]
    exact spells_exponent hne hc' hmax

/-- A finite double other than zero is spelled by its shortest decimal. -/
theorem spells_ofFloat {x : Binary64} (hx : x.isZero = false) :
    (ofFloat x).Spells (Shortest.decimal x).coefficient (Shortest.decimal x).exponent := by
  obtain ⟨-, hhigh, hlow, -⟩ := Shortest.decimal_spec x
  have hsignificand : x.significand ≠ 0 := Binary64.significand_ne_zero hx
  rw [ofFloat, if_neg (by rw [hx]; exact Bool.false_ne_true)]
  exact spells_ofDigits (Shortest.coefficient_pos hsignificand) (Shortest.coefficient_lt x) hlow
    hhigh

/-- A zero is spelled as one. -/
theorem spells_zero {x : Binary64} (hx : x.isZero = true) : (ofFloat x).Spells 0 0 := by
  rw [ofFloat, if_pos hx]
  exact {
    spelled := ⟨List.cons_ne_nil _ _, fun d ds h hds => absurd (List.cons.inj h).2.symm hds,
      fun _ _ h => nomatch h⟩
    double := .inl (List.cons_ne_nil _ _)
    digits_lt := Nat.two_pow_pos 64
    exponent_le := fun _ _ h => nomatch h
    value := ⟨1, rfl, rfl⟩ }

end Conneg.Json.Number
