import Conneg.Number.Shortest
import Conneg.Proofs.Number.Nearest

/-!
# The shortest decimal is rounded back

The shortest decimal of a double is a point of its interval (`decimal_contains`), and
whatever lies in the interval is rounded to the double (`nearestWord_of_contains`). So
one rounding is enough to read a double back from its shortest decimal
(`nearestWord_decimal`).

The grids that are tried reach from above all doubles to where one step is less than
half an interval, so one of them has a point (`nearest?_finest`). The next coarser one
has none, and so its step is about as long as the interval at least; which bounds the
digits that are needed by those of a 64-bit number (`coefficient_lt`).
-/

namespace Conneg

open Binary64

namespace Shortest

/-! ## Intervals -/

/-- Whether `num / den` quarter units lie in an interval. -/
structure Interval.Contains (i : Interval) (num den : Nat) : Prop where
  low : i.low * den ≤ num
  high : num ≤ i.high * den
  inner : i.closed = false → i.low * den < num ∧ num < i.high * den

theorem Interval.Contains.of_between {i : Interval} {num den : Nat} (hlow : i.low * den < num)
    (hhigh : num < i.high * den) : i.Contains num den :=
  ⟨Nat.le_of_lt hlow, Nat.le_of_lt hhigh, fun _ => ⟨hlow, hhigh⟩⟩

/-- The quarter steps from the lower end of an interval to its double. -/
def below (x : Binary64) : Nat := if x.fraction = 0 ∧ 1 < x.field then 1 else 2

theorem below_le (x : Binary64) : below x ≤ 2 := by
  unfold below
  split <;> omega

variable {x : Binary64} {num den step : Nat}

/-- What it is to lie in the interval of a double, where the double is so many steps. -/
theorem Interval.Contains.bounds (h : (Interval.of x).Contains num den)
    (hstep : den * Nat.pow 2 x.shift = step) :
    4 * (x.significand * step) ≤ num + below x * step ∧
      num ≤ 4 * (x.significand * step) + 2 * step ∧
      (x.significand % 2 = 1 → 4 * (x.significand * step) < num + below x * step ∧
        num < 4 * (x.significand * step) + 2 * step) := by
  have hlow : (Interval.of x).low * den
      = 4 * (x.significand * step) - below x * step := by
    show (4 * x.significand - below x) * Nat.pow 2 x.shift * den = _
    rw [Nat.mul_assoc, Nat.mul_comm (Nat.pow 2 x.shift), hstep, Nat.sub_mul, Nat.mul_assoc 4]
  have hhigh : (Interval.of x).high * den = 4 * (x.significand * step) + 2 * step := by
    show (4 * x.significand + 2) * Nat.pow 2 x.shift * den = _
    rw [Nat.mul_assoc, Nat.mul_comm (Nat.pow 2 x.shift), hstep, Nat.add_mul, Nat.mul_assoc 4]
  have h1 := h.low
  have h2 := h.high
  rw [hlow] at h1
  rw [hhigh] at h2
  refine ⟨by omega, h2, fun hodd => ?_⟩
  have hclosed : (Interval.of x).closed = false := by
    show (x.significand % 2 == 0) = false
    rw [hodd]
    rfl
  have h3 := h.inner hclosed
  rw [hlow, hhigh] at h3
  omega

/-- What lies below the binade of a double, but in its interval, is rounded to the
double: it is a power of two, and half a step away at most. -/
theorem nearestWord_of_below (hx : x.isFinite = true) (hden : 0 < den)
    (h : (Interval.of x).Contains (4 * num) den) (hshift : x.shift ≠ 0)
    (hbelow : num < 2 ^ 52 * (den * Nat.pow 2 x.shift)) : nearestWord num den = x.magnitude := by
  -- steps in the binade below are half as long
  obtain ⟨s, hs⟩ : ∃ s, x.shift = s + 1 := ⟨x.shift - 1, by omega⟩
  have hhalf : den * Nat.pow 2 x.shift = 2 * (den * Nat.pow 2 s) := by
    rw [hs]
    show den * (Nat.pow 2 s * 2) = _
    rw [Nat.mul_comm (Nat.pow 2 s), Nat.mul_left_comm]
  have hpos : 0 < den * Nat.pow 2 s := Nat.mul_pos hden (Nat.two_pow_pos s)
  obtain ⟨hlow, -, -⟩ := h.bounds hhalf
  rw [hhalf] at hbelow
  have hm := x.le_significand hshift
  -- only the interval of a power of two reaches below its binade
  have hpower : x.significand = 2 ^ 52 := by
    refine Nat.le_antisymm (Nat.le_of_not_lt fun hlt => ?_) hm
    have hmul := Nat.mul_le_mul_right (2 * (den * Nat.pow 2 s)) (Nat.succ_le_of_lt hlt)
    have hstep := Nat.mul_le_mul_right (2 * (den * Nat.pow 2 s)) (below_le x)
    omega
  have hnarrow : below x = 1 := by
    refine if_pos ?_
    unfold shift at hs
    unfold significand at hpower
    rw [if_neg (by omega)] at hpower
    omega
  rw [hpower, hnarrow] at hlow
  have hfinite := x.magnitude_lt hx
  rw [magnitude_eq, hs, hpower] at hfinite ⊢
  have hlog : Nat.log2 (num / den) - 52 = s := log2_sub_eq hden (fun _ => by omega) (by omega)
  have hround : roundHalfEven num (den * Nat.pow 2 s) = 2 ^ 53 :=
    roundHalfEven_eq (by omega) (by omega) (fun h => nomatch h) hpos
  rw [nearestWord_eq hlog hround (by omega)]
  omega

/-- What lies in the interval of a finite double is rounded to the double. -/
theorem nearestWord_of_contains (hx : x.isFinite = true) (hden : 0 < den)
    (h : (Interval.of x).Contains (4 * num) den) : nearestWord num den = x.magnitude := by
  by_cases hbinade : x.shift ≠ 0 → 2 ^ 52 * (den * Nat.pow 2 x.shift) ≤ num
  · -- in the binade of the double, the shift and the significand are its own
    obtain ⟨step, hstep⟩ : ∃ step, den * Nat.pow 2 x.shift = step := ⟨_, rfl⟩
    have hpos : 0 < step := hstep ▸ Nat.mul_pos hden (Nat.two_pow_pos x.shift)
    obtain ⟨hlow, hhigh, hodd⟩ := h.bounds hstep
    have hbelow := Nat.mul_le_mul_right step (below_le x)
    have hm := Nat.mul_le_mul_right step (Nat.succ_le_of_lt x.significand_lt)
    rw [Nat.succ_mul] at hm
    have hlog : Nat.log2 (num / den) - 52 = x.shift :=
      log2_sub_eq hden hbinade (by rw [hstep]; omega)
    have hround : roundHalfEven num (den * Nat.pow 2 x.shift) = x.significand := by
      rw [hstep]
      refine roundHalfEven_eq (by omega) (by omega) (fun h => ?_) hpos
      have hinner := hodd h
      omega
    have hfinite := x.magnitude_lt hx
    rw [magnitude_eq] at hfinite ⊢
    exact nearestWord_eq hlog hround (Nat.le_of_lt hfinite)
  · have hshift : x.shift ≠ 0 := fun hzero => hbinade fun h => absurd hzero h
    exact nearestWord_of_below hx hden h hshift (Nat.lt_of_not_le fun hle => hbinade fun _ => hle)

/-! ## The points of a grid -/

theorem Interval.holds_iff {i : Interval} {e : Int} {n : Nat} :
    i.holds e n = true ↔ i.Contains (n * gridStep e) (gridScale e) := by
  unfold Interval.holds
  cases hclosed : i.closed with
  | true =>
    simp only [if_true, Bool.and_eq_true, decide_eq_true_eq]
    exact ⟨fun h => ⟨h.1, h.2, fun hfalse => by simp [hclosed] at hfalse⟩,
      fun h => ⟨h.low, h.high⟩⟩
  | false =>
    simp only [Bool.false_eq_true, if_false, Bool.and_eq_true, decide_eq_true_eq]
    exact ⟨fun h => ⟨Nat.le_of_lt h.1, Nat.le_of_lt h.2, fun _ => h⟩, fun h => h.inner hclosed⟩

theorem Interval.holds_of_nearest? {i : Interval} {e : Int} {n : Nat} (h : i.nearest? e = some n) :
    i.holds e n = true := by
  simp only [Interval.nearest?] at h
  split at h
  · exact nomatch h
  · next hpoint _ => exact Option.some.inj h ▸ hpoint
  · next hpoint => exact Option.some.inj h ▸ hpoint
  · next hpoint hnext =>
    -- the rounding is one of the two points
    obtain rfl := Option.some.inj h
    rcases roundHalfEven_cases (i.centre * gridScale e) (gridStep e) with h | h
    · rw [h]; exact hpoint
    · rw [h]; exact hnext

theorem Interval.not_holds_of_nearest? {i : Interval} {e : Int} (h : i.nearest? e = none) :
    i.holds e (i.centre * gridScale e / gridStep e) = false ∧
      i.holds e (i.centre * gridScale e / gridStep e + 1) = false := by
  simp only [Interval.nearest?] at h
  split at h
  · next hpoint hnext => exact ⟨hpoint, hnext⟩
  all_goals exact nomatch h

/-- The coarsest grid with a point: no grid between it and the first has one. -/
theorem coarsest_eq_some {i : Interval} {steps : Nat} {e : Int} {d : Decimal}
    (h : coarsest i steps e = some d) :
    i.nearest? d.exponent = some d.coefficient ∧ d.exponent ≤ e ∧ e - steps < d.exponent ∧
      ∀ e', d.exponent < e' → e' ≤ e → i.nearest? e' = none := by
  induction steps generalizing e with
  | zero => exact nomatch h
  | succ steps ih =>
    rw [coarsest] at h
    cases hnearest : i.nearest? e with
    | some n =>
      rw [hnearest] at h
      obtain rfl := Option.some.inj h
      exact ⟨hnearest, Int.le_refl e, by show e - _ < e; omega, fun e' hlt hle => by
        have hlt : e < e' := hlt
        omega⟩
    | none =>
      rw [hnearest] at h
      obtain ⟨hpoint, hle, hlt, hcoarser⟩ := ih h
      refine ⟨hpoint, by omega, by omega, fun e' hlt hle => ?_⟩
      by_cases heq : e' = e
      · rw [heq]; exact hnearest
      · exact hcoarser e' hlt (by omega)

theorem coarsest_ne_none {i : Interval} {steps : Nat} {e e' : Int} (hpoint : i.nearest? e' ≠ none)
    (hle : e' ≤ e) (hlt : e - steps < e') : coarsest i steps e ≠ none := by
  induction steps generalizing e with
  | zero => omega
  | succ steps ih =>
    rw [coarsest]
    split
    · exact nofun
    · next hnone =>
      have hne : e' ≠ e := fun heq => hpoint (heq ▸ hnone)
      exact ih (by omega) (by omega)

/-! ## The grid that is taken -/

theorem gridStep_pos (e : Int) : 0 < gridStep e :=
  Nat.mul_pos (by decide +kernel) (Nat.pow_pos (by decide))

theorem gridScale_pos (e : Int) : 0 < gridScale e := Nat.pow_pos (by decide)

/-- The two ends of an interval, from its double on. -/
theorem centre_bounds (x : Binary64) :
    (Interval.of x).low ≤ (Interval.of x).centre ∧
      (Interval.of x).high = (Interval.of x).centre + 2 * Nat.pow 2 x.shift := by
  constructor
  · exact Nat.mul_le_mul_right _ (Nat.sub_le _ _)
  · exact Nat.add_mul _ _ _

/-- One step of the finest grid is less than half of any interval, so the next point
above a double is in it. -/
theorem nearest?_finest (x : Binary64) : (Interval.of x).nearest? (-324) ≠ none := by
  intro hnone
  have hnext := (Interval.not_holds_of_nearest? hnone).2
  obtain ⟨hlow, hhigh⟩ := centre_bounds x
  have hscale : gridStep (-324) < 2 * gridScale (-324) := by decide +kernel
  have hpow : gridScale (-324) ≤ Nat.pow 2 x.shift * gridScale (-324) :=
    Nat.le_mul_of_pos_left _ (Nat.two_pow_pos x.shift)
  have hdiv := Nat.div_add_mod ((Interval.of x).centre * gridScale (-324)) (gridStep (-324))
  have hrem := Nat.mod_lt ((Interval.of x).centre * gridScale (-324)) (gridStep_pos (-324))
  have hcontains : (Interval.of x).Contains
      (((Interval.of x).centre * gridScale (-324) / gridStep (-324) + 1) * gridStep (-324))
      (gridScale (-324)) := by
    have hlowScale := Nat.mul_le_mul_right (gridScale (-324)) hlow
    rw [Nat.mul_comm (gridStep (-324))] at hdiv
    refine .of_between ?_ ?_
    · rw [Nat.succ_mul]
      omega
    · rw [hhigh, Nat.succ_mul, Nat.add_mul, Nat.mul_assoc 2]
      omega
  rw [Interval.holds_iff.2 hcontains] at hnext
  exact nomatch hnext

/-- What is known of the shortest decimal: it is the point of the coarsest grid that has
one. -/
theorem decimal_spec (x : Binary64) :
    (Interval.of x).nearest? (decimal x).exponent = some (decimal x).coefficient ∧
      (decimal x).exponent ≤ 309 ∧ -325 < (decimal x).exponent ∧
      ∀ e, (decimal x).exponent < e → e ≤ 309 → (Interval.of x).nearest? e = none := by
  have hsome : coarsest (Interval.of x) 634 309 ≠ none :=
    coarsest_ne_none (nearest?_finest x) (by decide) (by decide)
  cases hd : coarsest (Interval.of x) 634 309 with
  | none => exact absurd hd hsome
  | some d =>
    have hdecimal : decimal x = d := by rw [decimal, hd, Option.getD_some]
    rw [hdecimal]
    exact coarsest_eq_some hd

/-- The shortest decimal of a double lies in its interval. -/
theorem decimal_contains (x : Binary64) : (Interval.of x).Contains
    ((decimal x).coefficient * gridStep (decimal x).exponent) (gridScale (decimal x).exponent) :=
  Interval.holds_iff.1 (Interval.holds_of_nearest? (decimal_spec x).1)

/-- The shortest decimal of a finite double is rounded to the double. -/
theorem nearestWord_decimal (hx : x.isFinite = true) :
    nearestWord ((decimal x).coefficient * unitsInOne * Nat.pow 10 (decimal x).exponent.toNat)
      (Nat.pow 10 (-(decimal x).exponent).toNat) = x.magnitude := by
  refine nearestWord_of_contains hx (gridScale_pos (decimal x).exponent) ?_
  have hunits : 4 * ((decimal x).coefficient * unitsInOne * Nat.pow 10 (decimal x).exponent.toNat)
      = (decimal x).coefficient * gridStep (decimal x).exponent := by
    rw [gridStep, quarters]
    simp only [Nat.mul_assoc, Nat.mul_left_comm]
  rw [hunits]
  exact decimal_contains x

/-! ## How many digits it has -/

/-- Where a grid has no point in an interval, its step is no shorter than the part of
the interval above the double. -/
theorem Interval.step_of_nearest? {e : Int} (h : (Interval.of x).nearest? e = none) :
    2 * Nat.pow 2 x.shift * gridScale e ≤ gridStep e := by
  obtain ⟨hpoint, hnext⟩ := Interval.not_holds_of_nearest? h
  obtain ⟨hlow, hhigh⟩ := centre_bounds x
  have hdiv := Nat.div_add_mod ((Interval.of x).centre * gridScale e) (gridStep e)
  have hrem := Nat.mod_lt ((Interval.of x).centre * gridScale e) (gridStep_pos e)
  have hlowScale := Nat.mul_le_mul_right (gridScale e) hlow
  have hhighScale : (Interval.of x).high * gridScale e
      = (Interval.of x).centre * gridScale e + 2 * Nat.pow 2 x.shift * gridScale e := by
    rw [hhigh, Nat.add_mul]
  have hspan : 0 < 2 * Nat.pow 2 x.shift * gridScale e :=
    Nat.mul_pos (Nat.mul_pos (by decide) (Nat.two_pow_pos _)) (gridScale_pos e)
  rw [Nat.mul_comm (gridStep e)] at hdiv
  -- the point below the double is at the low end or below, and the next at the high end
  -- or above
  have hbelow : (Interval.of x).centre * gridScale e / gridStep e * gridStep e
      ≤ (Interval.of x).low * gridScale e := by
    refine Nat.le_of_not_lt fun hlt => ?_
    rw [Interval.holds_iff.2 (.of_between hlt (by omega))] at hpoint
    exact nomatch hpoint
  have habove : (Interval.of x).high * gridScale e
      ≤ ((Interval.of x).centre * gridScale e / gridStep e + 1) * gridStep e := by
    refine Nat.le_of_not_lt fun hlt => ?_
    rw [Interval.holds_iff.2 (.of_between (by rw [Nat.succ_mul]; omega) hlt)] at hnext
    exact nomatch hnext
  rw [Nat.succ_mul] at habove
  omega

/-- Ten steps of a grid are one of the next coarser. -/
theorem gridStep_succ (e : Int) :
    gridStep (e + 1) * gridScale e = 10 * gridStep e * gridScale (e + 1) := by
  unfold gridStep gridScale
  generalize quarters = q
  by_cases he : 0 ≤ e
  · have h1 : (e + 1).toNat = e.toNat + 1 := by omega
    have h2 : (-e).toNat = 0 := by omega
    have h3 : (-(e + 1)).toNat = 0 := by omega
    rw [h1, h2, h3]
    show q * (Nat.pow 10 e.toNat * 10) * 1 = 10 * (q * Nat.pow 10 e.toNat) * 1
    rw [Nat.mul_one, Nat.mul_one, Nat.mul_comm 10, Nat.mul_assoc]
  · have h1 : (-e).toNat = (-(e + 1)).toNat + 1 := by omega
    have h2 : e.toNat = 0 := by omega
    have h3 : (e + 1).toNat = 0 := by omega
    rw [h1, h2, h3]
    show q * 1 * (Nat.pow 10 (-(e + 1)).toNat * 10) = 10 * (q * 1) * Nat.pow 10 (-(e + 1)).toNat
    rw [Nat.mul_comm (Nat.pow 10 _) 10, ← Nat.mul_assoc, Nat.mul_comm _ 10]

/-- The upper end of an interval is below 2^55 steps. -/
theorem high_lt (x : Binary64) : (Interval.of x).high < 2 ^ 55 * Nat.pow 2 x.shift := by
  have hm := x.significand_lt
  exact Nat.mul_lt_mul_of_pos_right (by omega) (Nat.two_pow_pos x.shift)

/-- Above the largest double there is no point but zero. -/
theorem coefficient_eq_zero {c : Nat} (h : c * gridStep 309 ≤ (Interval.of x).high) : c = 0 := by
  -- under a name, so that the power is not computed until it is compared
  obtain ⟨top, htop⟩ : ∃ top, top = 2046 := ⟨_, rfl⟩
  have hshift : x.shift ≤ top := by
    unfold shift field
    omega
  refine Nat.eq_zero_of_not_pos fun hpos => absurd h (Nat.not_le_of_lt ?_)
  calc (Interval.of x).high < 2 ^ 55 * Nat.pow 2 x.shift := high_lt x
    _ ≤ 2 ^ 55 * Nat.pow 2 top := Nat.mul_le_mul_left _ (Nat.pow_le_pow_right (by decide) hshift)
    _ < gridStep 309 := by rw [htop]; decide +kernel
    _ ≤ c * gridStep 309 := Nat.le_mul_of_pos_left _ hpos

/-- Where the next coarser grid has no point in an interval, a point is a number of 64
bits. -/
theorem lt_of_coarser {e : Int} {c : Nat}
    (hcoarser : (Interval.of x).nearest? (e + 1) = none)
    (hc : c * gridStep e ≤ (Interval.of x).high * gridScale e) : c < 2 ^ 64 := by
  have hspan : 2 * Nat.pow 2 x.shift * gridScale e ≤ 10 * gridStep e := by
    refine Nat.le_of_mul_le_mul_right ?_ (gridScale_pos (e + 1))
    calc 2 * Nat.pow 2 x.shift * gridScale e * gridScale (e + 1)
        = 2 * Nat.pow 2 x.shift * gridScale (e + 1) * gridScale e := Nat.mul_right_comm _ _ _
      _ ≤ gridStep (e + 1) * gridScale e :=
        Nat.mul_le_mul_right _ (Interval.step_of_nearest? hcoarser)
      _ = 10 * gridStep e * gridScale (e + 1) := gridStep_succ e
  have hlt : c * gridStep e < 5 * 2 ^ 55 * gridStep e := by
    calc c * gridStep e ≤ (Interval.of x).high * gridScale e := hc
      _ < 2 ^ 55 * Nat.pow 2 x.shift * gridScale e :=
        Nat.mul_lt_mul_of_pos_right (high_lt x) (gridScale_pos e)
      _ ≤ 5 * 2 ^ 55 * gridStep e := by
        rw [Nat.mul_assoc] at hspan ⊢
        omega
  exact Nat.lt_trans (Nat.lt_of_mul_lt_mul_right hlt) (by decide)

/-- The digits of the shortest decimal make a number of 64 bits. -/
theorem coefficient_lt (x : Binary64) : (decimal x).coefficient < 2 ^ 64 := by
  obtain ⟨-, hle, -, hcoarser⟩ := decimal_spec x
  have hhigh := (decimal_contains x).high
  by_cases htop : (decimal x).exponent = 309
  · -- the first grid has no coarser one
    have hscale : gridScale 309 = 1 := rfl
    rw [htop, hscale, Nat.mul_one] at hhigh
    rw [coefficient_eq_zero hhigh]
    decide
  · exact lt_of_coarser (hcoarser ((decimal x).exponent + 1) (by omega) (by omega)) hhigh

/-- Only a zero has the shortest decimal zero. -/
theorem coefficient_pos (hx : x.significand ≠ 0) : 0 < (decimal x).coefficient := by
  refine Nat.pos_of_ne_zero fun hzero => ?_
  have hlow := (decimal_contains x).low
  rw [hzero, Nat.zero_mul] at hlow
  have hpos : 0 < (Interval.of x).low * gridScale (decimal x).exponent := by
    refine Nat.mul_pos (Nat.mul_pos ?_ (Nat.two_pow_pos _)) (gridScale_pos _)
    have hbelow := below_le x
    unfold below at hbelow
    omega
  omega

end Shortest
end Conneg
