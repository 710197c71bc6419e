import Conneg.Proofs.Accept.Numeral
import Conneg.Proofs.Accept.Parameter
import Mathlib.Tactic.Linarith
import Mathlib.Tactic.NormNum
import Mathlib.Tactic.Positivity

/-!
# Where a quality value begins to exclude

Single precision rounds a number to zero exactly up to `2^-150`, which is half of the least
number that it has, for the tie goes to the even neighbour. So a numeral excludes its entry
exactly if what it is worth is at most that, and of the words only minus infinity does
(`exists_refuses_iff`). The comparison is of rational numbers: digits and exponents may be as
long as one likes.

Every spelling of zero or of a negative number is on one side of the limit, whatever its
exponent, and every positive number with up to three digits behind the point is on the other
(`negotiate_excludes_iff`).
-/

namespace Conneg.Accept

open Text

/-! ## Numbers -/

/-- The reader's test is a comparison with half of the least single-precision number. -/
theorem roundsToZero_iff (c : Nat) (e : Int) :
    roundsToZero c e = true ↔ (c : ℚ) * 10 ^ e ≤ 2 ^ (-150 : ℤ) := by
  unfold roundsToZero
  split
  · next he =>
    rw [beq_iff_eq]
    constructor
    · rintro rfl
      rw [Nat.cast_zero, zero_mul]
      positivity
    · -- a whole number is zero or at least one
      intro h
      by_contra hc
      have hone : (1 : ℚ) ≤ c := by exact_mod_cast Nat.one_le_iff_ne_zero.2 hc
      have hpow : (1 : ℚ) ≤ 10 ^ e := one_le_zpow₀ (by norm_num) he
      have hprod : (1 : ℚ) ≤ c * 10 ^ e := one_le_mul_of_one_le_of_one_le hone hpow
      have hlimit : (2 : ℚ) ^ (-150 : ℤ) < 1 := by norm_num
      exact absurd (hprod.trans h) (not_le.2 hlimit)
  · next he =>
    obtain ⟨k, rfl⟩ : ∃ k : Nat, e = -(k : ℤ) := ⟨(-e).toNat, by omega⟩
    have hten : (0 : ℚ) < 10 ^ k := by positivity
    have htwo : (0 : ℚ) < 2 ^ (150 : ℕ) := by positivity
    have hlimit : (2 : ℚ) ^ (-150 : ℤ) = 1 / 2 ^ (150 : ℕ) := by norm_num
    rw [decide_eq_true_iff, neg_neg, Int.toNat_natCast, zpow_neg, zpow_natCast, ← div_eq_mul_inv,
      hlimit, div_le_div_iff₀ hten htwo, one_mul]
    exact_mod_cast Iff.rfl

namespace Numeral

theorem magnitude_nonneg (n : Numeral) : 0 ≤ n.magnitude := by
  unfold magnitude
  positivity

/-- A spelling of zero or of a negative number has a minus, or no digit but zeros. -/
theorem value_le_zero_iff (n : Numeral) :
    n.value ≤ 0 ↔ n.sign.isMinus = true ∨ n.coefficient = 0 := by
  have hmagnitude := n.magnitude_nonneg
  unfold value
  split
  · next hminus => simp [hminus, hmagnitude]
  · next hplus =>
    have hpow : (10 : ℚ) ^ n.scale ≠ 0 := by positivity
    constructor
    · intro h
      have hzero : n.magnitude = 0 := le_antisymm h hmagnitude
      have hcoefficient : (n.coefficient : ℚ) = 0 := (mul_eq_zero.1 hzero).resolve_right hpow
      exact .inr (by exact_mod_cast hcoefficient)
    · rintro (hminus | hzero)
      · exact absurd hminus hplus
      · rw [magnitude, hzero, Nat.cast_zero, zero_mul]

/-- What is read of a numeral refuses exactly if the numeral is worth at most the limit, for
an exponent that is read as it was written. -/
theorem refuses_iff (n : Numeral) :
    (Quality.numeral n.sign.isMinus n.coefficient n.scale).refuses = true
      ↔ n.value ≤ 2 ^ (-150 : ℤ) := by
  have hmagnitude := n.magnitude_nonneg
  have hlimit : (0 : ℚ) < 2 ^ (-150 : ℤ) := by positivity
  rw [Quality.refuses, Bool.or_eq_true, roundsToZero_iff, value]
  split
  · next hminus => exact iff_of_true (.inl hminus) (by linarith)
  · next hplus => exact or_iff_right hplus

/-- Zero and the negative numbers refuse, however large an exponent is. -/
theorem refuses_of_value_le_zero {n : Numeral} (h : n.value ≤ 0) (e : Int) :
    (Quality.numeral n.sign.isMinus n.coefficient e).refuses = true := by
  rw [Quality.refuses, Bool.or_eq_true, roundsToZero_iff]
  rcases n.value_le_zero_iff.1 h with hminus | hzero
  · exact .inl hminus
  · refine .inr ?_
    rw [hzero, Nat.cast_zero, zero_mul]
    positivity

/-- Without an exponent, and with at most three digits behind the point, a positive number is
at least a thousandth. -/
theorem limit_lt_value {n : Numeral} (hexponent : n.exponent = none)
    (hfraction : (n.fraction.getD []).length ≤ 3) (hpos : 0 < n.value) :
    2 ^ (-150 : ℤ) < n.value := by
  obtain ⟨hplus, hcoefficient⟩ := not_or.1 (mt n.value_le_zero_iff.2 (not_le.2 hpos))
  have hone : (1 : ℚ) ≤ n.coefficient := by exact_mod_cast Nat.one_le_iff_ne_zero.2 hcoefficient
  have hscale : (-3 : ℤ) ≤ n.scale := by
    rw [scale, hexponent]
    show (-3 : ℤ) ≤ 0 - ((n.fraction.getD []).length : ℤ)
    omega
  rw [value, if_neg hplus]
  calc (2 : ℚ) ^ (-150 : ℤ) < 10 ^ (-3 : ℤ) := by norm_num
    _ ≤ 10 ^ n.scale := zpow_le_zpow_right₀ (by norm_num) hscale
    _ ≤ n.magnitude := le_mul_of_one_le_left (by positivity) hone

end Numeral

/-! ## Texts -/

/-- Whether a text is the word for minus infinity, in any case of letters. -/
def IsMinusInfinity (cs : List Char) : Prop :=
  sameIgnoringCase cs "-inf".toList = true ∨ sameIgnoringCase cs "-infinity".toList = true

/-- Whether a text is minus infinity, or a number that single precision rounds to zero or that
is below zero. -/
def AtMostLimit (cs : List Char) : Prop :=
  IsMinusInfinity cs ∨ ∃ n : Numeral, n.text = cs ∧ n.value ≤ 2 ^ (-150 : ℤ)

instance (cs : List Char) : Decidable (IsMinusInfinity cs) :=
  inferInstanceAs (Decidable (_ ∨ _))

variable {cs : List Char}

theorem readQuality?_eq_infinite_iff :
    readQuality? cs = some (.infinite true) ↔ IsMinusInfinity cs := by
  constructor
  · intro h
    obtain ⟨sign, hsign, hminus⟩ := exists_sign cs
    simp only [readQuality?] at h
    generalize leadingSign cs = signed at h hsign hminus
    obtain ⟨negative, rest⟩ := signed
    split at h
    · cases h
    · split at h
      · next hword =>
        obtain rfl : negative = true := Quality.infinite.inj (Option.some.inj h)
        obtain rfl : sign = .minus := by
          cases sign with
          | minus => rfl
          | absent | plus => cases hminus
        obtain rfl : '-' :: rest = cs := hsign
        -- the sign is no letter, so only the word behind it is folded
        rcases Bool.or_eq_true_iff.1 hword with hword | hword
        · exact .inl (sameIgnoringCase_iff.2 (congrArg ('-' :: ·) (sameIgnoringCase_iff.1 hword)))
        · exact .inr (sameIgnoringCase_iff.2 (congrArg ('-' :: ·) (sameIgnoringCase_iff.1 hword)))
      · split at h <;> cases h
  · intro h
    have hfold : readQuality? (fold cs) = some (.infinite true) := by
      rcases h with h | h
      · rw [sameIgnoringCase_iff.1 h]
        decide
      · rw [sameIgnoringCase_iff.1 h]
        decide
    rwa [readQuality?_fold] at hfold

/-- A text excludes exactly if it is minus infinity, or a number of at most the limit. -/
theorem exists_refuses_iff (hfits : ∀ n : Numeral, n.text = cs → n.ExponentFits) :
    (∃ quality, readQuality? cs = some quality ∧ quality.refuses = true) ↔ AtMostLimit cs := by
  have hread : ∀ n : Numeral, n.text = cs →
      readQuality? cs = some (.numeral n.sign.isMinus n.coefficient n.scale) := by
    intro n hn
    obtain ⟨e, he, hscale⟩ := readQuality?_text n
    rw [hscale (hfits n hn), hn] at he
    exact he
  constructor
  · rintro ⟨quality, hquality, hrefuses⟩
    cases quality with
    | numeral negative c e =>
      obtain ⟨n, hn⟩ := exists_text_of_readQuality? hquality
      rw [← Option.some.inj ((hread n hn).symm.trans hquality)] at hrefuses
      exact .inr ⟨n, hn, n.refuses_iff.1 hrefuses⟩
    | infinite negative =>
      obtain rfl : negative = true := hrefuses
      exact .inl (readQuality?_eq_infinite_iff.1 hquality)
    | undefined => cases hrefuses
  · rintro (hword | ⟨n, hn, hvalue⟩)
    · exact ⟨_, readQuality?_eq_infinite_iff.2 hword, rfl⟩
    · exact ⟨_, hread n hn, n.refuses_iff.2 hvalue⟩

/-! ## Entries -/

/-- **A quality excludes exactly up to half of the least single-precision number.** An entry
that is a recognised media type and a quality is left out if the quality is minus infinity or a
numeral worth at most `2^-150`, and settles the format with any other text. Zero and the
negative numbers leave it out in every spelling, and no positive number with up to three digits
behind its point does. -/
theorem negotiate_excludes_iff {f fallback : Format} (hf : f ≠ fallback) (media t : String)
    (hmedia : ';' ∉ media.toList) (hformat : Format.ofContentType media = .ok f)
    (hcomma : ',' ∉ t.toList) (hsemicolon : ';' ∉ t.toList) :
    let answer := negotiate (some (media ++ ";q=" ++ t)) fallback
    let quality := trim t.toList
    ((∀ n : Numeral, n.text = quality → n.ExponentFits) →
      (answer = fallback ↔ AtMostLimit quality) ∧ (answer = f ↔ ¬ AtMostLimit quality)) ∧
    ∀ n : Numeral, n.text = quality →
      (n.value ≤ 0 → answer = fallback) ∧
      (n.exponent = none → (n.fraction.getD []).length ≤ 3 → 0 < n.value → answer = f) := by
  intro answer quality
  have hentry : (media ++ ";q=" ++ t).toList = media.toList ++ ';' :: 'q' :: '=' :: t.toList := by
    simp
  have hnames : Format.ofContentType? media.toList = some f := by
    unfold Format.ofContentType at hformat
    split at hformat
    · next hsome => rw [hsome, Except.ok.inj hformat]
    · cases hformat
  have hexcluded := excluded_quality_iff hmedia hsemicolon
  have hanswer : answer
      = if Excluded (media.toList ++ ';' :: 'q' :: '=' :: t.toList) then fallback else f :=
    negotiate_media hentry hmedia hnames (by simp [hcomma])
  -- the two answers are not the same, so the answer says whether the entry is excluded
  have hfallback : answer = fallback
      ↔ Excluded (media.toList ++ ';' :: 'q' :: '=' :: t.toList) := by
    rw [hanswer]
    split
    · next h => exact iff_of_true rfl h
    · next h => exact iff_of_false hf h
  have hkept : answer = f ↔ ¬ Excluded (media.toList ++ ';' :: 'q' :: '=' :: t.toList) := by
    rw [hanswer]
    split
    · next h => exact iff_of_false (Ne.symm hf) (not_not_intro h)
    · next h => exact iff_of_true rfl h
  refine ⟨fun hfits => ?limit,
    fun n hn => ⟨fun hvalue => ?zero, fun hexponent hfraction hpos => ?short⟩⟩
  case limit =>
    rw [hfallback, hkept, hexcluded, exists_refuses_iff hfits]
    exact ⟨Iff.rfl, Iff.rfl⟩
  case zero =>
    obtain ⟨e, he, -⟩ := readQuality?_text n
    rw [hn] at he
    exact hfallback.2 (hexcluded.2 ⟨_, he, Numeral.refuses_of_value_le_zero hvalue e⟩)
  case short =>
    have honly : ∀ n' : Numeral, n'.text = quality → n' = n := fun n' hn' =>
      Numeral.text_injective (hn'.trans hn.symm)
    have hfits : ∀ n' : Numeral, n'.text = quality → n'.ExponentFits := by
      intro n' hn' x hx
      rw [honly n' hn', hexponent] at hx
      cases hx
    rw [hkept, hexcluded, exists_refuses_iff hfits]
    rintro (hword | ⟨n', hn', hvalue⟩)
    · obtain ⟨e, he, -⟩ := readQuality?_text n
      rw [hn, readQuality?_eq_infinite_iff.2 hword] at he
      cases he
    · rw [honly n' hn'] at hvalue
      exact absurd hvalue (not_le.2 (Numeral.limit_lt_value hexponent hfraction hpos))

/-- The limit, written out as `5^150` with an exponent of `-150`, and the numerals after it. -/
def nearLimit (more : Nat) : Numeral where
  sign := .absent
  whole := digitsOf (Nat.pow 5 150 + more)
  fraction := none
  exponent := some ⟨false, .minus, digitsOf 150, digitsOf_ne_nil 150⟩
  digits_ne_nil := List.append_ne_nil_of_left_ne_nil (digitsOf_ne_nil _) _

theorem value_nearLimit (more : Nat) :
    (nearLimit more).value = 2 ^ (-150 : ℤ) + more * 10 ^ (-150 : ℤ) := by
  have hcoefficient : (nearLimit more).coefficient = Nat.pow 5 150 + more := by
    rw [Numeral.coefficient]
    show valueOf (digitsOf (Nat.pow 5 150 + more) ++ []) = _
    rw [List.append_nil, valueOf_digitsOf]
  have hscale : (nearLimit more).scale = -150 := by
    show -(valueOf (digitsOf 150) : ℤ) - 0 = _
    rw [valueOf_digitsOf]
    rfl
  have hpow : ((Nat.pow 5 150 : ℕ) : ℚ) = 5 ^ (150 : ℕ) := Nat.cast_pow 5 150
  have hlimit : (5 : ℚ) ^ (150 : ℕ) * 10 ^ (-150 : ℤ) = 2 ^ (-150 : ℤ) := by norm_num
  show ((nearLimit more).coefficient : ℚ) * 10 ^ (nearLimit more).scale = _
  rw [hcoefficient, hscale, Nat.cast_add, hpow, add_mul, hlimit]

theorem exponentFits_nearLimit {more : Nat} {n : Numeral} (h : n.text = (nearLimit more).text) :
    n.ExponentFits := by
  rw [Numeral.text_injective h]
  intro x hx
  obtain rfl := Option.some.inj hx
  show valueOf (digitsOf 150) < 2 ^ 16
  rw [valueOf_digitsOf]
  decide

/-- The 105 digits of the limit exclude the entry, and the next number with so many digits does
not; a thousandth does not, and a long zero does. -/
theorem negotiate_excludes_nearLimit :
    let answer := fun t => negotiate (some (" application/X-BSON" ++ ";q=" ++ t)) .json
    Format.ofContentType " application/X-BSON" = .ok .bson ∧
      answer (String.ofList (nearLimit 0).text) = .json ∧
      answer (String.ofList (nearLimit 1).text) = .bson ∧
      answer " +.001" = .bson ∧ answer "-0.000e99999999 " = .json := by
  intro answer
  have hformat : Format.ofContentType " application/X-BSON" = .ok .bson := by decide
  have hexcludes := fun t => negotiate_excludes_iff (show Format.bson ≠ .json by decide)
    " application/X-BSON" t (by decide) hformat
  -- neither a separator nor white space is in the texts at the limit
  have hplain : ∀ more < 2, ',' ∉ (nearLimit more).text ∧ ';' ∉ (nearLimit more).text ∧
      trim (nearLimit more).text = (nearLimit more).text := by decide +kernel
  have hnear : ∀ more < 2,
      (answer (String.ofList (nearLimit more).text) = .json ↔ AtMostLimit (nearLimit more).text) ∧
      (answer (String.ofList (nearLimit more).text) = .bson
        ↔ ¬ AtMostLimit (nearLimit more).text) := by
    intro more hmore
    obtain ⟨hcomma, hsemicolon, htrim⟩ := hplain more hmore
    have h := (hexcludes (String.ofList (nearLimit more).text) (by rwa [String.toList_ofList])
      (by rwa [String.toList_ofList])).1
    rw [String.toList_ofList, htrim] at h
    exact h fun n => exponentFits_nearLimit
  refine ⟨hformat, ?limit, ?above, ?thousandth, ?zero⟩
  case limit =>
    refine (hnear 0 (by decide)).1.2 (.inr ⟨nearLimit 0, rfl, ?_⟩)
    rw [value_nearLimit]
    norm_num
  case above =>
    refine (hnear 1 (by decide)).2.2 ?_
    rintro (hword | ⟨n, hn, hvalue⟩)
    · exact absurd hword (by decide +kernel)
    · rw [Numeral.text_injective hn, value_nearLimit] at hvalue
      exact absurd hvalue (by norm_num)
  case thousandth =>
    let n : Numeral := ⟨.plus, [], some [0, 0, 1], none, by decide⟩
    have hpos : 0 < n.value := by
      show (0 : ℚ) < ((1 : ℕ) : ℚ) * 10 ^ (-3 : ℤ)
      norm_num
    exact ((hexcludes " +.001" (by decide) (by decide)).2 n (by decide)).2 rfl (by decide) hpos
  case zero =>
    let n : Numeral :=
      ⟨.minus, [0], some [0, 0, 0], some ⟨false, .absent, List.replicate 8 9, by decide⟩, by decide⟩
    exact ((hexcludes "-0.000e99999999 " (by decide) (by decide)).2 n (by decide)).1
      (n.value_le_zero_iff.2 (.inl rfl))

end Conneg.Accept
