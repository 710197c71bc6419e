import Conneg.Proofs.Accept.Case
import Conneg.Proofs.Number.Digits
import Mathlib.Algebra.Order.Field.Power
import Mathlib.Algebra.Order.Field.Rat

/-!
# The numerals among quality values

A numeral is written as an optional sign, digits with an optional point, and an optional
exponent, with at least one digit before or behind the point (`Numeral`). Its parts say what
it is worth, as a rational number (`Numeral.value`), without a word on how it is read.

Reading a quality value gives a numeral exactly for the texts of numerals. That the text of
each is read is shown part by part, for what comes next cannot be taken for more of a part
(`readQuality?_text`), and for the same reason a text is of one numeral only
(`Numeral.text_injective`). The other way round, what a part's reader takes off a text is the
text of such a part (`exists_text_of_readQuality?`).

The reader stops adding up an exponent that has passed 65535. So the exponent that was
written is known to be the one that was read only below that (`ExponentFits`), while sign
and digits always are.
-/

namespace Conneg.Accept

open Text

/-! ## Parts of a numeral -/

/-- The sign in front of a number, if there is one. -/
inductive Sign
  | absent
  | plus
  | minus

namespace Sign

def text : Sign → List Char
  | .absent => []
  | .plus => ['+']
  | .minus => ['-']

def isMinus : Sign → Bool
  | .minus => true
  | _ => false

end Sign

/-- The text of digits. -/
def digitText (ds : List Digit) : List Char := ds.map Digit.toChar

/-- An exponent as it is written: a letter, a sign, and at least one digit. -/
structure Exponent where
  capital : Bool
  sign : Sign
  digits : List Digit
  digits_ne_nil : digits ≠ []

namespace Exponent

def text (x : Exponent) : List Char :=
  (if x.capital then 'E' else 'e') :: (x.sign.text ++ digitText x.digits)

def value (x : Exponent) : Int :=
  if x.sign.isMinus then -(valueOf x.digits : Int) else valueOf x.digits

end Exponent

/-- A number as it is written. Without a point it has no fraction, and with one it may still
have no digits behind it. -/
structure Numeral where
  sign : Sign
  whole : List Digit
  fraction : Option (List Digit)
  exponent : Option Exponent
  digits_ne_nil : whole ++ fraction.getD [] ≠ []

namespace Numeral

def pointText (fraction : Option (List Digit)) : List Char :=
  match fraction with
  | none => []
  | some ds => '.' :: digitText ds

def exponentText (exponent : Option Exponent) : List Char :=
  match exponent with
  | none => []
  | some x => x.text

/-- The numeral without its sign. -/
def unsignedText (n : Numeral) : List Char :=
  digitText n.whole ++ (pointText n.fraction ++ exponentText n.exponent)

def text (n : Numeral) : List Char := n.sign.text ++ n.unsignedText

/-- The number that the digits write when the point is left out. -/
def coefficient (n : Numeral) : Nat := valueOf (n.whole ++ n.fraction.getD [])

/-- The power of ten that the coefficient counts. -/
def scale (n : Numeral) : Int :=
  (match n.exponent with
    | none => 0
    | some x => x.value) - ((n.fraction.getD []).length : Int)

/-- What a numeral is worth without its sign. -/
def magnitude (n : Numeral) : ℚ := n.coefficient * 10 ^ n.scale

/-- What a numeral is worth, exactly. -/
def value (n : Numeral) : ℚ := if n.sign.isMinus then -n.magnitude else n.magnitude

/-- Whether the exponent, if there is one, is below `2^16` in size. -/
def ExponentFits (n : Numeral) : Prop := ∀ x, n.exponent = some x → valueOf x.digits < 2 ^ 16

end Numeral

/-! ## Digits and signs -/

theorem ofChar?_toChar (d : Digit) : Digit.ofChar? d.toChar = some d := by
  have h : ∀ d : Digit, Digit.ofChar? d.toChar = some d := by decide
  exact h d

theorem toChar_of_ofChar? {c : Char} {d : Digit} (h : Digit.ofChar? c = some d) :
    d.toChar = c := by
  unfold Digit.ofChar? Digit.ofCode? at h
  split at h
  · split at h
    · next hlow =>
      obtain rfl := Option.some.inj h
      have hcode : 48 + (c.toNat - 48) = c.toNat := by omega
      rw [Digit.toChar, hcode, Char.ofNat_toNat]
    · cases h
  · cases h

/-- Digits end where something else begins. -/
theorem leadingDigits_append (ds : List Digit) {rest : List Char}
    (h : leadingDigits rest = ([], rest)) : leadingDigits (digitText ds ++ rest) = (ds, rest) := by
  induction ds with
  | nil => exact h
  | cons d ds ih =>
    show leadingDigits (d.toChar :: (digitText ds ++ rest)) = _
    rw [leadingDigits_cons, ofChar?_toChar, ih]

/-- What is taken off a text is digits. -/
theorem digitText_leadingDigits (cs : List Char) :
    digitText (leadingDigits cs).1 ++ (leadingDigits cs).2 = cs := by
  induction cs with
  | nil => rfl
  | cons c cs ih =>
    rw [leadingDigits_cons]
    split
    · rfl
    · next d hd =>
      show d.toChar :: (digitText (leadingDigits cs).1 ++ (leadingDigits cs).2) = c :: cs
      rw [ih, toChar_of_ofChar? hd]

theorem leadingSign_append (s : Sign) {rest : List Char} (h : leadingSign rest = (false, rest)) :
    leadingSign (s.text ++ rest) = (s.isMinus, rest) := by
  cases s with
  | absent => exact h
  | plus | minus => rfl

theorem exists_sign (cs : List Char) :
    ∃ s : Sign, s.text ++ (leadingSign cs).2 = cs ∧ s.isMinus = (leadingSign cs).1 := by
  cases cs with
  | nil => exact ⟨.absent, rfl, rfl⟩
  | cons c cs =>
    rw [leadingSign_cons]
    by_cases hminus : c = '-'
    · rw [if_pos hminus, hminus]
      exact ⟨.minus, rfl, rfl⟩
    · rw [if_neg hminus]
      by_cases hplus : c = '+'
      · rw [if_pos hplus, hplus]
        exact ⟨.plus, rfl, rfl⟩
      · rw [if_neg hplus]
        exact ⟨.absent, rfl, rfl⟩

theorem leadingSign_digit (d : Digit) (cs : List Char) :
    leadingSign (d.toChar :: cs) = (false, d.toChar :: cs) := by
  have hsign : ∀ d : Digit, d.toChar ≠ '-' ∧ d.toChar ≠ '+' := by decide
  rw [leadingSign_cons, if_neg (hsign d).1, if_neg (hsign d).2]

theorem leadingSign_digitText {ds : List Digit} (hds : ds ≠ []) :
    leadingSign (digitText ds) = (false, digitText ds) := by
  obtain ⟨d, ds, rfl⟩ := List.exists_cons_of_ne_nil hds
  exact leadingSign_digit d _

/-! ## Exponents -/

/-- Below `2^16` the digits of an exponent add up to what they write. -/
theorem exponentSize_eq {ds : List Digit} (h : valueOf ds < 2 ^ 16) :
    exponentSize ds = valueOf ds := by
  have hfold : ∀ (ds : List Digit) (n : Nat), ds.foldl (fun n d => n * 10 + d.val) n < 2 ^ 16 →
      ds.foldl (fun n d => if n < 65536 then n * 10 + d.val else n) n
        = ds.foldl (fun n d => n * 10 + d.val) n := by
    intro ds
    induction ds with
    | nil => exact fun _ _ => rfl
    | cons d ds ih =>
      intro n hn
      -- the number only grows, so the limit is not passed on the way
      have hgrows : n ≤ (d :: ds).foldl (fun n d => n * 10 + d.val) n := by
        rw [foldl_digits]
        exact Nat.le_add_right_of_le (Nat.le_mul_of_pos_right n (Nat.pow_pos (by decide)))
      have hlow : n < 65536 := Nat.lt_of_le_of_lt hgrows hn
      rw [List.foldl_cons, List.foldl_cons, if_pos hlow]
      exact ih _ hn
  exact hfold ds 0 h

theorem leadingDigits_digitText (ds : List Digit) : leadingDigits (digitText ds) = (ds, []) := by
  have hnil : leadingDigits (digitText ds ++ []) = (ds, []) := leadingDigits_append ds rfl
  rwa [List.append_nil] at hnil

/-- The exponent of a numeral is read from its text. -/
theorem readExponent?_text (exponent : Option Exponent) :
    ∃ e, readExponent? (Numeral.exponentText exponent) = some e ∧
      ((∀ x, exponent = some x → valueOf x.digits < 2 ^ 16) →
        e = match exponent with
          | none => 0
          | some x => x.value) := by
  cases exponent with
  | none => exact ⟨0, rfl, fun _ => rfl⟩
  | some x =>
    obtain ⟨capital, sign, digits, hdigits⟩ := x
    obtain ⟨d, ds, rfl⟩ := List.exists_cons_of_ne_nil hdigits
    have hletter : (if capital then 'E' else 'e') = 'e' ∨ (if capital then 'E' else 'e') = 'E' := by
      cases capital
      · exact .inl rfl
      · exact .inr rfl
    have hsign := leadingSign_append sign (leadingSign_digitText hdigits)
    refine ⟨if sign.isMinus then -(exponentSize (d :: ds) : Int) else exponentSize (d :: ds),
      ?_, fun hfits => ?_⟩
    · show readExponent? ((if capital then 'E' else 'e') ::
        (sign.text ++ digitText (d :: ds))) = _
      rw [readExponent?, if_pos hletter, hsign]
      simp only [leadingDigits_digitText]
    · rw [exponentSize_eq (hfits _ rfl)]
      rfl

/-- What is read as an exponent is one. -/
theorem exists_exponentText {cs : List Char} {e : Int} (h : readExponent? cs = some e) :
    ∃ exponent, Numeral.exponentText exponent = cs := by
  cases cs with
  | nil => exact ⟨none, rfl⟩
  | cons c cs =>
    simp only [readExponent?] at h
    split at h
    · next hletter =>
      obtain ⟨sign, hsign, -⟩ := exists_sign cs
      have hdigits := digitText_leadingDigits (leadingSign cs).2
      split at h
      · cases h
      · next ds hne hread =>
        rw [hread, List.append_nil] at hdigits
        refine ⟨some ⟨c == 'E', sign, ds, hne⟩, ?_⟩
        have hc : (if c == 'E' then 'E' else 'e') = c := by
          rcases hletter with rfl | rfl <;> rfl
        show (if c == 'E' then 'E' else 'e') :: (sign.text ++ digitText ds) = c :: cs
        rw [hc, hdigits, hsign]
      · cases h
    · cases h

/-! ## Numerals -/

theorem isEmpty_and_isEmpty {ds es : List Digit} :
    (ds.isEmpty && es.isEmpty) = true ↔ ds ++ es = [] := by
  rw [Bool.and_eq_true, List.isEmpty_iff, List.isEmpty_iff, List.append_eq_nil_iff]

/-- No exponent begins with a digit. -/
theorem leadingDigits_exponentText (exponent : Option Exponent) :
    leadingDigits (Numeral.exponentText exponent) = ([], Numeral.exponentText exponent) := by
  cases exponent with
  | none => rfl
  | some x =>
    obtain ⟨capital, sign, digits, hdigits⟩ := x
    cases capital <;> rfl

theorem leadingDigits_pointText (fraction : Option (List Digit)) (exponent : Option Exponent) :
    leadingDigits (Numeral.pointText fraction ++ Numeral.exponentText exponent)
      = ([], Numeral.pointText fraction ++ Numeral.exponentText exponent) := by
  cases fraction with
  | none => exact leadingDigits_exponentText exponent
  | some ds => rfl

theorem fractionDigits_pointText (fraction : Option (List Digit)) (exponent : Option Exponent) :
    fractionDigits (Numeral.pointText fraction ++ Numeral.exponentText exponent)
      = (fraction.getD [], Numeral.exponentText exponent) := by
  cases fraction with
  | some ds => exact leadingDigits_append ds (leadingDigits_exponentText exponent)
  | none =>
    cases exponent with
    | none => rfl
    | some x =>
      obtain ⟨capital, sign, digits, hdigits⟩ := x
      cases capital <;> rfl

theorem exists_pointText (cs : List Char) :
    ∃ fraction, Numeral.pointText fraction ++ (fractionDigits cs).2 = cs ∧
      fraction.getD [] = (fractionDigits cs).1 := by
  cases cs with
  | nil => exact ⟨none, rfl, rfl⟩
  | cons c cs =>
    rw [fractionDigits_cons]
    by_cases hpoint : c = '.'
    · rw [if_pos hpoint]
      refine ⟨some (leadingDigits cs).1, ?_, rfl⟩
      show '.' :: (digitText (leadingDigits cs).1 ++ (leadingDigits cs).2) = c :: cs
      rw [digitText_leadingDigits, hpoint]
    · rw [if_neg hpoint]
      exact ⟨none, rfl, rfl⟩

namespace Numeral

/-- A numeral without its sign begins with a digit or the point. -/
theorem leadingSign_unsignedText (n : Numeral) :
    leadingSign n.unsignedText = (false, n.unsignedText) := by
  obtain ⟨sign, whole, fraction, exponent, hdigits⟩ := n
  cases whole with
  | cons d ds => exact leadingSign_digit d _
  | nil =>
    cases fraction with
    | some ds => rfl
    | none => exact absurd rfl hdigits

theorem readNumeral?_unsignedText (n : Numeral) :
    ∃ e, readNumeral? n.unsignedText = some (n.coefficient, e) ∧ (n.ExponentFits → e = n.scale) := by
  obtain ⟨e, he, hfits⟩ := readExponent?_text n.exponent
  have hdigits := mt isEmpty_and_isEmpty.1 n.digits_ne_nil
  refine ⟨e - (n.fraction.getD []).length, ?_, fun h => ?_⟩
  · rw [readNumeral?_eq, unsignedText, leadingDigits_append _ (leadingDigits_pointText _ _)]
    simp only [fractionDigits_pointText, if_neg hdigits, he]
    rfl
  · rw [scale, hfits h]

end Numeral

/-- The text of a numeral is read as its sign and its digits, and as its exponent if that is
not too large. -/
theorem readQuality?_text (n : Numeral) :
    ∃ e, readQuality? n.text = some (.numeral n.sign.isMinus n.coefficient e) ∧
      (n.ExponentFits → e = n.scale) := by
  obtain ⟨e, he, hfits⟩ := n.readNumeral?_unsignedText
  refine ⟨e, ?_, hfits⟩
  rw [readQuality?, Numeral.text, leadingSign_append _ n.leadingSign_unsignedText]
  simp only [he]

/-! ## One numeral for each text -/

theorem sign_append_inj {s s' : Sign} {cs ds : List Char} (hcs : leadingSign cs = (false, cs))
    (hds : leadingSign ds = (false, ds)) (h : s.text ++ cs = s'.text ++ ds) : s = s' ∧ cs = ds := by
  have hread := leadingSign_append s hcs
  rw [h, leadingSign_append s' hds] at hread
  obtain ⟨-, rfl⟩ := Prod.mk.inj hread
  have htext := List.append_cancel_right h
  refine ⟨?_, rfl⟩
  cases s <;> cases s' <;> first | rfl | exact absurd htext (by decide)

theorem digitText_append_inj {ds es : List Digit} {cs cs' : List Char}
    (hcs : leadingDigits cs = ([], cs)) (hcs' : leadingDigits cs' = ([], cs'))
    (h : digitText ds ++ cs = digitText es ++ cs') : ds = es ∧ cs = cs' := by
  have hread := leadingDigits_append ds hcs
  rw [h, leadingDigits_append es hcs'] at hread
  obtain ⟨rfl, rfl⟩ := Prod.mk.inj hread
  exact ⟨rfl, rfl⟩

theorem Exponent.text_injective {x x' : Exponent} (h : x.text = x'.text) : x = x' := by
  obtain ⟨capital, sign, digits, hdigits⟩ := x
  obtain ⟨capital', sign', digits', hdigits'⟩ := x'
  obtain ⟨hletter, hrest⟩ := List.cons.inj h
  obtain ⟨rfl, htext⟩ :=
    sign_append_inj (leadingSign_digitText hdigits) (leadingSign_digitText hdigits') hrest
  have hdigitText : digitText digits ++ [] = digitText digits' ++ [] := by rw [htext]
  obtain ⟨rfl, -⟩ := digitText_append_inj rfl rfl hdigitText
  have hcapital : capital = capital' := by
    cases capital <;> cases capital' <;> first | rfl | exact absurd hletter (by simp)
  rw [hcapital]

/-- The point and what follows it are as they are written. -/
theorem pointText_append_inj {fraction fraction' : Option (List Digit)}
    {exponent exponent' : Option Exponent}
    (h : Numeral.pointText fraction ++ Numeral.exponentText exponent
      = Numeral.pointText fraction' ++ Numeral.exponentText exponent') :
    fraction = fraction' ∧ Numeral.exponentText exponent = Numeral.exponentText exponent' := by
  -- no exponent begins with a point
  have hpoint : ∀ (x : Option Exponent) (cs : List Char), Numeral.exponentText x ≠ '.' :: cs := by
    intro x cs hcs
    cases x with
    | none => cases hcs
    | some x =>
      obtain ⟨hletter, -⟩ := List.cons.inj hcs
      cases hcapital : x.capital <;> rw [hcapital] at hletter <;> exact absurd hletter (by decide)
  cases fraction with
  | none =>
    cases fraction' with
    | none => exact ⟨rfl, h⟩
    | some ds => exact absurd h (hpoint exponent _)
  | some ds =>
    cases fraction' with
    | none => exact absurd h.symm (hpoint exponent' _)
    | some es =>
      obtain ⟨rfl, htext⟩ := digitText_append_inj (leadingDigits_exponentText exponent)
        (leadingDigits_exponentText exponent') (List.cons.inj h).2
      exact ⟨rfl, htext⟩

theorem Numeral.exponentText_injective {exponent exponent' : Option Exponent}
    (h : exponentText exponent = exponentText exponent') : exponent = exponent' := by
  cases exponent with
  | none =>
    cases exponent' with
    | none => rfl
    | some x => cases h
  | some x =>
    cases exponent' with
    | none => cases h
    | some x' => rw [Exponent.text_injective h]

/-- A text is of one numeral at most, so what it is worth is well defined. -/
theorem Numeral.text_injective {n n' : Numeral} (h : n.text = n'.text) : n = n' := by
  obtain ⟨hsign, hunsigned⟩ :=
    sign_append_inj n.leadingSign_unsignedText n'.leadingSign_unsignedText h
  obtain ⟨hwhole, hrest⟩ := digitText_append_inj (leadingDigits_pointText _ _)
    (leadingDigits_pointText _ _) hunsigned
  obtain ⟨hfraction, htext⟩ := pointText_append_inj hrest
  have hexponent := Numeral.exponentText_injective htext
  obtain ⟨sign, whole, fraction, exponent, hdigits⟩ := n
  subst hsign hwhole hfraction hexponent
  rfl

/-! ## What is read as a numeral -/

theorem exists_text_of_readNumeral? {cs : List Char} {c : Nat} {e : Int}
    (h : readNumeral? cs = some (c, e)) (sign : Sign) :
    ∃ n : Numeral, n.sign = sign ∧ n.unsignedText = cs := by
  rw [readNumeral?_eq] at h
  simp only at h
  split at h
  · cases h
  · next hdigits =>
    obtain ⟨x, hx, -⟩ := Option.bind_eq_some_iff.1 h
    obtain ⟨exponent, hexponent⟩ := exists_exponentText hx
    obtain ⟨fraction, hpoint, hfraction⟩ := exists_pointText (leadingDigits cs).2
    have hne : (leadingDigits cs).1 ++ fraction.getD [] ≠ [] := by
      rw [hfraction]
      exact mt isEmpty_and_isEmpty.2 hdigits
    refine ⟨⟨sign, (leadingDigits cs).1, fraction, exponent, hne⟩, rfl, ?_⟩
    show digitText (leadingDigits cs).1 ++ (Numeral.pointText fraction ++
      Numeral.exponentText exponent) = cs
    rw [hexponent, hpoint, digitText_leadingDigits]

/-- What is read as a numeral is the text of one. -/
theorem exists_text_of_readQuality? {cs : List Char} {negative : Bool} {c : Nat} {e : Int}
    (h : readQuality? cs = some (.numeral negative c e)) : ∃ n : Numeral, n.text = cs := by
  obtain ⟨sign, hsign, -⟩ := exists_sign cs
  simp only [readQuality?] at h
  split at h
  · next hread =>
    obtain ⟨n, hn, htext⟩ := exists_text_of_readNumeral? hread sign
    exact ⟨n, by rw [Numeral.text, htext, hn, hsign]⟩
  · split at h
    · cases h
    · split at h <;> cases h

end Conneg.Accept
