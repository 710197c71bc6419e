import Conneg.Json.Number
import Conneg.Proofs.Number.Digits

/-!
# Numbers are read back as they are spelled

A number has no closing mark: where it ends depends on what follows it. After what
cannot go on with a number (`Ends`), the scan gives the number back that was
printed, provided that it is spelled by the rules (`scan_print`). The printed
parts are taken off one by one, and each ends because the next begins with
a byte that it has no use for.

What is printed of an integer is spelled by the rules and means the integer
(`toInt?_ofInt`), over the whole range of 64 bits, signed or unsigned.
-/

namespace Conneg.Json.Number

/-! ## Digits -/

theorem isDigit_digitByte (d : Digit) : isDigit (digitByte d) = true := by
  revert d
  decide

theorem ofCode?_digitByte (d : Digit) : Digit.ofCode? (digitByte d).toNat = some d := by
  revert d
  decide

theorem toNat_digitByte (d : Digit) : (digitByte d).toNat = 48 + d.val :=
  UInt8.toNat_ofNat_of_lt' (by
    show 48 + d.val < 256
    omega)

theorem digitByte_ne_minus (d : Digit) : digitByte d ≠ 0x2D := by
  intro h
  have hd := toNat_digitByte d
  rw [h] at hd
  have hminus : (0x2D : UInt8).toNat = 45 := rfl
  omega

/-- Whether a byte string begins with no digit. -/
def NoDigit (bs : Bytes) : Prop := ∀ b rest, bs = b :: rest → isDigit b = false

/-- The digits at the front are those that were printed, if no digit follows. -/
theorem digitsAt_append (ds : List Digit) {rest : Bytes} (hrest : NoDigit rest) :
    digitsAt (ds.map digitByte ++ rest) = ds := by
  unfold digitsAt
  induction ds with
  | nil =>
    cases rest with
    | nil => rfl
    | cons b rest => simp [hrest b rest rfl]
  | cons d ds ih =>
    rw [List.map_cons, List.cons_append, List.takeWhile_cons_of_pos (isDigit_digitByte d)]
    simp only [List.filterMap_cons, ofCode?_digitByte, ih]

/-- What follows the digits is what followed them, if it begins with none. -/
theorem afterDigits_append (ds : List Digit) {rest : Bytes} (hrest : NoDigit rest) :
    afterDigits (ds.map digitByte ++ rest) = rest := by
  unfold afterDigits
  induction ds with
  | nil =>
    cases rest with
    | nil => rfl
    | cons b rest => simp [hrest b rest rfl]
  | cons d ds ih =>
    rw [List.map_cons, List.cons_append, List.dropWhile_cons_of_pos (isDigit_digitByte d), ih]

/-! ## Scanning -/

/-- Whether a number is spelled by the rules: it has whole digits, the first of
several not zero, and digits in its exponent, if it has one. -/
structure Spelled (n : Number) : Prop where
  whole : n.whole ≠ []
  leading : ∀ d ds, n.whole = d :: ds → ds ≠ [] → d ≠ 0
  exponent : ∀ negative ds, n.exponent = some (negative, ds) → ds ≠ []

/-- Whether no number goes on with these bytes. -/
def Ends (rest : Bytes) : Prop :=
  ∀ b tail, rest = b :: tail → isDigit b = false ∧ b ≠ 0x2E ∧ b ≠ 0x65 ∧ b ≠ 0x45

theorem ends_nil : Ends [] := fun _ _ h => nomatch h

/-- A byte that is no part of a number ends it. -/
theorem ends_cons {b : UInt8} (tail : Bytes)
    (h : (!isDigit b && b != 0x2E && b != 0x65 && b != 0x45) = true) : Ends (b :: tail) := by
  intro b' tail' heq
  obtain ⟨rfl, rfl⟩ := List.cons.inj heq
  simpa [and_assoc] using h

/-- The text of the fraction, with its point. -/
def fractionText (ds : List Digit) : Bytes :=
  if ds.isEmpty then [] else 0x2E :: ds.map digitByte

/-- The text of the exponent. -/
def exponentText : Option (Bool × List Digit) → Bytes
  | none => []
  | some (negative, ds) => 0x65 :: (if negative then 0x2D else 0x2B) :: ds.map digitByte

/-- A number is printed part by part. -/
theorem print_append (n : Number) (rest : Bytes) :
    n.print ++ rest = (if n.negative then [0x2D] else []) ++
      (n.whole.map digitByte ++ (fractionText n.fraction ++ (exponentText n.exponent ++ rest))) := by
  have hprint : n.print = (if n.negative then [0x2D] else []) ++ n.whole.map digitByte ++
      fractionText n.fraction ++ exponentText n.exponent := by
    unfold print exponentText
    rfl
  simp only [hprint, List.append_assoc]

theorem scanWhole_append {ds : List Digit} (hne : ds ≠ [])
    (hlead : ∀ d ds', ds = d :: ds' → ds' ≠ [] → d ≠ 0) {rest : Bytes} (hrest : NoDigit rest) :
    scanWhole (ds.map digitByte ++ rest) = some (ds, rest) := by
  unfold scanWhole
  rw [digitsAt_append ds hrest, afterDigits_append ds hrest]
  match ds with
  | [] => exact absurd rfl hne
  | [d] => rfl
  | d :: e :: ds => exact if_neg (hlead d (e :: ds) rfl (List.cons_ne_nil e ds))

theorem scanFraction_append (ds : List Digit) {rest : Bytes} (hrest : NoDigit rest)
    (hpoint : ∀ b tail, rest = b :: tail → b ≠ 0x2E) :
    scanFraction (fractionText ds ++ rest) = some (ds, rest) := by
  cases ds with
  | nil =>
    cases rest with
    | nil => rfl
    | cons b tail =>
      show scanFraction (b :: tail) = _
      rw [scanFraction, if_neg (hpoint b tail rfl)]
  | cons d ds =>
    show scanFraction (0x2E :: ((d :: ds).map digitByte ++ rest)) = _
    rw [scanFraction, if_pos rfl, digitsAt_append (d :: ds) hrest,
      afterDigits_append (d :: ds) hrest]

theorem scanExponent_append {e : Option (Bool × List Digit)}
    (he : ∀ negative ds, e = some (negative, ds) → ds ≠ []) {rest : Bytes} (hrest : Ends rest) :
    scanExponent (exponentText e ++ rest) = some (e, rest) := by
  cases e with
  | none =>
    cases rest with
    | nil => rfl
    | cons b tail =>
      obtain ⟨-, -, hlower, hupper⟩ := hrest b tail rfl
      show scanExponent (b :: tail) = _
      rw [scanExponent, if_neg (fun h => h.elim hlower hupper)]
  | some e =>
    obtain ⟨negative, ds⟩ := e
    have hsign : scanSign ((if negative then 0x2D else 0x2B) :: (ds.map digitByte ++ rest))
        = (negative, ds.map digitByte ++ rest) := by
      cases negative <;> rfl
    have hdigit : NoDigit rest := fun b tail h => (hrest b tail h).1
    show scanExponent (0x65 :: (if negative then 0x2D else 0x2B) :: (ds.map digitByte ++ rest)) = _
    rw [scanExponent, if_pos (Or.inl rfl), hsign]
    simp only [digitsAt_append ds hdigit, afterDigits_append ds hdigit]
    cases ds with
    | nil => exact absurd rfl (he negative [] rfl)
    | cons d ds => rfl

/-- A printed number is read back, before what ends it. -/
theorem scan_print {n : Number} (hn : n.Spelled) {rest : Bytes} (hrest : Ends rest) :
    scan (n.print ++ rest) = some (n, rest) := by
  -- what follows the fraction begins with no digit and no point, and what follows the
  -- whole digits with no digit
  have hexponent : ∀ b tail, exponentText n.exponent ++ rest = b :: tail →
      isDigit b = false ∧ b ≠ 0x2E := by
    intro b tail h
    cases he : n.exponent with
    | none =>
      rw [he] at h
      obtain ⟨hdigit, hpoint, -⟩ := hrest b tail h
      exact ⟨hdigit, hpoint⟩
    | some e =>
      rw [he] at h
      obtain ⟨rfl, -⟩ := List.cons.inj h
      exact ⟨rfl, by decide⟩
  have hfraction : NoDigit (fractionText n.fraction ++ (exponentText n.exponent ++ rest)) := by
    intro b tail h
    cases hf : n.fraction with
    | nil =>
      rw [hf] at h
      exact (hexponent b tail h).1
    | cons d ds =>
      rw [hf] at h
      obtain ⟨rfl, -⟩ := List.cons.inj h
      rfl
  have hunsigned : scanUnsigned n.negative (n.whole.map digitByte ++
      (fractionText n.fraction ++ (exponentText n.exponent ++ rest))) = some (n, rest) := by
    unfold scanUnsigned
    rw [scanWhole_append hn.whole hn.leading hfraction]
    simp only [Option.bind_eq_bind, Option.bind_some]
    rw [scanFraction_append n.fraction (fun b tail h => (hexponent b tail h).1)
      (fun b tail h => (hexponent b tail h).2)]
    simp only [Option.bind_some]
    rw [scanExponent_append hn.exponent hrest]
    rfl
  rw [print_append]
  cases hneg : n.negative with
  | true =>
    rw [hneg] at hunsigned
    show scan (0x2D :: _) = _
    rw [scan, if_pos rfl]
    exact hunsigned
  | false =>
    rw [hneg] at hunsigned
    -- the first byte is a digit, and so no sign
    cases hw : n.whole with
    | nil => exact absurd hw hn.whole
    | cons d ds =>
      rw [hw] at hunsigned
      show scan (digitByte d :: _) = _
      rw [scan, if_neg (digitByte_ne_minus d)]
      exact hunsigned

/-! ## Integers -/

/-- An integer is spelled by the rules. -/
theorem spelled_ofInt (n : Int) : (ofInt n).Spelled where
  whole := digitsOf_ne_nil _
  leading := leading_digitsOf _
  exponent := fun _ _ h => nomatch h

/-- The spelling of an integer means it, if it fits 64 bits. -/
theorem toInt?_ofInt {n : Int} (hlow : -2 ^ 63 ≤ n) (hhigh : n < 2 ^ 64) :
    (ofInt n).toInt? = some n := by
  show (if decide (n < 0) = true then
      if 0 < valueOf (digitsOf n.natAbs) ∧ valueOf (digitsOf n.natAbs) ≤ 2 ^ 63
        then some (-(valueOf (digitsOf n.natAbs) : Int)) else none
    else if valueOf (digitsOf n.natAbs) < 2 ^ 64
      then some (valueOf (digitsOf n.natAbs) : Int) else none) = some n
  rw [valueOf_digitsOf]
  by_cases hneg : n < 0
  · rw [if_pos (decide_eq_true hneg), if_pos (by omega)]
    congr 1
    omega
  · rw [if_neg (by simpa using hneg), if_pos (by omega)]
    congr 1
    omega

/-- Every byte of a printed integer is a digit or a minus. -/
theorem mem_print_ofInt {n : Int} {b : UInt8} (hb : b ∈ (ofInt n).print) :
    b = 0x2D ∨ ∃ d, b = digitByte d := by
  have hprint : (ofInt n).print
      = (if decide (n < 0) = true then [0x2D] else []) ++ (digitsOf n.natAbs).map digitByte := by
    simp [print, ofInt]
  rw [hprint, List.mem_append] at hb
  rcases hb with hb | hb
  · split at hb
    · exact .inl (List.mem_singleton.1 hb)
    · exact nomatch hb
  · obtain ⟨d, -, hd⟩ := List.mem_map.1 hb
    exact .inr ⟨d, hd.symm⟩

end Conneg.Json.Number
