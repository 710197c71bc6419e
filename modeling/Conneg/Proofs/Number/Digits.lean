import Conneg.Number.Natural

/-!
# How digits add up

What digits are worth behind other digits, how large a number with so many digits can
be, and how many digits a number has.
-/

namespace Conneg

/-- Digits that go on with a number. -/
theorem foldl_digits (ds : List Digit) (n : Nat) :
    ds.foldl (fun n d => n * 10 + d.val) n = n * Nat.pow 10 ds.length + valueOf ds := by
  induction ds generalizing n with
  | nil => exact (Nat.mul_one n).symm
  | cons d ds ih =>
    have hpow : Nat.pow 10 (ds.length + 1) = 10 * Nat.pow 10 ds.length := Nat.mul_comm _ _
    have hvalue : valueOf (d :: ds) = (0 * 10 + d.val) * Nat.pow 10 ds.length + valueOf ds := ih _
    rw [List.foldl_cons, ih, hvalue, List.length_cons, hpow, Nat.add_mul, Nat.add_mul,
      Nat.mul_assoc]
    omega

theorem valueOf_cons (d : Digit) (ds : List Digit) :
    valueOf (d :: ds) = d.val * Nat.pow 10 ds.length + valueOf ds := by
  have h : valueOf (d :: ds) = (0 * 10 + d.val) * Nat.pow 10 ds.length + valueOf ds :=
    foldl_digits ds _
  rwa [Nat.zero_mul, Nat.zero_add] at h

theorem valueOf_append (ds es : List Digit) :
    valueOf (ds ++ es) = valueOf ds * Nat.pow 10 es.length + valueOf es := by
  rw [valueOf, List.foldl_append]
  exact foldl_digits es (valueOf ds)

theorem valueOf_zeros (n : Nat) : valueOf (List.replicate n 0) = 0 := by
  induction n with
  | zero => rfl
  | succ n ih =>
    rw [List.replicate_succ, valueOf_cons, ih]
    exact Nat.zero_mul _

theorem valueOf_lt (ds : List Digit) : valueOf ds < Nat.pow 10 ds.length := by
  induction ds with
  | nil => exact Nat.zero_lt_one
  | cons d ds ih =>
    have hpow : Nat.pow 10 (ds.length + 1) = 10 * Nat.pow 10 ds.length := Nat.mul_comm _ _
    have hd := Nat.mul_le_mul_right (Nat.pow 10 ds.length) (Nat.le_of_lt_succ d.isLt)
    rw [valueOf_cons, List.length_cons, hpow]
    omega

/-- A number below a power of ten has at most so many digits. -/
theorem length_digitsOf_le {n k : Nat} (hk : 0 < k) (hn : n < Nat.pow 10 k) :
    (digitsOf n).length ≤ k := by
  induction k generalizing n with
  | zero => exact absurd hk (Nat.lt_irrefl 0)
  | succ k ih =>
    unfold digitsOf
    split
    · exact Nat.succ_le_succ (Nat.zero_le k)
    · next hlow =>
      have hpow : Nat.pow 10 (k + 1) = Nat.pow 10 k * 10 := rfl
      have hpos : 0 < k := Nat.pos_of_ne_zero fun hzero => by
        rw [hzero] at hn
        have hten : Nat.pow 10 (0 + 1) = 10 := rfl
        omega
      have htenth := ih (n := n / 10) hpos (by omega)
      rw [List.length_append, List.length_singleton]
      omega

/-- A number of several digits begins with no zero. -/
theorem leading_digitsOf (n : Nat) (d : Digit) (ds : List Digit) (h : digitsOf n = d :: ds)
    (hds : ds ≠ []) : d ≠ 0 := by
  induction n using Nat.strongRecOn generalizing d ds with
  | ind n ih =>
    unfold digitsOf at h
    split at h
    · obtain ⟨-, rfl⟩ := List.cons.inj h
      exact absurd rfl hds
    · next hlow =>
      -- the first digit is that of the tenth part, which is no zero either
      cases hq : digitsOf (n / 10) with
      | nil => exact absurd hq (digitsOf_ne_nil _)
      | cons e es =>
        rw [hq, List.cons_append] at h
        obtain ⟨rfl, -⟩ := List.cons.inj h
        by_cases hes : es = []
        · have hvalue := valueOf_digitsOf (n / 10)
          rw [hq, hes] at hvalue
          intro he
          rw [he] at hvalue
          have hzero : valueOf [0] = 0 := rfl
          omega
        · exact ih (n / 10) (by omega) e es hq hes

/-- A number other than zero begins with no zero. -/
theorem first_digitsOf {n : Nat} (hn : 0 < n) {d : Digit} {ds : List Digit}
    (h : digitsOf n = d :: ds) : d ≠ 0 := by
  by_cases hds : ds = []
  · rintro rfl
    have hvalue := valueOf_digitsOf n
    rw [h, hds] at hvalue
    have hzero : valueOf [0] = 0 := rfl
    omega
  · exact leading_digitsOf n d ds h hds

end Conneg
