import Conneg.Number.Natural

/-!
# Byte strings and the two byte orders

A body is a `Bytes`, a list of octets, so that a reader takes a byte from the
front and hands on the rest. Fixed-width numbers are written in one of two
orders; `ofNatLE` and `ofNatBE` write them, `toNatLE` and `toNatBE` read them
back, and `signed` reads the same bits as a two's complement number.
-/

namespace Conneg

/-- A byte string. -/
abbrev Bytes := List UInt8

namespace Bytes

/-- The number a byte string writes, least significant byte first. -/
def toNatLE (bs : Bytes) : Nat :=
  bs.foldr (fun b n => b.toNat + 256 * n) 0

/-- The number a byte string writes, most significant byte first. -/
def toNatBE (bs : Bytes) : Nat :=
  bs.foldl (fun n b => n * 256 + b.toNat) 0

/-- The last `width` base-256 digits of `n`, least significant first. -/
def ofNatLE : Nat → Nat → Bytes
  | 0, _ => []
  | width + 1, n => UInt8.ofNat (n % 256) :: ofNatLE width (n / 256)

/-- The last `width` base-256 digits of `n`, most significant first. -/
def ofNatBE (width n : Nat) : Bytes := (ofNatLE width n).reverse

theorem length_ofNatLE (width n : Nat) : (ofNatLE width n).length = width := by
  induction width generalizing n with
  | zero => rfl
  | succ w ih => simp [ofNatLE, ih]

theorem length_ofNatBE (width n : Nat) : (ofNatBE width n).length = width := by
  rw [ofNatBE, List.length_reverse, length_ofNatLE]

/-- The two's complement reading of a `width`-byte number: its upper half
stands for the negative numbers. -/
def signed (width n : Nat) : Int :=
  if n < Nat.pow 2 (8 * width - 1) then n else (n : Int) - Nat.pow 2 (8 * width)

/-- The `width`-byte two's complement pattern of `n`, as a natural number. -/
def pattern (width : Nat) (n : Int) : Nat := (n % Nat.pow 2 (8 * width)).toNat

/-- The first `n` bytes and the rest, if there are that many. -/
def split? (n : Nat) (bs : Bytes) : Option (Bytes × Bytes) :=
  let front := bs.take n
  if front.length = n then some (front, bs.drop n) else none

/-- A split loses nothing, and its front has the length asked for. -/
theorem split?_eq_some {n : Nat} {bs front rest : Bytes} (h : split? n bs = some (front, rest)) :
    front.length = n ∧ bs = front ++ rest := by
  simp only [split?] at h
  split at h
  · next hl =>
    simp only [Option.some.injEq, Prod.mk.injEq] at h
    obtain ⟨rfl, rfl⟩ := h
    exact ⟨hl, (List.take_append_drop n bs).symm⟩
  · simp at h

/-- A string of exactly `n` bytes splits off in front of any rest. -/
theorem split?_append (front rest : Bytes) :
    split? front.length (front ++ rest) = some (front, rest) := by
  simp [split?]

end Bytes
end Conneg
