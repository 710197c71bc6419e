import Conneg.Text.Utf8

/-!
# UTF-8 is read back

The scan of `Utf8.pieces` carries the character begun and the pieces found. Its
invariant on well-formed text is short: between two characters, the bytes of a
character leave nothing pending and add that character (`foldl_encodeChar`). So
the pieces of an encoded text are its characters (`pieces_encode`), and both the strict
and the lenient reading give the text back (`decode?_encode`, `decodeLossy_encode`).

What a text is encoded to has no zero byte unless the text has one
(`zero_notMem_encode`): beyond ASCII every byte of a character is at least `0x80`.
-/

namespace Conneg.Utf8

theorem toNat_ofNat {n : Nat} (h : n.isValidChar) : (Char.ofNat n).toNat = n := by
  rw [Char.ofNat, dif_pos h]
  rfl

theorem isValidChar_toNat (c : Char) : c.toNat < 0xD800 ∨ 0xDFFF < c.toNat ∧ c.toNat < 0x110000 :=
  c.valid

theorem toNat_byte {n : Nat} (h : n < 256) : (UInt8.ofNat n).toNat = n :=
  UInt8.toNat_ofNat_of_lt' h

/-- The bytes of ASCII stand for themselves. -/
theorem lead_ascii {n : Nat} (h : n ≤ 0x7F) : lead (UInt8.ofNat n) = .whole (Char.ofNat n) := by
  have hn : (UInt8.ofNat n).toNat = n := toNat_byte (by omega)
  have hle : UInt8.ofNat n ≤ 0x7F := by rw [UInt8.le_iff_toNat_le, hn]; exact h
  rw [lead, if_pos hle, hn]

/-- A byte that opens a character of two bytes. -/
theorem lead_two {n : Nat} (hlow : 0xC2 ≤ n) (hhigh : n ≤ 0xDF) :
    lead (UInt8.ofNat n) = .opens ⟨0, 0x80, 0xBF, n - 0xC0⟩ := by
  have hn : (UInt8.ofNat n).toNat = n := toNat_byte (by omega)
  have h1 : ¬ UInt8.ofNat n ≤ 0x7F := by rw [UInt8.le_iff_toNat_le, hn]; show ¬ n ≤ 127; omega
  have h2 : ¬ UInt8.ofNat n < 0xC2 := by rw [UInt8.lt_iff_toNat_lt, hn]; show ¬ n < 194; omega
  have h3 : UInt8.ofNat n ≤ 0xDF := by rw [UInt8.le_iff_toNat_le, hn]; exact hhigh
  rw [lead, if_neg h1, if_neg h2, if_pos h3, hn]

/-- A byte that opens a character of three bytes; after E0 and ED the next byte
has a narrower range. -/
theorem lead_three {n : Nat} (hlow : 0xE0 ≤ n) (hhigh : n ≤ 0xEF) :
    lead (UInt8.ofNat n) = .opens ⟨1, if n = 0xE0 then 0xA0 else 0x80,
      if n = 0xED then 0x9F else 0xBF, n - 0xE0⟩ := by
  have hn : (UInt8.ofNat n).toNat = n := toNat_byte (by omega)
  have h1 : ¬ UInt8.ofNat n ≤ 0x7F := by rw [UInt8.le_iff_toNat_le, hn]; show ¬ n ≤ 127; omega
  have h2 : ¬ UInt8.ofNat n < 0xC2 := by rw [UInt8.lt_iff_toNat_lt, hn]; show ¬ n < 194; omega
  have h3 : ¬ UInt8.ofNat n ≤ 0xDF := by rw [UInt8.le_iff_toNat_le, hn]; show ¬ n ≤ 223; omega
  have h4 : UInt8.ofNat n ≤ 0xEF := by rw [UInt8.le_iff_toNat_le, hn]; exact hhigh
  rw [lead, if_neg h1, if_neg h2, if_neg h3]
  by_cases hE0 : n = 0xE0
  · subst hE0; rfl
  by_cases hED : n = 0xED
  · subst hED; rfl
  have h5 : UInt8.ofNat n ≠ 0xE0 := fun h => hE0 (by rw [← hn, h]; rfl)
  have h6 : UInt8.ofNat n ≠ 0xED := fun h => hED (by rw [← hn, h]; rfl)
  rw [if_neg h5, if_neg h6, if_pos h4, if_neg hE0, if_neg hED, hn]

/-- A byte that opens a character of four bytes; after F0 and F4 the next byte
has a narrower range. -/
theorem lead_four {n : Nat} (hlow : 0xF0 ≤ n) (hhigh : n ≤ 0xF4) :
    lead (UInt8.ofNat n) = .opens ⟨2, if n = 0xF0 then 0x90 else 0x80,
      if n = 0xF4 then 0x8F else 0xBF, n - 0xF0⟩ := by
  obtain rfl | rfl | rfl | rfl | rfl :
      n = 0xF0 ∨ n = 0xF1 ∨ n = 0xF2 ∨ n = 0xF3 ∨ n = 0xF4 := by omega
  all_goals rfl

/-- A byte in the range that a pending character allows next is taken into it. -/
theorem step_pending {p : Pending} {found : List (Option Char)} {n : Nat} (hn : n < 256)
    (hlow : p.low.toNat ≤ n) (hhigh : n ≤ p.high.toNat) :
    step ⟨some p, found⟩ (UInt8.ofNat n)
      = match p.owed with
        | 0 => ⟨none, some (Char.ofNat (p.value * 64 + (n - 0x80))) :: found⟩
        | owed + 1 => ⟨some ⟨owed, 0x80, 0xBF, p.value * 64 + (n - 0x80)⟩, found⟩ := by
  have hval : (UInt8.ofNat n).toNat = n := toNat_byte hn
  have h1 : p.low ≤ UInt8.ofNat n := by rw [UInt8.le_iff_toNat_le, hval]; exact hlow
  have h2 : UInt8.ofNat n ≤ p.high := by rw [UInt8.le_iff_toNat_le, hval]; exact hhigh
  cases howed : p.owed <;>
    simp only [step, h1, h2, decide_true, Bool.and_self, if_true, hval, howed]

/-- From between two characters, the bytes of a character add it and leave
nothing pending. -/
theorem foldl_encodeChar (c : Char) (found : List (Option Char)) :
    (String.utf8EncodeChar c).foldl step ⟨none, found⟩ = ⟨none, some c :: found⟩ := by
  have hvalid := isValidChar_toNat c
  have hc : Char.ofNat c.toNat = c := Char.ofNat_toNat c
  have hv : c.val.toNat = c.toNat := rfl
  generalize hn : c.toNat = n at hvalid hc hv
  rw [String.utf8EncodeChar]
  simp only [hv]
  split
  · next h1 =>
    simp only [List.foldl_cons, List.foldl_nil, step, begin, lead_ascii h1, hc]
  split
  · next h1 h2 =>
    have hlead := lead_two (n := n / 64 % 32 + 192) (by omega) (by omega)
    simp only [List.foldl_cons, List.foldl_nil]
    rw [show step ⟨none, found⟩ (UInt8.ofNat (n / 64 % 32 + 192))
      = ⟨some ⟨0, 0x80, 0xBF, n / 64 % 32 + 192 - 0xC0⟩, found⟩ by simp only [step, begin, hlead]]
    rw [step_pending (by omega) (by show 128 ≤ _; omega) (by show _ ≤ 191; omega)]
    simp only
    rw [show (n / 64 % 32 + 192 - 192) * 64 + (n % 64 + 128 - 128) = n by omega, hc]
  split
  · next h1 h2 h3 =>
    have hlead := lead_three (n := n / 4096 % 16 + 224) (by omega) (by omega)
    simp only [List.foldl_cons, List.foldl_nil]
    rw [show step ⟨none, found⟩ (UInt8.ofNat (n / 4096 % 16 + 224))
      = ⟨some ⟨1, if n / 4096 % 16 + 224 = 0xE0 then 0xA0 else 0x80,
          if n / 4096 % 16 + 224 = 0xED then 0x9F else 0xBF, n / 4096 % 16 + 224 - 0xE0⟩, found⟩ by
      simp only [step, begin, hlead]]
    rw [step_pending (by omega)
      (by dsimp only
          split
          · show 160 ≤ _; omega
          · show 128 ≤ _; omega)
      (by dsimp only
          split
          · show _ ≤ 159; omega
          · show _ ≤ 191; omega)]
    simp only
    rw [step_pending (by omega) (by show 128 ≤ _; omega) (by show _ ≤ 191; omega)]
    simp only
    rw [show ((n / 4096 % 16 + 224 - 224) * 64 + (n / 64 % 64 + 128 - 128)) * 64
      + (n % 64 + 128 - 128) = n by omega, hc]
  · next h1 h2 h3 =>
    have hlead := lead_four (n := n / 262144 % 8 + 240) (by omega) (by omega)
    simp only [List.foldl_cons, List.foldl_nil]
    rw [show step ⟨none, found⟩ (UInt8.ofNat (n / 262144 % 8 + 240))
      = ⟨some ⟨2, if n / 262144 % 8 + 240 = 0xF0 then 0x90 else 0x80,
          if n / 262144 % 8 + 240 = 0xF4 then 0x8F else 0xBF, n / 262144 % 8 + 240 - 0xF0⟩,
          found⟩ by
      simp only [step, begin, hlead]]
    rw [step_pending (by omega)
      (by dsimp only
          split
          · show 144 ≤ _; omega
          · show 128 ≤ _; omega)
      (by dsimp only
          split
          · show _ ≤ 143; omega
          · show _ ≤ 191; omega)]
    simp only
    rw [step_pending (by omega) (by show 128 ≤ _; omega) (by show _ ≤ 191; omega)]
    simp only
    rw [step_pending (by omega) (by show 128 ≤ _; omega) (by show _ ≤ 191; omega)]
    simp only
    rw [show (((n / 262144 % 8 + 240 - 240) * 64 + (n / 4096 % 64 + 128 - 128)) * 64
      + (n / 64 % 64 + 128 - 128)) * 64 + (n % 64 + 128 - 128) = n by omega, hc]

/-- From between two characters, the bytes of a text add its characters. -/
theorem foldl_encodeChars (cs : List Char) (found : List (Option Char)) :
    (cs.flatMap String.utf8EncodeChar).foldl step ⟨none, found⟩
      = ⟨none, (cs.map some).reverse ++ found⟩ := by
  induction cs generalizing found with
  | nil => rfl
  | cons c cs ih =>
    rw [List.flatMap_cons, List.foldl_append, foldl_encodeChar, ih]
    simp

/-- The pieces of an encoded text are its characters. -/
theorem pieces_encode (s : String) : pieces (encode s) = s.toList.map some := by
  simp [pieces, encode, foldl_encodeChars]

/-- An encoded text is read back. -/
theorem decode?_encode (s : String) : decode? (encode s) = some s := by
  have hid : ∀ cs : List Char, (cs.map some).mapM (id : Option Char → Option Char) = some cs := by
    intro cs
    induction cs with
    | nil => rfl
    | cons c cs ih => simp [List.mapM_cons, ih]
  rw [decode?, pieces_encode, hid, Option.map_some, String.ofList_toList]

theorem decodeLossy_encode (s : String) : decodeLossy (encode s) = s := by
  have hget : (fun p : Option Char => p.getD '\ufffd') ∘ some = id := rfl
  rw [decodeLossy, pieces_encode, List.map_map, hget, List.map_id, String.ofList_toList]

/-! ## The bytes of a character -/

/-- A character at or above `0x80` has only bytes at or above `0x80`. -/
theorem le_of_mem_encodeChar {c : Char} (hc : 0x80 ≤ c.toNat) {b : UInt8}
    (hb : b ∈ String.utf8EncodeChar c) : 0x80 ≤ b.toNat := by
  have hvalid := isValidChar_toNat c
  have hv : c.val.toNat = c.toNat := rfl
  have hbyte : ∀ n, 0x80 ≤ n → n < 256 → 0x80 ≤ (UInt8.ofNat n).toNat := by
    intro n hlow hhigh
    rw [toNat_byte hhigh]
    exact hlow
  rw [String.utf8EncodeChar] at hb
  simp only [hv] at hb
  split at hb
  · omega
  split at hb
  · simp only [List.mem_cons, List.not_mem_nil, or_false] at hb
    rcases hb with rfl | rfl <;> exact hbyte _ (by omega) (by omega)
  split at hb
  · simp only [List.mem_cons, List.not_mem_nil, or_false] at hb
    rcases hb with rfl | rfl | rfl <;> exact hbyte _ (by omega) (by omega)
  · simp only [List.mem_cons, List.not_mem_nil, or_false] at hb
    rcases hb with rfl | rfl | rfl | rfl <;> exact hbyte _ (by omega) (by omega)

theorem encodeChar_ascii {c : Char} (hc : c.toNat < 0x80) :
    String.utf8EncodeChar c = [UInt8.ofNat c.toNat] := by
  have hv : c.val.toNat = c.toNat := rfl
  rw [String.utf8EncodeChar]
  simp only [hv]
  rw [if_pos (by omega)]

/-- Only NUL is written with a zero byte. -/
theorem zero_notMem_encode {s : String} (hs : '\x00' ∉ s.toList) : 0 ∉ encode s := by
  intro hzero
  obtain ⟨c, hc, hb⟩ := List.mem_flatMap.1 hzero
  by_cases hascii : c.toNat < 0x80
  · rw [encodeChar_ascii hascii] at hb
    have hbyte := congrArg UInt8.toNat (List.mem_singleton.1 hb)
    rw [toNat_byte (by omega)] at hbyte
    have hnul : c = '\x00' := Char.toNat_inj.1 hbyte.symm
    exact hs (hnul ▸ hc)
  · have hhigh := le_of_mem_encodeChar (by omega) hb
    exact absurd hhigh (by decide)

end Conneg.Utf8
