import Conneg.Proofs.Text.Utf8

/-!
# What is decoded is what was encoded

A text that the strict reading gives for some bytes is encoded to these bytes again
(`encode_of_decode?`): no text has two spellings. A scan has taken the bytes of the
characters found, and of the character begun as many as it has collected the bits of
(`Begun`). Each byte that continues the character gives the bytes of a longer beginning,
and the last one those of the whole character (`Begun.continues`). The narrowed ranges
of the second byte are what rules out the overlong forms and the surrogates.
-/

namespace Conneg.Utf8

/-! ## The bytes of a character, by its number -/

theorem encodeChar_two {n : Nat} (hlow : 0x80 ≤ n) (hhigh : n < 0x800) :
    String.utf8EncodeChar (Char.ofNat n)
      = [UInt8.ofNat (n / 64 + 0xC0), UInt8.ofNat (n % 64 + 0x80)] := by
  have hv : (Char.ofNat n).val.toNat = n := toNat_ofNat (.inl (by omega))
  rw [String.utf8EncodeChar]
  simp only [hv]
  rw [if_neg (by omega), if_pos (by omega), show n / 64 % 32 = n / 64 by omega]

theorem encodeChar_three {n : Nat} (hlow : 0x800 ≤ n) (hhigh : n < 0x10000)
    (hvalid : n < 0xD800 ∨ 0xDFFF < n) :
    String.utf8EncodeChar (Char.ofNat n)
      = [UInt8.ofNat (n / 4096 + 0xE0), UInt8.ofNat (n / 64 % 64 + 0x80),
        UInt8.ofNat (n % 64 + 0x80)] := by
  have hv : (Char.ofNat n).val.toNat = n :=
    toNat_ofNat (hvalid.imp id fun h => ⟨h, by omega⟩)
  rw [String.utf8EncodeChar]
  simp only [hv]
  rw [if_neg (by omega), if_neg (by omega), if_pos (by omega),
    show n / 4096 % 16 = n / 4096 by omega]

theorem encodeChar_four {n : Nat} (hlow : 0x10000 ≤ n) (hhigh : n < 0x110000) :
    String.utf8EncodeChar (Char.ofNat n)
      = [UInt8.ofNat (n / 262144 + 0xF0), UInt8.ofNat (n / 4096 % 64 + 0x80),
        UInt8.ofNat (n / 64 % 64 + 0x80), UInt8.ofNat (n % 64 + 0x80)] := by
  have hv : (Char.ofNat n).val.toNat = n := toNat_ofNat (.inr ⟨by omega, hhigh⟩)
  rw [String.utf8EncodeChar]
  simp only [hv]
  rw [if_neg (by omega), if_neg (by omega), if_neg (by omega),
    show n / 262144 % 8 = n / 262144 by omega]

/-! ## A character begun -/

/-- The bytes taken of a character that has begun, by the bits collected of it: one of
two bytes, one or two of three, one to three of four. -/
inductive Begun : Pending → Bytes → Prop
  | two {v : Nat} {low high : UInt8} (hv : 2 ≤ v ∧ v < 0x20)
      (hrange : 0x80 ≤ low.toNat ∧ high.toNat ≤ 0xBF) :
      Begun ⟨0, low, high, v⟩ [UInt8.ofNat (v + 0xC0)]
  | three {v : Nat} {low high : UInt8} (hv : v < 0x10)
      (hrange : 0x80 ≤ low.toNat ∧ high.toNat ≤ 0xBF)
      (hlong : v = 0 → 0xA0 ≤ low.toNat) (hsurrogate : v = 0xD → high.toNat ≤ 0x9F) :
      Begun ⟨1, low, high, v⟩ [UInt8.ofNat (v + 0xE0)]
  | secondOfThree {v : Nat} {low high : UInt8} (hv : 0x20 ≤ v ∧ v < 0x400)
      (hrange : 0x80 ≤ low.toNat ∧ high.toNat ≤ 0xBF)
      (hsurrogate : v < 0x360 ∨ 0x380 ≤ v) :
      Begun ⟨0, low, high, v⟩ [UInt8.ofNat (v / 64 + 0xE0), UInt8.ofNat (v % 64 + 0x80)]
  | four {v : Nat} {low high : UInt8} (hv : v ≤ 4)
      (hrange : 0x80 ≤ low.toNat ∧ high.toNat ≤ 0xBF)
      (hlong : v = 0 → 0x90 ≤ low.toNat) (hlarge : v = 4 → high.toNat ≤ 0x8F) :
      Begun ⟨2, low, high, v⟩ [UInt8.ofNat (v + 0xF0)]
  | secondOfFour {v : Nat} {low high : UInt8} (hv : 0x10 ≤ v ∧ v < 0x110)
      (hrange : 0x80 ≤ low.toNat ∧ high.toNat ≤ 0xBF) :
      Begun ⟨1, low, high, v⟩ [UInt8.ofNat (v / 64 + 0xF0), UInt8.ofNat (v % 64 + 0x80)]
  | thirdOfFour {v : Nat} {low high : UInt8} (hv : 0x400 ≤ v ∧ v < 0x4400)
      (hrange : 0x80 ≤ low.toNat ∧ high.toNat ≤ 0xBF) :
      Begun ⟨0, low, high, v⟩ [UInt8.ofNat (v / 4096 + 0xF0), UInt8.ofNat (v / 64 % 64 + 0x80),
        UInt8.ofNat (v % 64 + 0x80)]

theorem Begun.range {p : Pending} {taken : Bytes} (h : Begun p taken) :
    0x80 ≤ p.low.toNat ∧ p.high.toNat ≤ 0xBF := by
  cases h <;> assumption

/-- Six more bits stand below those collected. -/
theorem appendBits_div {v m : Nat} (hm : 0x80 ≤ m ∧ m ≤ 0xBF) : (v * 64 + (m - 0x80)) / 64 = v := by
  omega

/-- The lowest six bits are those of the last byte. -/
theorem appendBits_mod {v m : Nat} (hm : 0x80 ≤ m ∧ m ≤ 0xBF) :
    (v * 64 + (m - 0x80)) % 64 + 0x80 = m := by
  omega

/-- Each further byte gives the bytes of a longer beginning, the last one those of the
character. -/
theorem Begun.continues {p : Pending} {taken : Bytes} (h : Begun p taken) {b : UInt8}
    (hlow : p.low ≤ b) (hhigh : b ≤ p.high) :
    match p.owed with
    | 0 => String.utf8EncodeChar (Char.ofNat (p.value * 64 + (b.toNat - 0x80))) = taken ++ [b]
    | owed + 1 =>
      Begun ⟨owed, 0x80, 0xBF, p.value * 64 + (b.toNat - 0x80)⟩ (taken ++ [b]) := by
  have hfull : 0x80 ≤ (0x80 : UInt8).toNat ∧ (0xBF : UInt8).toNat ≤ 0xBF := by decide
  rw [UInt8.le_iff_toNat_le] at hlow hhigh
  have hb : b = UInt8.ofNat b.toNat := (UInt8.ofNat_toNat).symm
  have hm : 0x80 ≤ b.toNat ∧ b.toNat ≤ 0xBF :=
    ⟨Nat.le_trans h.range.1 hlow, Nat.le_trans hhigh h.range.2⟩
  generalize b.toNat = m at hb hlow hhigh hm ⊢
  subst hb
  -- a byte that is still owed one more leaves a beginning, the others end a character
  cases h with
  | @two v low high hv hrange =>
    dsimp only at hlow hhigh ⊢
    rw [encodeChar_two (by omega) (by omega), appendBits_div hm, appendBits_mod hm]
    rfl
  | @three v low high hv hrange hlong hsurrogate =>
    dsimp only at hlow hhigh ⊢
    -- the narrowed ranges keep the bits above the overlong forms and out of the surrogates
    have hbegun : Begun ⟨0, 0x80, 0xBF, v * 64 + (m - 0x80)⟩ _ :=
      .secondOfThree (by omega) hfull (by omega)
    rw [appendBits_div hm, appendBits_mod hm] at hbegun
    exact hbegun
  | @secondOfThree v low high hv hrange hsurrogate =>
    dsimp only at hlow hhigh ⊢
    have hhead : (v * 64 + (m - 0x80)) / 4096 = v / 64 := by omega
    rw [encodeChar_three (by omega) (by omega) (by omega), hhead, appendBits_div hm,
      appendBits_mod hm]
    rfl
  | @four v low high hv hrange hlong hlarge =>
    dsimp only at hlow hhigh ⊢
    have hbegun : Begun ⟨1, 0x80, 0xBF, v * 64 + (m - 0x80)⟩ _ :=
      .secondOfFour (by omega) hfull
    rw [appendBits_div hm, appendBits_mod hm] at hbegun
    exact hbegun
  | @secondOfFour v low high hv hrange =>
    dsimp only at hlow hhigh ⊢
    have hhead : (v * 64 + (m - 0x80)) / 4096 = v / 64 := by omega
    have hbegun : Begun ⟨0, 0x80, 0xBF, v * 64 + (m - 0x80)⟩ _ :=
      .thirdOfFour (by omega) hfull
    rw [hhead, appendBits_div hm, appendBits_mod hm] at hbegun
    exact hbegun
  | @thirdOfFour v low high hv hrange =>
    dsimp only at hlow hhigh ⊢
    have hhead : (v * 64 + (m - 0x80)) / 262144 = v / 4096 := by omega
    have hsecond : (v * 64 + (m - 0x80)) / 4096 % 64 = v / 64 % 64 := by omega
    rw [encodeChar_four (by omega) (by omega), hhead, hsecond, appendBits_div hm,
      appendBits_mod hm]
    rfl

/-- A byte that is neither ASCII nor opens a character stands for none. -/
theorem lead_never {n : Nat} (h : 0x80 ≤ n ∧ n < 0xC2 ∨ 0xF5 ≤ n ∧ n < 0x100) :
    lead (UInt8.ofNat n) = .never := by
  have hn : (UInt8.ofNat n).toNat = n := toNat_byte (by omega)
  have h1 : ¬ UInt8.ofNat n ≤ 0x7F := by rw [UInt8.le_iff_toNat_le, hn]; show ¬ n ≤ 127; omega
  rw [lead, if_neg h1]
  rcases h with h | h
  · have h2 : UInt8.ofNat n < 0xC2 := by rw [UInt8.lt_iff_toNat_lt, hn]; exact h.2
    rw [if_pos h2]
  · obtain rfl | rfl | rfl | rfl | rfl | rfl | rfl | rfl | rfl | rfl | rfl :
        n = 0xF5 ∨ n = 0xF6 ∨ n = 0xF7 ∨ n = 0xF8 ∨ n = 0xF9 ∨ n = 0xFA ∨ n = 0xFB ∨
          n = 0xFC ∨ n = 0xFD ∨ n = 0xFE ∨ n = 0xFF := by omega
    all_goals rfl

/-- A byte between two characters is a whole one, begins one, or stands for none. -/
theorem lead_cases (b : UInt8) :
    (∃ c, lead b = .whole c ∧ String.utf8EncodeChar c = [b]) ∨
      (∃ p, lead b = .opens p ∧ Begun p [b]) ∨ lead b = .never := by
  have hb : b = UInt8.ofNat b.toNat := (UInt8.ofNat_toNat).symm
  have hlt : b.toNat < 256 := b.toNat_lt
  have hfull : 0x80 ≤ (0x80 : UInt8).toNat ∧ (0xBF : UInt8).toNat ≤ 0xBF := by decide
  generalize b.toNat = n at hb hlt
  subst hb
  by_cases hascii : n < 0x80
  · have hvalue : (Char.ofNat n).toNat = n := toNat_ofNat (.inl (by omega))
    exact .inl ⟨Char.ofNat n, lead_ascii (by omega), by rw [encodeChar_ascii (by omega), hvalue]⟩
  by_cases hstray : n < 0xC2
  · exact .inr (.inr (lead_never (.inl ⟨by omega, hstray⟩)))
  by_cases htwo : n < 0xE0
  · have hbegun : Begun ⟨0, 0x80, 0xBF, n - 0xC0⟩ _ := .two (by omega) hfull
    rw [show n - 0xC0 + 0xC0 = n by omega] at hbegun
    exact .inr (.inl ⟨_, lead_two (by omega) (by omega), hbegun⟩)
  by_cases hthree : n < 0xF0
  · have hbegun : Begun ⟨1, if n = 0xE0 then 0xA0 else 0x80, if n = 0xED then 0x9F else 0xBF,
        n - 0xE0⟩ [UInt8.ofNat (n - 0xE0 + 0xE0)] := by
      refine .three (by omega) ⟨?_, ?_⟩ (fun h => ?_) (fun h => ?_)
      · split <;> decide
      · split <;> decide
      · rw [if_pos (by omega)]
        decide
      · rw [if_pos (by omega)]
        decide
    rw [show n - 0xE0 + 0xE0 = n by omega] at hbegun
    exact .inr (.inl ⟨_, lead_three (by omega) (by omega), hbegun⟩)
  by_cases hfour : n ≤ 0xF4
  · have hbegun : Begun ⟨2, if n = 0xF0 then 0x90 else 0x80, if n = 0xF4 then 0x8F else 0xBF,
        n - 0xF0⟩ [UInt8.ofNat (n - 0xF0 + 0xF0)] := by
      refine .four (by omega) ⟨?_, ?_⟩ (fun h => ?_) (fun h => ?_)
      · split <;> decide
      · split <;> decide
      · rw [if_pos (by omega)]
        decide
      · rw [if_pos (by omega)]
        decide
    rw [show n - 0xF0 + 0xF0 = n by omega] at hbegun
    exact .inr (.inl ⟨_, lead_four (by omega) hfour, hbegun⟩)
  · exact .inr (.inr (lead_never (.inr ⟨by omega, hlt⟩)))

/-! ## The scan -/

/-- What a scan without bad parts has taken: the bytes of the characters found, and those
of the character begun. -/
def Taken (s : State) (bs : Bytes) : Prop :=
  none ∉ s.found → ∃ (cs : List Char) (taken : Bytes), s.found = (cs.map some).reverse ∧
    bs = cs.flatMap String.utf8EncodeChar ++ taken ∧
    match s.pending with
    | none => taken = []
    | some p => Begun p taken

/-- A byte between two characters is taken. -/
theorem taken_begin {cs : List Char} (b : UInt8) :
    Taken (begin (cs.map some).reverse b) (cs.flatMap String.utf8EncodeChar ++ [b]) := by
  intro hfound
  unfold begin at hfound ⊢
  obtain ⟨c, hc, hbytes⟩ | ⟨p, hp, hbegun⟩ | hnever := lead_cases b
  · rw [hc]
    refine ⟨cs ++ [c], [], by simp, ?_, rfl⟩
    rw [List.flatMap_append, List.flatMap_singleton, hbytes, List.append_nil]
  · rw [hp]
    exact ⟨cs, [b], rfl, rfl, hbegun⟩
  · rw [hnever] at hfound
    exact absurd List.mem_cons_self hfound

/-- A bad part once found stays. -/
theorem none_mem_begin {found : List (Option Char)} (h : none ∈ found) (b : UInt8) :
    none ∈ (begin found b).found := by
  unfold begin
  split
  · exact List.mem_cons_of_mem _ h
  · exact h
  · exact List.mem_cons_self

theorem none_mem_step {s : State} (h : none ∈ s.found) (b : UInt8) : none ∈ (step s b).found := by
  unfold step
  split
  · exact none_mem_begin h b
  · split
    · split
      · exact List.mem_cons_of_mem _ h
      · exact h
    · exact none_mem_begin (List.mem_cons_of_mem _ h) b

/-- A byte of the scan is taken. -/
theorem Taken.step {s : State} {bs : Bytes} (h : Taken s bs) (b : UInt8) :
    Taken (step s b) (bs ++ [b]) := by
  intro hfound
  obtain ⟨cs, taken, hcs, rfl, hpending⟩ := h fun hnone => hfound (none_mem_step hnone b)
  unfold Utf8.step at hfound ⊢
  split at hpending
  · next hnone =>
    subst hpending
    simp only [hnone, hcs, List.append_nil] at hfound ⊢
    exact taken_begin b hfound
  · next p hsome =>
    simp only [hsome] at hfound ⊢
    split
    · next hrange =>
      rw [if_pos hrange] at hfound
      simp only [Bool.and_eq_true, decide_eq_true_eq] at hrange
      have hnext := hpending.continues hrange.1 hrange.2
      cases howed : p.owed with
      | zero =>
        rw [howed] at hnext
        refine ⟨cs ++ [Char.ofNat (p.value * 64 + (b.toNat - 0x80))], [], by simp [hcs], ?_, rfl⟩
        rw [List.flatMap_append, List.flatMap_singleton, hnext, List.append_nil, List.append_assoc]
      | succ owed =>
        rw [howed] at hnext
        exact ⟨cs, taken ++ [b], hcs, List.append_assoc .., hnext⟩
    · next hrange =>
      rw [if_neg hrange] at hfound
      exact absurd (none_mem_begin List.mem_cons_self b) hfound

theorem taken_foldl (bs : Bytes) : Taken (bs.foldl step ⟨none, []⟩) bs := by
  have key : ∀ (bs front : Bytes) (s : State), Taken s front →
      Taken (bs.foldl step s) (front ++ bs) := by
    intro bs
    induction bs with
    | nil =>
      intro front s h
      rw [List.append_nil]
      exact h
    | cons b bs ih =>
      intro front s h
      have hrest := ih (front ++ [b]) (step s b) (h.step b)
      rw [List.append_assoc] at hrest
      exact hrest
  exact key bs [] ⟨none, []⟩ fun _ => ⟨[], [], rfl, rfl, rfl⟩

/-- The pieces of a byte string that are all characters spell it. -/
theorem flatMap_of_pieces {bs : Bytes} {cs : List Char} (h : pieces bs = cs.map some) :
    cs.flatMap String.utf8EncodeChar = bs := by
  have hnone : none ∉ pieces bs := by
    rw [h]
    simp
  unfold pieces at h hnone
  dsimp only at h hnone
  split at h
  · next hpending =>
    rw [if_pos hpending] at hnone
    exact absurd (List.mem_reverse.2 List.mem_cons_self) hnone
  · next hpending =>
    rw [if_neg hpending, List.mem_reverse] at hnone
    obtain ⟨cs', taken, hcs', hbs, hrest⟩ := taken_foldl bs hnone
    rw [hcs', List.reverse_reverse] at h
    obtain rfl : cs' = cs := List.map_inj_right (fun _ _ => Option.some.inj) |>.1 h
    rw [Option.not_isSome_iff_eq_none] at hpending
    rw [hpending] at hrest
    subst hrest
    rw [List.append_nil] at hbs
    exact hbs.symm

theorem eq_map_some_of_mapM {l : List (Option Char)} {cs : List Char}
    (h : l.mapM id = some cs) : l = cs.map some := by
  induction l generalizing cs with
  | nil =>
    obtain rfl := Option.some.inj h
    rfl
  | cons x l ih =>
    cases x with
    | none => simp [List.mapM_cons] at h
    | some c =>
      cases hl : l.mapM id with
      | none => simp [List.mapM_cons, hl] at h
      | some ds =>
        obtain rfl : c :: ds = cs := by simpa [List.mapM_cons, hl] using h
        rw [ih hl, List.map_cons]

/-- What the strict reading gives is encoded to the bytes that were read. -/
theorem encode_of_decode? {bs : Bytes} {s : String} (h : decode? bs = some s) :
    encode s = bs := by
  obtain ⟨cs, hcs, rfl⟩ := Option.map_eq_some_iff.1 h
  rw [encode, String.toList_ofList]
  exact flatMap_of_pieces (eq_map_some_of_mapM hcs)

/-! ## How many bytes a text has -/

/-- The number of bytes of some characters. -/
def bytesOf : List Char → Nat
  | [] => 0
  | c :: cs => c.utf8Size + bytesOf cs

theorem length_encode (s : String) : (encode s).length = bytesOf s.toList := by
  rw [encode]
  induction s.toList with
  | nil => rfl
  | cons c cs ih =>
    rw [List.flatMap_cons, List.length_append, ih, String.length_utf8EncodeChar, bytesOf]

theorem bytesOf_append (cs ds : List Char) : bytesOf (cs ++ ds) = bytesOf cs + bytesOf ds := by
  induction cs with
  | nil => exact (Nat.zero_add _).symm
  | cons c cs ih => rw [List.cons_append, bytesOf, bytesOf, ih, Nat.add_assoc]

theorem bytesOf_reverse (cs : List Char) : bytesOf cs.reverse = bytesOf cs := by
  induction cs with
  | nil => rfl
  | cons c cs ih =>
    rw [List.reverse_cons, bytesOf_append, ih, bytesOf, bytesOf, bytesOf, Nat.add_zero,
      Nat.add_comm]

/-- A text of ASCII has a byte for each character. -/
theorem bytesOf_ascii {cs : List Char} (h : ∀ c ∈ cs, c.toNat < 0x80) :
    bytesOf cs = cs.length := by
  induction cs with
  | nil => rfl
  | cons c cs ih =>
    obtain ⟨hc, hcs⟩ := List.forall_mem_cons.1 h
    have hone : c.utf8Size = 1 := by
      rw [← String.length_utf8EncodeChar, encodeChar_ascii hc, List.length_singleton]
    rw [bytesOf, hone, ih hcs, List.length_cons, Nat.add_comm]

end Conneg.Utf8
