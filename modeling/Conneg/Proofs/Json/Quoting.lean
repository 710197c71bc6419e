import Conneg.Json.Quoting
import Conneg.Proofs.Text.Utf8

/-!
# Quoted text is read back

Both halves of the reading work through the text character by character, so each
has a lemma about one character and what follows it. The scan takes bytes that
*pass*: it copies them and looks at what comes after (`passes_encode`), so it ends
at the closing quote and nowhere before. Of the characters that it copied,
`unescape` makes one for each written form (`unescape_escape`).

Only 34 characters have a written form other than themselves. Of all others it
matters that their bytes are neither quote, backslash nor control, which holds
beyond ASCII because there every byte of a character is at least `0x80`.
-/

namespace Conneg.Json.Quoting

/-! ## Scanning -/

/-- Whether the scan copies these bytes and goes on behind them. -/
def Passes (raw : Bytes) : Prop :=
  ∀ tail rev, scan (raw ++ tail) rev = scan tail (raw.reverse ++ rev)

theorem passes_nil : Passes [] := fun _ _ => rfl

theorem Passes.append {raw raw' : Bytes} (h : Passes raw) (h' : Passes raw') :
    Passes (raw ++ raw') := by
  intro tail rev
  rw [List.append_assoc, h, h', List.reverse_append, List.append_assoc]

/-- A byte that is neither quote, backslash nor control passes. -/
theorem passes_plain {b : UInt8} (hquote : b ≠ 0x22) (hslash : b ≠ 0x5C) (hlow : ¬ b < 0x20) :
    Passes [b] := by
  intro tail rev
  show scan (b :: tail) rev = scan tail (b :: rev)
  rw [scan.eq_def]
  simp only [if_neg hquote, if_neg hslash, if_neg hlow]

/-- Whether these bytes are one whole escape. -/
def isEscape : Bytes → Bool
  | [b, e] => b == 0x5C && isShortEscape e
  | [b, u, h1, h2, h3, h4] =>
    b == 0x5C && u == 0x75 && isHex h1 && isHex h2 && isHex h3 && isHex h4
  | _ => false

theorem passes_of_isEscape {raw : Bytes} (h : isEscape raw = true) : Passes raw := by
  intro tail rev
  unfold isEscape at h
  split at h
  · next b e =>
    obtain ⟨hb, he⟩ := Bool.and_eq_true_iff.1 h
    obtain rfl := eq_of_beq hb
    show scan (0x5C :: e :: tail) rev = scan tail (e :: 0x5C :: rev)
    rw [scan.eq_def]
    simp [he]
  · next b u h1 h2 h3 h4 =>
    simp only [Bool.and_eq_true, beq_iff_eq] at h
    obtain ⟨⟨⟨⟨⟨rfl, rfl⟩, hh1⟩, hh2⟩, hh3⟩, hh4⟩ := h
    show scan (0x5C :: 0x75 :: h1 :: h2 :: h3 :: h4 :: tail) rev
      = scan tail (h4 :: h3 :: h2 :: h1 :: 0x75 :: 0x5C :: rev)
    rw [scan.eq_def]
    simp [hh1, hh2, hh3, hh4, isShortEscape]
  · exact absurd h Bool.false_ne_true

/-! ## Characters and texts -/

/-- By its number, a byte is none of those that the scan looks for. -/
theorem plain_of_toNat {b : UInt8} (hquote : b.toNat ≠ 0x22) (hslash : b.toNat ≠ 0x5C)
    (hlow : 0x20 ≤ b.toNat) : b ≠ 0x22 ∧ b ≠ 0x5C ∧ ¬ b < 0x20 := by
  refine ⟨fun h => hquote (by rw [h]; rfl), fun h => hslash (by rw [h]; rfl), ?_⟩
  rw [UInt8.lt_iff_toNat_lt]
  show ¬ b.toNat < 32
  omega

/-- Bytes that are each neither quote, backslash nor control pass. -/
theorem passes_of_forall {raw : Bytes}
    (h : ∀ b ∈ raw, b ≠ 0x22 ∧ b ≠ 0x5C ∧ ¬ b < 0x20) : Passes raw := by
  induction raw with
  | nil => exact passes_nil
  | cons b raw ih =>
    obtain ⟨hquote, hslash, hlow⟩ := h b List.mem_cons_self
    exact (passes_plain hquote hslash hlow).append
      (ih fun b' hb' => h b' (List.mem_cons_of_mem _ hb'))

/-- The bytes of a character that is not escaped pass. -/
theorem passes_encodeChar {c : Char} (hquote : c ≠ '"') (hslash : c ≠ '\\')
    (hlow : ¬ c.toNat < 0x20) : Passes (String.utf8EncodeChar c) := by
  refine passes_of_forall fun b hb => ?_
  by_cases hc : c.toNat < 0x80
  · -- in ASCII the byte is the code of the character
    rw [Utf8.encodeChar_ascii hc] at hb
    obtain rfl := List.mem_singleton.1 hb
    have hn : (UInt8.ofNat c.toNat).toNat = c.toNat := Utf8.toNat_byte (by omega)
    have hquote : c.toNat ≠ 0x22 := fun h => hquote (Char.toNat_inj.1 h)
    have hslash : c.toNat ≠ 0x5C := fun h => hslash (Char.toNat_inj.1 h)
    exact plain_of_toNat (by rw [hn]; exact hquote) (by rw [hn]; exact hslash)
      (by rw [hn]; omega)
  · have hb := Utf8.le_of_mem_encodeChar (by omega) hb
    exact plain_of_toNat (by omega) (by omega) (by omega)

/-- The written form of a control is an escape. -/
theorem isEscape_control : ∀ n < 0x20,
    isEscape ((escape (Char.ofNat n)).flatMap String.utf8EncodeChar) = true := by
  decide

/-- The written form of a character passes. -/
theorem passes_escape (c : Char) : Passes ((escape c).flatMap String.utf8EncodeChar) := by
  by_cases hquote : c = '"'
  · subst hquote
    exact passes_of_isEscape rfl
  by_cases hslash : c = '\\'
  · subst hslash
    exact passes_of_isEscape rfl
  by_cases hlow : c.toNat < 0x20
  · have hc := isEscape_control c.toNat hlow
    rw [Char.ofNat_toNat] at hc
    exact passes_of_isEscape hc
  · have hself : escape c = [c] := by
      have hne : ∀ d : Char, d.toNat < 0x20 → c ≠ d := fun d hd h => hlow (h ▸ hd)
      rw [escape, if_neg hquote, if_neg hslash, if_neg (hne _ (by decide)),
        if_neg (hne _ (by decide)), if_neg (hne _ (by decide)), if_neg (hne _ (by decide)),
        if_neg (hne _ (by decide)), if_neg hlow]
    rw [hself, List.flatMap_singleton]
    exact passes_encodeChar hquote hslash hlow

/-- The written form of a text is that of its characters. -/
theorem encode_eq_flatMap (s : String) :
    encode s = s.toList.flatMap fun c => (escape c).flatMap String.utf8EncodeChar := by
  rw [encode, Utf8.encode, String.toList_ofList, List.flatMap_assoc]

theorem passes_encode (s : String) : Passes (encode s) := by
  rw [encode_eq_flatMap]
  induction s.toList with
  | nil => exact passes_nil
  | cons c cs ih =>
    rw [List.flatMap_cons]
    exact (passes_escape c).append ih

/-- The scan of what passes ends at the quote after it. -/
theorem Passes.scan_quote {raw : Bytes} (h : Passes raw) (rest : Bytes) :
    scan (raw ++ 0x22 :: rest) [] = some (raw, rest) := by
  rw [h, List.append_nil, scan.eq_def]
  simp

/-! ## Undoing the escapes -/

/-- A short escape stands for its character. -/
theorem unescape_short {e c : Char} (hshort : shortEscape e = c) (hu : e ≠ 'u')
    (rest rev : List Char) : unescape ('\\' :: e :: rest) rev = unescape rest (c :: rev) := by
  rw [unescape.eq_def]
  split
  · next h => simp at h
  · next h => simp at h; exact absurd h.1 hu
  · next h => simp at h; rw [← h.1, ← h.2, hshort]
  · next h1 h2 h => simp at h; exact absurd h.2.symm (h2 _ _ h.1.symm)

/-- The escape of a control by its number stands for it. -/
theorem unescape_control {n : Nat} (hn : n < 0x20) (rest rev : List Char) :
    unescape ('\\' :: 'u' :: '0' :: '0' :: hexChar (n / 16) :: hexChar (n % 16) :: rest) rev
      = unescape rest (Char.ofNat n :: rev) := by
  have hquad : ∀ n < 0x20, hexQuad '0' '0' (hexChar (n / 16)) (hexChar (n % 16)) = n := by
    decide
  rw [unescape.eq_def]
  simp only [hquad n hn]
  rw [if_neg (by omega), if_neg (by omega)]

/-- A character other than the backslash stands for itself. -/
theorem unescape_plain {c : Char} (hslash : c ≠ '\\') (rest rev : List Char) :
    unescape (c :: rest) rev = unescape rest (c :: rev) := by
  rw [unescape.eq_def]
  split
  · next h => simp at h
  · next h => simp at h; exact absurd h.1 hslash
  · next h => simp at h; exact absurd h.1 hslash
  · next h => simp at h; rw [← h.1, ← h.2]

/-- The written form of a character stands for it. -/
theorem unescape_escape (c : Char) (rest rev : List Char) :
    unescape (escape c ++ rest) rev = unescape rest (c :: rev) := by
  unfold escape
  -- the quote, the backslash and the five controls with an escape of their own
  iterate 7
    split
    · next h => subst h; exact unescape_short rfl (by decide) rest rev
  split
  · next hlow =>
    have hc := unescape_control hlow rest rev
    rw [Char.ofNat_toNat] at hc
    exact hc
  · next hslash _ _ _ _ _ _ => exact unescape_plain hslash rest rev

theorem unescape_flatMap (cs rev : List Char) :
    unescape (cs.flatMap escape) rev = some (rev.reverse ++ cs) := by
  induction cs generalizing rev with
  | nil => simp [unescape]
  | cons c cs ih =>
    rw [List.flatMap_cons, unescape_escape, ih, List.reverse_cons, List.append_assoc]
    rfl

/-- A written text is read back. -/
theorem decode?_encode (s : String) : decode? (encode s) = some s := by
  have hutf8 : Utf8.decode? (encode s) = some (String.ofList (s.toList.flatMap escape)) :=
    Utf8.decode?_encode _
  have hchars : unescape (s.toList.flatMap escape) [] = some s.toList :=
    unescape_flatMap s.toList []
  simp only [decode?, hutf8, Option.bind_eq_bind, Option.bind_some, String.toList_ofList, hchars,
    String.ofList_toList]

end Conneg.Json.Quoting
