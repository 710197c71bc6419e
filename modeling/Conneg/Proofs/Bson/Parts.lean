import Conneg.Bson.Document
import Conneg.Proofs.Bytes
import Conneg.Proofs.Text.Decoded
import Conneg.Proofs.Text.Utf8

/-!
# What is split off is what is written

For each part that the reader splits off the front of a byte string there are two lemmas. What a
writer puts there for the part is split off in front of any rest: a length (`length?_ofNatLE`), a
framed document (`embedded?_frame`), a text (`string?_printText`), a key up to its NUL
(`key?_encode`), and bytes of a fixed number (`fixed?_append`). And whatever is split off is what a
writer puts there (`eq_of_length?` and so on).
-/

namespace Conneg

/-- A text is as free of NULs as its bytes. -/
theorem Utf8.nul_notMem_of_encode {s : String} (h : 0 ∉ Utf8.encode s) : '\x00' ∉ s.toList :=
  fun hnul => h (List.mem_flatMap.2 ⟨_, hnul, by decide⟩)

namespace Bson

open Wire

/-! ## What is written -/

theorem length?_ofNatLE {n : Nat} (h : n < 2 ^ 31) (rest : Bytes) :
    length? (Bytes.ofNatLE 4 n ++ rest) = some (n, rest) := by
  have hvalue : Bytes.toNatLE (Bytes.ofNatLE 4 n) = n :=
    Bytes.toNatLE_ofNatLE (Nat.lt_trans h (by decide))
  rw [length?, Bytes.split?_of_length (Bytes.length_ofNatLE 4 n)]
  simp only [hvalue, if_pos h]

theorem length_frame (body : Bytes) : (frame body).length = body.length + 5 := by
  simp [frame, Bytes.length_ofNatLE]
  omega

/-- A framed document splits off, in front of any rest. -/
theorem embedded?_frame {body : Bytes} (h : (frame body).length < 2 ^ 31) (rest : Bytes) :
    embedded? (frame body ++ rest) = some (body ++ [0], rest) := by
  rw [length_frame] at h
  have happend : frame body ++ rest
      = Bytes.ofNatLE 4 (body.length + 5) ++ ((body ++ [0]) ++ rest) := by
    simp [frame]
  have hlen : (body ++ [0]).length = body.length + 5 - 4 := by simp
  rw [embedded?, happend, length?_ofNatLE h]
  simp only [if_neg (show ¬ body.length + 5 < 5 by omega), Bytes.split?_of_length hlen]
  rw [List.getLast?_concat, if_pos rfl]

/-- A text splits off, in front of any rest. -/
theorem string?_printText {s : String} (h : (printText s).length < 2 ^ 31) (rest : Bytes) :
    string? (printText s ++ rest) = some (Utf8.encode s, rest) := by
  have hsize : (Utf8.encode s).length + 1 < 2 ^ 31 := by
    simp [printText, Bytes.length_ofNatLE] at h
    omega
  have happend : printText s ++ rest
      = Bytes.ofNatLE 4 ((Utf8.encode s).length + 1) ++ ((Utf8.encode s ++ [0]) ++ rest) := by
    simp [printText]
  have hlen : (Utf8.encode s ++ [0]).length = (Utf8.encode s).length + 1 := by simp
  rw [string?, happend, length?_ofNatLE hsize]
  simp only [Bytes.split?_of_length hlen]
  rw [List.getLast?_concat, if_pos rfl, List.dropLast_concat]

/-- A key ends at its NUL. -/
theorem key?_encode {s : String} (hs : '\x00' ∉ s.toList) (rest : Bytes) :
    key? (Utf8.encode s ++ 0 :: rest) = some (s, rest) := by
  -- no other character has a zero byte in it
  have hall : ∀ b ∈ Utf8.encode s, (b != 0) = true := by
    intro b hb
    refine bne_iff_ne.2 ?_
    rintro rfl
    exact Utf8.zero_notMem_encode hs hb
  have hdrop : (Utf8.encode s ++ 0 :: rest).dropWhile (· != 0) = 0 :: rest := by
    rw [List.dropWhile_append_of_pos hall]
    exact List.dropWhile_cons_of_neg (by decide)
  have htake : (Utf8.encode s ++ 0 :: rest).takeWhile (· != 0) = Utf8.encode s := by
    rw [List.takeWhile_append_of_pos hall, List.takeWhile_cons_of_neg (by decide),
      List.append_nil]
  rw [key?, hdrop, htake]
  simp only [Utf8.decode?_encode, Option.map_some]

/-- A payload of fixed width is taken whole. -/
theorem fixed?_append {width : Nat} {make : Bytes → Node Atom} {payload : Bytes}
    (h : payload.length = width) (rest : Bytes) :
    fixed? width make (payload ++ rest) = some (.whole (make payload), rest) := by
  rw [fixed?, Bytes.split?_of_length h, Option.map_some]

/-- A signed number of four or eight bytes is read back. -/
theorem signedLE_ofNatLE {width : Nat} (hw : 0 < width) {n : Int}
    (hlow : -(Nat.pow 2 (8 * width - 1) : Nat) ≤ n)
    (hhigh : n < (Nat.pow 2 (8 * width - 1) : Nat)) :
    signedLE (Bytes.ofNatLE width (Bytes.pattern width n)) = n := by
  rw [signedLE, Bytes.length_ofNatLE, Bytes.toNatLE_ofNatLE (Bytes.pattern_lt width n),
    Bytes.signed_pattern hw hlow hhigh]

/-! ## What is split off -/

variable {bs rest body : Bytes}

theorem eq_of_length? {n : Nat} (h : length? bs = some (n, rest)) :
    bs = Bytes.ofNatLE 4 n ++ rest ∧ n < 2 ^ 31 := by
  simp only [length?] at h
  split at h
  · cases h
  · next front after hsplit =>
    obtain ⟨hfront, rfl⟩ := Bytes.split?_eq_some hsplit
    split at h
    · next hn =>
      obtain ⟨rfl, rfl⟩ := Prod.mk.inj (Option.some.inj h)
      rw [← hfront, Bytes.ofNatLE_toNatLE]
      exact ⟨rfl, hn⟩
    · cases h

theorem eq_of_embedded? (h : embedded? bs = some (body, rest)) :
    ∃ elements, body = elements ++ [0] ∧ bs = frame elements ++ rest ∧
      (frame elements).length < 2 ^ 31 := by
  simp only [embedded?] at h
  split at h
  · cases h
  · next n after hlength =>
    obtain ⟨rfl, hn⟩ := eq_of_length? hlength
    split at h
    · cases h
    · next hlow =>
      split at h
      · cases h
      · next front after' hsplit =>
        obtain ⟨hfront, rfl⟩ := Bytes.split?_eq_some hsplit
        split at h
        · next hlast =>
          obtain ⟨rfl, rfl⟩ := Prod.mk.inj (Option.some.inj h)
          obtain ⟨elements, rfl⟩ := List.getLast?_eq_some_iff.1 hlast
          rw [List.length_append, List.length_singleton] at hfront
          obtain rfl : n = elements.length + 5 := by omega
          refine ⟨elements, rfl, ?_, ?_⟩
          · simp only [frame, List.append_assoc]
          · rw [length_frame]
            exact hn
        · cases h

theorem eq_of_string? (h : string? bs = some (body, rest)) :
    bs = Bytes.ofNatLE 4 (body.length + 1) ++ body ++ [0] ++ rest := by
  simp only [string?] at h
  split at h
  · cases h
  · next n after hlength =>
    obtain ⟨rfl, -⟩ := eq_of_length? hlength
    split at h
    · cases h
    · next front after' hsplit =>
      obtain ⟨hfront, rfl⟩ := Bytes.split?_eq_some hsplit
      split at h
      · next hlast =>
        obtain ⟨rfl, rfl⟩ := Prod.mk.inj (Option.some.inj h)
        obtain ⟨text, rfl⟩ := List.getLast?_eq_some_iff.1 hlast
        rw [List.length_append, List.length_singleton] at hfront
        rw [List.dropLast_concat, hfront]
        simp only [List.append_assoc]
      · cases h

theorem eq_of_key? {key : String} (h : key? bs = some (key, rest)) :
    '\x00' ∉ key.toList ∧ bs = Utf8.encode key ++ 0 :: rest := by
  have hsplit : bs = bs.takeWhile (· != 0) ++ bs.dropWhile (· != 0) :=
    List.takeWhile_append_dropWhile.symm
  have hall : ∀ b ∈ bs.takeWhile (· != 0), (b != 0) = true :=
    List.all_eq_true.1 List.all_takeWhile
  simp only [key?] at h
  split at h
  · cases h
  · next b after hdrop =>
    obtain ⟨s, hs, heq⟩ := Option.map_eq_some_iff.1 h
    obtain ⟨rfl, rfl⟩ := Prod.mk.inj heq
    have hkey := Utf8.encode_of_decode? hs
    -- what the key ends at is a NUL
    have hfirst := List.head?_dropWhile_not (· != 0) bs
    rw [hdrop] at hfirst
    obtain rfl : b = 0 := by simpa using hfirst
    rw [hdrop, ← hkey] at hsplit
    refine ⟨Utf8.nul_notMem_of_encode ?_, hsplit⟩
    rw [hkey]
    intro hzero
    exact absurd (hall 0 hzero) (by decide)

theorem eq_of_fixed? {width : Nat} {make : Bytes → Node Atom} {p : Payload}
    (h : fixed? width make bs = some (p, rest)) :
    ∃ front, front.length = width ∧ p = .whole (make front) ∧ bs = front ++ rest := by
  obtain ⟨⟨front, after⟩, hsplit, heq⟩ := Option.map_eq_some_iff.1 h
  obtain ⟨rfl, rfl⟩ := Prod.mk.inj heq
  obtain ⟨hfront, hbs⟩ := Bytes.split?_eq_some hsplit
  exact ⟨front, hfront, rfl, hbs⟩

/-- Bytes of an integer are those that are written of it. -/
theorem ofNatLE_signedLE {width : Nat} (hw : 0 < width) (h : bs.length = width) :
    Bytes.ofNatLE width (Bytes.pattern width (signedLE bs)) = bs := by
  subst h
  rw [signedLE, Bytes.pattern_signed hw (Bytes.toNatLE_lt bs), Bytes.ofNatLE_toNatLE]

theorem signedLE_bounds {width : Nat} (hw : 0 < width) (h : bs.length = width) :
    -(Nat.pow 2 (8 * width - 1) : Nat) ≤ signedLE bs ∧
      signedLE bs < (Nat.pow 2 (8 * width - 1) : Nat) := by
  subst h
  exact Bytes.signed_bounds hw (Bytes.toNatLE_lt bs)

end Bson
end Conneg
