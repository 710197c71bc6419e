import Conneg.Json.Document
import Conneg.Proofs.Json.Quoting
import Conneg.Proofs.Wire.Run

/-!
# Where a JSON document ends

A text ends at its quote, a word with its last letter, a bracket is one byte: none of
these tokens sees what stands behind it. A number does, for digits may go on, but not
once there are bytes behind it that it did not take (`Number.scan_append`). So every
token is read alike with a tail behind the bytes, except for a number at their very end
(`Token.next_append`). No token holds more bytes than it takes (`Token.next_held`).

A document that is a list or an object ends with a bracket, so it does not see what
stands behind it (`parse_append`), and a record is read from nothing else. Behind an
accepted record blanks change nothing, and anything else is refused (`decode_append`).
-/

namespace Conneg.Json

open Wire

variable {bs rest tail : Bytes}

/-! ## Numbers -/

namespace Number

/-- Digits that something follows do not go on behind it. -/
theorem digits_append (h : afterDigits bs ≠ []) (tail : Bytes) :
    digitsAt (bs ++ tail) = digitsAt bs ∧ afterDigits (bs ++ tail) = afterDigits bs ++ tail := by
  unfold digitsAt afterDigits at *
  induction bs with
  | nil => exact absurd rfl h
  | cons b bs ih =>
    by_cases hb : isDigit b = true
    · rw [List.dropWhile_cons_of_pos hb] at h
      obtain ⟨htake, hdrop⟩ := ih h
      simp only [List.cons_append, List.takeWhile_cons_of_pos hb, List.dropWhile_cons_of_pos hb,
        List.filterMap_cons, htake, hdrop, and_self]
    · simp only [List.cons_append, List.takeWhile_cons_of_neg hb, List.dropWhile_cons_of_neg hb,
        List.filterMap_nil, and_self]

theorem scanWhole_rest {ds : List Digit} (h : scanWhole bs = some (ds, rest)) :
    rest = afterDigits bs := by
  unfold scanWhole at h
  split at h
  · cases h
  · exact (Prod.mk.inj (Option.some.inj h)).2.symm
  · split at h
    · cases h
    · exact (Prod.mk.inj (Option.some.inj h)).2.symm

theorem scanWhole_append_tail {ds : List Digit} (h : scanWhole bs = some (ds, rest))
    (hrest : rest ≠ []) (tail : Bytes) : scanWhole (bs ++ tail) = some (ds, rest ++ tail) := by
  obtain rfl := scanWhole_rest h
  obtain ⟨hdigits, hdrop⟩ := digits_append hrest tail
  unfold scanWhole at h ⊢
  rw [hdigits, hdrop]
  split at h
  · cases h
  · obtain ⟨rfl, -⟩ := Prod.mk.inj (Option.some.inj h)
    rfl
  · split at h
    · cases h
    · next hne =>
      obtain ⟨rfl, -⟩ := Prod.mk.inj (Option.some.inj h)
      exact if_neg hne

theorem scanFraction_append_tail {ds : List Digit} (h : scanFraction bs = some (ds, rest))
    (hrest : rest ≠ []) (tail : Bytes) : scanFraction (bs ++ tail) = some (ds, rest ++ tail) := by
  cases bs with
  | nil =>
    obtain ⟨-, rfl⟩ := Prod.mk.inj (Option.some.inj h)
    exact absurd rfl hrest
  | cons b bs =>
    rw [scanFraction] at h
    rw [List.cons_append, scanFraction]
    split at h
    · split at h
      · cases h
      · next hpoint _ hds =>
        obtain ⟨rfl, rfl⟩ := Prod.mk.inj (Option.some.inj h)
        obtain ⟨hdigits, hdrop⟩ := digits_append hrest tail
        rw [if_pos hpoint, hdigits, hdrop]
        split
        · next hnil => exact absurd hnil hds
        · rfl
    · next hpoint =>
      obtain ⟨rfl, rfl⟩ := Prod.mk.inj (Option.some.inj h)
      rw [if_neg hpoint]
      rfl

theorem scanSign_append (h : (scanSign bs).2 ≠ []) (tail : Bytes) :
    scanSign (bs ++ tail) = ((scanSign bs).1, (scanSign bs).2 ++ tail) := by
  cases bs with
  | nil => exact absurd rfl h
  | cons b bs =>
    rw [List.cons_append, scanSign, scanSign]
    split
    · rfl
    · split <;> rfl

theorem scanExponent_append_tail {e : Option (Bool × List Digit)}
    (h : scanExponent bs = some (e, rest)) (hrest : rest ≠ []) (tail : Bytes) :
    scanExponent (bs ++ tail) = some (e, rest ++ tail) := by
  cases bs with
  | nil =>
    obtain ⟨-, rfl⟩ := Prod.mk.inj (Option.some.inj h)
    exact absurd rfl hrest
  | cons b bs =>
    rw [scanExponent] at h
    rw [List.cons_append, scanExponent]
    split at h
    · next hmark =>
      dsimp only at h ⊢
      split at h
      · cases h
      · next hds =>
        obtain ⟨rfl, rfl⟩ := Prod.mk.inj (Option.some.inj h)
        have hsign : (scanSign bs).2 ≠ [] := by
          intro hnil
          rw [hnil] at hrest
          exact hrest rfl
        obtain ⟨hdigits, hdrop⟩ := digits_append hrest tail
        rw [if_pos hmark, scanSign_append hsign tail]
        dsimp only
        rw [hdigits, hdrop]
        split
        · next hnil => exact absurd hnil hds
        · rfl
    · next hmark =>
      obtain ⟨rfl, rfl⟩ := Prod.mk.inj (Option.some.inj h)
      rw [if_neg hmark]
      rfl

theorem scanUnsigned_append_tail {negative : Bool} {n : Number}
    (h : scanUnsigned negative bs = some (n, rest)) (hrest : rest ≠ []) (tail : Bytes) :
    scanUnsigned negative (bs ++ tail) = some (n, rest ++ tail) := by
  simp only [scanUnsigned, Option.bind_eq_bind, Option.bind_eq_some_iff] at h
  obtain ⟨⟨whole, bs₁⟩, hwhole, ⟨fraction, bs₂⟩, hfraction, ⟨exponent, bs₃⟩, hexponent, h⟩ := h
  obtain ⟨rfl, rfl⟩ := Prod.mk.inj (Option.some.inj h)
  -- no part takes all bytes, for there are some left at the end
  have hlength : bs₃ ≠ [] → 0 < bs₃.length := List.length_pos_iff.2
  have h₂ : bs₂ ≠ [] := by
    rintro rfl
    exact absurd (scanExponent_le hexponent) (Nat.not_le_of_gt (hlength hrest))
  have h₁ : bs₁ ≠ [] := by
    rintro rfl
    exact absurd (scanFraction_le hfraction) (Nat.not_le_of_gt (List.length_pos_iff.2 h₂))
  unfold scanUnsigned
  rw [scanWhole_append_tail hwhole h₁]
  simp only [Option.bind_eq_bind, Option.bind_some]
  rw [scanFraction_append_tail hfraction h₂]
  simp only [Option.bind_some]
  rw [scanExponent_append_tail hexponent hrest]
  rfl

/-- A number that something follows does not go on behind it. -/
theorem scan_append {n : Number} (h : scan bs = some (n, rest)) (hrest : rest ≠ [])
    (tail : Bytes) : scan (bs ++ tail) = some (n, rest ++ tail) := by
  cases bs with
  | nil => cases h
  | cons b bs =>
    rw [scan] at h
    rw [List.cons_append, scan]
    split at h
    · next hminus =>
      rw [if_pos hminus]
      exact scanUnsigned_append_tail h hrest tail
    · next hminus =>
      rw [if_neg hminus]
      exact scanUnsigned_append_tail h hrest tail

end Number

/-! ## Texts and words -/

/-- A text ends at its quote. -/
theorem Quoting.scan_append {rev raw : Bytes} (h : Quoting.scan bs rev = some (raw, rest))
    (tail : Bytes) : Quoting.scan (bs ++ tail) rev = some (raw, rest ++ tail) := by
  fun_induction Quoting.scan bs rev with
  | case2 rest rev =>
    obtain ⟨rfl, rfl⟩ := Prod.mk.inj (Option.some.inj h)
    rw [List.cons_append, Quoting.scan.eq_def]
    rfl
  | case4 rev e bs hescape _ ih =>
    have hpass : Quoting.Passes [0x5C, e] :=
      Quoting.passes_of_isEscape (by simp [Quoting.isEscape, hescape])
    exact (hpass (bs ++ tail) rev).trans (ih h)
  | case5 rev h1 h2 h3 h4 bs hhex _ _ ih =>
    have hpass : Quoting.Passes [0x5C, 0x75, h1, h2, h3, h4] :=
      Quoting.passes_of_isEscape (by simpa [Quoting.isEscape, and_assoc] using hhex)
    exact (hpass (bs ++ tail) rev).trans (ih h)
  | case10 b bs rev hquote hslash hlow ih =>
    exact (Quoting.passes_plain hquote hslash hlow (bs ++ tail) rev).trans (ih h)
  | _ => cases h

/-- A quoted text takes the bytes that it is spelled with, and its closing quote. -/
theorem Quoting.length_scan {rev raw : Bytes} (h : Quoting.scan bs rev = some (raw, rest)) :
    raw.length + rest.length + 1 = bs.length + rev.length := by
  fun_induction Quoting.scan bs rev with
  | case2 rest rev =>
    obtain ⟨rfl, rfl⟩ := Prod.mk.inj (Option.some.inj h)
    simp only [List.length_reverse, List.length_cons]
    omega
  | case4 _ _ _ _ _ ih | case5 _ _ _ _ _ _ _ _ _ ih | case10 _ _ _ _ _ _ ih =>
    have hlength := ih h
    simp only [List.length_cons] at hlength ⊢
    omega
  | _ => cases h

namespace Token

theorem wordToken_append {x : Atom} {word : Bytes} {t : Token}
    (h : wordToken x word bs = some (t, rest)) (tail : Bytes) :
    wordToken x word (bs ++ tail) = some (t, rest ++ tail) := by
  obtain ⟨r, hr, heq⟩ := Option.map_eq_some_iff.1 h
  obtain ⟨rfl, rfl⟩ := Prod.mk.inj heq
  unfold word? at hr
  split at hr
  · next hword =>
    obtain rfl := Option.some.inj hr
    have hlength : word.length ≤ bs.length := by
      have := congrArg List.length hword
      rw [List.length_take] at this
      omega
    unfold wordToken word?
    rw [List.take_append_of_le_length hlength, if_pos hword,
      List.drop_append_of_le_length hlength]
    rfl
  · cases hr

/-! ## Tokens -/

/-- Whether a token is a number. -/
def isNumber : Token → Bool
  | .atom (.number _) => true
  | _ => false

/-- How many bytes a token holds as they stand in the body. -/
def held : Token → Nat
  | .atom (.text raw) => raw.length
  | _ => 0

/-- The ways in which a token goes on after its first byte. -/
inductive Form (b : UInt8) : (Bytes → Option (Token × Bytes)) → Prop
  | mark {t : Token} (hheld : t.held = 0) : Form b fun bs => some (t, bs)
  | text : Form b fun bs => (Quoting.scan bs []).map fun (raw, rest) => (.atom (.text raw), rest)
  | word {x : Atom} (hheld : held (.atom x) = 0) (word : Bytes) : Form b (wordToken x word)
  | number : Form b fun bs =>
      (Number.scan (b :: bs)).map fun (n, rest) => (.atom (.number n), rest)

/-- The first byte of a token tells its form. -/
theorem form_ofByte (b : UInt8) : Form b (ofByte b) := by
  unfold ofByte
  split
  · exact .text
  split
  · exact .mark rfl
  split
  · exact .mark rfl
  split
  · exact .mark rfl
  split
  · exact .mark rfl
  split
  · exact .mark rfl
  split
  · exact .mark rfl
  split
  · exact .word rfl _
  split
  · exact .word rfl _
  split
  · exact .word rfl _
  · exact .number

variable {b : UInt8} {read : Bytes → Option (Token × Bytes)} {t : Token}

/-- Whatever its form, a token that is not a number at the end of the bytes does not see
what stands behind it. -/
theorem Form.append (hform : Form b read) (h : read bs = some (t, rest))
    (hend : t.isNumber = true → rest ≠ []) (tail : Bytes) :
    read (bs ++ tail) = some (t, rest ++ tail) := by
  cases hform with
  | mark =>
    obtain ⟨rfl, rfl⟩ := Prod.mk.inj (Option.some.inj h)
    rfl
  | text =>
    obtain ⟨⟨raw, r⟩, hs, heq⟩ := Option.map_eq_some_iff.1 h
    obtain ⟨rfl, rfl⟩ := Prod.mk.inj heq
    simp only [Quoting.scan_append hs, Option.map_some]
  | word => exact wordToken_append h tail
  | number =>
    obtain ⟨⟨n, r⟩, hs, heq⟩ := Option.map_eq_some_iff.1 h
    obtain ⟨rfl, rfl⟩ := Prod.mk.inj heq
    simp only [← List.cons_append, Number.scan_append hs (hend rfl), Option.map_some]

/-- What a token holds and what it leaves are together no more than there was. -/
theorem Form.held_add_length_le (hform : Form b read) (h : read bs = some (t, rest)) :
    t.held + rest.length ≤ bs.length := by
  cases hform with
  | mark hheld =>
    obtain ⟨rfl, rfl⟩ := Prod.mk.inj (Option.some.inj h)
    exact Nat.le_of_eq (by rw [hheld, Nat.zero_add])
  | text =>
    obtain ⟨⟨raw, r⟩, hs, heq⟩ := Option.map_eq_some_iff.1 h
    obtain ⟨rfl, rfl⟩ := Prod.mk.inj heq
    have hlength := Quoting.length_scan hs
    simp only [held, List.length_nil] at hlength ⊢
    omega
  | word hheld =>
    have hle := wordToken_le h
    obtain ⟨r, -, heq⟩ := Option.map_eq_some_iff.1 h
    obtain ⟨rfl, -⟩ := Prod.mk.inj heq
    rw [hheld, Nat.zero_add]
    exact hle
  | number =>
    obtain ⟨⟨n, r⟩, hs, heq⟩ := Option.map_eq_some_iff.1 h
    obtain ⟨rfl, rfl⟩ := Prod.mk.inj heq
    have hlt := Number.scan_shorter hs
    simp only [held, List.length_cons] at hlt ⊢
    omega

/-- A token holds less than it takes. -/
theorem next_held (h : next bs = some (t, rest)) : t.held + rest.length < bs.length := by
  have hle := (List.dropWhile_suffix isBlank (l := bs)).length_le
  unfold next at h
  split at h
  · cases h
  · next b bs' hdrop =>
    have hheld := (form_ofByte b).held_add_length_le h
    rw [hdrop, List.length_cons] at hle
    omega

/-- A token does not see what stands behind it, unless it is a number at the end of the
bytes. -/
theorem next_append (h : next bs = some (t, rest))
    (hend : t.isNumber = true → rest ≠ []) (tail : Bytes) :
    next (bs ++ tail) = some (t, rest ++ tail) := by
  unfold next at h ⊢
  cases hdrop : bs.dropWhile isBlank with
  | nil =>
    rw [hdrop] at h
    cases h
  | cons b bs' =>
    rw [hdrop] at h
    have hdrop' : (bs ++ tail).dropWhile isBlank = b :: (bs' ++ tail) := by
      rw [List.dropWhile_append, hdrop]
      rfl
    rw [hdrop']
    exact (form_ofByte b).append h hend tail

end Token

/-! ## Documents -/

/-- A tree that is not a scalar is finished by a bracket. -/
theorem isNumber_of_finish {t : Token} {s : State} {tree : Node Atom}
    (h : step t s = .finish tree) (htree : ∀ x, tree ≠ .scalar x) : t.isNumber = false := by
  cases hnumber : t.isNumber with
  | false => rfl
  | true =>
    unfold Token.isNumber at hnumber
    split at hnumber
    · next n =>
      -- a number is a value where a value may begin, and refused elsewhere
      exfalso
      obtain ⟨place, frames⟩ := s
      cases place <;> cases frames <;>
        simp [step, beginValue, beginKey, deliver] at h <;> exact htree _ h.symm
    · cases hnumber

/-- A list or an object does not see what stands behind it. -/
theorem parse_append {tree : Node Atom} (h : parse bs = ⟨tree, some rest⟩)
    (htree : ∀ x, tree ≠ .scalar x) (tail : Bytes) :
    parse (bs ++ tail) = ⟨tree, some (rest ++ tail)⟩ := by
  refine Grammar.run_append (fun tree => ∀ x, tree ≠ .scalar x) ?_ ?_ h htree
  · intro bs t rest ht hne
    exact Token.next_append ht (fun _ => hne) tail
  · intro bs t rest s tree ht hstep htree
    refine Token.next_append ht (fun hnumber => ?_) tail
    rw [isNumber_of_finish hstep htree] at hnumber
    cases hnumber

/-- No record is read from a scalar. -/
theorem ne_scalar_of_read {fs : Fields} {b : Budget} {tree : Node Atom} {v : fs.Carrier}
    (h : (Schema.record fs).read readRules b tree = .ok v) (x : Atom) : tree ≠ .scalar x := by
  rintro rfl
  simp [Schema.read, Reader.record, readRules, rulesFor] at h

/-- An accepted body is a document with only blanks behind it, from which the value is
read. -/
theorem decodeBy_eq_ok {R : ReadRules Atom} {s : Schema} {v : s.Carrier} :
    decodeBy R s bs = .ok v ↔ ∃ tree rest, parse bs = ⟨tree, some rest⟩ ∧
      rest.all Token.isBlank = true ∧ s.read R R.nesting tree = .ok v := by
  refine ⟨fun h => ?_, ?_⟩
  · simp only [decodeBy] at h
    split at h
    · cases h
    next w hread =>
    split at h
    · next rest hrest =>
      split at h
      · next hblank =>
        obtain rfl : w = v := by simpa using h
        exact ⟨(parse bs).tree, rest, by rw [← hrest], hblank, hread⟩
      · cases h
    · cases h
  · rintro ⟨tree, rest, hparse, hblank, hread⟩
    simp only [decodeBy, hparse, hread, hblank, if_true]

variable {fs : Fields} {v : fs.Carrier}

/-- What is decided of the bytes behind an accepted record: only whether they are
blanks. -/
theorem decode_append (h : decode (.record fs) bs = .ok v) (tail : Bytes) :
    decode (.record fs) (bs ++ tail)
      = if tail.all Token.isBlank then .ok v else .error .unreadable := by
  obtain ⟨tree, rest, hparse, hblank, hread⟩ := decodeBy_eq_ok.1 h
  have hparse' := parse_append hparse (ne_scalar_of_read hread) tail
  simp only [decode, decodeBy, hparse', hread, List.all_append, hblank, Bool.true_and]

end Conneg.Json
