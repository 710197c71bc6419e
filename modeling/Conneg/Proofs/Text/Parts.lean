import Conneg.Proofs.Text.Decoded
import Mathlib.Data.Nat.Find

/-!
# Byte strings that are no text

A byte string is cut into parts from its front (`Parts`). Where a character stands, it is a
part. Where none stands, the bad part is the longest beginning of a character there, or one
byte if no character begins with that (`IsBadPart`). This says nothing of how the bytes are
scanned, and the scan finds exactly these parts (`parts_iff`).

The scan keeps no more of what it has found than the pieces themselves, so it goes on behind a
part as it would have started there (`foldl_step_found`). A beginning that it is in the middle
of may be continued by a byte exactly if that gives a longer beginning (`Begun.begins`,
`Begun.continues`); so a byte out of range ends a longest one, and is looked at afresh.
-/

namespace Conneg.Utf8

/-- Whether a character may begin with these bytes; all of its bytes are allowed, and none. -/
def Begins (bs : Bytes) : Prop := ∃ c, bs <+: String.utf8EncodeChar c

/-- Whether a byte string that goes on with `rest` has the bad part in front of it: no
character stands there, and `part` is the longest beginning of one, or else a single byte. -/
structure IsBadPart (part rest : Bytes) : Prop where
  noCharacter : ∀ c, ¬ String.utf8EncodeChar c <+: part ++ rest
  nonempty : part ≠ []
  beginning : Begins part ∨ part.length = 1
  longest : ∀ longer, longer <+: part ++ rest → Begins longer → longer.length ≤ part.length

/-- The characters of a byte string in order, with `none` for each bad part. -/
inductive Parts : Bytes → List (Option Char) → Prop
  | nil : Parts [] []
  | character (c : Char) {rest : Bytes} {ps : List (Option Char)} (hrest : Parts rest ps) :
      Parts (String.utf8EncodeChar c ++ rest) (some c :: ps)
  | bad {part rest : Bytes} {ps : List (Option Char)} (hpart : IsBadPart part rest)
      (hrest : Parts rest ps) : Parts (part ++ rest) (none :: ps)

/-- Whether a text is what can be read of a byte string: its characters, and U+FFFD for each
bad part. -/
def IsReadOf (text : String) (bs : Bytes) : Prop :=
  ∃ ps, Parts bs ps ∧ text.toList = ps.map (·.getD '\ufffd')

variable {bs part rest taken : Bytes} {p : Pending} {found : List (Option Char)} {s : State}

/-! ## Beginnings -/

theorem Begins.take (h : Begins bs) (hpart : part <+: bs) : Begins part := by
  obtain ⟨c, hc⟩ := h
  exact ⟨c, hpart.trans hc⟩

/-- What has been taken of a character begun is a beginning of one, if any further byte may
come next. -/
theorem Begun.begins {owed value : Nat} (h : Begun ⟨owed, 0x80, 0xBF, value⟩ taken) :
    Begins taken := by
  -- the lowest byte is taken again and again until the character is whole
  have hnext := h.continues (UInt8.le_refl _) (by decide : (0x80 : UInt8) ≤ 0xBF)
  induction owed generalizing value taken with
  | zero => exact ⟨_, ⟨_, hnext.symm⟩⟩
  | succ owed ih =>
    have hlonger := hnext.continues (UInt8.le_refl _) (by decide : (0x80 : UInt8) ≤ 0xBF)
    exact (ih hnext hlonger).take ⟨_, rfl⟩

/-- A byte in the range that comes next makes a longer beginning. -/
theorem Begun.begins_next (h : Begun p taken) {b : UInt8} (hlow : p.low ≤ b) (hhigh : b ≤ p.high) :
    Begins (taken ++ [b]) := by
  have hnext := h.continues hlow hhigh
  cases howed : p.owed with
  | zero =>
    rw [howed] at hnext
    exact ⟨_, ⟨[], by rw [List.append_nil]; exact hnext.symm⟩⟩
  | succ owed =>
    rw [howed] at hnext
    exact hnext.begins

theorem low_le_high_of_lead {b : UInt8} (h : lead b = .opens p) : p.low ≤ p.high := by
  unfold lead at h
  split_ifs at h <;> cases h <;> dsimp only <;> decide

/-- A byte with which no character begins stands for none. -/
theorem lead_of_not_begins {b : UInt8} (h : ¬ Begins [b]) : lead b = .never := by
  rcases lead_cases b with ⟨c, -, hc⟩ | ⟨p, hp, hbegun⟩ | hnever
  · exact absurd ⟨c, hc ▸ List.prefix_rfl⟩ h
  · have hlonger := hbegun.begins_next (UInt8.le_refl _) (low_le_high_of_lead hp)
    exact absurd (hlonger.take ⟨_, rfl⟩) h
  · exact hnever

/-! ## The scan of a part -/

/-- A byte adds to what has been found, whatever that is. -/
theorem step_found (p : Option Pending) (found : List (Option Char)) (b : UInt8) :
    step ⟨p, found⟩ b = ⟨(step ⟨p, []⟩ b).pending, (step ⟨p, []⟩ b).found ++ found⟩ := by
  have hbegin : ∀ front : List (Option Char), begin (front ++ found) b
      = ⟨(begin front b).pending, (begin front b).found ++ found⟩ := by
    intro front
    unfold begin
    split <;> rfl
  unfold step
  cases p with
  | none => exact hbegin []
  | some p =>
    dsimp only
    split
    · split <;> rfl
    · exact hbegin [none]

theorem foldl_step_found (bs : Bytes) (p : Option Pending) (found : List (Option Char)) :
    bs.foldl step ⟨p, found⟩
      = ⟨(bs.foldl step ⟨p, []⟩).pending, (bs.foldl step ⟨p, []⟩).found ++ found⟩ := by
  induction bs generalizing p found with
  | nil => rfl
  | cons b bs ih =>
    rw [List.foldl_cons, List.foldl_cons, step_found]
    generalize step ⟨p, []⟩ b = s
    rw [ih s.pending (s.found ++ found), ih s.pending s.found, List.append_assoc]

theorem none_mem_foldl (bs : Bytes) (h : none ∈ s.found) : none ∈ (bs.foldl step s).found := by
  induction bs generalizing s with
  | nil => exact h
  | cons b bs ih => exact ih (none_mem_step h b)

/-- A beginning that is no character leaves a character begun. -/
theorem foldl_step_beginning (hbegins : Begins part) (hne : part ≠ [])
    (hwhole : ∀ c, ¬ String.utf8EncodeChar c <+: part) :
    ∃ p, Begun p part ∧ part.foldl step ⟨none, []⟩ = ⟨some p, []⟩ := by
  obtain ⟨c, tail, hc⟩ := hbegins
  -- a bad part found here would still be there after the whole character
  have hfound : none ∉ (part.foldl step ⟨none, []⟩).found := by
    intro hmem
    have hmore := none_mem_foldl tail hmem
    rw [← List.foldl_append, hc, foldl_encodeChar] at hmore
    simp at hmore
  obtain ⟨cs, taken, hcs, hpart, hpending⟩ := taken_foldl part hfound
  cases cs with
  | cons d cs =>
    refine absurd ⟨cs.flatMap String.utf8EncodeChar ++ taken, ?_⟩ (hwhole d)
    rw [hpart, List.flatMap_cons, List.append_assoc]
  | nil =>
    obtain rfl : part = taken := hpart
    generalize part.foldl step ⟨none, []⟩ = s at hcs hpending
    obtain ⟨pending, found⟩ := s
    obtain rfl : found = [] := hcs
    cases pending with
    | none => exact absurd hpending hne
    | some p => exact ⟨p, hpending, rfl⟩

/-- The pieces of a scan that has come to its end. -/
def State.finish (s : State) : List (Option Char) :=
  (if s.pending.isSome then none :: s.found else s.found).reverse

/-- Behind a bad part the scan goes on as if the part had been found. -/
theorem finish_badPart (h : IsBadPart part rest) (found : List (Option Char)) :
    ((part ++ rest).foldl step ⟨none, found⟩).finish
      = (rest.foldl step ⟨none, none :: found⟩).finish := by
  have hwhole : ∀ c, ¬ String.utf8EncodeChar c <+: part := by
    intro c hc
    exact h.noCharacter c (hc.trans ⟨rest, rfl⟩)
  rw [List.foldl_append]
  by_cases hbegins : Begins part
  · obtain ⟨p, hbegun, hfold⟩ := foldl_step_beginning hbegins h.nonempty hwhole
    rw [foldl_step_found part, hfold]
    cases rest with
    | nil => rfl
    | cons b rest =>
      -- a byte in range would make the beginning longer
      have hout : ¬ (p.low ≤ b ∧ b ≤ p.high) := by
        rintro ⟨hlow, hhigh⟩
        have hlength := h.longest (part ++ [b]) ⟨rest, by simp⟩ (hbegun.begins_next hlow hhigh)
        rw [List.length_append, List.length_singleton] at hlength
        omega
      have hrange : (decide (p.low ≤ b) && decide (b ≤ p.high)) = false := by
        rw [← Bool.not_eq_true, Bool.and_eq_true, decide_eq_true_iff, decide_eq_true_iff]
        exact hout
      have hstep : step ⟨some p, [] ++ found⟩ b = step ⟨none, none :: found⟩ b := by
        simp only [step, hrange, Bool.false_eq_true, if_false, List.nil_append]
      rw [List.foldl_cons, List.foldl_cons, hstep]
  · obtain ⟨b, rfl⟩ := List.length_eq_one_iff.1 (h.beginning.resolve_left hbegins)
    have hstep : step ⟨none, found⟩ b = ⟨none, none :: found⟩ := by
      simp only [step, begin, lead_of_not_begins hbegins]
    rw [List.foldl_cons, List.foldl_nil, hstep]

/-- The scan finds the parts of a byte string. -/
theorem finish_of_parts {ps : List (Option Char)} (h : Parts bs ps) (found : List (Option Char)) :
    (bs.foldl step ⟨none, found⟩).finish = found.reverse ++ ps := by
  induction h generalizing found with
  | nil => simp [State.finish]
  | character c _ ih =>
    rw [List.foldl_append, foldl_encodeChar, ih, List.reverse_cons, List.append_assoc,
      List.singleton_append]
  | bad hpart _ ih =>
    rw [finish_badPart hpart, ih, List.reverse_cons, List.append_assoc, List.singleton_append]

/-! ## Every byte string has its parts -/

/-- Where no character stands, some first bytes are a bad part. -/
theorem exists_badPart (hne : bs ≠ []) (hno : ∀ c, ¬ String.utf8EncodeChar c <+: bs) :
    ∃ part rest, bs = part ++ rest ∧ IsBadPart part rest := by
  classical
  -- the longest beginning there, or one byte if that is empty
  let P : Nat → Prop := fun n => Begins (bs.take n)
  have hempty : P 0 := ⟨'a', by rw [List.take_zero]; exact List.nil_prefix⟩
  have hP : P (Nat.findGreatest P bs.length) := Nat.findGreatest_spec (Nat.zero_le _) hempty
  have hle : Nat.findGreatest P bs.length ≤ bs.length := Nat.findGreatest_le _
  have hgreatest : ∀ longer, longer <+: bs → Begins longer →
      longer.length ≤ Nat.findGreatest P bs.length := by
    intro longer hprefix hbegins
    refine Nat.le_findGreatest hprefix.length_le ?_
    show Begins (bs.take longer.length)
    rw [← List.prefix_iff_eq_take.1 hprefix]
    exact hbegins
  have hpos : 0 < bs.length := List.length_pos_iff.2 hne
  generalize Nat.findGreatest P bs.length = n at hP hle hgreatest
  have htake : ∀ m, bs = bs.take m ++ bs.drop m := fun m => (List.take_append_drop m bs).symm
  have hlength : (bs.take (max n 1)).length = max n 1 := by
    rw [List.length_take]
    omega
  refine ⟨bs.take (max n 1), bs.drop (max n 1), htake _, ?_, ?_, ?_, ?_⟩
  · rw [← htake]
    exact hno
  · intro hnil
    rw [hnil, List.length_nil] at hlength
    omega
  · rcases Nat.eq_zero_or_pos n with hn | hn
    · right
      omega
    · left
      rw [Nat.max_eq_left hn]
      exact hP
  · intro longer hprefix hbegins
    rw [← htake] at hprefix
    have := hgreatest longer hprefix hbegins
    omega

theorem exists_parts (bs : Bytes) : ∃ ps, Parts bs ps := by
  induction hlength : bs.length using Nat.strong_induction_on generalizing bs with
  | _ n ih =>
    subst hlength
    by_cases hne : bs = []
    · exact ⟨[], hne ▸ .nil⟩
    by_cases hcharacter : ∃ c, String.utf8EncodeChar c <+: bs
    · obtain ⟨c, rest, rfl⟩ := hcharacter
      have hpos := String.length_utf8EncodeChar c ▸ c.utf8Size_pos
      obtain ⟨ps, hps⟩ := ih rest.length (by rw [List.length_append]; omega) rest rfl
      exact ⟨some c :: ps, .character c hps⟩
    · obtain ⟨part, rest, rfl, hpart⟩ := exists_badPart hne (not_exists.1 hcharacter)
      have hpos := List.length_pos_iff.2 hpart.nonempty
      obtain ⟨ps, hps⟩ := ih rest.length (by rw [List.length_append]; omega) rest rfl
      exact ⟨none :: ps, .bad hpart hps⟩

/-- The pieces of the scan are the parts of the byte string, and no others are. -/
theorem parts_iff {ps : List (Option Char)} : Parts bs ps ↔ pieces bs = ps := by
  have hpieces : ∀ {qs}, Parts bs qs → pieces bs = qs := by
    intro qs hqs
    have hfinish := finish_of_parts hqs []
    rw [List.reverse_nil, List.nil_append] at hfinish
    exact hfinish
  constructor
  · exact hpieces
  · rintro rfl
    obtain ⟨qs, hqs⟩ := exists_parts bs
    rw [hpieces hqs]
    exact hqs

/-- The lenient reading gives the text that can be read of the bytes. -/
theorem isReadOf_iff {text : String} : IsReadOf text bs ↔ decodeLossy bs = text := by
  constructor
  · rintro ⟨ps, hps, htext⟩
    rw [decodeLossy, parts_iff.1 hps, ← htext, String.ofList_toList]
  · rintro rfl
    exact ⟨pieces bs, parts_iff.2 rfl, by rw [decodeLossy, String.toList_ofList]⟩

end Conneg.Utf8
