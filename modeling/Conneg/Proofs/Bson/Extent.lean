import Conneg.Bson.Document
import Conneg.Proofs.Wire.Run

/-!
# Where a BSON document ends

A document says in its first four bytes how long it is, so it is split off in front of
anything (`embedded?_undisturbed`). A body is one document from its first byte to its
last: with a tail behind it, it is none (`parse_append`). Nothing is read from a body that
is none (`read_broken`), so an accepted body is refused as soon as bytes are put behind it
(`decode_append`).
-/

namespace Conneg.Bson

open Wire

variable {bs tail : Bytes}

theorem length?_undisturbed (bs tail : Bytes) : Undisturbed length? bs tail := by
  intro n rest h
  simp only [length?] at h ⊢
  cases hs : Bytes.split? 4 bs with
  | none => simp [hs] at h
  | some p =>
    obtain ⟨front, after⟩ := p
    obtain ⟨hsuffix, htail⟩ := undisturbed_split? 4 bs tail front after hs
    simp only [hs] at h
    simp only [htail]
    split at h
    · next hlt =>
      obtain ⟨rfl, rfl⟩ := Prod.mk.inj (Option.some.inj h)
      exact ⟨hsuffix, if_pos hlt⟩
    · cases h

/-- A document is split off by its own length, whatever stands behind it. -/
theorem embedded?_undisturbed (bs tail : Bytes) : Undisturbed embedded? bs tail := by
  intro body rest h
  simp only [embedded?] at h ⊢
  cases hl : length? bs with
  | none => simp [hl] at h
  | some p =>
    obtain ⟨n, after⟩ := p
    obtain ⟨hsuffix, htail⟩ := length?_undisturbed bs tail n after hl
    simp only [hl] at h
    simp only [htail]
    split at h
    · cases h
    next hn =>
    rw [if_neg hn]
    cases hs : Bytes.split? (n - 4) after with
    | none => simp [hs] at h
    | some p =>
      obtain ⟨body', rest'⟩ := p
      obtain ⟨hsuffix', htail'⟩ := undisturbed_split? (n - 4) after tail body' rest' hs
      simp only [hs] at h
      simp only [htail']
      split at h
      · next hzero =>
        obtain ⟨rfl, rfl⟩ := Prod.mk.inj (Option.some.inj h)
        exact ⟨hsuffix'.trans hsuffix, if_pos hzero⟩
      · cases h

/-- Nothing is read from a broken tree, of whatever schema. -/
theorem read_broken (s : Schema) (b : Budget) :
    s.read readRules b .broken = .error .unreadable := by
  match s with
  | .optional s =>
    show (s.read readRules b .broken).map some = _
    rw [read_broken s b]
    rfl
  | .readOnly s => exact read_broken s b
  | .any | .bool | .integer _ | .float | .text | .unit | .list _ | .pair _ _ | .map _ _
  | .record _ | .choice _ => rfl

/-- A body that is accepted is framed: its length is that of the whole body. -/
theorem embedded?_of_decode {s : Schema} {v : s.Carrier} (h : decode s bs = .ok v) :
    ∃ body, embedded? bs = some (body, []) := by
  simp only [decode, parse] at h
  split at h
  · next body hframe => exact ⟨body, hframe⟩
  · rw [read_broken] at h
    cases h

/-- A document with a tail behind it is no body. -/
theorem parse_append {body : Bytes} (h : embedded? bs = some (body, [])) (htail : tail ≠ []) :
    parse (bs ++ tail) = .broken := by
  obtain ⟨-, hembedded⟩ := embedded?_undisturbed bs tail body [] h
  obtain ⟨b, tail', rfl⟩ := List.exists_cons_of_ne_nil htail
  simp only [parse, hembedded, List.nil_append]

/-- Bytes behind an accepted body are refused. -/
theorem decode_append {s : Schema} {v : s.Carrier} (h : decode s bs = .ok v)
    (htail : tail ≠ []) : decode s (bs ++ tail) = .error .unreadable := by
  obtain ⟨body, hframe⟩ := embedded?_of_decode h
  rw [decode, parse_append hframe htail, read_broken]

end Conneg.Bson
