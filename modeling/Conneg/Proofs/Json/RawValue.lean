import Conneg.Proofs.Json.Bounded

/-!
# Values that are spelled in a text

A text under the raw key is read as a body of its own, whatever the format it stands in. The reader
of such texts calls itself on shorter ones only, and no text in a body is as long as the body. So
what a text stands for is what it is decoded as (`rawValue?_eq_some`), and that is no longer than
the text (`rawValue?_short`).

What is read of a tree depends on the reader of such texts only through the texts of the tree
(`Node.readAny_rawValue`).
-/

namespace Conneg

namespace Wire

variable {σ : Type} {P : σ → Prop} {limit : Nat} {R : ReadRules σ} {f : String → Option Any}

/-- A map that is led by the raw key is read as what stands under the key. -/
theorem Node.readAny_of_raw? {b b' : Budget} {es rest : Entries σ} {t : Node σ}
    (hb : b.enter = some b') (h : es.raw? R = some (t, rest)) :
    (Node.map es).readAny R b = t.readRaw R (R.openEnded (.map es)) rest := by
  simp only [Node.readAny, hb, h]

theorem Node.rawValue?_congr (hf : ∀ {x s}, P x → R.meaning x = .text s → f s = R.rawValue? s)
    {t : Node σ} (ht : t.Bounded P limit) :
    t.rawValue? { R with rawValue? := f } = t.rawValue? R := by
  cases t with
  | broken | seq | map => rfl
  | scalar x =>
    simp only [Node.rawValue?]
    split
    · next s hs => exact hf ht hs
    · rfl

mutual

/-- A value of no fixed type is read alike by two readings of the texts that are in its tree. -/
theorem Node.readAny_rawValue
    (hf : ∀ {x s}, P x → R.meaning x = .text s → f s = R.rawValue? s) {b : Budget} {t : Node σ}
    (ht : t.Bounded P limit) : t.readAny { R with rawValue? := f } b = t.readAny R b := by
  cases t with
  | broken | scalar => rfl
  | seq xs =>
    simp only [Node.readAny]
    cases b.enter with
    | none => rfl
    | some b => simp only [Items.readAny_rawValue hf ht.2]
  | map es =>
    have hsame : es.raw? { R with rawValue? := f } = es.raw? R := rfl
    simp only [Node.readAny, hsame]
    cases b.enter with
    | none => rfl
    | some b =>
      cases hraw : es.raw? R with
      | none => simp only [Entries.readAny_rawValue hf ht.2]
      | some p =>
        obtain ⟨u, rest⟩ := p
        obtain ⟨x, rfl⟩ := Entries.raw?_eq_some hraw
        simp only [Node.readRaw, Node.rawValue?_congr hf ht.2.2.1]

theorem Items.readAny_rawValue
    (hf : ∀ {x s}, P x → R.meaning x = .text s → f s = R.rawValue? s) {b : Budget} {xs : Items σ}
    {rev : List Any} (hxs : xs.Bounded P limit) :
    xs.readAny { R with rawValue? := f } b rev = xs.readAny R b rev := by
  cases xs with
  | done | broken => rfl
  | cons t rest =>
    simp only [Items.readAny, Node.readAny_rawValue hf hxs.1]
    cases t.readAny R b with
    | error e => rfl
    | ok v => exact Items.readAny_rawValue hf hxs.2

theorem Entries.readAny_rawValue
    (hf : ∀ {x s}, P x → R.meaning x = .text s → f s = R.rawValue? s) {b : Budget}
    {es : Entries σ} {first : Bool} {members : List (String × Any)}
    (hes : es.Bounded P limit) :
    es.readAny { R with rawValue? := f } b first members = es.readAny R b first members := by
  cases es with
  | done | broken => rfl
  | cons key t rest =>
    cases key with
    | broken | seq | map => rfl
    | scalar x =>
      simp only [Entries.readAny, Node.readAny_rawValue hf hes.2.1]
      cases R.memberName first x with
      | none => rfl
      | some name =>
        cases t.readAny R b with
        | error e => rfl
        | ok v => exact Entries.readAny_rawValue hf hes.2.2

end

end Wire

namespace Json

open Wire

theorem toOption_eq_some {x : Except Fault Any} {v : Any} : x.toOption = some v ↔ x = .ok v := by
  cases x with
  | error e => exact ⟨nofun, nofun⟩
  | ok w => exact ⟨fun h => congrArg _ (Option.some.inj h), fun h => congrArg _ (Except.ok.inj h)⟩

/-- A text stands for no more than it spells. -/
theorem rawValue?_short {limit : Nat} {text : String} {v : Any} (htext : ShortText limit text)
    (h : rawValue? text = some v) : v.Short limit := by
  rw [rawValue?] at h
  obtain ⟨tree, rest, hparse, -, hread⟩ := decodeBy_eq_ok.1 (toOption_eq_some.1 h)
  refine Node.readAny_short (keeps_rulesFor ?_) (parse_bounded hparse (Nat.le_of_lt htext)) hread
  intro inner w hinner hw
  split at hw
  · exact rawValue?_short hinner hw
  · cases hw
termination_by (Utf8.encode text).length

theorem keeps {limit : Nat} : readRules.Keeps (Atom.Short limit) limit :=
  keeps_rulesFor rawValue?_short

/-- **A text under the raw key stands for what it is decoded as.** -/
theorem rawValue?_eq_some {text : String} {v : Any} :
    rawValue? text = some v ↔ decode .any (Utf8.encode text) = .ok v := by
  rw [rawValue?, toOption_eq_some, decode, decodeBy_eq_ok, decodeBy_eq_ok]
  refine exists_congr fun tree => exists_congr fun rest => and_congr_right fun hparse =>
    and_congr_right fun _ => ?_
  have hbounded := parse_bounded hparse (Nat.le_refl _)
  show tree.readAny { readRules with rawValue? := _ } (some 127) = .ok v ↔
    tree.readAny readRules (some 127) = .ok v
  rw [Node.readAny_rawValue _ hbounded]
  -- a text in the tree is shorter than the whole, so it is read
  intro x s hx hs
  exact dif_pos (keeps.text hx (by rw [hs]; rfl))

end Json
end Conneg
