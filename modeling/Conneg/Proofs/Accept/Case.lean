import Conneg.Proofs.Accept.Parameter
import Conneg.Proofs.Text.Case
import Mathlib.Data.List.Forall2

/-!
# Case in an `Accept` header

Everything in an entry is compared without regard to case, but for one letter: the name of
a quality parameter is a small `q`. That is the only exception: headers that are the same up
to case, and whose parameters are named alike, give the same answer
(`negotiate_of_namesAlike`).

A folded text is read as the text itself by every reader of quality values (the lemmas on
`fold`), so two entries are compared through what both are folded to. The names are the one
part of an entry that is not read through its folded text, and they are compared one by one
(`NamedAlike`).
-/

namespace Conneg.Accept

open Text

/-! ## Quality values -/

theorem ofChar?_toLower (c : Char) : Digit.ofChar? c.toLower = Digit.ofChar? c := by
  rcases toLower_cases c with h | ⟨hlow, -, hfold⟩
  · rw [h]
  · -- letters are no digits
    have hnone : ∀ d : Char, 65 ≤ d.toNat → Digit.ofChar? d = none := by
      intro d hd
      rw [Digit.ofChar?, Digit.ofCode?, dif_neg (by omega)]
    rw [hnone c hlow, hnone c.toLower (by omega)]

theorem leadingDigits_cons (c : Char) (cs : List Char) :
    leadingDigits (c :: cs)
      = match Digit.ofChar? c with
        | none => ([], c :: cs)
        | some d => (d :: (leadingDigits cs).1, (leadingDigits cs).2) := by
  exact rfl

theorem leadingDigits_fold (cs : List Char) :
    leadingDigits (fold cs) = ((leadingDigits cs).1, fold (leadingDigits cs).2) := by
  induction cs with
  | nil => rfl
  | cons c cs ih =>
    rw [fold_cons, leadingDigits_cons, leadingDigits_cons, ofChar?_toLower, ih]
    split <;> rfl

theorem leadingSign_cons (c : Char) (cs : List Char) :
    leadingSign (c :: cs)
      = if c = '-' then (true, cs) else if c = '+' then (false, cs) else (false, c :: cs) := by
  unfold leadingSign
  split <;> simp_all

theorem leadingSign_fold (cs : List Char) :
    leadingSign (fold cs) = ((leadingSign cs).1, fold (leadingSign cs).2) := by
  cases cs with
  | nil => rfl
  | cons c cs =>
    rw [fold_cons, leadingSign_cons, leadingSign_cons]
    simp only [toLower_eq_iff (show '-'.isAlpha = false by decide),
      toLower_eq_iff (show '+'.isAlpha = false by decide)]
    split
    · rfl
    · split <;> rfl

/-- The letter in front of an exponent may be a capital. -/
theorem isExponentLetter_toLower (c : Char) :
    (c.toLower = 'e' ∨ c.toLower = 'E') ↔ (c = 'e' ∨ c = 'E') := by
  simp only [← Char.toNat_inj]
  rcases toLower_cases c with h | ⟨hlow, hhigh, hfold⟩
  · rw [h]
  · rw [hfold]
    simp
    omega

theorem readExponent?_fold (cs : List Char) : readExponent? (fold cs) = readExponent? cs := by
  cases cs with
  | nil => rfl
  | cons c cs =>
    simp only [fold_cons, readExponent?, isExponentLetter_toLower, leadingSign_fold,
      leadingDigits_fold]
    split
    · obtain ⟨ds, rest⟩ := leadingDigits (leadingSign cs).2
      cases ds with
      | nil => rfl
      | cons d ds => cases rest <;> rfl
    · rfl

/-- The digits after a point, and what follows them; without a point there are none. -/
def fractionDigits (cs : List Char) : List Digit × List Char :=
  match cs with
  | '.' :: cs => leadingDigits cs
  | cs => ([], cs)

theorem fractionDigits_cons (c : Char) (cs : List Char) :
    fractionDigits (c :: cs) = if c = '.' then leadingDigits cs else ([], c :: cs) := by
  unfold fractionDigits
  split <;> simp_all

theorem fractionDigits_fold (cs : List Char) :
    fractionDigits (fold cs) = ((fractionDigits cs).1, fold (fractionDigits cs).2) := by
  cases cs with
  | nil => rfl
  | cons c cs =>
    rw [fold_cons, fractionDigits_cons, fractionDigits_cons, leadingDigits_fold]
    simp only [toLower_eq_iff (show '.'.isAlpha = false by decide)]
    split <;> rfl

theorem readNumeral?_eq (cs : List Char) :
    readNumeral? cs
      = let (whole, rest) := leadingDigits cs
        let (fraction, rest) := fractionDigits rest
        if whole.isEmpty && fraction.isEmpty then none
        else (readExponent? rest).bind fun e =>
          some (valueOf (whole ++ fraction), e - fraction.length) := rfl

theorem readNumeral?_fold (cs : List Char) : readNumeral? (fold cs) = readNumeral? cs := by
  simp only [readNumeral?_eq, leadingDigits_fold, fractionDigits_fold, readExponent?_fold]

theorem readQuality?_fold (cs : List Char) : readQuality? (fold cs) = readQuality? cs := by
  simp only [readQuality?, leadingSign_fold, readNumeral?_fold, sameIgnoringCase_fold]

/-! ## Entries -/

/-- Whether two parameters are named alike: both are quality parameters, or neither is. -/
def NamedAlike (p p' : List Char) : Prop :=
  "q=".toList <+: trim p ↔ "q=".toList <+: trim p'

instance (p p' : List Char) : Decidable (NamedAlike p p') :=
  inferInstanceAs (Decidable (_ ↔ _))

variable {e e' : List Char}

theorem parametersOf_fold (e : List Char) : parametersOf (fold e) = (parametersOf e).map fold := by
  rw [parametersOf, trim_fold, fieldsOf_fold (by decide), ← List.map_tail, parametersOf]

theorem qualityValue?_fold_of_eq_some {p value : List Char} (h : qualityValue? p = some value) :
    qualityValue? (fold p) = some (fold value) := by
  rw [qualityValue?_eq_some] at h ⊢
  rw [trim_fold, h, fold, List.map_append]
  rfl

/-- Parameters that are named alike have quality texts that are the same up to case. -/
theorem qualityValue?_fold {p p' : List Char} (hname : NamedAlike p p') (hcase : fold p = fold p') :
    (qualityValue? p).map fold = (qualityValue? p').map fold := by
  cases h : qualityValue? p with
  | none =>
    have hnone := qualityValue?_eq_none.2 (mt hname.2 (qualityValue?_eq_none.1 h))
    rw [hnone]
  | some value =>
    obtain ⟨value', htrim'⟩ := hname.1 ⟨value, (qualityValue?_eq_some.1 h).symm⟩
    have h' := qualityValue?_eq_some.2 htrim'.symm
    rw [h', Option.map_some, Option.map_some, ← qualityValue?_fold_of_eq_some h, hcase,
      qualityValue?_fold_of_eq_some h']

theorem findSome?_qualityValue? {ps ps' : List (List Char)} (hnames : List.Forall₂ NamedAlike ps ps')
    (hcase : ps.map fold = ps'.map fold) :
    (ps.findSome? qualityValue?).map fold = (ps'.findSome? qualityValue?).map fold := by
  induction hnames with
  | nil => rfl
  | cons hname _ ih =>
    obtain ⟨hp, hps⟩ := List.cons.inj hcase
    -- where the one header has its first quality, the other one has it as well
    have hvalue := qualityValue?_fold hname hp
    rw [List.findSome?_cons, List.findSome?_cons]
    cases h : qualityValue? _ with
    | none =>
      rw [h, Option.map_none, eq_comm, Option.map_eq_none_iff] at hvalue
      rw [hvalue]
      exact ih hps
    | some value =>
      rw [h, Option.map_some, eq_comm, Option.map_eq_some_iff] at hvalue
      obtain ⟨value', h', hfold⟩ := hvalue
      rw [h']
      exact congrArg some hfold.symm

/-- Whether a quality text refuses does not depend on the case of its letters. -/
theorem refuses_fold (text? : Option (List Char)) : refuses (text?.map fold) = refuses text? := by
  cases text? with
  | none => rfl
  | some text =>
    simp only [refuses, Option.map_some, Option.bind_some, trim_fold, readQuality?_fold]

theorem excluded_iff_of_namedAlike (hcase : fold e = fold e')
    (hnames : List.Forall₂ NamedAlike (parametersOf e) (parametersOf e')) :
    Excluded e ↔ Excluded e' := by
  have hparameters : (parametersOf e).map fold = (parametersOf e').map fold := by
    rw [← parametersOf_fold, hcase, parametersOf_fold]
  have hrefuses : ∀ entry, Excluded entry
      ↔ refuses (((parametersOf entry).findSome? qualityValue?).map fold) = true := by
    intro entry
    rw [refuses_fold, ← refused_iff, refused, qualityText?_after]
    rfl
  rw [hrefuses, hrefuses, findSome?_qualityValue? hnames hparameters]

theorem isOpen_fold : IsOpen (fold e) ↔ IsOpen e := by
  have hletterless : ∀ c ∈ "*/*".toList, c.isAlpha = false := by simp
  rw [IsOpen, IsOpen, essence_fold, sameIgnoringCase_fold, fold_eq_iff hletterless]

theorem ofContentType?_fold (e : List Char) :
    Format.ofContentType? (fold e) = Format.ofContentType? e := by
  simp only [Format.ofContentType?, Format.ofToken?, essence_fold, sameIgnoringCase_fold]

/-- Entries that are the same up to case, and whose parameters are named alike, decide on the
same format. -/
theorem decide?_of_namedAlike (fallback : Format) (hcase : fold e = fold e')
    (hnames : List.Forall₂ NamedAlike (parametersOf e) (parametersOf e')) :
    decide? fallback e = decide? fallback e' := by
  have hblank : IsBlankText e ↔ IsBlankText e' := by
    rw [← isBlankText_fold, hcase, isBlankText_fold]
  have hopen : IsOpen e ↔ IsOpen e' := by rw [← isOpen_fold, hcase, isOpen_fold]
  have hformat : Format.ofContentType? e = Format.ofContentType? e' := by
    rw [← ofContentType?_fold, hcase, ofContentType?_fold]
  simp only [decide?_eq, hblank, excluded_iff_of_namedAlike hcase hnames, hopen, hformat]

/-! ## Headers -/

/-- Whether two headers name the parameters of their entries alike, one by one. -/
def NamesAlike (s s' : String) : Prop :=
  List.Forall₂ (fun e e' => List.Forall₂ NamedAlike (parametersOf e) (parametersOf e'))
    (entriesOf s) (entriesOf s')

theorem findSome?_decide? (fallback : Format) {es es' : List (List Char)}
    (hnames : List.Forall₂
      (fun e e' => List.Forall₂ NamedAlike (parametersOf e) (parametersOf e')) es es')
    (hcase : es.map fold = es'.map fold) :
    es.findSome? (decide? fallback) = es'.findSome? (decide? fallback) := by
  induction hnames with
  | nil => rfl
  | cons hname _ ih =>
    obtain ⟨he, hes⟩ := List.cons.inj hcase
    rw [List.findSome?_cons, List.findSome?_cons, decide?_of_namedAlike fallback he hname, ih hes]

/-- Headers that are the same up to case, and whose parameters are named alike, give the same
answer. -/
theorem negotiate_of_namesAlike {s s' : String} (fallback : Format)
    (hcase : sameIgnoringCase s.toList s'.toList = true) (hnames : NamesAlike s s') :
    negotiate (some s) fallback = negotiate (some s') fallback := by
  have hentries : (entriesOf s).map fold = (entriesOf s').map fold := by
    rw [entriesOf, entriesOf, ← fieldsOf_fold (by decide), sameIgnoringCase_iff.1 hcase,
      fieldsOf_fold (by decide)]
  rw [negotiate, negotiate, choose, choose, findSome?_decide? fallback hnames hentries]

end Conneg.Accept
