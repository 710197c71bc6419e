import Conneg.Proofs.Accept.Case

/-!
# The answers to the variants of a header

The variants of an `Accept` header differ from it in nothing but the case of letters. They
need not give the same answer, for a quality parameter is heeded only if its name is a small
letter. So a variant may heed a refusing quality that another one does not, and an entry that
has such a parameter under either name may be excluded or not, as one likes
(`exists_excluded`, `exists_not_excluded`).

That leaves a choice at each entry that settles a format unless it is excluded: the
answer is its format, or that of a later entry if it can be excluded (`answers`). These are
exactly the answers that the variants give, so case does not count for a header exactly if
they are all the same (`negotiate_ignoresCase_iff`).
-/

namespace Conneg.Accept

open Text

/-! ## Parameters -/

/-- Whether a parameter is a quality that refuses, under a small name or a capital. -/
def refusing (parameter : List Char) : Bool := refuses (qualityValue? (fold parameter))

variable {p e e' value : List Char}

/-- The name of a quality may be written small or as a capital. -/
theorem exists_named {name : Char} (hname : name.toLower = 'q')
    (h : qualityValue? (fold p) = some value) :
    ∃ p' value', fold p' = fold p ∧ trim p' = name :: '=' :: value' ∧ fold value' = value := by
  obtain ⟨left, right, hleft, hright, hp⟩ := exists_trim p
  have hfold : fold (trim p) = 'q' :: '=' :: value := by
    rw [← trim_fold]
    exact qualityValue?_eq_some.1 h
  obtain ⟨c, cs, htrim, hc, hcs⟩ := List.map_eq_cons_iff.1 hfold
  obtain ⟨d, rest, rfl, hd, hrest⟩ := List.map_eq_cons_iff.1 hcs
  have hcase : fold (left ++ name :: '=' :: rest ++ right) = fold p := by
    rw [hp, htrim]
    simp only [fold, List.map_append, List.map_cons, hname, hc, hd]
    rfl
  have hblank : isBlank name = false := by
    rw [← isBlank_toLower, hname]
    rfl
  obtain ⟨value', hvalue, -⟩ :=
    exists_trim_cons_cons hblank (show isBlank '=' = false by decide) rest
  have htrim' : trim (left ++ name :: '=' :: rest ++ right) = name :: '=' :: value' := by
    rw [trim_append_blank hright, trim_blank_append hleft, hvalue]
  refine ⟨_, value', hcase, htrim', ?_⟩
  have hsame : fold (name :: '=' :: value') = 'q' :: '=' :: value := by
    rw [← htrim', ← trim_fold, hcase, trim_fold, hfold]
  exact (List.cons.inj (List.cons.inj hsame).2).2

/-- A parameter that is no quality, up to case. -/
theorem exists_qualityValue?_eq_none (p : List Char) :
    ∃ p', fold p' = fold p ∧ qualityValue? p' = none := by
  cases h : qualityValue? p with
  | none => exact ⟨p, rfl, h⟩
  | some value =>
    obtain ⟨p', value', hcase, htrim, -⟩ :=
      exists_named (show 'Q'.toLower = 'q' by decide) (qualityValue?_fold_of_eq_some h)
    refine ⟨p', hcase, ?_⟩
    rw [qualityValue?, htrim]
    rfl

/-- Without the small letter no parameter is a quality. -/
theorem exists_findSome?_eq_none (ps : List (List Char)) :
    ∃ ps' : List (List Char), ps'.map fold = ps.map fold ∧ ps'.findSome? qualityValue? = none := by
  induction ps with
  | nil => exact ⟨[], rfl, rfl⟩
  | cons p ps ih =>
    obtain ⟨p', hp, hnone⟩ := exists_qualityValue?_eq_none p
    obtain ⟨ps', hps, hnones⟩ := ih
    refine ⟨p' :: ps', ?_, ?_⟩
    · rw [List.map_cons, List.map_cons, hp, hps]
    · rw [List.findSome?_cons, hnone, hnones]

/-- A refusing quality is heeded if it is the first whose name is small. -/
theorem exists_refuses_findSome? {ps : List (List Char)} (h : ps.any refusing = true) :
    ∃ ps' : List (List Char), ps'.map fold = ps.map fold ∧ refuses (ps'.findSome? qualityValue?) = true := by
  induction ps with
  | nil => exact nomatch h
  | cons p ps ih =>
    cases hp : refusing p with
    | true =>
      obtain ⟨value, quality, hvalue, hread, hrefuses⟩ := refuses_iff.1 hp
      obtain ⟨p', value', hcase, htrim, hsame⟩ :=
        exists_named (show 'q'.toLower = 'q' by decide) hvalue
      refine ⟨p' :: ps, ?_, ?_⟩
      · rw [List.map_cons, List.map_cons, hcase]
      · rw [List.findSome?_cons, qualityValue?_eq_some.2 htrim]
        refine refuses_iff.2 ⟨value', quality, rfl, ?_, hrefuses⟩
        rw [← readQuality?_fold, ← trim_fold, hsame, hread]
    | false =>
      rw [List.any_cons, hp, Bool.false_or] at h
      obtain ⟨p', hcase, hnone⟩ := exists_qualityValue?_eq_none p
      obtain ⟨ps', hps, hrefuses⟩ := ih h
      refine ⟨p' :: ps', ?_, ?_⟩
      · rw [List.map_cons, List.map_cons, hcase, hps]
      · rw [List.findSome?_cons, hnone, hrefuses]

/-! ## Entries -/

/-- Whether an entry has a parameter that excludes it, or excludes it under a small name. -/
def excludable (entry : List Char) : Bool := (parametersOf entry).any refusing

theorem excludable_eq (entry : List Char) :
    excludable entry = (fieldsOf ';' entry).tail.any refusing := by
  have htrim : ∀ ps : List (List Char), ps.any refusing = (ps.map trim).any refusing := by
    intro ps
    have hrefusing : refusing ∘ trim = refusing := by
      funext p
      rw [Function.comp_apply, refusing, ← trim_fold, qualityValue?_trim, refusing]
    rw [List.any_map, hrefusing]
  rw [excludable, htrim, map_trim_parametersOf, ← htrim]

theorem excludable_congr (hcase : fold e = fold e') : excludable e = excludable e' := by
  have hfold : ∀ entry, excludable (fold entry) = excludable entry := by
    intro entry
    have hrefusing : refusing ∘ fold = refusing := by
      funext p
      rw [Function.comp_apply, refusing, fold_fold, refusing]
    rw [excludable, parametersOf_fold, List.any_map, hrefusing, excludable]
  rw [← hfold e, hcase, hfold]

theorem excludable_of_excluded (h : Excluded e) : excludable e = true := by
  obtain ⟨earlier, parameter, later, value, quality, hparameters, -, htrim, hread, hrefuses⟩ := h
  have hvalue := qualityValue?_fold_of_eq_some (qualityValue?_eq_some.2 htrim)
  have hrefusing : refusing parameter = true := by
    refine refuses_iff.2 ⟨fold value, quality, hvalue, ?_, hrefuses⟩
    rw [trim_fold, readQuality?_fold, hread]
  rw [excludable, hparameters]
  exact List.any_eq_true.2 ⟨parameter, by simp, hrefusing⟩

/-- The parameters of an entry may be written in another case, and the rest of it stays. -/
theorem exists_parameters {ps : List (List Char)}
    (h : ps.map fold = (fieldsOf ';' e).tail.map fold) :
    ∃ e', fold e' = fold e ∧ (fieldsOf ';' e').tail = ps := by
  obtain ⟨media, parameters, hfields⟩ := List.exists_cons_of_ne_nil (fieldsOf_ne_nil ';' e)
  have hcase : (media :: ps).map fold = (fieldsOf ';' e).map fold := by
    rw [hfields, List.map_cons, List.map_cons, h, hfields, List.tail_cons]
  obtain ⟨e', hfields', he'⟩ := exists_fieldsOf_eq (by decide) hcase
  exact ⟨e', he', by rw [hfields', List.tail_cons]⟩

/-- An entry may be written so that it is not excluded. -/
theorem exists_not_excluded (e : List Char) : ∃ e', fold e' = fold e ∧ ¬ Excluded e' := by
  obtain ⟨ps, hps, hnone⟩ := exists_findSome?_eq_none (fieldsOf ';' e).tail
  obtain ⟨e', hcase, rfl⟩ := exists_parameters hps
  refine ⟨e', hcase, ?_⟩
  rw [excluded_iff_refuses, hnone]
  exact Bool.false_ne_true

/-- An entry with a refusing quality may be written so that it is excluded. -/
theorem exists_excluded (h : excludable e = true) : ∃ e', fold e' = fold e ∧ Excluded e' := by
  rw [excludable_eq] at h
  obtain ⟨ps, hps, hrefuses⟩ := exists_refuses_findSome? h
  obtain ⟨e', hcase, rfl⟩ := exists_parameters hps
  exact ⟨e', hcase, excluded_iff_refuses.2 hrefuses⟩

theorem semicolon_notMem_essence (e : List Char) : ';' ∉ essence e := by
  obtain ⟨left, right, -, -, hbefore⟩ := exists_trim (before ';' e)
  intro hmem
  have hnot : ';' ∉ before ';' e := notMem_before ';' e
  rw [hbefore] at hnot
  exact hnot (List.mem_append_left _ (List.mem_append_right _ hmem))

theorem parametersOf_essence (e : List Char) : parametersOf (essence e) = [] := by
  rw [parametersOf, essence, trim_trim, ← essence,
    fieldsOf_of_notMem (semicolon_notMem_essence e), List.tail_cons]

theorem not_excluded_essence (e : List Char) : ¬ Excluded (essence e) := by
  rintro ⟨earlier, parameter, later, value, quality, hparameters, -⟩
  rw [parametersOf_essence] at hparameters
  simp at hparameters

/-- An entry settles what its media type does, unless it is excluded. -/
theorem decide?_eq_essence (fallback : Format) (e : List Char) :
    decide? fallback e = if Excluded e then none else decide? fallback (essence e) := by
  have hopen : IsOpen (essence e) ↔ IsOpen e := by rw [IsOpen, essence_essence, IsOpen]
  have hformat : Format.ofContentType? (essence e) = Format.ofContentType? e := by
    rw [Format.ofContentType?, essence_essence, Format.ofContentType?]
  have hblank : IsBlankText (essence e) ↔ essence e = [] := by
    rw [← trim_eq_nil_iff, essence, trim_trim]
  have hnil : IsBlankText e → essence e = [] := by
    intro h
    rw [essence, trim_eq_nil_iff]
    exact fun c hc => h c ((List.takeWhile_sublist _).mem hc)
  -- no media type settles nothing
  have hnothing : essence e = [] →
      (if IsOpen e then some fallback else Format.ofContentType? e) = none := by
    intro h
    rw [if_neg (by rw [IsOpen, h]; decide), Format.ofContentType?, h]
    rfl
  simp only [decide?_eq, not_excluded_essence, or_false, hopen, hformat, hblank]
  by_cases hexcluded : Excluded e
  · rw [if_pos (.inr hexcluded), if_pos hexcluded]
  · by_cases hmedia : essence e = []
    · rw [if_neg hexcluded, if_pos hmedia, hnothing hmedia, ite_self]
    · rw [if_neg (not_or.2 ⟨mt hnil hmedia, hexcluded⟩), if_neg hexcluded, if_neg hmedia]

theorem decide?_essence_congr (fallback : Format) (hcase : fold e = fold e') :
    decide? fallback (essence e) = decide? fallback (essence e') := by
  apply decide?_of_namedAlike
  · rw [← essence_fold, hcase, essence_fold]
  · rw [parametersOf_essence, parametersOf_essence]
    exact .nil

/-! ## Headers -/

/-- The answers to the variants of a list of entries. -/
def answers (fallback : Format) : List (List Char) → List Format
  | [] => [fallback]
  | e :: es =>
    match decide? fallback (essence e) with
    | none => answers fallback es
    | some f => if excludable e then f :: answers fallback es else [f]

variable {fallback f : Format} {es es' : List (List Char)}

theorem choose_cons (fallback : Format) (e : List Char) (es : List (List Char)) :
    choose fallback (e :: es)
      = match decide? fallback e with
        | some f => f
        | none => choose fallback es := by
  rw [choose, List.findSome?_cons]
  cases decide? fallback e <;> rfl

/-- What a variant is answered with is one of the answers. -/
theorem choose_mem_answers (hcase : es'.map fold = es.map fold) :
    choose fallback es' ∈ answers fallback es := by
  induction es generalizing es' with
  | nil =>
    obtain rfl := List.map_eq_nil_iff.1 hcase
    exact List.mem_singleton.2 rfl
  | cons e es ih =>
    obtain ⟨e', rest, rfl, he, hrest⟩ := List.map_eq_cons_iff.1 hcase
    rw [choose_cons, decide?_eq_essence, decide?_essence_congr fallback he, answers]
    by_cases hexcluded : Excluded e'
    · have hexcludable : excludable e = true :=
        excludable_congr he ▸ excludable_of_excluded hexcluded
      rw [if_pos hexcluded, hexcludable]
      cases decide? fallback (essence e) with
      | none => exact ih hrest
      | some f => exact List.mem_cons_of_mem f (ih hrest)
    · rw [if_neg hexcluded]
      cases decide? fallback (essence e) with
      | none => exact ih hrest
      | some f =>
        show f ∈ if excludable e then f :: answers fallback es else [f]
        split
        · exact List.mem_cons_self
        · exact List.mem_singleton.2 rfl

/-- Each of the answers is what some variant is answered with. -/
theorem exists_choose_of_mem_answers (h : f ∈ answers fallback es) :
    ∃ es' : List (List Char), es'.map fold = es.map fold ∧ choose fallback es' = f := by
  induction es with
  | nil => exact ⟨[], rfl, (List.mem_singleton.1 h).symm⟩
  | cons e es ih =>
    -- the entry may be written so that it settles the format
    have hsettled : ∀ g, decide? fallback (essence e) = some g →
        ∃ es' : List (List Char), es'.map fold = (e :: es).map fold ∧ choose fallback es' = g := by
      intro g hg
      obtain ⟨e', he, hexcluded⟩ := exists_not_excluded e
      refine ⟨e' :: es, by rw [List.map_cons, List.map_cons, he], ?_⟩
      rw [choose_cons, decide?_eq_essence, if_neg hexcluded, decide?_essence_congr fallback he, hg]
    have hpassed : ∀ e', fold e' = fold e → decide? fallback e' = none → f ∈ answers fallback es →
        ∃ es' : List (List Char), es'.map fold = (e :: es).map fold ∧ choose fallback es' = f := by
      intro e' he hnone hf
      obtain ⟨es', hes, hchoose⟩ := ih hf
      refine ⟨e' :: es', by rw [List.map_cons, List.map_cons, he, hes], ?_⟩
      rw [choose_cons, hnone, hchoose]
    rw [answers] at h
    cases hmedia : decide? fallback (essence e) with
    | none =>
      rw [hmedia] at h
      refine hpassed e rfl ?_ h
      rw [decide?_eq_essence, hmedia, ite_self]
    | some g =>
      rw [hmedia] at h
      cases hexcludable : excludable e with
      | false =>
        simp only [hexcludable, Bool.false_eq_true, if_false, List.mem_singleton] at h
        exact h ▸ hsettled g hmedia
      | true =>
        simp only [hexcludable, if_true] at h
        rcases List.mem_cons.1 h with rfl | hlater
        · exact hsettled f hmedia
        · obtain ⟨e', he, hexcluded⟩ := exists_excluded hexcludable
          refine hpassed e' he ?_ hlater
          rw [decide?_eq_essence, if_pos hexcluded]

/-- The answers to the variants of a header are those to the variants of its entries. -/
theorem mem_answers_iff {s : String} :
    f ∈ answers fallback (entriesOf s) ↔
      ∃ s' : String, sameIgnoringCase s.toList s'.toList = true ∧
        negotiate (some s') fallback = f := by
  constructor
  · intro h
    obtain ⟨es, hes, rfl⟩ := exists_choose_of_mem_answers h
    obtain ⟨cs, hfields, hcs⟩ := exists_fieldsOf_eq (show ','.isAlpha = false by decide) hes
    refine ⟨String.ofList cs, ?_, ?_⟩
    · rw [String.toList_ofList, sameIgnoringCase_iff]
      exact hcs.symm
    · rw [negotiate, entriesOf, String.toList_ofList, hfields]
  · rintro ⟨s', hcase, rfl⟩
    apply choose_mem_answers
    rw [entriesOf, entriesOf, ← fieldsOf_fold (by decide), ← sameIgnoringCase_iff.1 hcase,
      fieldsOf_fold (by decide)]

/-- **Case counts in the names of quality parameters, and nowhere else.** The variants of a
header, which differ from it in the case of letters, give the same answer if their
parameters are named alike. All in all they give exactly the answers that are left when each
entry with a refusing quality, under a small name or a capital, may be excluded or not. So
case does not count for a header exactly if these answers are the same. -/
theorem negotiate_ignoresCase_iff (s : String) (fallback : Format) :
    (∀ s' : String, sameIgnoringCase s.toList s'.toList = true → NamesAlike s s' →
      negotiate (some s) fallback = negotiate (some s') fallback) ∧
    (∀ f, f ∈ answers fallback (entriesOf s) ↔
      ∃ s' : String, sameIgnoringCase s.toList s'.toList = true ∧
        negotiate (some s') fallback = f) ∧
    ((∀ s' : String, sameIgnoringCase s.toList s'.toList = true →
        negotiate (some s) fallback = negotiate (some s') fallback) ↔
      ∀ f ∈ answers fallback (entriesOf s), f = negotiate (some s) fallback) := by
  refine ⟨fun s' => negotiate_of_namesAlike fallback, fun f => mem_answers_iff, ?_, ?_⟩
  · intro hignores f hf
    obtain ⟨s', hcase, rfl⟩ := mem_answers_iff.1 hf
    exact (hignores s' hcase).symm
  · intro hanswers s' hcase
    exact (hanswers _ (mem_answers_iff.2 ⟨s', hcase, rfl⟩)).symm

/-- A header that may be written in any case, for its first entry names no format and its
second one is refused by no name. In the other header BSON is refused by a capital only, so
it may be left for JSON. -/
theorem negotiate_shoutedBson :
    let s := "Text/HTML;Q=0, Application/*; Level=A;q=INF, application/x-BSON;q=0E0"
    let s' := "text/html;Q=0, application/*; level=a;q=inf, Application/X-bson;q=0e0"
    let shouted := "text/html, application/x-bson; Q=0, */*;q=-INF"
    sameIgnoringCase s.toList s'.toList = true ∧ NamesAlike s s' ∧
      negotiate (some s) .msgpack = negotiate (some s') .msgpack ∧
      (∀ s'' : String, sameIgnoringCase s.toList s''.toList = true →
        negotiate (some s) .msgpack = negotiate (some s'') .msgpack) ∧
      negotiate (some shouted) .json = .bson ∧
      ∃ s'' : String, sameIgnoringCase shouted.toList s''.toList = true ∧
        negotiate (some s'') .json = .json := by
  intro s s' shouted
  have hcase : sameIgnoringCase s.toList s'.toList = true := by decide +kernel
  have hnames : NamesAlike s s' := by
    unfold NamesAlike
    decide +kernel
  obtain ⟨halike, -, hignores⟩ := negotiate_ignoresCase_iff s .msgpack
  obtain ⟨-, hanswers, -⟩ := negotiate_ignoresCase_iff shouted .json
  have hsingle : ∀ f ∈ answers .msgpack (entriesOf s), f = negotiate (some s) .msgpack := by
    decide +kernel
  have hjson : .json ∈ answers .json (entriesOf shouted) := by decide +kernel
  exact ⟨hcase, hnames, halike s' hcase hnames, hignores.2 hsingle, by decide +kernel,
    (hanswers .json).1 hjson⟩

/-- The name of a quality parameter is not read without regard to case. -/
theorem negotiate_heeds_capital :
    ¬ ∀ (s s' : String) (fallback : Format), sameIgnoringCase s.toList s'.toList = true →
      negotiate (some s) fallback = negotiate (some s') fallback := by
  intro h
  obtain ⟨hsmall, hcapital⟩ := @negotiate_token_quality .bson .json "0" (by decide) (by decide)
    (.numeral false 0 0) (by decide) (by decide)
  have hsame := h "application/x-bson;q=0" "application/x-bson;Q=0" .json (by decide)
  exact absurd (hsmall.symm.trans (hsame.trans hcapital)) (by decide)

end Conneg.Accept
