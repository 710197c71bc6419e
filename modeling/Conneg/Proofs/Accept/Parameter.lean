import Conneg.Proofs.Accept.Decisive

/-!
# Entries with one parameter

The parameters of an entry are trimmed once more when they are looked at, so trimming the
entry first makes no difference to them (`excluded_iff_refuses`). An entry that is a recognised
media type and one parameter therefore settles on the type's format, unless the parameter's
name is exactly `q` and its quality refuses (`negotiate_media`, `excluded_quality_iff`).
-/

namespace Conneg.Accept

open Text

theorem qualityValue?_trim (parameter : List Char) :
    qualityValue? (trim parameter) = qualityValue? parameter := by
  rw [qualityValue?, trim_trim, qualityValue?]

/-- The trimmed parameters of an entry are those of the entry once it is trimmed. -/
theorem map_trim_parametersOf (entry : List Char) :
    (parametersOf entry).map trim = (fieldsOf ';' entry).tail.map trim := by
  rw [parametersOf, List.map_tail, map_trim_fieldsOf_trim (by decide), ← List.map_tail]

/-- Whether a quality text, if there is one, refuses its entry. -/
def refuses (text? : Option (List Char)) : Bool :=
  match text?.bind fun text => readQuality? (trim text) with
  | some quality => quality.refuses
  | none => false

theorem refuses_iff {text? : Option (List Char)} :
    refuses text? = true ↔ ∃ text quality, text? = some text ∧
      readQuality? (trim text) = some quality ∧ quality.refuses = true := by
  unfold refuses
  constructor
  · intro h
    split at h
    · next quality hquality =>
      obtain ⟨text, htext, hread⟩ := Option.bind_eq_some_iff.1 hquality
      exact ⟨text, quality, htext, hread, h⟩
    · exact nomatch h
  · rintro ⟨text, quality, rfl, hread, hrefuses⟩
    rw [Option.bind_some, hread]
    exact hrefuses

/-- An entry is excluded exactly if the first quality text of its parameters refuses,
whether or not the entry is trimmed first. -/
theorem excluded_iff_refuses {entry : List Char} :
    Excluded entry ↔ refuses ((fieldsOf ';' entry).tail.findSome? qualityValue?) = true := by
  have htrim : ∀ ps : List (List Char),
      ps.findSome? qualityValue? = (ps.map trim).findSome? qualityValue? := by
    intro ps
    rw [List.findSome?_map]
    exact congrArg (ps.findSome? ·) (funext fun p => (qualityValue?_trim p).symm)
  rw [← refused_iff, refused, qualityText?_after, htrim, map_trim_parametersOf, ← htrim]
  rfl

/-! ## One parameter -/

variable {media parameter text : List Char}

/-- An entry of one parameter is excluded exactly if that is a quality that refuses. -/
theorem excluded_parameter_iff (hmedia : ';' ∉ media) (hparameter : ';' ∉ parameter) :
    Excluded (media ++ ';' :: parameter) ↔
      ∃ value quality, qualityValue? parameter = some value ∧
        readQuality? (trim value) = some quality ∧ quality.refuses = true := by
  rw [excluded_iff_refuses, fieldsOf_append, fieldsOf_of_notMem hmedia,
    fieldsOf_of_notMem hparameter, List.singleton_append, List.tail_cons,
    List.findSome?_singleton, refuses_iff]

theorem qualityValue?_small (text : List Char) :
    ∃ value, qualityValue? ('q' :: '=' :: text) = some value ∧ trim value = trim text := by
  obtain ⟨value, htrim, hvalue⟩ :=
    exists_trim_cons_cons (show isBlank 'q' = false by decide) (show isBlank '=' = false by decide)
      text
  exact ⟨value, qualityValue?_eq_some.2 htrim, hvalue⟩

/-- A parameter whose name is a capital is no quality. -/
theorem qualityValue?_capital (text : List Char) : qualityValue? ('Q' :: '=' :: text) = none := by
  obtain ⟨value, htrim, -⟩ :=
    exists_trim_cons_cons (show isBlank 'Q' = false by decide) (show isBlank '=' = false by decide)
      text
  rw [qualityValue?, htrim]
  rfl

theorem excluded_quality_iff (hmedia : ';' ∉ media) (htext : ';' ∉ text) :
    Excluded (media ++ ';' :: 'q' :: '=' :: text) ↔
      ∃ quality, readQuality? (trim text) = some quality ∧ quality.refuses = true := by
  have hparameter : ';' ∉ 'q' :: '=' :: text := by simp [htext]
  obtain ⟨value, hvalue, htrim⟩ := qualityValue?_small text
  rw [excluded_parameter_iff hmedia hparameter, hvalue]
  simp only [Option.some.injEq, exists_and_left, exists_eq_left', htrim]

theorem not_excluded_capital (hmedia : ';' ∉ media) (htext : ';' ∉ text) :
    ¬ Excluded (media ++ ';' :: 'Q' :: '=' :: text) := by
  have hparameter : ';' ∉ 'Q' :: '=' :: text := by simp [htext]
  rw [excluded_parameter_iff hmedia hparameter, qualityValue?_capital]
  rintro ⟨value, quality, hvalue, -⟩
  exact nomatch hvalue

/-! ## A media type with one parameter -/

variable {f fallback : Format}

theorem ofToken?_eq_some_iff {cs : List Char} :
    Format.ofToken? cs = some f ↔ fold cs = fold f.token.toList := by
  constructor
  · intro h
    unfold Format.ofToken? at h
    have htoken := List.find?_some h
    exact sameIgnoringCase_iff.1 htoken
  · intro h
    have hsame : Format.ofToken? cs = Format.ofToken? f.token.toList := by
      simp only [Format.ofToken?, sameIgnoringCase, h]
    rw [hsame, Format.ofToken?_token]

theorem essence_of_notMem (hmedia : ';' ∉ media) : essence media = trim media := by
  rw [essence, before_of_notMem hmedia]

theorem essence_append_parameter (hmedia : ';' ∉ media) (parameter : List Char) :
    essence (media ++ ';' :: parameter) = essence media := by
  have hbefore : before ';' (';' :: parameter) = [] := List.takeWhile_cons_of_neg (by simp)
  rw [essence, before_append_of_notMem hmedia, hbefore, List.append_nil, essence_of_notMem hmedia]

/-- No comma is in a media type that is recognised. -/
theorem comma_notMem_media (hmedia : ';' ∉ media) (hformat : Format.ofContentType? media = some f) :
    ',' ∉ media := by
  intro hcomma
  have hfold : fold (trim media) = fold f.token.toList := by
    rw [← essence_of_notMem hmedia]
    exact ofToken?_eq_some_iff.1 hformat
  obtain ⟨left, right, hleft, hright, hcs⟩ := exists_trim media
  rw [hcs, List.mem_append, List.mem_append] at hcomma
  rcases hcomma with (hcomma | hcomma) | hcomma
  · exact notMem_of_isBlankText (by decide) hleft hcomma
  · -- folding leaves a comma as it is, and no token has one
    have hmem : ','.toLower ∈ fold f.token.toList := hfold ▸ List.mem_map_of_mem hcomma
    cases f <;> exact absurd hmem (by decide)
  · exact notMem_of_isBlankText (by decide) hright hcomma

/-- A media type that is recognised, with one parameter, settles on its format unless it is
excluded. -/
theorem negotiate_media {s : String} (hs : s.toList = media ++ ';' :: parameter)
    (hmedia : ';' ∉ media) (hformat : Format.ofContentType? media = some f)
    (hcomma : ',' ∉ parameter) :
    negotiate (some s) fallback
      = if Excluded (media ++ ';' :: parameter) then fallback else f := by
  have hsingle : ',' ∉ s.toList := by
    rw [hs]
    simp [comma_notMem_media hmedia hformat, hcomma]
  have hblank : ¬ IsBlankText (media ++ ';' :: parameter) := by
    intro hblank
    exact absurd (hblank ';' (by simp)) (by decide)
  have hessence := essence_append_parameter hmedia parameter
  have hopen : ¬ IsOpen (media ++ ';' :: parameter) := by
    have hfold : fold (essence media) = fold f.token.toList := ofToken?_eq_some_iff.1 hformat
    rw [IsOpen, hessence, sameIgnoringCase_iff, hfold]
    rintro (hstar | hstar)
    · rw [hstar] at hfold
      cases f <;> exact absurd hfold (by decide)
    · cases f <;> exact absurd hstar (by decide)
  have hnames : Format.ofContentType? (media ++ ';' :: parameter) = some f := by
    rw [Format.ofContentType?, hessence]
    exact hformat
  rw [negotiate_single hsingle, decide?_eq, hs, hnames, if_neg hopen]
  simp only [hblank, false_or]
  split <;> rfl

/-! ## A format's token with one parameter -/

theorem semicolon_notMem_token (f : Format) : ';' ∉ f.token.toList := by cases f <;> decide

theorem ofContentType?_token (f : Format) : Format.ofContentType? f.token.toList = some f := by
  cases f <;> decide

/-- One letter decides whether a quality that refuses is heeded: a format whose token it
stands behind is refused by `q`, and chosen by `Q`. -/
theorem negotiate_token_quality {t : String} (hcomma : ',' ∉ t.toList) (hsemicolon : ';' ∉ t.toList)
    {quality : Quality} (hread : readQuality? (trim t.toList) = some quality)
    (hrefuses : quality.refuses = true) :
    negotiate (some (f.token ++ ";q=" ++ t)) fallback = fallback ∧
      negotiate (some (f.token ++ ";Q=" ++ t)) fallback = f := by
  have hsmall : (f.token ++ ";q=" ++ t).toList
      = f.token.toList ++ ';' :: 'q' :: '=' :: t.toList := by simp
  have hcapital : (f.token ++ ";Q=" ++ t).toList
      = f.token.toList ++ ';' :: 'Q' :: '=' :: t.toList := by simp
  have hmedia := semicolon_notMem_token f
  constructor
  · rw [negotiate_media hsmall hmedia (ofContentType?_token f) (by simp [hcomma]),
      if_pos ((excluded_quality_iff hmedia hsemicolon).2 ⟨quality, hread, hrefuses⟩)]
  · rw [negotiate_media hcapital hmedia (ofContentType?_token f) (by simp [hcomma]),
      if_neg (not_excluded_capital hmedia hsemicolon)]

end Conneg.Accept
