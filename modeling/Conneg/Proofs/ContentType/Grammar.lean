import Conneg.Proofs.Text.Case

/-!
# Which content types name a format

A content type names a format exactly if it is the format's token up to the case of ASCII
letters, with white space around it, and perhaps anything at all behind a semicolon
(`Format.NamedBy`). Neither white space nor a semicolon stands in a token, so the media type
of such a text is its token (`essence_of_namedBy`); and what is left of a text by cutting and
trimming is put back around its media type (`namedBy_of_essence`).

Only the 26 letters have a second case here. A long s is not an `s`, so it stays in the media
type and the text names nothing.
-/

namespace Conneg

open Text

namespace Text

/-- A text without white space is not changed by trimming. -/
theorem trim_of_notBlank {cs : List Char} (h : ∀ c ∈ cs, isBlank c = false) : trim cs = cs := by
  have hkeep : ∀ {ds : List Char}, (∀ c ∈ ds, isBlank c = false) → ds.dropWhile isBlank = ds := by
    intro ds hds
    cases ds with
    | nil => rfl
    | cons d ds =>
      apply List.dropWhile_cons_of_neg
      rw [hds d List.mem_cons_self]
      exact Bool.false_ne_true
  rw [trim, hkeep h, hkeep (fun c hc => h c (List.mem_reverse.1 hc)), List.reverse_reverse]

/-- A text is what stands before its first separator, or has the separator next to that. -/
theorem before_cases (sep : Char) (cs : List Char) :
    cs = before sep cs ∨ ∃ rest, cs = before sep cs ++ sep :: rest := by
  by_cases hmem : sep ∈ cs
  · obtain ⟨front, rest, rfl, hfront⟩ := List.eq_append_cons_of_mem hmem
    right
    refine ⟨rest, ?_⟩
    rw [before_append_of_notMem hfront, before, List.takeWhile_cons_of_neg (by simp),
      List.append_nil]
  · exact .inl (before_of_notMem hmem).symm

end Text

namespace Format

/-- Whether a text names a format: the format's token, up to the case of ASCII letters, with
white space around it, either alone or in front of a semicolon and any parameters. -/
inductive NamedBy (f : Format) : List Char → Prop
  | alone (left token right : List Char) (hleft : IsBlankText left) (hright : IsBlankText right)
      (htoken : SameUpToCase token f.token.toList) : NamedBy f (left ++ token ++ right)
  | followed (left token right parameters : List Char) (hleft : IsBlankText left)
      (hright : IsBlankText right) (htoken : SameUpToCase token f.token.toList) :
      NamedBy f (left ++ token ++ right ++ ';' :: parameters)

variable {f g : Format} {cs token : List Char}

/-! ## Tokens -/

/-- Tokens have no capitals. -/
theorem fold_token (f : Format) : fold f.token.toList = f.token.toList := by
  cases f <;> rfl

/-- Tokens have neither white space nor semicolons. -/
theorem plain_of_mem_token {c : Char} (hc : c ∈ f.token.toList) : isBlank c = false ∧ c ≠ ';' := by
  have hall : f.token.toList.all (fun d => !isBlank d && d != ';') = true := by
    cases f <;> rfl
  have hplain := List.all_eq_true.1 hall c hc
  rw [Bool.and_eq_true, Bool.not_eq_true', bne_iff_ne] at hplain
  exact hplain

theorem notBlank_of_sameUpToCase (h : SameUpToCase token f.token.toList) :
    (∀ c ∈ token, isBlank c = false) ∧ ';' ∉ token := by
  rw [← sameIgnoringCase_iff_sameUpToCase, sameIgnoringCase_iff, fold_token f] at h
  have hfolded : ∀ c ∈ token, c.toLower ∈ f.token.toList := by
    intro c hc
    rw [← h]
    exact List.mem_map_of_mem hc
  constructor
  · intro c hc
    rw [← isBlank_toLower]
    exact (plain_of_mem_token (hfolded c hc)).1
  · intro hsemicolon
    exact (plain_of_mem_token (hfolded _ hsemicolon)).2 rfl

/-- A text is the token of one format at most. -/
theorem sameUpToCase_token_unique (hf : SameUpToCase token f.token.toList)
    (hg : SameUpToCase token g.token.toList) : f = g := by
  rw [← sameIgnoringCase_iff_sameUpToCase, sameIgnoringCase_iff, fold_token] at hf hg
  exact token_injective (String.toList_injective (hf.symm.trans hg))

theorem ofToken?_eq_some : ofToken? cs = some f ↔ SameUpToCase cs f.token.toList := by
  have hfound : ∀ {g : Format}, ofToken? cs = some g → SameUpToCase cs g.token.toList := by
    intro g hg
    unfold ofToken? at hg
    have hsame := List.find?_some hg
    exact sameIgnoringCase_iff_sameUpToCase.1 hsame
  constructor
  · intro h
    exact hfound h
  · intro h
    cases hcs : ofToken? cs with
    | none =>
      have hnone := List.find?_eq_none.1 hcs f (mem_all f)
      exact absurd (sameIgnoringCase_iff_sameUpToCase.2 h) hnone
    | some g => rw [sameUpToCase_token_unique (hfound hcs) h]

/-! ## Content types -/

theorem essence_framed {left right : List Char} (hleft : IsBlankText left)
    (hright : IsBlankText right) (htoken : SameUpToCase token f.token.toList) :
    ';' ∉ left ++ token ++ right ∧ trim (left ++ token ++ right) = token := by
  obtain ⟨hblank, hsemicolon⟩ := notBlank_of_sameUpToCase htoken
  have hnotMem : ∀ {ds : List Char}, IsBlankText ds → ';' ∉ ds :=
    notMem_of_isBlankText (by decide)
  constructor
  · intro hmem
    rcases List.mem_append.1 hmem with hmem | hmem
    · rcases List.mem_append.1 hmem with hmem | hmem
      · exact hnotMem hleft hmem
      · exact hsemicolon hmem
    · exact hnotMem hright hmem
  · rw [trim_append_blank hright, trim_blank_append hleft, trim_of_notBlank hblank]

/-- The media type of a text that names a format is the token it has. -/
theorem essence_of_namedBy (h : f.NamedBy cs) : SameUpToCase (essence cs) f.token.toList := by
  cases h with
  | alone left token right hleft hright htoken =>
    obtain ⟨hsemicolon, htrim⟩ := essence_framed hleft hright htoken
    rw [essence, before_of_notMem hsemicolon, htrim]
    exact htoken
  | followed left token right parameters hleft hright htoken =>
    obtain ⟨hsemicolon, htrim⟩ := essence_framed hleft hright htoken
    rw [essence, before_append_of_notMem hsemicolon, before,
      List.takeWhile_cons_of_neg (by simp), List.append_nil, htrim]
    exact htoken

theorem namedBy_of_essence (h : SameUpToCase (essence cs) f.token.toList) : f.NamedBy cs := by
  obtain ⟨left, right, hleft, hright, hbefore⟩ := exists_trim (before ';' cs)
  rcases before_cases ';' cs with hcs | ⟨parameters, hcs⟩
  · rw [hcs, hbefore]
    exact .alone left _ right hleft hright h
  · rw [hcs, hbefore]
    exact .followed left _ right parameters hleft hright h

theorem ofContentType?_eq_some : ofContentType? cs = some f ↔ f.NamedBy cs := by
  rw [ofContentType?, ofToken?_eq_some]
  exact ⟨namedBy_of_essence, essence_of_namedBy⟩

theorem ofContentType_eq_ok {s : String} : ofContentType s = .ok f ↔ f.NamedBy s.toList := by
  rw [← ofContentType?_eq_some, ofContentType]
  cases ofContentType? s.toList with
  | none => simp
  | some g => simp

theorem ofContentType_eq_error {s : String} {e : CodingError} :
    ofContentType s = .error e ↔ (∀ f : Format, ¬ f.NamedBy s.toList) ∧ e = .unsupported s := by
  constructor
  · intro h
    constructor
    · intro f hf
      rw [ofContentType_eq_ok.2 hf] at h
      exact nomatch h
    · unfold ofContentType at h
      split at h
      · exact nomatch h
      · exact (Except.error.inj h).symm
  · rintro ⟨hnone, rfl⟩
    unfold ofContentType
    split
    · next f hf => exact absurd (ofContentType?_eq_some.1 hf) (hnone f)
    · rfl

/-- A text is resolved to a format exactly if it names it: the format's token up to the case of
ASCII letters, with white space around it, and anything behind a semicolon. It names one format
at most, and if it names none then the error carries it unchanged. A text that is read as a
format is read in the same way. -/
theorem ofContentType_grammar (s : String) :
    (∀ f, ofContentType s = .ok f ↔ f.NamedBy s.toList) ∧
      (∀ f g : Format, f.NamedBy s.toList → g.NamedBy s.toList → f = g) ∧
      (∀ e, ofContentType s = .error e
        ↔ (∀ f : Format, ¬ f.NamedBy s.toList) ∧ e = .unsupported s) ∧
      ofText s = ofContentType s := by
  refine ⟨fun f => ofContentType_eq_ok, ?_, fun e => ofContentType_eq_error, rfl⟩
  intro f g hf hg
  exact sameUpToCase_token_unique (essence_of_namedBy hf) (essence_of_namedBy hg)

/-- A media type in capitals after a no-break space, with two parameters: it is JSON and nothing
else. -/
theorem ofContentType_shoutedJson :
    ofContentType "\u00a0APPLICATION/JSON ; charset=utf-8; x" = .ok .json ∧
      ∀ g : Format, g.NamedBy "\u00a0APPLICATION/JSON ; charset=utf-8; x".toList → .json = g := by
  have htoken : SameUpToCase "APPLICATION/JSON".toList (token .json).toList :=
    sameIgnoringCase_iff_sameUpToCase.1 (by decide)
  have hblank : ∀ d, isBlank d = true → IsBlankText [d] := by
    intro d hd c hc
    rw [List.mem_singleton.1 hc]
    exact hd
  have hframed : "\u00a0APPLICATION/JSON ; charset=utf-8; x".toList
      = ['\u00a0'] ++ "APPLICATION/JSON".toList ++ [' '] ++ ';' :: " charset=utf-8; x".toList := rfl
  have hnamed : NamedBy .json "\u00a0APPLICATION/JSON ; charset=utf-8; x".toList := by
    rw [hframed]
    exact .followed _ _ _ _ (hblank _ (by decide)) (hblank _ (by decide)) htoken
  obtain ⟨hok, hunique, -⟩ :=
    ofContentType_grammar "\u00a0APPLICATION/JSON ; charset=utf-8; x"
  exact ⟨(hok .json).2 hnamed, fun g hg => hunique .json g hnamed hg⟩

example : ofContentType? "application/j\u017fon".toList = none := by decide

end Format
end Conneg
