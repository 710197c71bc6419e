import Conneg.Accept
import Conneg.Proofs.Text.Fields

/-!
# The first decisive entry settles the format

What makes an entry of an `Accept` header decisive is said here of the entry's text,
without the steps of the decision: it is not blank, no quality value excludes it, and
its media type is a wildcard or is recognised (`Decisive`). The decision trims an entry
and takes its media type before it resolves it, and resolving trims and cuts again; but
a media type is its own, so an entry resolves to what its text does as a content type
(`decide?_eq`).

The entries of a header are read from left to right up to the first decisive one. So a
header of two parts is settled by the first part if that has a decisive entry, and by the
second otherwise (`negotiate_append`).
-/

namespace Conneg.Accept

open Text

/-! ## Excluded entries -/

/-- The parameters of an entry: what stands between its semicolons, after the first. -/
def parametersOf (entry : List Char) : List (List Char) := (fieldsOf ';' (trim entry)).tail

/-- Whether a quality value excludes an entry: the first parameter that, trimmed, begins
with `q=` goes on with a number that is not above zero. -/
def Excluded (entry : List Char) : Prop :=
  ∃ earlier parameter later value quality,
    parametersOf entry = earlier ++ parameter :: later ∧
      (∀ p ∈ earlier, ¬ "q=".toList <+: trim p) ∧
      trim parameter = "q=".toList ++ value ∧
      readQuality? (trim value) = some quality ∧ quality.refuses = true

/-- The quality text of a parameter. -/
def qualityValue? (parameter : List Char) : Option (List Char) :=
  match trim parameter with
  | 'q' :: '=' :: value => some value
  | _ => none

theorem qualityValue?_eq_some {parameter value : List Char} :
    qualityValue? parameter = some value ↔ trim parameter = "q=".toList ++ value := by
  unfold qualityValue?
  constructor
  · intro h
    split at h
    · next heq =>
      obtain rfl := Option.some.inj h
      exact heq
    · exact nomatch h
  · intro h
    rw [h]
    rfl

theorem qualityValue?_eq_none {parameter : List Char} :
    qualityValue? parameter = none ↔ ¬ "q=".toList <+: trim parameter := by
  rw [Option.eq_none_iff_forall_ne_some]
  constructor
  · rintro h ⟨value, hvalue⟩
    exact h value (qualityValue?_eq_some.2 hvalue.symm)
  · intro h value hvalue
    exact h ⟨value, (qualityValue?_eq_some.1 hvalue).symm⟩

/-- The quality text of an entry is that of its first parameter that has one. -/
theorem qualityText?_after (entry : List Char) :
    qualityText? (after ';' (trim entry)) = (parametersOf entry).findSome? qualityValue? := by
  show (fieldsOf ';' (after ';' (trim entry))).findSome? qualityValue? = _
  rw [parametersOf, fieldsOf_eq_before_after ';' (trim entry)]
  by_cases hmem : ';' ∈ trim entry
  · rw [if_pos hmem, List.tail_cons]
  · -- without a semicolon nothing comes after it, and that is no quality text
    have hall : ∀ c ∈ trim entry, (c != ';') = true :=
      fun c hc => bne_iff_ne.2 fun heq => hmem (heq ▸ hc)
    have hafter : after ';' (trim entry) = [] := by
      rw [after, List.dropWhile_eq_nil_iff.2 hall, List.drop_nil]
    rw [if_neg hmem, hafter]
    rfl

theorem refused_iff {entry : List Char} :
    refused (after ';' (trim entry)) = true ↔ Excluded entry := by
  unfold refused
  rw [qualityText?_after]
  constructor
  · intro h
    split at h
    · next quality hquality =>
      obtain ⟨value, hvalue, hread⟩ := Option.bind_eq_some_iff.1 hquality
      obtain ⟨earlier, parameter, later, hparameters, hparameter, hearlier⟩ :=
        List.findSome?_eq_some_iff.1 hvalue
      exact ⟨earlier, parameter, later, value, quality, hparameters,
        fun p hp => qualityValue?_eq_none.1 (hearlier p hp),
        qualityValue?_eq_some.1 hparameter, hread, h⟩
    · exact nomatch h
  · rintro ⟨earlier, parameter, later, value, quality, hparameters, hearlier, hparameter,
      hread, hrefuses⟩
    have hvalue : (parametersOf entry).findSome? qualityValue? = some value :=
      List.findSome?_eq_some_iff.2 ⟨earlier, parameter, later, hparameters,
        qualityValue?_eq_some.2 hparameter,
        fun p hp => qualityValue?_eq_none.2 (hearlier p hp)⟩
    rw [hvalue, Option.bind_some, hread]
    exact hrefuses

instance (entry : List Char) : Decidable (Excluded entry) := decidable_of_iff _ refused_iff

/-! ## Decisive entries -/

/-- Whether the media type of an entry leaves the choice of format open. -/
def IsOpen (entry : List Char) : Prop :=
  essence entry = "*/*".toList ∨
    sameIgnoringCase (essence entry) "application/*".toList = true

/-- Whether an entry, as a content type, names a format. -/
def Names (entry : List Char) (f : Format) : Prop :=
  Format.ofContentType (String.ofList entry) = .ok f

/-- Whether an entry settles the format. -/
structure Decisive (entry : List Char) : Prop where
  notBlank : ¬ IsBlankText entry
  notExcluded : ¬ Excluded entry
  isOpen_or_names : IsOpen entry ∨ ∃ f, Names entry f

theorem isWildcard_iff {entry : List Char} :
    isWildcard (essence entry) = true ↔ IsOpen entry := by
  rw [isWildcard, Bool.or_eq_true, beq_iff_eq]
  rfl

theorem names_iff {entry : List Char} {f : Format} :
    Names entry f ↔ Format.ofContentType? entry = some f := by
  unfold Names Format.ofContentType
  rw [String.toList_ofList]
  cases Format.ofContentType? entry <;> simp

instance (entry : List Char) : Decidable (IsBlankText entry) :=
  decidable_of_iff (entry.all isBlank = true) List.all_eq_true

instance (entry : List Char) : Decidable (IsOpen entry) := decidable_of_iff _ isWildcard_iff

/-- What an entry decides on, by its text. -/
theorem decide?_eq (fallback : Format) (entry : List Char) :
    decide? fallback entry
      = if IsBlankText entry ∨ Excluded entry then none
        else if IsOpen entry then some fallback else Format.ofContentType? entry := by
  have hmedia : Format.ofContentType? (essence entry) = Format.ofContentType? entry := by
    rw [Format.ofContentType?, essence_essence, Format.ofContentType?]
  simp only [decide?, essence_trim, List.isEmpty_iff, trim_eq_nil_iff, refused_iff,
    isWildcard_iff]
  by_cases hblank : IsBlankText entry
  · rw [if_pos hblank, if_pos (Or.inl hblank)]
  by_cases hexcluded : Excluded entry
  · rw [if_neg hblank, if_pos hexcluded, if_pos (Or.inr hexcluded)]
  · rw [if_neg hblank, if_neg hexcluded, if_neg (not_or.2 ⟨hblank, hexcluded⟩), hmedia]

theorem decide?_isSome_iff {fallback : Format} {entry : List Char} :
    (decide? fallback entry).isSome = true ↔ Decisive entry := by
  rw [decide?_eq]
  constructor
  · intro h
    split at h
    · exact nomatch h
    · next hout =>
      obtain ⟨hblank, hexcluded⟩ := not_or.1 hout
      refine ⟨hblank, hexcluded, ?_⟩
      split at h
      · next hopen => exact .inl hopen
      · obtain ⟨f, hf⟩ := Option.isSome_iff_exists.1 h
        exact .inr ⟨f, names_iff.2 hf⟩
  · rintro ⟨hblank, hexcluded, hmedia⟩
    rw [if_neg (not_or.2 ⟨hblank, hexcluded⟩)]
    split
    · rfl
    · next hopen =>
      obtain ⟨f, hf⟩ := hmedia.resolve_left hopen
      rw [names_iff.1 hf]
      rfl

theorem decide?_eq_none_iff {fallback : Format} {entry : List Char} :
    decide? fallback entry = none ↔ ¬ Decisive entry := by
  rw [← decide?_isSome_iff, Option.not_isSome_iff_eq_none]

instance (entry : List Char) : Decidable (Decisive entry) :=
  decidable_of_iff ((decide? .preferred entry).isSome = true) decide?_isSome_iff

/-! ## Headers -/

variable {fallback : Format}

theorem entriesOf_append (a b : String) :
    entriesOf (a ++ "," ++ b) = entriesOf a ++ entriesOf b := by
  simp only [entriesOf, String.toList_append]
  rw [List.append_assoc]
  exact fieldsOf_append ',' a.toList b.toList

theorem entriesOf_of_notMem {s : String} (h : ',' ∉ s.toList) : entriesOf s = [s.toList] :=
  fieldsOf_of_notMem h

/-- A header of one entry is settled by it, or else by the fallback. -/
theorem negotiate_single {s : String} (h : ',' ∉ s.toList) :
    negotiate (some s) fallback = (decide? fallback s.toList).getD fallback := by
  rw [negotiate, entriesOf_of_notMem h, choose, List.findSome?_singleton]

/-- Entries that are not decisive do not count, wherever they stand. -/
theorem choose_insert (fallback : Format) {es : List (List Char)} (h : ∀ e ∈ es, ¬ Decisive e)
    (a b : List (List Char)) : choose fallback (a ++ es ++ b) = choose fallback (a ++ b) := by
  have hnone : es.findSome? (decide? fallback) = none :=
    List.findSome?_eq_none_iff.2 fun e he => decide?_eq_none_iff.2 (h e he)
  unfold choose
  rw [List.findSome?_append, List.findSome?_append, hnone, Option.or_none, ← List.findSome?_append]

/-- Nothing counts behind a decisive entry. -/
theorem choose_append_of_decisive {a : List (List Char)} (h : ∃ e ∈ a, Decisive e)
    (b : List (List Char)) : choose fallback (a ++ b) = choose fallback a := by
  obtain ⟨e, he, hdecisive⟩ := h
  rw [choose_append]
  cases hsome : a.findSome? (decide? fallback) with
  | some f => simp only [choose, hsome, Option.getD_some]
  | none =>
    have hnone : decide? fallback e = none := List.findSome?_eq_none_iff.1 hsome e he
    exact absurd hdecisive (decide?_eq_none_iff.1 hnone)

/-- The two parts of a header: the first settles the format if it has a decisive entry,
the second otherwise. -/
theorem negotiate_append (a b : String) :
    ((∃ e ∈ entriesOf a, Decisive e) →
      negotiate (some (a ++ "," ++ b)) fallback = negotiate (some a) fallback) ∧
    ((¬ ∃ e ∈ entriesOf a, Decisive e) →
      negotiate (some (a ++ "," ++ b)) fallback = negotiate (some b) fallback) := by
  simp only [negotiate, entriesOf_append]
  refine ⟨fun h => choose_append_of_decisive h _, fun h => choose_insert fallback ?_ [] _⟩
  exact fun e he hdecisive => h ⟨e, he, hdecisive⟩

/-- A list of entries that settles on another format than the fallback has a first
decisive entry, which names that format. -/
theorem exists_names_of_choose {entries : List (List Char)}
    (h : choose fallback entries ≠ fallback) :
    ∃ earlier e later, entries = earlier ++ e :: later ∧ (∀ x ∈ earlier, ¬ Decisive x) ∧
      Decisive e ∧ Names e (choose fallback entries) := by
  unfold choose at h ⊢
  cases hsome : entries.findSome? (decide? fallback) with
  | none =>
    rw [hsome] at h
    exact absurd rfl h
  | some f =>
    rw [hsome] at h
    obtain ⟨earlier, e, later, hentries, he, hearlier⟩ := List.findSome?_eq_some_iff.1 hsome
    have hdecisive : Decisive e := decide?_isSome_iff.1 (by rw [he]; rfl)
    refine ⟨earlier, e, later, hentries, fun x hx => decide?_eq_none_iff.1 (hearlier x hx),
      hdecisive, ?_⟩
    rw [decide?_eq, if_neg (not_or.2 ⟨hdecisive.notBlank, hdecisive.notExcluded⟩)] at he
    split at he
    · -- an open media type settles on the fallback
      obtain rfl := Option.some.inj he
      exact absurd rfl h
    · exact names_iff.2 he

/-- **The first decisive entry settles the format.** A header of one entry gives the
fallback if the entry is blank, excluded or open, and else the format that it names, if
it names one. A header of several parts is settled by the first that has a decisive
entry. So entries that are blank, excluded or not recognised do not count, wherever they
stand; and any answer but the fallback is named by the first decisive entry. -/
theorem negotiate_firstDecisive (fallback : Format) :
    negotiate none fallback = fallback ∧
    (∀ s : String, ',' ∉ s.toList →
      (IsBlankText s.toList ∨ Excluded s.toList ∨ IsOpen s.toList →
        negotiate (some s) fallback = fallback) ∧
      (¬ (IsBlankText s.toList ∨ Excluded s.toList ∨ IsOpen s.toList) →
        negotiate (some s) fallback
          = match Format.ofContentType s with
            | .ok f => f
            | .error _ => fallback)) ∧
    (∀ a b : String,
      ((∃ e ∈ entriesOf a, Decisive e) →
        negotiate (some (a ++ "," ++ b)) fallback = negotiate (some a) fallback) ∧
      ((¬ ∃ e ∈ entriesOf a, Decisive e) →
        negotiate (some (a ++ "," ++ b)) fallback = negotiate (some b) fallback)) ∧
    (∀ e : String, ',' ∉ e.toList →
      IsBlankText e.toList ∨ Excluded e.toList ∨
        (¬ IsOpen e.toList ∧ ∀ f, Format.ofContentType e ≠ .ok f) →
      ∀ a b : String,
        negotiate (some (e ++ "," ++ b)) fallback = negotiate (some b) fallback ∧
        negotiate (some (a ++ "," ++ e)) fallback = negotiate (some a) fallback ∧
        negotiate (some (a ++ "," ++ e ++ "," ++ b)) fallback
          = negotiate (some (a ++ "," ++ b)) fallback) ∧
    ∀ s : String, negotiate (some s) fallback ≠ fallback →
      ∃ earlier e later, entriesOf s = earlier ++ e :: later ∧
        (∀ x ∈ earlier, ¬ Decisive x) ∧ ¬ IsBlankText e ∧ ¬ Excluded e ∧
        Format.ofContentType (String.ofList e) = .ok (negotiate (some s) fallback) := by
  refine ⟨rfl, ?single, fun a b => negotiate_append a b, ?inert, ?other⟩
  case single =>
    intro s hs
    rw [negotiate_single hs, decide?_eq]
    refine ⟨fun h => ?_, fun h => ?_⟩
    · split
      · rfl
      · next hout =>
        rw [if_pos ((or_assoc.2 h).resolve_left hout)]
        rfl
    · obtain ⟨hout, hopen⟩ := not_or.1 (mt or_assoc.1 h)
      rw [if_neg hout, if_neg hopen, Format.ofContentType]
      cases Format.ofContentType? s.toList <;> rfl
  case inert =>
    intro e he hinert a b
    have hnot : ∀ x ∈ entriesOf e, ¬ Decisive x := by
      intro x hx hdecisive
      rw [entriesOf_of_notMem he] at hx
      obtain rfl := List.mem_singleton.1 hx
      rcases hinert with hblank | hexcluded | ⟨hopen, hnames⟩
      · exact hdecisive.notBlank hblank
      · exact hdecisive.notExcluded hexcluded
      · obtain ⟨f, hf⟩ := hdecisive.isOpen_or_names.resolve_left hopen
        rw [Names, String.ofList_toList] at hf
        exact hnames f hf
    simp only [negotiate, entriesOf_append]
    have hback := choose_insert fallback hnot (entriesOf a) []
    rw [List.append_nil, List.append_nil] at hback
    exact ⟨choose_insert fallback hnot [] (entriesOf b), hback,
      choose_insert fallback hnot (entriesOf a) (entriesOf b)⟩
  case other =>
    intro s hs
    obtain ⟨earlier, e, later, hentries, hearlier, hdecisive, hnames⟩ :=
      exists_names_of_choose hs
    exact ⟨earlier, e, later, hentries, hearlier, hdecisive.notBlank, hdecisive.notExcluded, hnames⟩

/-- A header whose first part has no decisive entry, with a blank entry in between. -/
theorem negotiate_refusedBson :
    (¬ ∃ e ∈ entriesOf "text/html, application/x-bson; q=0", Decisive e) ∧
      negotiate (some ("text/html, application/x-bson; q=0" ++ "," ++ " application/x-msgpack"))
        .json = .msgpack ∧
      negotiate (some ("*/*" ++ "," ++ "application/x-bson")) .json = .json ∧
      negotiate (some ("text/html" ++ "," ++ " " ++ "," ++ "application/x-bson")) .json
        = negotiate (some ("text/html" ++ "," ++ "application/x-bson")) .json ∧
      (∃ e ∈ entriesOf "text/html,application/x-bson",
        Format.ofContentType (String.ofList e) = .ok .bson) := by
  obtain ⟨-, hsingle, happend, hinert, hother⟩ := negotiate_firstDecisive .json
  have hrefused : ¬ ∃ e ∈ entriesOf "text/html, application/x-bson; q=0", Decisive e := by
    decide +kernel
  have hopen : ∃ e ∈ entriesOf "*/*", Decisive e := by decide +kernel
  have hblank : IsBlankText " ".toList := by decide
  have hanswer : negotiate (some "text/html,application/x-bson") .json = .bson := by
    decide +kernel
  obtain ⟨earlier, e, later, hentries, -, -, -, hnames⟩ :=
    hother "text/html,application/x-bson" (by rw [hanswer]; decide)
  rw [hanswer] at hnames
  refine ⟨hrefused, ?_, ?_, ?_, e, ?_, hnames⟩
  · rw [(happend _ " application/x-msgpack").2 hrefused, (hsingle _ (by decide)).2 (by decide +kernel)]
    decide
  · rw [(happend _ "application/x-bson").1 hopen, (hsingle _ (by decide)).1 (by decide +kernel)]
  · exact (hinert " " (by decide) (.inl hblank) "text/html" "application/x-bson").2.2
  · rw [hentries]
    exact List.mem_append_right _ List.mem_cons_self

end Conneg.Accept
