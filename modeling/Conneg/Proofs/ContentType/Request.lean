import Conneg.Exchange.Receive
import Conneg.Proofs.ContentType.Grammar
import Conneg.Proofs.Http.Headers
import Conneg.Proofs.Text.Parts

/-!
# The format of a request

A request's format comes from the bytes of its first content type. They name a format exactly
if all of them are text and the media type in them is the format's token up to the case of
ASCII letters (`requestFormat_eq_ok`). Of what is text only the space and the tab are white
space, so on these bytes the trimming of texts is the trimming of spaces and tabs
(`essence_textValue`).

There are two ways to be refused, for bytes that are no text and for a text that names
nothing, and both report the same thing: what can be read of the bytes, with U+FFFD for each
part that is no character (`exists_reported`).
-/

namespace Conneg

open Text

/-! ## Header values as bytes -/

/-- A space or a tab. -/
def isSpaceOrTab (b : UInt8) : Bool := b == 0x20 || b == 0x09

/-- The media type in a header value: the bytes before the first semicolon, without the spaces
and tabs around them. -/
def mediaTypeOf (value : Bytes) : Bytes :=
  (((value.takeWhile (· != 0x3B)).dropWhile isSpaceOrTab).reverse.dropWhile isSpaceOrTab).reverse

/-- The character that a byte of text stands for. -/
def charOf (b : UInt8) : Char := Char.ofNat b.toNat

/-- Whether the first content type asks for a format: it is text, and its media type is the
format's token up to the case of ASCII letters. -/
def Headers.AsksFor (h : Headers) (f : Format) : Prop :=
  ∃ value, h.first? contentTypeName = some value ∧ IsTextValue value ∧
    SameUpToCase ((mediaTypeOf value).map charOf) f.token.toList

/-- Whether a text is what is left of the first content type when it is refused: nothing when
there is none, else what can be read of its bytes. -/
def Headers.Reported (h : Headers) (raw : String) : Prop :=
  match h.first? contentTypeName with
  | none => raw = ""
  | some value => Utf8.IsReadOf raw value

variable {h : Headers} {value : Bytes} {f : Format}

theorem dropWhile_congr {α : Type} {p q : α → Bool} {l : List α} (h : ∀ a ∈ l, p a = q a) :
    l.dropWhile p = l.dropWhile q := by
  induction l with
  | nil => rfl
  | cons a l ih =>
    obtain ⟨ha, hl⟩ := List.forall_mem_cons.1 h
    rw [List.dropWhile_cons, List.dropWhile_cons, ha, ih hl]

theorem toNat_charOf (b : UInt8) : (charOf b).toNat = b.toNat :=
  Utf8.toNat_ofNat (.inl (Nat.lt_of_lt_of_le b.toNat_lt (by decide)))

/-- Of the characters of text, the space and the tab are white space. -/
theorem isBlank_charOf {b : UInt8} (h : b = 0x09 ∨ 0x20 ≤ b ∧ b ≤ 0x7E) :
    isBlank (charOf b) = isSpaceOrTab b := by
  have hnat : b.toNat = 9 ∨ 32 ≤ b.toNat ∧ b.toNat ≤ 126 := by
    rcases h with rfl | ⟨hlow, hhigh⟩
    · exact .inl rfl
    · exact .inr ⟨UInt8.le_iff_toNat_le.1 hlow, UInt8.le_iff_toNat_le.1 hhigh⟩
  rw [Bool.eq_iff_iff]
  simp only [isBlank, blankRanges, List.any_cons, List.any_nil, toNat_charOf, isSpaceOrTab,
    Bool.or_eq_true, Bool.and_eq_true, decide_eq_true_eq, beq_iff_eq, ← UInt8.toNat_inj]
  simp
  omega

theorem dropWhile_charOf (hvalue : IsTextValue value) :
    (value.map charOf).dropWhile isBlank = (value.dropWhile isSpaceOrTab).map charOf := by
  have hagree : ∀ b ∈ value, (isBlank ∘ charOf) b = isSpaceOrTab b :=
    fun b hb => isBlank_charOf (hvalue b hb)
  rw [List.dropWhile_map, dropWhile_congr hagree]

theorem before_charOf (value : Bytes) :
    before ';' (value.map charOf) = (value.takeWhile (· != 0x3B)).map charOf := by
  have hagree : (· != ';') ∘ charOf = fun b => b != 0x3B := by
    funext b
    have hiff : charOf b = ';' ↔ b = 0x3B := by
      rw [← Char.toNat_inj, toNat_charOf, ← UInt8.toNat_inj]
      rfl
    simp only [Function.comp_apply, bne, beq_eq_decide, hiff]
  rw [before, List.takeWhile_map, hagree]

/-- The media type of a header value that is text. -/
theorem essence_textValue (hvalue : IsTextValue value) :
    essence (value.map charOf) = (mediaTypeOf value).map charOf := by
  have hmedia : IsTextValue (value.takeWhile (· != 0x3B)) :=
    fun b hb => hvalue b ((List.takeWhile_sublist _).mem hb)
  have hback : IsTextValue ((value.takeWhile (· != 0x3B)).dropWhile isSpaceOrTab).reverse :=
    fun b hb => hmedia b ((List.dropWhile_sublist _).mem (List.mem_reverse.1 hb))
  rw [essence, before_charOf, trim, dropWhile_charOf hmedia, ← List.map_reverse,
    dropWhile_charOf hback, ← List.map_reverse, mediaTypeOf]

/-! ## What is accepted and what is refused -/

theorem headerText?_of_isTextValue (hvalue : IsTextValue value) :
    headerText? value = some (String.ofList (value.map charOf)) := by
  unfold headerText?
  exact if_pos (all_isHeaderText_iff.2 hvalue)

theorem headerText?_eq_none : headerText? value = none ↔ ¬ IsTextValue value := by
  rw [← all_isHeaderText_iff, headerText?]
  split <;> simp [*]

theorem requestFormat_eq_ok : requestFormat h = .ok f ↔ h.AsksFor f := by
  unfold requestFormat Headers.AsksFor
  cases h.first? contentTypeName with
  | none => simp
  | some value =>
    have hnames : IsTextValue value → (f.NamedBy (value.map charOf)
        ↔ SameUpToCase ((mediaTypeOf value).map charOf) f.token.toList) := by
      intro hvalue
      rw [← essence_textValue hvalue]
      exact ⟨Format.essence_of_namedBy, Format.namedBy_of_essence⟩
    by_cases hvalue : IsTextValue value
    · simp only [headerText?_of_isTextValue hvalue, Format.ofContentType_eq_ok,
        String.toList_ofList, hnames hvalue, Option.some.injEq, exists_eq_left', hvalue, true_and]
    · simp [headerText?_eq_none.2 hvalue, hvalue]

theorem reported_of_none (hfirst : h.first? contentTypeName = none) {raw : String} :
    h.Reported raw ↔ raw = "" := by
  rw [Headers.Reported, hfirst]

theorem reported_of_some (hfirst : h.first? contentTypeName = some value) {raw : String} :
    h.Reported raw ↔ Utf8.decodeLossy value = raw := by
  rw [Headers.Reported, hfirst]
  exact Utf8.isReadOf_iff

/-- One text is reported. -/
theorem reported_unique {raw raw' : String} (hraw : h.Reported raw) (hraw' : h.Reported raw') :
    raw = raw' := by
  cases hfirst : h.first? contentTypeName with
  | none => rw [(reported_of_none hfirst).1 hraw, (reported_of_none hfirst).1 hraw']
  | some value => rw [← (reported_of_some hfirst).1 hraw, (reported_of_some hfirst).1 hraw']

/-- What is refused is reported with what can be read of it, whether it is no text or a text
that names no format. -/
theorem exists_reported {e : CodingError} (he : requestFormat h = .error e) :
    ∃ raw, h.Reported raw ∧ e = .unsupported raw := by
  cases hfirst : h.first? contentTypeName with
  | none =>
    simp only [requestFormat, hfirst] at he
    exact ⟨"", (reported_of_none hfirst).2 rfl, (Except.error.inj he).symm⟩
  | some value =>
    simp only [requestFormat, hfirst] at he
    split at he
    · next s hs =>
      -- a text is read back from its bytes
      obtain ⟨-, rfl⟩ := headerText?_eq_some.1 hs
      obtain ⟨-, rfl⟩ := Format.ofContentType_eq_error.1 he
      exact ⟨s, (reported_of_some hfirst).2 (Utf8.decodeLossy_encode s), rfl⟩
    · exact ⟨_, (reported_of_some hfirst).2 rfl, (Except.error.inj he).symm⟩

theorem requestFormat_eq_error {e : CodingError} :
    requestFormat h = .error e
      ↔ (∀ f, ¬ h.AsksFor f) ∧ ∃ raw, h.Reported raw ∧ e = .unsupported raw := by
  constructor
  · intro he
    refine ⟨fun f hf => ?_, exists_reported he⟩
    rw [requestFormat_eq_ok.2 hf] at he
    exact nomatch he
  · rintro ⟨hnone, raw, hraw, rfl⟩
    cases hformat : requestFormat h with
    | ok f => exact absurd (requestFormat_eq_ok.1 hformat) (hnone f)
    | error e =>
      obtain ⟨raw', hraw', rfl⟩ := exists_reported hformat
      rw [reported_unique hraw hraw']

/-! ## Which field counts -/

theorem filter_contentType {fields : List (String × Bytes)}
    (hfields : ∀ field ∈ fields, field.1 ≠ contentTypeName) :
    fields.filter (fun field => field.1 == contentTypeName) = [] := by
  apply List.filter_eq_nil_iff.2
  intro field hfield
  rw [beq_iff_eq]
  exact hfields field hfield

/-- The first content type of some fields is the first one among them. -/
theorem first?_of_fields {front back : List (String × Bytes)}
    (hfront : ∀ field ∈ front, field.1 ≠ contentTypeName)
    (hfields : h.fields = front ++ (contentTypeName, value) :: back) :
    h.first? contentTypeName = some value := by
  rw [Headers.first?, Headers.values, hfields, List.filter_append, filter_contentType hfront,
    List.nil_append,
    List.filter_cons_of_pos (by exact beq_self_eq_true contentTypeName), List.map_cons,
    List.head?_cons]

theorem first?_eq_none (hfields : ∀ field ∈ h.fields, field.1 ≠ contentTypeName) :
    h.first? contentTypeName = none := by
  rw [Headers.first?, Headers.values, filter_contentType hfields, List.map_nil, List.head?_nil]

theorem requestFormat_congr {h' : Headers}
    (hfirst : h.first? contentTypeName = h'.first? contentTypeName) :
    requestFormat h = requestFormat h' := by
  rw [requestFormat, requestFormat, hfirst]

/-- A request's format is read from the bytes of its first content type alone: the fields in
front of it and behind it do not matter. It is the format that they ask for, being text whose
media type is the format's token up to the case of ASCII letters. Otherwise it is refused, and
what is reported is empty if there is no content type, and else what can be read of the bytes;
if these are UTF-8, that is the text they encode. -/
theorem requestFormat_headerBytes (h : Headers) :
    (∀ f, requestFormat h = .ok f ↔ h.AsksFor f) ∧
      (∀ e, requestFormat h = .error e
        ↔ (∀ f, ¬ h.AsksFor f) ∧ ∃ raw, h.Reported raw ∧ e = .unsupported raw) ∧
      ((∀ field ∈ h.fields, field.1 ≠ contentTypeName) →
        h.first? contentTypeName = none ∧ requestFormat h = .error (.unsupported "")) ∧
      (∀ front value back, (∀ field ∈ front, field.1 ≠ contentTypeName) →
        h.fields = front ++ (contentTypeName, value) :: back →
          h.first? contentTypeName = some value ∧
            requestFormat h = requestFormat ⟨[(contentTypeName, value)]⟩) ∧
      ∀ value text raw, h.first? contentTypeName = some value → Utf8.encode text = value →
        requestFormat h = .error (.unsupported raw) → Utf8.encode raw = value := by
  refine ⟨fun f => requestFormat_eq_ok, fun e => requestFormat_eq_error, ?_, ?_, ?_⟩
  · intro hfields
    have hnone := first?_eq_none hfields
    refine ⟨hnone, ?_⟩
    rw [requestFormat, hnone]
  · intro front value back hfront hfields
    have hfirst := first?_of_fields hfront hfields
    have halone : Headers.first? ⟨[(contentTypeName, value)]⟩ contentTypeName = some value :=
      @first?_of_fields _ value [] [] (by simp) rfl
    exact ⟨hfirst, requestFormat_congr (hfirst.trans halone.symm)⟩
  · rintro value text raw hfirst rfl herror
    obtain ⟨-, raw', hraw, hsame⟩ := requestFormat_eq_error.1 herror
    obtain rfl := CodingError.unsupported.inj hsame
    rw [reported_of_some hfirst, Utf8.decodeLossy_encode] at hraw
    rw [hraw]

/-- A JSON content type with a letter beyond ASCII in its parameter is refused, whatever comes
after it, and is reported as it was sent; nothing is reported where there is none. -/
theorem requestFormat_accentedParameter :
    requestFormat ⟨[(acceptName, []), (contentTypeName, Utf8.encode "application/json;\u00e9"),
        (contentTypeName, Utf8.encode "application/json")]⟩
      = .error (.unsupported "application/json;\u00e9") ∧
    Utf8.encode "application/json;\u00e9"
      = [97, 112, 112, 108, 105, 99, 97, 116, 105, 111, 110, 47, 106, 115, 111, 110, 59, 195, 169] ∧
    requestFormat ⟨[(acceptName, [])]⟩ = .error (.unsupported "") := by
  obtain ⟨-, -, -, hfields, hencode⟩ := requestFormat_headerBytes
    ⟨[(acceptName, []), (contentTypeName, Utf8.encode "application/json;\u00e9"),
      (contentTypeName, Utf8.encode "application/json")]⟩
  obtain ⟨hfirst, halone⟩ := hfields [(acceptName, [])] _
    [(contentTypeName, Utf8.encode "application/json")] (by decide) rfl
  have hrefused : requestFormat ⟨[(contentTypeName, Utf8.encode "application/json;\u00e9")]⟩
      = .error (.unsupported "application/json;\u00e9") := by rfl
  have hsent := hencode _ "application/json;\u00e9" _ hfirst rfl (halone.trans hrefused)
  obtain ⟨-, -, habsent, -⟩ := requestFormat_headerBytes ⟨[(acceptName, [])]⟩
  exact ⟨halone.trans hrefused, by rw [hsent]; rfl, (habsent (by decide)).2⟩

end Conneg
