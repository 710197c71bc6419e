import Conneg.Proofs.Bson.Parts

/-!
# What a payload takes off

`Layout.Takes` says of each layout which bytes are a payload of it and what is made of them. The
reader takes such bytes off in front of any rest (`Layout.take?_of_takes`), and takes off nothing
else, unless what it makes is broken (`Layout.takes_of_take?`). So what holds of the payloads of
all types is looked at once for each layout, and then by the table of types.
-/

namespace Conneg.Bson

open Wire

/-- A key of a document: a text that a NUL can end. -/
structure Key where
  text : String
  nul_notMem : '\x00' ∉ text.toList

/-- The payload of bytes of a subtype. -/
def printBytes (subtype : UInt8) (bs : Bytes) : Bytes :=
  if subtype = 2 then
    Bytes.ofNatLE 4 (bs.length + 4) ++ subtype :: (Bytes.ofNatLE 4 bs.length ++ bs)
  else Bytes.ofNatLE 4 bs.length ++ subtype :: bs

/-- The payload of a regular expression. -/
def printRegex (pattern options : Key) : Bytes :=
  Utf8.encode pattern.text ++ 0 :: (Utf8.encode options.text ++ [0])

/-- The payload of code with its scope. -/
def printScoped (code : String) (elements : Bytes) : Bytes :=
  Bytes.ofNatLE 4 ((printText code).length + (frame elements).length + 4) ++
    (printText code ++ frame elements)

/-- Whether these bytes are a payload of a layout, and this is made of them. -/
def Layout.Takes : Layout → Bytes → Payload → Prop
  | .fixed width make, bs, p => bs.length = width ∧ p = .whole (make bs)
  | .text make, bs, p => ∃ s, bs = printText s ∧ p = .whole (make s)
  | .pointer, bs, p =>
    ∃ s id, id.length = 12 ∧ bs = printText s ++ id ∧ p = .whole (pointerNode id s)
  | .binary, bs, p =>
    ∃ subtype data, bs = printBytes subtype data ∧ p = .whole (bytesNode subtype data)
  | .regex, bs, p => ∃ pattern options : Key, bs = printRegex pattern options ∧
      p = .whole (regexNode pattern.text options.text)
  | .nested nest, bs, p => ∃ elements, bs = frame elements ∧ p = .nested nest (elements ++ [0])
  | .scope, bs, p =>
    ∃ s elements, bs = printScoped s elements ∧ p = .nested (.scope s) (elements ++ [0])

variable {l : Layout} {bs rest : Bytes} {p : Payload}

/-! ## Payloads are taken off -/

theorem length_printText (s : String) : (printText s).length = (Utf8.encode s).length + 5 := by
  simp only [printText, List.length_append, Bytes.length_ofNatLE, List.length_singleton]
  omega

theorem textNode_encode (make : String → Node Atom) (s : String) :
    textNode make (Utf8.encode s) = make s := by
  simp only [textNode, Utf8.decode?_encode]

/-- The bytes of a subtype are read behind their length, the old subtype's behind two. -/
theorem take?_printBytes {subtype : UInt8} {data : Bytes}
    (hlen : (printBytes subtype data).length < 2 ^ 31) (rest : Bytes) :
    Layout.binary.take? (printBytes subtype data ++ rest)
      = some (.whole (bytesNode subtype data), rest) := by
  have hsize : ∀ n, n < 2 ^ 31 → ∀ inner : Bytes, inner.length = n →
      Layout.binary.take? (Bytes.ofNatLE 4 n ++ subtype :: inner ++ rest)
        = some (.whole (binaryNode subtype inner), rest) := by
    intro n hn inner hinner
    rw [List.append_assoc, Layout.take?, length?_ofNatLE hn, Option.bind_some]
    exact fixed?_append hinner rest
  unfold printBytes at hlen ⊢
  split
  · next hold =>
    rw [if_pos hold] at hlen
    simp only [List.length_append, List.length_cons, Bytes.length_ofNatLE] at hlen
    have hinner : length? (Bytes.ofNatLE 4 data.length ++ data) = some (data.length, data) :=
      length?_ofNatLE (by omega) data
    rw [hsize _ (by omega) _ (by simp [Bytes.length_ofNatLE, Nat.add_comm]), binaryNode,
      if_pos hold, hinner]
    simp only [if_true]
  · next hnew =>
    rw [if_neg hnew] at hlen
    simp only [List.length_append, List.length_cons, Bytes.length_ofNatLE] at hlen
    rw [hsize _ (by omega) _ rfl, binaryNode, if_neg hnew]

theorem length_printScoped (code : String) (elements : Bytes) : (printScoped code elements).length
    = (printText code).length + (frame elements).length + 4 := by
  simp only [printScoped, List.length_append, Bytes.length_ofNatLE]
  omega

theorem take?_printScoped {code : String} {elements : Bytes}
    (hlen : (printScoped code elements).length < 2 ^ 31) (rest : Bytes) :
    Layout.scope.take? (printScoped code elements ++ rest)
      = some (.nested (.scope code) (elements ++ [0]), rest) := by
  have hsplit := Bytes.split?_of_length (length_printScoped code elements) rest
  rw [length_printScoped] at hlen
  have hpayload : scopedPayload (printScoped code elements)
      = .nested (.scope code) (elements ++ [0]) := by
    have hdrop : (printScoped code elements).drop 4 = printText code ++ frame elements :=
      List.drop_left' (Bytes.length_ofNatLE 4 _)
    have hframe : embedded? (frame elements ++ []) = some (elements ++ [0], []) :=
      embedded?_frame (by omega) []
    rw [List.append_nil] at hframe
    rw [scopedPayload, hdrop, string?_printText (by omega)]
    simp only [Utf8.decode?_encode, hframe]
  have hlength : length? (printScoped code elements ++ rest)
      = some ((printText code).length + (frame elements).length + 4,
        printText code ++ frame elements ++ rest) := by
    rw [printScoped, List.append_assoc]
    exact length?_ofNatLE hlen _
  rw [Layout.take?, hlength, Option.bind_some]
  simp only [hsplit, Option.map_some, hpayload]

/-- A payload is taken off in front of any rest. -/
theorem Layout.take?_of_takes (h : l.Takes bs p) (hlen : bs.length < 2 ^ 31) (rest : Bytes) :
    l.take? (bs ++ rest) = some (p, rest) := by
  cases l with
  | fixed width make =>
    obtain ⟨hwidth, rfl⟩ := h
    exact fixed?_append hwidth rest
  | text make =>
    obtain ⟨s, rfl, rfl⟩ := h
    rw [take?, string?_printText hlen, Option.map_some]
    simp only [textNode_encode]
  | pointer =>
    obtain ⟨s, id, hid, rfl, rfl⟩ := h
    rw [List.length_append] at hlen
    rw [take?, List.append_assoc, string?_printText (by omega), Option.bind_some]
    simp only [fixed?_append hid, textNode_encode]
  | binary =>
    obtain ⟨subtype, data, rfl, rfl⟩ := h
    exact take?_printBytes hlen rest
  | regex =>
    obtain ⟨pattern, options, rfl, rfl⟩ := h
    have happend : printRegex pattern options ++ rest
        = Utf8.encode pattern.text ++ 0 :: (Utf8.encode options.text ++ 0 :: rest) := by
      simp [printRegex]
    rw [take?, happend, key?_encode pattern.nul_notMem, Option.bind_some]
    simp only [key?_encode options.nul_notMem, Option.map_some]
  | nested nest =>
    obtain ⟨elements, rfl, rfl⟩ := h
    rw [take?, embedded?_frame hlen, Option.map_some]
  | scope =>
    obtain ⟨code, elements, rfl, rfl⟩ := h
    exact take?_printScoped hlen rest

/-! ## Nothing else is -/

theorem eq_of_textNode {make : String → Node Atom} {body : Bytes}
    (h : string? bs = some (body, rest)) :
    textNode make body = .broken ∨ ∃ s, bs = printText s ++ rest ∧ textNode make body = make s := by
  cases hdecode : Utf8.decode? body with
  | none =>
    refine .inl ?_
    simp only [textNode, hdecode]
  | some s =>
    obtain rfl := Utf8.encode_of_decode? hdecode
    exact .inr ⟨s, eq_of_string? h, textNode_encode make s⟩

theorem eq_of_binaryNode (subtype : UInt8) (data : Bytes) :
    binaryNode subtype data = .broken ∨ ∃ inner,
      Bytes.ofNatLE 4 data.length ++ subtype :: data = printBytes subtype inner ∧
        binaryNode subtype data = bytesNode subtype inner := by
  unfold binaryNode printBytes
  by_cases hold : subtype = 2
  · simp only [if_pos hold]
    cases hlength : length? data with
    | none => exact .inl rfl
    | some front =>
      obtain ⟨n, inner⟩ := front
      obtain ⟨rfl, -⟩ := eq_of_length? hlength
      by_cases hn : n = inner.length
      · refine .inr ⟨inner, ?_, if_pos hn⟩
        rw [hn, List.length_append, Bytes.length_ofNatLE, Nat.add_comm]
      · exact .inl (if_neg hn)
  · simp only [if_neg hold]
    exact .inr ⟨data, rfl, rfl⟩

/-- Code with its scope fills the bytes that its length counts. -/
theorem eq_of_scopedPayload {front : Bytes} (hlen : front.take 4 = Bytes.ofNatLE 4 front.length) :
    scopedPayload front = .whole .broken ∨ ∃ code elements, front = printScoped code elements ∧
      scopedPayload front = .nested (.scope code) (elements ++ [0]) := by
  unfold scopedPayload
  split
  · exact .inl rfl
  · next body after hcode =>
    split
    · next code document hdecode hframe =>
      obtain rfl := Utf8.encode_of_decode? hdecode
      obtain ⟨elements, rfl, hafter, -⟩ := eq_of_embedded? hframe
      have hinner : front.drop 4 = printText code ++ frame elements := by
        rw [eq_of_string? hcode, hafter, List.append_nil]
        rfl
      have hsize : front.length = (printText code).length + (frame elements).length + 4 := by
        have hdrop := congrArg List.length hinner
        have hframe := length_frame elements
        rw [List.length_drop, List.length_append] at hdrop
        omega
      refine .inr ⟨code, elements, ?_, rfl⟩
      rw [← List.take_append_drop 4 front, hlen, hinner, hsize]
      rfl
    · exact .inl rfl

/-- A payload is what a writer puts there, or what is made of it is broken. -/
theorem Layout.takes_of_take? (h : l.take? bs = some (p, rest)) :
    p = .whole .broken ∨ ∃ front, bs = front ++ rest ∧ l.Takes front p := by
  cases l with
  | fixed width make =>
    obtain ⟨front, hfront, rfl, rfl⟩ := eq_of_fixed? h
    exact .inr ⟨front, rfl, hfront, rfl⟩
  | text make =>
    obtain ⟨⟨body, after⟩, hs, heq⟩ := Option.map_eq_some_iff.1 h
    obtain ⟨rfl, rfl⟩ := Prod.mk.inj heq
    rcases eq_of_textNode hs with hbroken | ⟨s, hbs, hmake⟩
    · exact .inl (congrArg Payload.whole hbroken)
    · exact .inr ⟨printText s, hbs, s, rfl, congrArg Payload.whole hmake⟩
  | pointer =>
    obtain ⟨⟨body, after⟩, hs, hfixed⟩ := Option.bind_eq_some_iff.1 h
    obtain ⟨id, hid, rfl, rfl⟩ := eq_of_fixed? hfixed
    rcases eq_of_textNode hs with hbroken | ⟨s, hbs, hmake⟩
    · exact .inl (congrArg Payload.whole hbroken)
    · refine .inr ⟨printText s ++ id, ?_, s, id, hid, rfl, congrArg Payload.whole hmake⟩
      rw [hbs, List.append_assoc]
  | binary =>
    obtain ⟨⟨n, after⟩, hlength, hfixed⟩ := Option.bind_eq_some_iff.1 h
    obtain ⟨rfl, -⟩ := eq_of_length? hlength
    cases after with
    | nil => cases hfixed
    | cons subtype after =>
      obtain ⟨data, rfl, rfl, rfl⟩ := eq_of_fixed? hfixed
      rcases eq_of_binaryNode subtype data with hbroken | ⟨inner, hdata, hmake⟩
      · exact .inl (congrArg Payload.whole hbroken)
      · refine .inr ⟨printBytes subtype inner, ?_, subtype, inner, rfl,
          congrArg Payload.whole hmake⟩
        rw [← hdata, List.append_assoc]
        rfl
  | regex =>
    obtain ⟨⟨pattern, after⟩, hpattern, hoptions⟩ := Option.bind_eq_some_iff.1 h
    obtain ⟨⟨options, rest'⟩, hkey, heq⟩ := Option.map_eq_some_iff.1 hoptions
    obtain ⟨rfl, rfl⟩ := Prod.mk.inj heq
    obtain ⟨hpatternNul, rfl⟩ := eq_of_key? hpattern
    obtain ⟨hoptionsNul, rfl⟩ := eq_of_key? hkey
    refine .inr ⟨printRegex ⟨pattern, hpatternNul⟩ ⟨options, hoptionsNul⟩, ?_,
      ⟨pattern, hpatternNul⟩, ⟨options, hoptionsNul⟩, rfl, rfl⟩
    simp [printRegex]
  | nested nest =>
    obtain ⟨⟨body, after⟩, hframe, heq⟩ := Option.map_eq_some_iff.1 h
    obtain ⟨rfl, rfl⟩ := Prod.mk.inj heq
    obtain ⟨elements, rfl, hbs, -⟩ := eq_of_embedded? hframe
    exact .inr ⟨frame elements, hbs, elements, rfl, rfl⟩
  | scope =>
    obtain ⟨⟨n, after⟩, hlength, hmap⟩ := Option.bind_eq_some_iff.1 h
    obtain ⟨⟨front, rest'⟩, hsplit, heq⟩ := Option.map_eq_some_iff.1 hmap
    obtain ⟨rfl, rfl⟩ := Prod.mk.inj heq
    obtain ⟨hbs, -⟩ := eq_of_length? hlength
    obtain ⟨rfl, rfl⟩ := Bytes.split?_eq_some hsplit
    by_cases hshort : front.length < 4
    · -- then its length is not in it
      refine .inl ?_
      rw [scopedPayload, List.drop_of_length_le (by omega)]
      rfl
    · have htake : front.take 4 = Bytes.ofNatLE 4 front.length := by
        have htake := congrArg (List.take 4) hbs
        rwa [List.take_append_of_le_length (by omega),
          List.take_left' (Bytes.length_ofNatLE 4 _)] at htake
      rcases eq_of_scopedPayload htake with hbroken | ⟨code, elements, hfront, hpayload⟩
      · exact .inl hbroken
      · exact .inr ⟨front, rfl, code, elements, hfront, hpayload⟩

/-! ## Types -/

namespace ElementType

theorem ofByte?_byte (e : ElementType) : ofByte? e.byte = some e := by
  cases e <;> rfl

theorem byte_of_ofByte? {b : UInt8} {e : ElementType} (h : ofByte? b = some e) : e.byte = b := by
  have hbyte := List.find?_some h
  exact eq_of_beq hbyte

/-- The payload of a type is taken off behind its byte. -/
theorem payload?_of_takes (e : ElementType) (h : e.layout.Takes bs p) (hlen : bs.length < 2 ^ 31)
    (rest : Bytes) : payload? e.byte (bs ++ rest) = some (p, rest) := by
  rw [payload?, ofByte?_byte, Option.bind_some, Layout.take?_of_takes h hlen]

end ElementType

/-- Nothing is taken off but the payload of a type, unless it is broken. -/
theorem takes_of_payload? {tag : UInt8} (h : payload? tag bs = some (p, rest)) :
    p = .whole .broken ∨ ∃ e : ElementType, ∃ front,
      tag = e.byte ∧ bs = front ++ rest ∧ e.layout.Takes front p := by
  obtain ⟨e, he, htake⟩ := Option.bind_eq_some_iff.1 h
  rcases Layout.takes_of_take? htake with hbroken | ⟨front, hbs, htakes⟩
  · exact .inl hbroken
  · exact .inr ⟨e, front, (ElementType.byte_of_ofByte? he).symm, hbs, htakes⟩

/-! ## Scalars -/

/-- Whether a scalar has a payload of its own that means it again. -/
def Atom.Storable : Atom → Prop
  | .int32 n => -2 ^ 31 ≤ n ∧ n < 2 ^ 31
  | .int64 n => -2 ^ 63 ≤ n ∧ n < 2 ^ 63
  | .label _ => False
  | .bytes _ => False
  | _ => True

/-- What is printed of a scalar is the payload of a type, which is read as it. -/
theorem Atom.exists_takes {x : Atom} (hx : x.Storable) :
    ∃ e : ElementType, x.print.1 = e.byte ∧ e.layout.Takes x.print.2 (.whole (.scalar x)) := by
  cases x with
  | null => exact ⟨.null, rfl, rfl, rfl⟩
  | bool b => cases b <;> exact ⟨.bool, rfl, rfl, rfl⟩
  | int32 n =>
    have hvalue : signedLE (Bytes.ofNatLE 4 (Bytes.pattern 4 n)) = n :=
      signedLE_ofNatLE (by decide) hx.1 hx.2
    refine ⟨.int32, rfl, Bytes.length_ofNatLE 4 _, ?_⟩
    simp only [Atom.print, hvalue]
  | int64 n =>
    have hvalue : signedLE (Bytes.ofNatLE 8 (Bytes.pattern 8 n)) = n :=
      signedLE_ofNatLE (by decide) hx.1 hx.2
    refine ⟨.int64, rfl, Bytes.length_ofNatLE 8 _, ?_⟩
    simp only [Atom.print, hvalue]
  | double x =>
    have hword : Bytes.toNatLE (Bytes.ofNatLE 8 x.word) = x.word :=
      Bytes.toNatLE_ofNatLE (UInt64.toNat_lt x.bits)
    refine ⟨.double, rfl, Bytes.length_ofNatLE 8 _, ?_⟩
    simp only [Atom.print, hword]
    rw [Binary64.word, UInt64.ofNat_toNat]
  | text s => exact ⟨.text, rfl, s, rfl, rfl⟩
  | label s => exact hx.elim
  | bytes bs => exact hx.elim

/-- The payload of a scalar is read back, in front of any rest. -/
theorem payload?_print {x : Atom} (hx : x.Storable) (hlen : x.print.2.length < 2 ^ 31)
    (rest : Bytes) : payload? x.print.1 (x.print.2 ++ rest) = some (.whole (.scalar x), rest) := by
  obtain ⟨e, htag, htakes⟩ := Atom.exists_takes hx
  rw [htag, e.payload?_of_takes htakes hlen]

end Conneg.Bson
