import Conneg.Proofs.Bson.Element
import Conneg.Proofs.Json.RawValue
import Conneg.Proofs.Number.Digits
import Conneg.Proofs.Wire.Bounded

/-!
# No part of a BSON value is longer than its body

An element takes the byte of its type and at least the NUL of its key, and the document
that it may hold stands inside the body. So a document has fewer elements than bytes, and
keys and texts that are shorter (`parse_bounded`). Only what is read as labels can be longer
than the bytes it stands for: bytes in base 64 are by a third, and the other labels have at most
24 characters. So the limit has to leave room for these, and the format keeps it (`keeps`).
-/

namespace Conneg.Bson

open Wire

variable {limit : Nat}

/-! ## The decisions of the format -/

/-- Whether a scalar is not a text, or bytes, of as many bytes as a limit. -/
def Atom.Short (limit : Nat) : Atom → Prop
  | .text s | .label s => ShortText limit s
  | .bytes bs => bs.length < limit
  | _ => True

theorem keeps : readRules.Keeps (Atom.Short limit) limit where
  text {x s} hx h := by
    cases x with
    | text s' | label s' =>
      obtain rfl := Option.some.inj h
      exact hx
    | bytes bs =>
      obtain rfl := Utf8.encode_of_decode? h
      exact hx
    | _ => cases h
  member {first x s} hx h := by
    cases x with
    | text s' | label s' =>
      obtain rfl := Option.some.inj h
      exact hx
    | _ => cases h
  mapKey {k t key} ht h := by
    cases k with
    | text =>
      cases t with
      | scalar x =>
        cases x with
        | text s' | label s' =>
          obtain rfl := Option.some.inj h
          exact ht
        | _ => cases h
      | _ => cases h
    | integer | boolean => exact trivial
    | list => cases h
  rawValue := Json.rawValue?_short
  asSequence ht := ht

/-! ## Texts for bytes and numbers -/

theorem length_hexText (bs : Bytes) :
    (Utf8.encode (String.ofList (bs.flatMap hexByte))).length = 2 * bs.length := by
  have hdigit : ∀ n < 16, (Nat.digitChar n).toNat < 0x80 := by decide
  have hascii : ∀ c ∈ bs.flatMap hexByte, c.toNat < 0x80 := by
    intro c hc
    obtain ⟨b, -, hb⟩ := List.mem_flatMap.1 hc
    have hlt : b.toNat < 256 := b.toNat_lt
    simp only [hexByte, List.mem_cons, List.not_mem_nil, or_false] at hb
    rcases hb with rfl | rfl
    · exact hdigit _ (by omega)
    · exact hdigit _ (by omega)
  rw [Utf8.length_encode, String.toList_ofList, Utf8.bytesOf_ascii hascii, List.length_flatMap]
  simp only [hexByte, List.length_cons, List.length_nil, List.map_const', List.sum_replicate_nat]
  exact Nat.mul_comm _ _

theorem length_decimalText_le {n k : Nat} (hk : 0 < k) (hn : n < Nat.pow 10 k) :
    (Utf8.encode (decimalText n)).length ≤ k := by
  have hdigit : ∀ d : Digit, d.toChar.toNat < 0x80 := by decide
  have hascii : ∀ c ∈ (digitsOf n).map Digit.toChar, c.toNat < 0x80 := by
    intro c hc
    obtain ⟨d, -, rfl⟩ := List.mem_map.1 hc
    exact hdigit d
  rw [Utf8.length_encode, decimalText, String.toList_ofList, Utf8.bytesOf_ascii hascii,
    List.length_map]
  exact length_digitsOf_le hk hn

theorem length_integerText_le {n : Int} {k : Nat} (hk : 0 < k) (hn : n.natAbs < Nat.pow 10 k) :
    (Utf8.encode (integerText n)).length ≤ k + 1 := by
  have hdecimal := length_decimalText_le hk hn
  unfold integerText
  split
  · rw [Utf8.length_encode] at hdecimal
    rw [Utf8.length_encode, String.toList_append, Utf8.bytesOf_append]
    have hminus : Utf8.bytesOf "-".toList = 1 := by decide
    omega
  · exact Nat.le_succ_of_le hdecimal

theorem natAbs_signedLE_lt {p : Bytes} (hp : p.length = 8) :
    (signedLE p).natAbs < Nat.pow 10 20 := by
  have hlt := Bytes.toNatLE_lt p
  have hpatterns : Nat.pow 256 8 = 18446744073709551616 := by decide
  have hbound : Nat.pow 10 20 = 100000000000000000000 := by decide
  rw [hp, hpatterns] at hlt
  rw [signedLE, hp, Bytes.signed, hbound, ← Bytes.pow_bytes, hpatterns]
  split <;> omega

theorem toNat_base64Digit {n : Nat} (h : n < 64) : (base64Digit n).toNat < 0x80 :=
  (by decide : ∀ n < 64, (base64Digit n).toNat < 0x80) n h

theorem base64_ascii (bs : Bytes) : ∀ c ∈ base64 bs, c.toNat < 0x80 := by
  have hpad : ∀ c ∈ ['='], c.toNat < 0x80 := List.forall_mem_singleton.2 (by decide)
  fun_induction base64 bs with
  | case1 a b c rest n ih =>
    have hn : n < 2 ^ 24 := by
      have := a.toNat_lt
      have := b.toNat_lt
      have := c.toNat_lt
      omega
    refine List.forall_mem_cons.2 ⟨toNat_base64Digit (by omega), ?_⟩
    refine List.forall_mem_cons.2 ⟨toNat_base64Digit (by omega), ?_⟩
    refine List.forall_mem_cons.2 ⟨toNat_base64Digit (by omega), ?_⟩
    exact List.forall_mem_cons.2 ⟨toNat_base64Digit (by omega), ih⟩
  | case2 a b n =>
    have hn : n < 2 ^ 18 := by
      have := a.toNat_lt
      have := b.toNat_lt
      omega
    refine List.forall_mem_cons.2 ⟨toNat_base64Digit (by omega), ?_⟩
    refine List.forall_mem_cons.2 ⟨toNat_base64Digit (by omega), ?_⟩
    exact List.forall_mem_cons.2 ⟨toNat_base64Digit (by omega), hpad⟩
  | case3 a n =>
    have hn : n < 2 ^ 12 := by
      have := a.toNat_lt
      omega
    refine List.forall_mem_cons.2 ⟨toNat_base64Digit (by omega), ?_⟩
    refine List.forall_mem_cons.2 ⟨toNat_base64Digit (by omega), ?_⟩
    exact List.forall_mem_cons.2 ⟨hpad _ (.head _), hpad⟩
  | case4 => exact List.forall_mem_nil _

/-- Three bytes, or what is left of them, make four characters. -/
theorem length_base64 (bs : Bytes) : (base64 bs).length = 4 * ((bs.length + 2) / 3) := by
  fun_induction base64 bs with
  | case1 a b c rest n ih =>
    simp only [List.length_cons, ih]
    omega
  | case2 | case3 | case4 => simp only [List.length_cons, List.length_nil]

/-! ## Labels -/

variable {key key' s : String} {t t' : Node Atom} {p : Payload} {bs : Bytes}

theorem bounded_labelled (hlimit : 24 < limit) (hkey : (Utf8.encode key).length ≤ 24)
    (ht : t.Bounded (Atom.Short limit) limit) :
    (labelled key t).Bounded (Atom.Short limit) limit :=
  ⟨by show 1 < limit; omega, Nat.lt_of_le_of_lt hkey hlimit, ht, trivial⟩

theorem bounded_labelledPair (hlimit : 24 < limit) (hkey : (Utf8.encode key).length ≤ 24)
    (ht : t.Bounded (Atom.Short limit) limit) (hkey' : (Utf8.encode key').length ≤ 24)
    (ht' : t'.Bounded (Atom.Short limit) limit) :
    (labelledPair key t key' t').Bounded (Atom.Short limit) limit :=
  ⟨by show 2 < limit; omega, Nat.lt_of_le_of_lt hkey hlimit, ht,
    Nat.lt_of_le_of_lt hkey' hlimit, ht', trivial⟩

theorem bounded_boolNode (bs : Bytes) : (boolNode bs).Bounded (Atom.Short limit) limit := by
  unfold boolNode
  split
  · exact trivial
  · split <;> exact trivial

theorem bounded_objectIdNode (hlimit : 24 < limit) (hbs : bs.length = 12) :
    (objectIdNode bs).Bounded (Atom.Short limit) limit := by
  refine bounded_labelled hlimit (by decide) ?_
  show (Utf8.encode _).length < limit
  rw [length_hexText, hbs]
  exact hlimit

theorem bounded_dateNode (hlimit : 24 < limit) (hbs : bs.length = 8) :
    (dateNode (signedLE bs)).Bounded (Atom.Short limit) limit := by
  have hdigits := length_integerText_le (by decide) (natAbs_signedLE_lt hbs)
  refine bounded_labelled hlimit (by decide) (bounded_labelled hlimit (by decide) ?_)
  exact Nat.lt_of_le_of_lt hdigits (by omega)

theorem bounded_bytesNode (hlimit : 24 < limit) (subtype : UInt8)
    (hbs : 4 * (bs.length + 2) < 3 * limit) :
    (bytesNode subtype bs).Bounded (Atom.Short limit) limit := by
  unfold bytesNode
  split
  · show bs.length < limit
    omega
  · refine bounded_labelled hlimit (by decide)
      (bounded_labelledPair hlimit (by decide) ?_ (by decide) ?_)
    · show (Utf8.encode _).length < limit
      have hhex := length_hexText [subtype]
      rw [List.flatMap_singleton, List.length_singleton] at hhex
      omega
    · show (Utf8.encode _).length < limit
      rw [Utf8.length_encode, String.toList_ofList, Utf8.bytesOf_ascii (base64_ascii bs),
        length_base64]
      omega

/-! ## Payloads -/

theorem shortText_of_printText (h : (printText s).length < limit) : ShortText limit s := by
  rw [length_printText] at h
  exact Nat.lt_of_le_of_lt (Nat.le_add_right _ 5) h

/-- Whether the code in front of a scope is short. -/
def Nest.Short (limit : Nat) : Nest → Prop
  | .document => True
  | .list => True
  | .scope code => ShortText limit code

/-- Whether all that has been read of a payload is bounded. -/
def Payload.Bounded (limit : Nat) : Payload → Prop
  | .whole t => t.Bounded (Atom.Short limit) limit
  | .nested nest _ => nest.Short limit

/-- What is made of a payload is bounded. The limit is for what base 64 makes of it. -/
theorem bounded_of_takes {e : ElementType} (h : e.layout.Takes bs p)
    (hbs : 4 * bs.length ≤ 3 * limit) (hlimit : 24 < limit) : p.Bounded limit := by
  have hshort : ∀ s, bs = printText s → ShortText limit s := by
    rintro s rfl
    exact shortText_of_printText (by omega)
  cases e with
  | double | int32 | int64 | null =>
    obtain ⟨-, rfl⟩ := h
    exact trivial
  | bool =>
    obtain ⟨-, rfl⟩ := h
    exact bounded_boolNode bs
  | undefined | maxKey | minKey =>
    obtain ⟨-, rfl⟩ := h
    exact bounded_labelled hlimit (by decide) trivial
  | text =>
    obtain ⟨s, hs, rfl⟩ := h
    exact hshort s hs
  | code | symbol =>
    obtain ⟨s, hs, rfl⟩ := h
    exact bounded_labelled hlimit (by decide) (hshort s hs)
  | document | list =>
    obtain ⟨elements, -, rfl⟩ := h
    exact trivial
  | binary =>
    obtain ⟨subtype, data, rfl, rfl⟩ := h
    have hsize : data.length + 5 ≤ (printBytes subtype data).length := by
      unfold printBytes
      split <;> simp only [List.length_append, List.length_cons, Bytes.length_ofNatLE] <;> omega
    exact bounded_bytesNode hlimit subtype (by omega)
  | objectId =>
    obtain ⟨hlen, rfl⟩ := h
    exact bounded_objectIdNode hlimit hlen
  | date =>
    obtain ⟨hlen, rfl⟩ := h
    exact bounded_dateNode hlimit hlen
  | regex =>
    obtain ⟨pattern, options, rfl, rfl⟩ := h
    simp only [printRegex, List.length_append, List.length_cons] at hbs
    refine bounded_labelled hlimit (by decide)
      (bounded_labelledPair hlimit (by decide) ?_ (by decide) ?_)
    · show (Utf8.encode pattern.text).length < limit
      omega
    · show (Utf8.encode options.text).length < limit
      omega
  | pointer =>
    obtain ⟨collection, id, hid, rfl, rfl⟩ := h
    rw [List.length_append] at hbs
    exact bounded_labelled hlimit (by decide) (bounded_labelledPair hlimit (by decide)
      (shortText_of_printText (by omega)) (by decide) (bounded_objectIdNode hlimit hid))
  | scopedCode =>
    obtain ⟨code, elements, rfl, rfl⟩ := h
    simp only [printScoped, List.length_append] at hbs
    exact shortText_of_printText (by omega)
  | timestamp =>
    obtain ⟨-, rfl⟩ := h
    exact bounded_labelled hlimit (by decide)
      (bounded_labelledPair hlimit (by decide) trivial (by decide) trivial)
  | decimal =>
    obtain ⟨hlen, rfl⟩ := h
    refine bounded_labelled hlimit (by decide) ?_
    show bs.length < limit
    rw [hlen]
    omega

theorem payload?_bounded {tag : UInt8} {rest : Bytes} (h : payload? tag bs = some (p, rest))
    (hbs : 4 * bs.length ≤ 3 * limit) (hlimit : 24 < limit) : p.Bounded limit := by
  rcases takes_of_payload? h with rfl | ⟨e, front, -, rfl, htakes⟩
  · exact trivial
  · rw [List.length_append] at hbs
    exact bounded_of_takes htakes (by omega) hlimit

/-! ## Elements -/

theorem key?_short {rest : Bytes} (h : key? bs = some (key, rest)) :
    (Utf8.encode key).length + rest.length < bs.length := by
  obtain ⟨-, rfl⟩ := eq_of_key? h
  rw [List.length_append, List.length_cons]
  omega

/-- Whether the keys and trees of the elements collected are bounded. -/
def Collected (limit : Nat) (es : List (Node Atom × Node Atom)) : Prop :=
  ∀ e ∈ es, e.1.Bounded (Atom.Short limit) limit ∧ e.2.Bounded (Atom.Short limit) limit

theorem Collected.cons {es : List (Node Atom × Node Atom)} {key : String} {t : Node Atom}
    (hes : Collected limit es) (hkey : (Utf8.encode key).length < limit)
    (ht : t.Bounded (Atom.Short limit) limit) :
    Collected limit ((.scalar (.text key), t) :: es) :=
  List.forall_mem_cons.2 ⟨⟨hkey, ht⟩, hes⟩

/-- The elements collected make a document, whole or not. -/
theorem bounded_documentNode {es : List (Node Atom × Node Atom)} (hes : Collected limit es)
    (whole : Bool) (hlength : es.length < limit) :
    (documentNode es whole).Bounded (Atom.Short limit) limit := by
  refine ⟨?_, Entries.bounded_prepend hes (by split <;> exact trivial)⟩
  rw [Entries.length_prepend]
  split <;> exact hlength

/-- So they do a list, without their keys, and the scope of code. -/
theorem Nest.bounded_tree {nest : Nest} {es : List (Node Atom × Node Atom)}
    (hnest : nest.Short limit) (hes : Collected limit es) (whole : Bool)
    (hlength : es.length < limit) (hlimit : 24 < limit) :
    (nest.tree es whole).Bounded (Atom.Short limit) limit := by
  cases nest with
  | document => exact bounded_documentNode hes whole hlength
  | list =>
    have htrees : ∀ t ∈ es.map Prod.snd, t.Bounded (Atom.Short limit) limit := by
      intro t ht
      obtain ⟨e, he, rfl⟩ := List.mem_map.1 ht
      exact (hes e he).2
    refine ⟨?_, Items.bounded_prepend htrees (by split <;> exact trivial)⟩
    rw [Items.length_prepend, List.length_map]
    split <;> exact hlength
  | scope code =>
    exact bounded_labelledPair hlimit (by decide) hnest (by decide)
      (bounded_documentNode hes whole hlength)

/-- A document has no more elements than bytes, and an inner one no more than its own. -/
theorem elements_bounded (hlimit : 24 < limit) (rev : List (Node Atom × Node Atom))
    (hbs : 4 * bs.length ≤ 3 * limit) (hrev : Collected limit rev) :
    (elements bs rev).1.length ≤ rev.length + bs.length ∧
      Collected limit (elements bs rev).1 := by
  fun_induction elements bs rev with
  | case1 rev => exact ⟨Nat.le_add_right _ _, hrev⟩
  | case2 rev b => exact ⟨Nat.le_add_right _ _, hrev⟩
  | case3 rev tag b bs _ => exact ⟨Nat.le_add_right _ _, hrev⟩
  | case4 rev tag b bs key after _ _ => exact ⟨Nat.le_add_right _ _, hrev⟩
  | case5 rev tag b bs key after hk t rest hp ih =>
    have hkey := key?_short hk
    have hle := payload?_le hp
    simp only [List.length_cons, Payload.size] at hkey hbs hle
    have ht : t.Bounded (Atom.Short limit) limit := payload?_bounded hp (by omega) hlimit
    obtain ⟨hlength, hes⟩ := ih (by omega) (hrev.cons (by omega) ht)
    simp only [List.length_cons] at hlength ⊢
    exact ⟨by omega, hes⟩
  | case6 rev tag b bs key after hk nest body rest hp es whole helements ihBody ih =>
    have hkey := key?_short hk
    have hle := payload?_le hp
    simp only [List.length_cons, Payload.size] at hkey hbs hle
    have hnest : nest.Short limit := payload?_bounded hp (by omega) hlimit
    have hbody := ihBody (by omega) (List.forall_mem_nil _)
    rw [helements, List.length_nil, Nat.zero_add] at hbody
    have ht := nest.bounded_tree hnest hbody.2 whole (Nat.lt_of_le_of_lt hbody.1 (by omega)) hlimit
    obtain ⟨hlength, hes⟩ := ih (by omega) (hrev.cons (by omega) ht)
    simp only [List.length_cons] at hlength ⊢
    exact ⟨by omega, hes⟩

/-- No part of a parsed tree is as long as the limit. -/
theorem parse_bounded (hbs : 4 * bs.length ≤ 3 * limit) (hlimit : 24 < limit) :
    (parse bs).Bounded (Atom.Short limit) limit := by
  unfold parse
  split
  · next body hframe =>
    have hle := embedded?_le hframe
    rw [List.length_nil, Nat.add_zero] at hle
    have hbody := elements_bounded hlimit [] (by omega : 4 * body.length ≤ 3 * limit)
      (List.forall_mem_nil _)
    rw [List.length_nil, Nat.zero_add] at hbody
    exact bounded_documentNode hbody.2 _ (Nat.lt_of_le_of_lt hbody.1 (by omega))
  · exact trivial

end Conneg.Bson
