import Conneg.Proofs.Bson.Extent
import Conneg.Proofs.Bson.Parts
import Conneg.Proofs.Bson.RoundTrip

/-!
# What is encoded is framed

The grammar of BSON is said here of the bytes alone, without a reader: `IsDocument`, with
`AreElements` for what a document holds and `IsPayload` for what may follow a type byte and a
key. A length counts the bytes of which it is the first four, so the grammar says of every
embedded document, list and text that it ends where its own length says. The keys of a document
are part of the grammar, for those of a list are the indices of its items.

The printer writes a length in front of bytes that it has already. What carries the proof is
that these are not too many for the four bytes of a length, which is asked of the whole body
only: the induction over the tree hands the bound from each frame to what is inside it
(`isPayload_printNode`, `areElements_printItems`, `areElements_printEntries`).
-/

namespace Conneg.Bson

open Wire

/-! ## The grammar -/

mutual

/-- A document with these keys: its length, its elements and a zero byte. -/
inductive IsDocument : List String → Bytes → Prop
  | framed {keys : List String} {size elements : Bytes} (hsize : size.length = 4)
      (hvalue : Bytes.toNatLE size = (size ++ elements ++ [0]).length)
      (h : AreElements keys elements) : IsDocument keys (size ++ elements ++ [0])

/-- The elements of a document, each a type byte, a key up to its NUL, and a payload. -/
inductive AreElements : List String → Bytes → Prop
  | nil : AreElements [] []
  | cons {tag : UInt8} {key : String} {keys : List String} {payload rest : Bytes}
      (hkey : '\x00' ∉ key.toList) (hpayload : IsPayload tag payload)
      (hrest : AreElements keys rest) :
      AreElements (key :: keys) (tag :: Utf8.encode key ++ 0 :: payload ++ rest)

/-- The payload that a type byte asks for. -/
inductive IsPayload : UInt8 → Bytes → Prop
  | double {bs : Bytes} (h : bs.length = 8) : IsPayload 0x01 bs
  /-- The length of a text counts its zero byte. -/
  | text {size : Bytes} {s : String} (hsize : size.length = 4)
      (hvalue : Bytes.toNatLE size = (Utf8.encode s).length + 1) :
      IsPayload 0x02 (size ++ Utf8.encode s ++ [0])
  | document {keys : List String} {bs : Bytes} (h : IsDocument keys bs) : IsPayload 0x03 bs
  /-- The keys of a list of `n` items count from zero. -/
  | list {n : Nat} {bs : Bytes} (h : IsDocument ((List.range n).map decimalText) bs) :
      IsPayload 0x04 bs
  | bool (b : Bool) : IsPayload 0x08 [if b then 1 else 0]
  | null : IsPayload 0x0A []
  | int32 {bs : Bytes} (h : bs.length = 4) : IsPayload 0x10 bs
  | int64 {bs : Bytes} (h : bs.length = 8) : IsPayload 0x12 bs

end

/-- A document begins with its own length and ends with a zero byte. -/
theorem IsDocument.ends {keys : List String} {bs : Bytes} (h : IsDocument keys bs) :
    Bytes.toNatLE (bs.take 4) = bs.length ∧ bs.getLast? = some 0 := by
  obtain ⟨hsize, hvalue, -⟩ := h
  refine ⟨?_, List.getLast?_concat⟩
  rw [List.append_assoc, List.take_left' hsize, ← List.append_assoc]
  exact hvalue

/-! ## What is printed -/

theorem isDocument_frame {keys : List String} {elements : Bytes}
    (h : AreElements keys elements) (hlen : (frame elements).length < 2 ^ 31) :
    IsDocument keys (frame elements) := by
  have hframe := length_frame elements
  refine .framed (Bytes.length_ofNatLE 4 _) ?_ h
  show _ = (frame elements).length
  rw [hframe, Bytes.toNatLE_ofNatLE]
  exact Nat.lt_trans (hframe ▸ hlen) (by decide)

theorem isPayload_printText {s : String} (hlen : (printText s).length < 2 ^ 31) :
    IsPayload 0x02 (printText s) := by
  refine .text (Bytes.length_ofNatLE 4 _) (Bytes.toNatLE_ofNatLE ?_)
  simp only [printText, List.length_append, Bytes.length_ofNatLE, List.length_singleton] at hlen
  exact Nat.lt_trans (by omega : _ < 2 ^ 31) (by decide)

theorem isPayload_print {x : Atom} (hlen : x.print.2.length < 2 ^ 31) :
    IsPayload x.print.1 x.print.2 := by
  cases x with
  | null | bytes => exact .null
  | bool b => exact .bool b
  | int32 n => exact .int32 (Bytes.length_ofNatLE 4 _)
  | int64 n => exact .int64 (Bytes.length_ofNatLE 8 _)
  | double x => exact .double (Bytes.length_ofNatLE 8 _)
  | text s | label s => exact isPayload_printText hlen

variable {P : Atom → Prop}

mutual

/-- What is printed of a tree is the payload that its type byte asks for. -/
theorem isPayload_printNode (t : Node Atom) (ht : t.Sound P IsKey)
    (hlen : (printNode t).2.length < 2 ^ 31) : IsPayload (printNode t).1 (printNode t).2 := by
  cases t with
  | broken => exact ht.elim
  | scalar x => exact isPayload_print hlen
  | seq xs =>
    have hframe := length_frame (printItems 0 xs)
    simp only [printNode] at hlen ⊢
    obtain ⟨n, hn⟩ := areElements_printItems xs ht 0 (by omega)
    rw [← List.range_eq_range'] at hn
    exact .list (isDocument_frame hn hlen)
  | map es =>
    have hframe := length_frame (printEntries es)
    simp only [printNode] at hlen ⊢
    obtain ⟨keys, hkeys⟩ := areElements_printEntries es ht (by omega)
    exact .document (isDocument_frame hkeys hlen)

/-- The items of a list from an index on have their indices for keys. -/
theorem areElements_printItems (xs : Items Atom) (hxs : xs.Sound P IsKey) (i : Nat)
    (hlen : (printItems i xs).length < 2 ^ 31) :
    ∃ n, AreElements ((List.range' i n).map decimalText) (printItems i xs) := by
  cases xs with
  | broken => exact hxs.elim
  | done => exact ⟨0, .nil⟩
  | cons t xs =>
    have hsize := length_element (printNode t).1 (Utf8.encode (decimalText i)) (printNode t).2
    simp only [printItems, List.length_append] at hlen
    have hpayload := isPayload_printNode t hxs.1 (by omega)
    obtain ⟨n, hn⟩ := areElements_printItems xs hxs.2 (i + 1) (by omega)
    exact ⟨n + 1, .cons (nul_notMem_decimalText i) hpayload hn⟩

/-- The entries of a document have keys without a NUL. -/
theorem areElements_printEntries (es : Entries Atom) (hes : es.Sound P IsKey)
    (hlen : (printEntries es).length < 2 ^ 31) : ∃ keys, AreElements keys (printEntries es) := by
  cases es with
  | broken => exact hes.elim
  | done => exact ⟨[], .nil⟩
  | cons k t es =>
    obtain ⟨⟨s, rfl, hs⟩, ht, hes⟩ := hes
    have hsize := length_element (printNode t).1 (printKey (.scalar (.text s))) (printNode t).2
    simp only [printEntries, List.length_append] at hlen
    have hpayload := isPayload_printNode t ht (by omega)
    obtain ⟨keys, hkeys⟩ := areElements_printEntries es hes (by omega)
    exact ⟨s :: keys, .cons hs hpayload hkeys⟩

end

/-- An encoded value is a document, if its length fits. -/
theorem isDocument_of_encode {s : Schema} {v : s.Carrier} {bs : Bytes} (h : encode s v = some bs)
    (hlen : bs.length < 2 ^ 31) : ∃ keys, IsDocument keys bs := by
  obtain ⟨es, hes, rfl⟩ := encode_eq_some h
  have hsound : (Node.map es).Sound Atom.Storable IsKey :=
    Schema.write_sound within s v (.inl fun _ => trivial) hes
  have hframe := length_frame (printEntries es)
  obtain ⟨keys, hkeys⟩ := areElements_printEntries es hsound (by omega)
  exact ⟨keys, isDocument_frame hkeys hlen⟩

/-! ## What is accepted -/

/-- A document with nothing behind it has the length that it says. -/
theorem length_of_embedded? {bs body : Bytes} (h : embedded? bs = some (body, [])) :
    Bytes.toNatLE (bs.take 4) = bs.length := by
  obtain ⟨elements, -, rfl, hlen⟩ := eq_of_embedded? h
  have hframe := length_frame elements
  rw [List.append_nil, hframe, frame, List.append_assoc,
    List.take_left' (Bytes.length_ofNatLE 4 _)]
  exact Bytes.toNatLE_ofNatLE (Nat.lt_trans (hframe ▸ hlen) (by decide))

end Conneg.Bson

namespace Conneg

/-- **Encoded BSON is framed at every level.** Whatever value of whatever schema is encoded, as
long as its length fits: the first four bytes are the length of the whole and the last byte is
zero. It is a document in the grammar of BSON, and with it every document, list and text in it
ends where its own length says. Conversely, only a body of the length that it says is
accepted. -/
theorem bson_framed (s : Schema) :
    (∀ v bs, Format.bson.encode s v = .ok bs → bs.length < 2 ^ 31 →
      Bytes.toNatLE (bs.take 4) = bs.length ∧ bs.getLast? = some 0 ∧
        ∃ keys, Bson.IsDocument keys bs) ∧
    ∀ bs v, Format.bson.decode s bs = .ok v → Bytes.toNatLE (bs.take 4) = bs.length := by
  constructor
  · intro v bs hbs hlen
    obtain ⟨keys, hkeys⟩ := Bson.isDocument_of_encode (Format.encode_eq_ok.1 hbs) hlen
    exact ⟨hkeys.ends.1, hkeys.ends.2, keys, hkeys⟩
  · intro bs v hv
    obtain ⟨body, hbody⟩ := Bson.embedded?_of_decode (Format.decode_eq_ok.1 hv)
    exact Bson.length_of_embedded? hbody

/-- A text of two bytes and an empty object in a list, behind a number. -/
theorem bson_framed_nested :
    let v : Any := .object [("n", .integer ⟨7, by decide, by decide⟩),
      ("z", .list [.text "é", .object []])]
    ∃ bs, Format.bson.encode .any v = .ok bs ∧ bs.length = 42 ∧ bs.length < 2 ^ 31 ∧
      Format.bson.decode .any bs = .ok v ∧
      Bytes.toNatLE (bs.take 4) = bs.length ∧ bs.getLast? = some 0 ∧
        ∃ keys, Bson.IsDocument keys bs := by
  intro v
  have hv : (Schema.any).Proper (fun _ => True) v :=
    ⟨⟨by decide, trivial, ⟨trivial, ⟨by decide, trivial⟩, trivial⟩, trivial⟩,
      ⟨by decide, trivial, ⟨trivial, ⟨by decide, trivial⟩, trivial⟩, trivial⟩⟩
  obtain ⟨bs, hbs, hsize⟩ : ∃ bs, Format.bson.encode .any v = .ok bs ∧ bs.length = 42 :=
    ⟨_, rfl, by decide +kernel⟩
  have hlen : bs.length < 2 ^ 31 := by omega
  have hdecode : Format.bson.decode .any bs = .ok v :=
    Format.decode_eq_ok.2 (Bson.decode_encode rfl hv (Format.encode_eq_ok.1 hbs) hlen)
  obtain ⟨hencoded, haccepted⟩ := bson_framed .any
  obtain ⟨-, hlast, hdocument⟩ := hencoded v bs hbs hlen
  exact ⟨bs, hbs, hsize, hlen, hdecode, haccepted bs v hdecode, hlast, hdocument⟩

end Conneg
