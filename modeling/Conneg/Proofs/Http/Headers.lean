import Conneg.Http.Headers
import Conneg.Proofs.Text.Utf8

/-!
# Header values that are text

A header value is text exactly if all its bytes are visible ASCII, spaces or tabs, and then
it is the one text that is written with these bytes (`headerText?_eq_some`).
-/

namespace Conneg

/-- Whether all bytes of a header value are visible ASCII characters, spaces or tabs. -/
def IsTextValue (value : Bytes) : Prop := ∀ b ∈ value, b = 0x09 ∨ 0x20 ≤ b ∧ b ≤ 0x7E

theorem isHeaderText_iff {b : UInt8} :
    isHeaderText b = true ↔ b = 0x09 ∨ 0x20 ≤ b ∧ b ≤ 0x7E := by
  simp [isHeaderText]

theorem all_isHeaderText_iff {value : Bytes} :
    value.all isHeaderText = true ↔ IsTextValue value := by
  simp only [List.all_eq_true, isHeaderText_iff, IsTextValue]

/-- The character of a byte of text is written with that byte alone. -/
theorem encodeChar_textByte {b : UInt8} (h : b = 0x09 ∨ 0x20 ≤ b ∧ b ≤ 0x7E) :
    String.utf8EncodeChar (Char.ofNat b.toNat) = [b] := by
  have hascii : b.toNat < 0x80 := by
    rcases h with rfl | ⟨-, hhigh⟩
    · decide
    · have hle : b.toNat ≤ 0x7E := UInt8.le_iff_toNat_le.1 hhigh
      omega
  have hchar : (Char.ofNat b.toNat).toNat = b.toNat := Utf8.toNat_ofNat (.inl (by omega))
  rw [Utf8.encodeChar_ascii (by omega), hchar, UInt8.ofNat_toNat]

theorem encode_textValue {value : Bytes} (h : IsTextValue value) :
    Utf8.encode (String.ofList (value.map fun b => Char.ofNat b.toNat)) = value := by
  rw [Utf8.encode, String.toList_ofList]
  induction value with
  | nil => rfl
  | cons b value ih =>
    obtain ⟨hb, hvalue⟩ := List.forall_mem_cons.1 h
    rw [List.map_cons, List.flatMap_cons, encodeChar_textByte hb, ih hvalue, List.singleton_append]

/-- A header value is this text exactly if its bytes are those of text, and of this one. -/
theorem headerText?_eq_some {value : Bytes} {text : String} :
    headerText? value = some text ↔ IsTextValue value ∧ Utf8.encode text = value := by
  unfold headerText?
  constructor
  · intro h
    split at h
    · next hall =>
      have hvalue := all_isHeaderText_iff.1 hall
      obtain rfl := Option.some.inj h
      exact ⟨hvalue, encode_textValue hvalue⟩
    · exact nomatch h
  · rintro ⟨hvalue, hencode⟩
    rw [if_pos (all_isHeaderText_iff.2 hvalue)]
    -- two texts that are written alike are the same
    have hdecode := congrArg Utf8.decode? ((encode_textValue hvalue).trans hencode.symm)
    rw [Utf8.decode?_encode, Utf8.decode?_encode] at hdecode
    exact hdecode

end Conneg
