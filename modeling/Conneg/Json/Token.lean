import Conneg.Json.Atom

/-!
# Tokens of JSON

The brackets, the comma, the colon and the scalars, with blanks before them. The
text of a token ends where no longer token begins, so a token's bytes do not
depend on what follows them, but for the digits of a number.
-/

namespace Conneg.Json

/-- A token. -/
inductive Token
  | atom (x : Atom)
  | openList
  | closeList
  | openObject
  | closeObject
  | comma
  | colon
  deriving DecidableEq

namespace Token

/-- A blank between tokens: space, tab, line feed or carriage return. -/
def isBlank (b : UInt8) : Bool := b == 0x20 || b == 0x09 || b == 0x0A || b == 0x0D

/-- The bytes after a word, if they begin with it. -/
def word? (word : Bytes) (bs : Bytes) : Option Bytes :=
  if bs.take word.length = word then some (bs.drop word.length) else none

/-- A token that is a word: its first byte has been taken. -/
def wordToken (x : Atom) (word bs : Bytes) : Option (Token × Bytes) :=
  (word? word bs).map fun rest => (.atom x, rest)

/-- The token that begins with a byte, and the bytes after it. -/
def ofByte (b : UInt8) (bs : Bytes) : Option (Token × Bytes) :=
  if b = 0x22 then (Quoting.scan bs []).map fun (raw, rest) => (.atom (.text raw), rest)
  else if b = 0x2C then some (.comma, bs)
  else if b = 0x3A then some (.colon, bs)
  else if b = 0x5B then some (.openList, bs)
  else if b = 0x5D then some (.closeList, bs)
  else if b = 0x7B then some (.openObject, bs)
  else if b = 0x7D then some (.closeObject, bs)
  else if b = 0x6E then wordToken .null [0x75, 0x6C, 0x6C] bs
  else if b = 0x74 then wordToken (.bool true) [0x72, 0x75, 0x65] bs
  else if b = 0x66 then wordToken (.bool false) [0x61, 0x6C, 0x73, 0x65] bs
  else (Number.scan (b :: bs)).map fun (n, rest) => (.atom (.number n), rest)

/-- The next token, after blanks, and the bytes after it. -/
def next (bs : Bytes) : Option (Token × Bytes) :=
  match bs.dropWhile isBlank with
  | [] => none
  | b :: bs => ofByte b bs

theorem wordToken_le {x : Atom} {word bs rest : Bytes} {t : Token}
    (h : wordToken x word bs = some (t, rest)) : rest.length ≤ bs.length := by
  simp only [wordToken, word?, Option.map_eq_some_iff] at h
  obtain ⟨r, hr, h⟩ := h
  split at hr
  · simp only [Option.some.injEq, Prod.mk.injEq] at hr h
    rw [← h.2, ← hr]; simp
  · simp at hr

theorem ofByte_le {b : UInt8} {bs rest : Bytes} {t : Token}
    (h : ofByte b bs = some (t, rest)) : rest.length ≤ bs.length := by
  have hmark : ∀ x : Token, some (x, bs) = some (t, rest) → rest.length ≤ bs.length := by
    intro x hx
    simp only [Option.some.injEq, Prod.mk.injEq] at hx
    exact Nat.le_of_eq (congrArg List.length hx.2.symm)
  unfold ofByte at h
  by_cases hquote : b = 0x22
  · rw [if_pos hquote] at h
    obtain ⟨⟨raw, r⟩, hs, h⟩ := Option.map_eq_some_iff.1 h
    simp only [Prod.mk.injEq] at h
    have := Quoting.scan_shorter hs
    rw [← h.2]; omega
  rw [if_neg hquote] at h
  by_cases hcomma : b = 0x2C
  · rw [if_pos hcomma] at h; exact hmark _ h
  rw [if_neg hcomma] at h
  by_cases hcolon : b = 0x3A
  · rw [if_pos hcolon] at h; exact hmark _ h
  rw [if_neg hcolon] at h
  by_cases hopenList : b = 0x5B
  · rw [if_pos hopenList] at h; exact hmark _ h
  rw [if_neg hopenList] at h
  by_cases hcloseList : b = 0x5D
  · rw [if_pos hcloseList] at h; exact hmark _ h
  rw [if_neg hcloseList] at h
  by_cases hopenObject : b = 0x7B
  · rw [if_pos hopenObject] at h; exact hmark _ h
  rw [if_neg hopenObject] at h
  by_cases hcloseObject : b = 0x7D
  · rw [if_pos hcloseObject] at h; exact hmark _ h
  rw [if_neg hcloseObject] at h
  by_cases hnull : b = 0x6E
  · rw [if_pos hnull] at h; exact wordToken_le h
  rw [if_neg hnull] at h
  by_cases htrue : b = 0x74
  · rw [if_pos htrue] at h; exact wordToken_le h
  rw [if_neg htrue] at h
  by_cases hfalse : b = 0x66
  · rw [if_pos hfalse] at h; exact wordToken_le h
  rw [if_neg hfalse] at h
  obtain ⟨⟨n, r⟩, hs, h⟩ := Option.map_eq_some_iff.1 h
  simp only [Prod.mk.injEq] at h
  have := Number.scan_shorter hs
  simp only [List.length_cons] at this
  rw [← h.2]; omega

/-- A token takes at least one byte. -/
theorem next_shorter {bs : Bytes} {t : Token} {rest : Bytes}
    (h : next bs = some (t, rest)) : rest.length < bs.length := by
  have hle := (List.dropWhile_suffix isBlank (l := bs)).length_le
  simp only [next] at h
  split at h
  · simp at h
  · next b r hb =>
    have := ofByte_le h
    rw [hb] at hle
    simp only [List.length_cons] at hle
    omega

end Token
end Conneg.Json
