import Conneg.Text.Utf8

/-!
# Quoted text in JSON

A text stands between quotes, with some of its characters escaped. `scan` takes
the bytes of a quoted text up to its closing quote and checks only that its
escapes are well formed; `decode?` then says which text it is, and refuses bytes
that are not UTF-8 and halves of surrogate pairs; `encode` writes a text.
-/

namespace Conneg.Json

namespace Quoting

/-- Whether a byte is a hexadecimal digit. -/
def isHex (b : UInt8) : Bool :=
  (0x30 ≤ b && b ≤ 0x39) || (0x41 ≤ b && b ≤ 0x46) || (0x61 ≤ b && b ≤ 0x66)

/-- Whether a backslash before this byte is a whole escape. -/
def isShortEscape (b : UInt8) : Bool :=
  b == 0x22 || b == 0x5C || b == 0x2F || b == 0x62 || b == 0x66 || b == 0x6E || b == 0x72 ||
    b == 0x74

/-- The bytes up to the closing quote, onto those taken so far, last first; and
the bytes after it. -/
def scan : Bytes → Bytes → Option (Bytes × Bytes)
  | [], _ => none
  | b :: bs, rev =>
    if b = 0x22 then some (rev.reverse, bs)
    else if b = 0x5C then
      match bs with
      | [] => none
      | e :: bs =>
        if isShortEscape e then scan bs (e :: b :: rev)
        else if e = 0x75 then
          match bs with
          | h1 :: h2 :: h3 :: h4 :: bs =>
            if isHex h1 && isHex h2 && isHex h3 && isHex h4 then
              scan bs (h4 :: h3 :: h2 :: h1 :: e :: b :: rev)
            else none
          | _ => none
        else none
    else if b < 0x20 then none
    else scan bs (b :: rev)

/-- A quoted text takes at least its closing quote. -/
theorem scan_shorter {bs rev raw rest : Bytes} (h : scan bs rev = some (raw, rest)) :
    rest.length < bs.length := by
  fun_induction scan bs rev <;> simp_all <;> omega

/-- The value of a hexadecimal digit; zero for any other character. -/
def hexValue (c : Char) : Nat :=
  if '0' ≤ c ∧ c ≤ '9' then c.toNat - 48
  else if 'a' ≤ c ∧ c ≤ 'f' then c.toNat - 87
  else if 'A' ≤ c ∧ c ≤ 'F' then c.toNat - 55
  else 0

/-- The number of four hexadecimal digits. -/
def hexQuad (a b c d : Char) : Nat :=
  ((hexValue a * 16 + hexValue b) * 16 + hexValue c) * 16 + hexValue d

/-- The character of a short escape. -/
def shortEscape (c : Char) : Char :=
  match c with
  | 'b' => '\x08'
  | 'f' => '\x0c'
  | 'n' => '\n'
  | 'r' => '\r'
  | 't' => '\t'
  | c => c

/-- The characters that a text with escapes stands for, onto those so far, last
first. Two escapes in a row make one character when they are the halves of a
surrogate pair; a half on its own is refused. -/
def unescape : List Char → List Char → Option (List Char)
  | [], rev => some rev.reverse
  | '\\' :: 'u' :: a :: b :: c :: d :: rest, rev =>
    let unit := hexQuad a b c d
    if 0xDC00 ≤ unit ∧ unit ≤ 0xDFFF then none
    else if 0xD800 ≤ unit ∧ unit ≤ 0xDBFF then
      match rest with
      | '\\' :: 'u' :: a :: b :: c :: d :: rest =>
        let low := hexQuad a b c d
        if 0xDC00 ≤ low ∧ low ≤ 0xDFFF then
          unescape rest (Char.ofNat (0x10000 + (unit - 0xD800) * 0x400 + (low - 0xDC00)) :: rev)
        else none
      | _ => none
    else unescape rest (Char.ofNat unit :: rev)
  | '\\' :: e :: rest, rev => unescape rest (shortEscape e :: rev)
  | c :: rest, rev => unescape rest (c :: rev)

/-- The text that the bytes between quotes stand for. -/
def decode? (raw : Bytes) : Option String := do
  let s ← Utf8.decode? raw
  let cs ← unescape s.toList []
  some (String.ofList cs)

/-- One lower-case hexadecimal digit. -/
def hexChar (n : Nat) : Char := Char.ofNat (if n < 10 then 48 + n else 87 + n)

/-- The written form of a character inside quotes: only the quote, the
backslash and the controls below the space are escaped. -/
def escape (c : Char) : List Char :=
  if c = '"' then ['\\', '"']
  else if c = '\\' then ['\\', '\\']
  else if c = '\x08' then ['\\', 'b']
  else if c = '\x0c' then ['\\', 'f']
  else if c = '\n' then ['\\', 'n']
  else if c = '\r' then ['\\', 'r']
  else if c = '\t' then ['\\', 't']
  else if c.toNat < 0x20 then ['\\', 'u', '0', '0', hexChar (c.toNat / 16), hexChar (c.toNat % 16)]
  else [c]

/-- The bytes between the quotes of a text. -/
def encode (s : String) : Bytes :=
  Utf8.encode (String.ofList (s.toList.flatMap escape))

end Quoting
end Conneg.Json
