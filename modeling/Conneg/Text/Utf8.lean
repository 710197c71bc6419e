import Conneg.Bytes

/-!
# UTF-8

One scan of a byte string, `pieces`, cuts it into the characters it holds and
the parts that are none: each maximal run of bytes that begins a character but
does not finish one, and each byte that begins no character, is one `none`. The
strict reading `decode?` refuses a string with such a part; the lenient reading
`decodeLossy` puts U+FFFD in its place. Both therefore agree on valid text.
-/

namespace Conneg.Utf8

/-- The bytes of a text. -/
def encode (s : String) : Bytes := s.toList.flatMap String.utf8EncodeChar

/-- A character that has begun: how many bytes are owed after the next one,
the range the next one must lie in, and the bits collected so far. -/
structure Pending where
  owed : Nat
  low : UInt8
  high : UInt8
  value : Nat

/-- What a byte between two characters does. -/
inductive Lead
  | whole (c : Char)
  | opens (p : Pending)
  | never

/-- The role of a byte between two characters. The narrowed ranges after E0,
ED, F0 and F4 rule out overlong forms, surrogates and numbers past U+10FFFF. -/
def lead (b : UInt8) : Lead :=
  if b ≤ 0x7F then .whole (Char.ofNat b.toNat)
  else if b < 0xC2 then .never
  else if b ≤ 0xDF then .opens ⟨0, 0x80, 0xBF, b.toNat - 0xC0⟩
  else if b = 0xE0 then .opens ⟨1, 0xA0, 0xBF, 0⟩
  else if b = 0xED then .opens ⟨1, 0x80, 0x9F, 0xD⟩
  else if b ≤ 0xEF then .opens ⟨1, 0x80, 0xBF, b.toNat - 0xE0⟩
  else if b = 0xF0 then .opens ⟨2, 0x90, 0xBF, 0⟩
  else if b ≤ 0xF3 then .opens ⟨2, 0x80, 0xBF, b.toNat - 0xF0⟩
  else if b = 0xF4 then .opens ⟨2, 0x80, 0x8F, 4⟩
  else .never

/-- Where a scan stands: the character begun, if any, and the pieces so far,
the last one first. -/
structure State where
  pending : Option Pending
  found : List (Option Char)

/-- A byte between two characters. -/
def begin (found : List (Option Char)) (b : UInt8) : State :=
  match lead b with
  | .whole c => ⟨none, some c :: found⟩
  | .opens p => ⟨some p, found⟩
  | .never => ⟨none, none :: found⟩

/-- One byte of the scan. A byte that cannot continue the character begun
closes it as a bad part and is then looked at afresh. -/
def step (s : State) (b : UInt8) : State :=
  match s.pending with
  | none => begin s.found b
  | some p =>
    if p.low ≤ b && b ≤ p.high then
      let value := p.value * 64 + (b.toNat - 0x80)
      match p.owed with
      | 0 => ⟨none, some (Char.ofNat value) :: s.found⟩
      | owed + 1 => ⟨some ⟨owed, 0x80, 0xBF, value⟩, s.found⟩
    else begin (none :: s.found) b

/-- The characters of a byte string in order, with `none` for each maximal
part that is no character. -/
def pieces (bs : Bytes) : List (Option Char) :=
  let s := bs.foldl step ⟨none, []⟩
  (if s.pending.isSome then none :: s.found else s.found).reverse

/-- The text a byte string writes, if all of it is characters. -/
def decode? (bs : Bytes) : Option String := ((pieces bs).mapM id).map String.ofList

/-- The text a byte string writes, with U+FFFD for each part that is no
character. -/
def decodeLossy (bs : Bytes) : String :=
  String.ofList ((pieces bs).map (·.getD '\ufffd'))

example : decode? [0xF0, 0x9F, 0x98, 0x80] = some "😀" := by decide
example : decode? [0xED, 0xA0, 0x80] = none := by decide
example : decodeLossy [0xE2, 0x82, 0x61, 0xC0, 0xAF] = "\ufffda\ufffd\ufffd" := by decide

end Conneg.Utf8
