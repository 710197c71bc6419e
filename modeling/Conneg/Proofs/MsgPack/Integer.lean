import Conneg.Proofs.MsgPack.Token
import Conneg.Proofs.Wire.RoundTrip

/-!
# The forms of an integer

An integer has many forms: a byte of its own at either end of the bytes, or a marker with one,
two, four or eight bytes behind it, unsigned or signed. A writer takes the shortest of them, but a
reader has to take them all (`IsInteger`). Each is one token, which means the integer that the form
says (`IsInteger.next`), and what becomes of it depends on the integer only
(`decode_of_isInteger`).
-/

namespace Conneg.MsgPack

open Wire

/-- How many bytes stand behind a marker. -/
inductive Width
  | one
  | two
  | four
  | eight

namespace Width

/-- The number of bytes. -/
def bytes : Width → Nat
  | .one => 1
  | .two => 2
  | .four => 4
  | .eight => 8

/-- The marker of an unsigned integer. -/
def unsigned : Width → UInt8
  | .one => 0xCC
  | .two => 0xCD
  | .four => 0xCE
  | .eight => 0xCF

/-- The marker of a signed integer. -/
def signed : Width → UInt8
  | .one => 0xD0
  | .two => 0xD1
  | .four => 0xD2
  | .eight => 0xD3

end Width

/-- Whether bytes are a form of an integer, shortest or not. -/
inductive IsInteger : Bytes → Int → Prop
  /-- A byte below 0x80 is its own number. -/
  | positive {b : UInt8} (h : b.toNat < 0x80) : IsInteger [b] b.toNat
  /-- A byte from 0xE0 on is a small negative number. -/
  | negative {b : UInt8} (h : 0xE0 ≤ b.toNat) : IsInteger [b] ((b.toNat : Int) - 256)
  | unsigned (w : Width) {bs : Bytes} (h : bs.length = w.bytes) :
    IsInteger (w.unsigned :: bs) (Bytes.toNatBE bs)
  /-- In two's complement. -/
  | signed (w : Width) {bs : Bytes} (h : bs.length = w.bytes) :
    IsInteger (w.signed :: bs) (Bytes.signed w.bytes (Bytes.toNatBE bs))

variable {bs : Bytes} {n : Int}

/-- A number that takes all bytes there are. -/
theorem Token.scalar?_all (make : Nat → Token) {width : Nat} (h : bs.length = width) :
    scalar? make width bs = some (make (Bytes.toNatBE bs), []) := by
  have hsplit := Bytes.split?_of_length h []
  rw [List.append_nil] at hsplit
  rw [scalar?, number?, hsplit]
  rfl

/-- A form of an integer is one token, which means the integer. -/
theorem IsInteger.next (h : IsInteger bs n) :
    ∃ x, Token.next bs = some (.atom x, []) ∧ x.meaning = .integer n := by
  cases h with
  | @positive b h =>
    refine ⟨.unsigned b.toNat, ?_, rfl⟩
    simp only [Token.next, Token.ofMarker, if_pos h]
  | @negative b h =>
    refine ⟨.signed ((b.toNat : Int) - 256), ?_, rfl⟩
    simp only [Token.next, Token.ofMarker]
    rw [if_neg (by omega), if_neg (by omega), if_neg (by omega), if_neg (by omega), if_pos h]
  | @unsigned w bs h =>
    have hmarker : Token.next (w.unsigned :: bs)
        = Token.scalar? (fun n => .atom (.unsigned n)) w.bytes bs := by
      cases w <;> rfl
    exact ⟨_, hmarker.trans (Token.scalar?_all _ h), rfl⟩
  | @signed w bs h =>
    have hmarker : Token.next (w.signed :: bs)
        = Token.scalar? (Token.signedAtom w.bytes) w.bytes bs := by
      cases w <;> rfl
    exact ⟨_, hmarker.trans (Token.scalar?_all _ h), rfl⟩

/-- A body that is an integer in some form is read as the integer. -/
theorem decode_of_isInteger (h : IsInteger bs n) (k : IntKind) :
    decode (.integer k) bs = (Integer.ofInt? k n).elim (.error .unreadable) .ok := by
  obtain ⟨x, htoken, hmeaning⟩ := h.next
  have hparse : parse bs = ⟨.scalar x, some []⟩ := Grammar.run_finish htoken rfl
  have hread : (Schema.integer k).read readRules readRules.nesting (.scalar x)
      = (x.meaning.asInteger? k).elim (.error .unreadable) .ok :=
    Reader.leaf_eq_elim
  rw [hmeaning] at hread
  simp only [decode, hparse, hread, Scalar.asInteger?]
  cases Integer.ofInt? k n <;> rfl

end Conneg.MsgPack
