import Conneg.Proofs.Json.RoundTrip
import Conneg.Proofs.Json.Spelling

/-!
# Which doubles JSON keeps

A double is written by its shortest decimal, which one rounding would read back
(`nearestWord_ofFloat`). But a reader rounds twice: first the digits to a double, then
that double times or through a power of ten. So JSON keeps a double exactly if its
digits, scaled so, are the double again (`Binary64.Rescales`), wherever in a body it
stands (`Body.json_roundTrip_rescales`).

Not every double is kept: one of 53 bits, written with the one digit behind its point,
has more than 53 bits of digits, and the first rounding loses some of them
(`Body.json_loses_double`). Where the digits are a number below 2^53 and the power of ten is
an exact double too, the first rounding does nothing, and the double is kept
(`Binary64.rescales_of_plain`).
-/

namespace Conneg

open Wire Json Json.Number

namespace Binary64

/-- Whether a finite double is the digits of its spelling, scaled in double precision by
their power of ten. -/
def Rescales (x : Binary64) : Prop :=
  x.isFinite = true ∧ scale (.ofNat (ofFloat x).digits) (ofFloat x).place = some x.abs

/-- Whether the digits of a double are at most 53 bits, and their power of ten is one of
those that are doubles. -/
def Plain (x : Binary64) : Prop :=
  (ofFloat x).digits < 2 ^ 53 ∧ (ofFloat x).place.natAbs ≤ 22

end Binary64

/-! ## The spelling of a double -/

namespace Json.Number

theorem negative_ofFloat (x : Binary64) : (ofFloat x).negative = x.negative := by
  unfold ofFloat
  split
  · rfl
  · simp only [ofDigits]
    split
    · split <;> rfl
    · split <;> rfl

/-- Every double is spelled as some decimal, zeros included. -/
theorem exists_spells (x : Binary64) : ∃ c e, (ofFloat x).Spells c e := by
  cases hx : x.isZero with
  | true => exact ⟨0, 0, spells_zero hx⟩
  | false => exact ⟨_, _, spells_ofFloat hx⟩

/-- What is read of the spelling of a double is its digits, scaled, with its sign. -/
theorem toFloat?_ofFloat (x : Binary64) : (ofFloat x).toFloat? =
    (scale (.ofNat (ofFloat x).digits) (ofFloat x).place).map
      fun y => if x.negative then y.neg else y := by
  obtain ⟨c, e, h⟩ := exists_spells x
  rw [toFloat?_eq h.digits_lt h.exponent_le, negative_ofFloat]

/-- The spelling of a finite double is read as the double exactly if its digits are the
double again when they are scaled. -/
theorem toFloat?_ofFloat_iff {x : Binary64} (hx : x.isFinite = true) :
    (ofFloat x).toFloat? = some x ↔ x.Rescales := by
  rw [toFloat?_ofFloat, Option.map_eq_some_iff]
  constructor
  · rintro ⟨y, hy, hsign⟩
    rw [Binary64.sign_eq_iff.1 hsign] at hy
    exact ⟨hx, hy⟩
  · rintro ⟨-, hscale⟩
    exact ⟨x.abs, hscale, Binary64.sign_eq_iff.2 rfl⟩

/-- The spelling of a finite double, rounded once, is the double. -/
theorem nearestWord_ofFloat {x : Binary64} (hx : x.isFinite = true) :
    Binary64.nearestWord
      ((ofFloat x).digits * Nat.pow 10 (ofFloat x).place.toNat * Binary64.unitsInOne)
      (Nat.pow 10 (-(ofFloat x).place).toNat) = x.magnitude := by
  have hten : ∀ k, 0 < Nat.pow 10 k := fun k => Nat.pow_pos (by decide)
  cases hzero : x.isZero with
  | true =>
    obtain ⟨j, hdigits, -⟩ := (spells_zero hzero).value
    have hmagnitude : x.magnitude = 0 := eq_of_beq hzero
    rw [hmagnitude, hdigits, Nat.zero_mul, Nat.zero_mul, Nat.zero_mul]
    have hround : Binary64.nearestWord 0 1 = 0 := by decide +kernel
    refine (Binary64.nearestWord_congr (hten _) Nat.one_pos ?_).trans hround
    rw [Nat.zero_mul, Nat.zero_mul]
  | false =>
    -- the spelling and the shortest decimal are the same number
    obtain ⟨j, hdigits, hplace⟩ := (spells_ofFloat hzero).value
    rw [← Shortest.nearestWord_decimal hx, hdigits]
    refine Binary64.nearestWord_congr (hten _) (hten _) ?_
    generalize (Shortest.decimal x).exponent = e at *
    generalize (ofFloat x).place = p at *
    have hpow : Nat.pow 10 j * Nat.pow 10 p.toNat * Nat.pow 10 (-e).toNat
        = Nat.pow 10 e.toNat * Nat.pow 10 (-p).toNat := by
      have hexponent : j + p.toNat + (-e).toNat = e.toNat + (-p).toNat := by omega
      show 10 ^ j * 10 ^ p.toNat * 10 ^ (-e).toNat = 10 ^ e.toNat * 10 ^ (-p).toNat
      rw [← Nat.pow_add, ← Nat.pow_add, ← Nat.pow_add, hexponent]
    generalize Binary64.unitsInOne = u
    calc (Shortest.decimal x).coefficient * Nat.pow 10 j * Nat.pow 10 p.toNat * u
            * Nat.pow 10 (-e).toNat
        = (Shortest.decimal x).coefficient * u
            * (Nat.pow 10 j * Nat.pow 10 p.toNat * Nat.pow 10 (-e).toNat) := by ac_rfl
      _ = (Shortest.decimal x).coefficient * u
            * (Nat.pow 10 e.toNat * Nat.pow 10 (-p).toNat) := by rw [hpow]
      _ = (Shortest.decimal x).coefficient * u * Nat.pow 10 e.toNat
            * Nat.pow 10 (-p).toNat := (Nat.mul_assoc _ _ _).symm

/-- The powers of ten up to the 22nd are doubles. -/
theorem units_powerOfTen {k : Nat} (hk : k ≤ 22) :
    (powerOfTen k).units = Nat.pow 10 k * Binary64.unitsInOne := by
  have hall : ∀ k : Fin 23, (powerOfTen k.val).units = Nat.pow 10 k.val * Binary64.unitsInOne := by
    decide +kernel
  exact hall ⟨k, Nat.lt_succ_of_le hk⟩

end Json.Number

/-- Digits and a power of ten that are doubles are rounded only once. -/
theorem Binary64.rescales_of_plain {x : Binary64} (hx : x.isFinite = true) (h : x.Plain) :
    x.Rescales := by
  obtain ⟨hdigits, hplace⟩ := h
  have hround := nearestWord_ofFloat hx
  have hm := units_ofNat hdigits
  have hpower := units_powerOfTen hplace
  refine ⟨hx, ?_⟩
  rw [scale, if_pos (Nat.le_trans hplace (by decide))]
  -- a product or a quotient, of two doubles that are exact
  by_cases hsign : 0 ≤ (ofFloat x).place
  · have hpos : (ofFloat x).place.toNat = (ofFloat x).place.natAbs := by omega
    have hneg : (-(ofFloat x).place).toNat = 0 := by omega
    rw [hpos, hneg] at hround
    have hmul : (ofNat (ofFloat x).digits).mul (powerOfTen (ofFloat x).place.natAbs) = x.abs := by
      rw [mul_eq hm hpower, abs, ← hround]
    rw [if_pos hsign, hmul]
    simp only [isFinite_abs hx, if_true]
  · have hpos : (ofFloat x).place.toNat = 0 := by omega
    have hneg : (-(ofFloat x).place).toNat = (ofFloat x).place.natAbs := by omega
    rw [hpos, hneg] at hround
    have hdiv : (ofNat (ofFloat x).digits).div (powerOfTen (ofFloat x).place.natAbs) = x.abs := by
      have hone : (ofFloat x).digits * Nat.pow 10 0 = (ofFloat x).digits := Nat.mul_one _
      rw [hone] at hround
      rw [div_eq hm hpower, abs, hround]
    rw [if_neg hsign, hdiv]

/-! ## Bodies -/

namespace Json

/-- Every double is written as a number or as null. -/
theorem printable_float (x : Binary64) : (writeRules.float x).Printable := by
  obtain ⟨c, e, h⟩ := exists_spells x
  simp only [writeRules]
  split
  · exact h.spelled
  · exact trivial

/-- What is written of a finite double is no integer, and means the double that its
spelling is read as. -/
theorem meaning_float {x : Binary64} (hx : x.isFinite = true) :
    (writeRules.float x).meaning = ((ofFloat x).toFloat?.map Scalar.float).getD .void := by
  obtain ⟨c, e, h⟩ := exists_spells x
  simp only [writeRules, if_pos hx, Atom.meaning, Number.meaning, h.toInt?]
  cases (ofFloat x).toFloat? <;> rfl

/-- A double on its own is decoded as itself exactly if it is its digits, scaled. -/
theorem decode_float_iff {x : Binary64} (hx : x.isFinite = true) {bs : Bytes}
    (h : encode .float x = some bs) : decode .float bs = .ok x ↔ x.Rescales := by
  obtain rfl := Option.some.inj h
  have hparse : parse (printNode (.scalar (writeRules.float x)))
      = ⟨.scalar (writeRules.float x), some []⟩ := parse_printNode (printable_float x)
  rw [← toFloat?_ofFloat_iff hx]
  simp only [decode, decodeBy, hparse, Schema.read, Reader.leaf, readRules, rulesFor,
    meaning_float hx]
  cases (ofFloat x).toFloat? <;> simp [Scalar.asFloat?]

end Json

namespace Body

/-- A body whose doubles are all kept is kept. -/
theorem json_roundTrip_rescales {body : Body} (hbody : body ≠ .failing)
    {v : body.schema.Carrier} (hv : body.schema.Proper Binary64.Rescales v)
    (hnesting : body.NestsWithin 127 v) (hkeys : ¬ body.KeyedByLists v) :
    ∃ bs, Format.json.encode body.schema v = .ok bs ∧
      Format.json.decode body.schema bs = .ok v := by
  obtain ⟨bs, hbs⟩ := (Json.exists_encode_iff body.schema v).2
    ((writable_iff_not_keyedByLists hbody v).2 hkeys)
  have hmeaning : ∀ x : Binary64, x.Rescales → (Json.writeRules.float x).meaning = .float x := by
    intro x hx
    rw [Json.meaning_float hx.1, (toFloat?_ofFloat_iff hx.1).2 hx]
    rfl
  have hdecode : Json.decode body.schema bs = .ok v :=
    Json.decode_encode hmeaning (fun x _ => Json.printable_float x)
      body.isRegular_schema hv (fun t ht => hnesting.depth_le (by decide) ht) hbs
  exact ⟨bs, Format.encode_eq_ok.2 hbs, Format.decode_eq_ok.2 hdecode⟩

/-- **Which doubles JSON keeps.** A finite double is kept, on its own and wherever it
stands in a body whose other doubles are kept and no object of which is led by the raw key,
exactly if its digits, rounded to a double, and then scaled by their power of ten and rounded
again, are the double. That is so whenever its digits and their power of ten are doubles
themselves. -/
theorem json_keeps_iff_rescales (x : Binary64) (hx : x.isFinite = true) :
    (x.Plain → x.Rescales) ∧
    (x.Rescales ↔ ∀ (body : Body) (v : body.schema.Carrier),
      body.schema.Proper (fun y => y = x ∨ y.Rescales) v → body ≠ .failing →
      body.NestsWithin 127 v → ¬ body.KeyedByLists v →
      ∃ bs, Format.json.encode body.schema v = .ok bs ∧
        Format.json.decode body.schema bs = .ok v) := by
  refine ⟨Binary64.rescales_of_plain hx, ?_, ?_⟩
  · intro h body v hv hbody hnesting hkeys
    -- if this double is kept as the others are, there is nothing to tell them apart
    have hok : (fun y => y = x ∨ y.Rescales) = Binary64.Rescales :=
      funext fun y => propext ⟨fun hy => hy.elim (fun heq => heq ▸ h) id, .inr⟩
    rw [hok] at hv
    exact json_roundTrip_rescales hbody hv hnesting hkeys
  · intro h
    obtain ⟨bs, hbs, hdecode⟩ := h .float x (.inl rfl) nofun trivial id
    exact (Json.decode_float_iff hx (Format.encode_eq_ok.1 hbs)).1 (Format.decode_eq_ok.1 hdecode)

/-- The price 19.5 is kept, in an order. -/
theorem json_keeps_price :
    let x : Binary64 := ⟨0x4033800000000000⟩
    let v : Body.order.schema.Carrier :=
      ("ord_1", .nearest _ 3, x, ["a"], none, ("Paris", "75001", ()), ())
    x.isFinite = true ∧ x.Plain ∧ x.Rescales ∧
      Body.order.schema.Proper (fun y => y = x ∨ y.Rescales) v ∧ Body.order ≠ .failing ∧
      Body.order.NestsWithin 127 v ∧ ¬ Body.order.KeyedByLists v ∧
      ∃ bs, Format.json.encode Body.order.schema v = .ok bs ∧
        Format.json.decode Body.order.schema bs = .ok v := by
  intro x v
  have hx : x.isFinite = true := by decide
  have hplain : x.Plain := ⟨by decide +kernel, by decide +kernel⟩
  have hrescales : x.Rescales := (json_keeps_iff_rescales x hx).1 hplain
  have hv : Body.order.schema.Proper (fun y => y = x ∨ y.Rescales) v :=
    ⟨trivial, trivial, .inl rfl, fun _ _ => trivial, (fun _ h => nomatch h),
      ⟨trivial, trivial, trivial⟩, trivial⟩
  exact ⟨hx, hplain, hrescales, hv, nofun, trivial, id,
    (json_keeps_iff_rescales x hx).2.1 hrescales .order v hv nofun trivial id⟩

/-- 2^53 - 1 is lost: it is written as `9007199254740991.0`, whose digits have 57 bits. It
is lost wherever it stands: on its own, as the price of an order, as an entry of a map
and as a value of no fixed type. -/
theorem json_loses_double :
    let x : Finite64 := ⟨⟨0x433FFFFFFFFFFFFF⟩, by decide⟩
    let order : Body.order.schema.Carrier :=
      ("", .zero _, x.val, [], none, ("", "", ()), ())
    let map : Body.floatsByText.schema.Carrier := SortedMap.empty.insert "k" x.val
    (∃ bs, Format.json.encode .float x.val = .ok bs ∧ Format.json.decode .float bs ≠ .ok x.val) ∧
      (∃ bs, Format.json.encode Body.order.schema order = .ok bs ∧
        Format.json.decode Body.order.schema bs ≠ .ok order) ∧
      (∃ bs, Format.json.encode Body.floatsByText.schema map = .ok bs ∧
        Format.json.decode Body.floatsByText.schema bs ≠ .ok map) ∧
      ∃ bs, Format.json.encode .any (.float x) = .ok bs ∧
        Format.json.decode .any bs ≠ .ok (.float x) := by
  intro x order map
  -- what is decoded is looked at where the double was, since not all values can be compared
  refine ⟨⟨_, rfl, fun h => ?_⟩, ⟨_, rfl, fun h => ?_⟩, ⟨_, rfl, fun h => ?_⟩,
    ⟨_, rfl, fun h => ?_⟩⟩
  · have hvalue := congrArg Except.toOption (Format.decode_eq_ok.1 h)
    revert hvalue
    decide +kernel
  · have hprice := congrArg (fun r => r.toOption.map fun v => v.2.2.1) (Format.decode_eq_ok.1 h)
    revert hprice
    decide +kernel
  · have hvalue := congrArg (fun r => r.toOption.map SortedMap.entries) (Format.decode_eq_ok.1 h)
    revert hvalue
    decide +kernel
  · have hvalue := congrArg (fun r => r.toOption.map fun v => match v with
      | .float y => some y.val
      | _ => none) (Format.decode_eq_ok.1 h)
    revert hvalue
    decide +kernel

end Body
end Conneg
