import Conneg.Codec
import Conneg.Proofs.Bson.Extent
import Conneg.Proofs.Bson.RoundTrip
import Conneg.Proofs.Json.Extent
import Conneg.Proofs.Json.RoundTrip
import Conneg.Proofs.MsgPack.Extent
import Conneg.Proofs.MsgPack.RoundTrip
import Conneg.Schema.Samples

/-!
# A body holds exactly one value

What each format makes of bytes behind a body that it accepts: MessagePack counts and
refuses them, BSON refuses them, JSON refuses all but blanks. Where bytes behind an
accepted body are refused, so is every beginning of an accepted body, for the body is
that beginning with bytes behind it (`Refuses.of_isPrefix`).
-/

namespace Conneg.Format

variable {f : Format} {s : Schema} {body : Bytes}

/-- Whether a format cannot read a body. -/
def Refuses (f : Format) (s : Schema) (body : Bytes) : Prop :=
  ∃ cause, f.decode s body = .error (.reading f cause)

/-- Reading fails with the fault that the format's own reader gives. -/
theorem decode_of_error {cause : Fault}
    (h : (match f with
      | .json => Json.decode s body
      | .bson => Bson.decode s body
      | .msgpack => MsgPack.decode s body) = .error cause) :
    f.decode s body = .error (.reading f cause) := by
  simp only [decode]
  split
  · next hok => cases hok.symm.trans h
  · next herror =>
    obtain rfl := Except.error.inj (herror.symm.trans h)
    rfl

theorem Refuses.ne_ok (h : f.Refuses s body) (v : s.Carrier) : f.decode s body ≠ .ok v := by
  obtain ⟨cause, hcause⟩ := h
  rw [hcause]
  exact nofun

/-- A body that is not read is refused. -/
theorem refuses_of_forall_ne_ok (h : ∀ v, f.decode s body ≠ .ok v) : f.Refuses s body := by
  cases hread : f.decode s body with
  | ok v => exact absurd hread (h v)
  | error e =>
    obtain ⟨cause, rfl⟩ := decode_error hread
    exact ⟨cause, hread⟩

/-- A format that refuses bytes behind what it accepts accepts no two bodies of which one
begins with the other. -/
theorem Refuses.of_isPrefix
    (hextend : ∀ {front v}, f.decode s front = .ok v → ∀ tail ≠ [], f.Refuses s (front ++ tail))
    {v : s.Carrier} (h : f.decode s body = .ok v) {front : Bytes} (hfront : front <+: body)
    (hne : front ≠ body) : f.Refuses s front := by
  obtain ⟨tail, rfl⟩ := hfront
  have htail : tail ≠ [] := by
    rintro rfl
    exact hne (List.append_nil front).symm
  exact refuses_of_forall_ne_ok fun _ hread => (hextend hread tail htail).ne_ok v h

/-- **A body holds exactly one value.** MessagePack counts the bytes behind the value of
any schema and refuses the body with their number, and no reading comes to a place beyond
the end of the body. BSON refuses bytes behind a record. Neither format accepts a
beginning of what it accepts. JSON accepts blanks behind a record, with the same value,
and refuses anything else. -/
theorem decode_oneValue :
    (∀ (s : Schema) (body : Bytes) (v : s.Carrier), msgpack.decode s body = .ok v →
      (∀ tail ≠ [], ∃ e, msgpack.decode s (body ++ tail) = .error e ∧
        e = .reading .msgpack (.trailingBytes tail.length) ∧
        e.source? = some (decimalText tail.length ++ " trailing bytes after value")) ∧
      ∀ front, front <+: body → front ≠ body → msgpack.Refuses s front) ∧
    (∀ (body rest : Bytes) tree, MsgPack.parse body = ⟨tree, some rest⟩ →
      rest <:+ body ∧ rest.length ≤ body.length) ∧
    (∀ (fs : Fields) (body : Bytes) (v : fs.Carrier), bson.decode (.record fs) body = .ok v →
      (∀ tail ≠ [], bson.Refuses (.record fs) (body ++ tail)) ∧
      ∀ front, front <+: body → front ≠ body → bson.Refuses (.record fs) front) ∧
    ∀ (fs : Fields) (body : Bytes) (v : fs.Carrier), json.decode (.record fs) body = .ok v →
      ∀ tail ≠ [],
        (tail.all Json.Token.isBlank = true → json.decode (.record fs) (body ++ tail) = .ok v) ∧
        (tail.all Json.Token.isBlank = false → json.Refuses (.record fs) (body ++ tail)) := by
  refine ⟨?msgpack, ?place, ?bson, ?json⟩
  case msgpack =>
    intro s body v h
    have hextend : ∀ {front v}, msgpack.decode s front = .ok v → ∀ tail ≠ [],
        msgpack.decode s (front ++ tail)
          = .error (.reading .msgpack (.trailingBytes tail.length)) :=
      fun hfront _ htail =>
        decode_of_error (MsgPack.decode_append (decode_eq_ok.1 hfront) htail)
    refine ⟨fun tail htail => ⟨_, hextend h tail htail, rfl, rfl⟩, fun front hfront hne => ?_⟩
    exact Refuses.of_isPrefix (fun hfront tail htail => ⟨_, hextend hfront tail htail⟩) h hfront hne
  case place =>
    intro body rest tree h
    have hsuffix := MsgPack.parse_suffix h
    exact ⟨hsuffix, hsuffix.length_le⟩
  case bson =>
    intro fs body v h
    have hextend : ∀ {front v}, bson.decode (.record fs) front = .ok v → ∀ tail ≠ [],
        bson.Refuses (.record fs) (front ++ tail) :=
      fun hfront _ htail =>
        ⟨_, decode_of_error (Bson.decode_append (decode_eq_ok.1 hfront) htail)⟩
    exact ⟨hextend h, fun front hfront hne => Refuses.of_isPrefix hextend h hfront hne⟩
  case json =>
    intro fs body v h tail _
    have hdecode := Json.decode_append (decode_eq_ok.1 h) tail
    refine ⟨fun hblank => decode_eq_ok.2 ?_, fun hblank => ⟨.unreadable, decode_of_error ?_⟩⟩
    · rw [hblank] at hdecode
      exact hdecode
    · rw [hblank] at hdecode
      exact hdecode

/-- What becomes of a greeting, in each format, with a line feed behind it. -/
theorem decode_greeting_lineFeed :
    let v : Samples.greeting.schema.Carrier := ("a", ⟨1, by decide, by decide⟩, ())
    let packed : Bytes := [0x82, 0xA4, 0x6E, 0x61, 0x6D, 0x65, 0xA1, 0x61,
      0xA5, 0x63, 0x6F, 0x75, 0x6E, 0x74, 0x01]
    let framed : Bytes := [0x1C, 0, 0, 0, 0x02, 0x6E, 0x61, 0x6D, 0x65, 0, 2, 0, 0, 0, 0x61, 0,
      0x10, 0x63, 0x6F, 0x75, 0x6E, 0x74, 0, 1, 0, 0, 0, 0]
    let text : Bytes := [0x7B, 0x22, 0x6E, 0x61, 0x6D, 0x65, 0x22, 0x3A, 0x22, 0x61, 0x22,
      0x2C, 0x22, 0x63, 0x6F, 0x75, 0x6E, 0x74, 0x22, 0x3A, 0x31, 0x7D]
    (msgpack.decode Samples.greeting.schema packed = .ok v ∧
      msgpack.decode Samples.greeting.schema (packed ++ [0x0A])
        = .error (.reading .msgpack (.trailingBytes 1)) ∧
      (∃ tree, MsgPack.parse (packed ++ [0x0A]) = ⟨tree, some [0x0A]⟩ ∧
        [0x0A] <:+ packed ++ [0x0A]) ∧
      msgpack.Refuses Samples.greeting.schema packed.dropLast) ∧
    (bson.decode Samples.greeting.schema framed = .ok v ∧
      bson.Refuses Samples.greeting.schema (framed ++ [0x0A]) ∧
      bson.Refuses Samples.greeting.schema framed.dropLast) ∧
    json.decode Samples.greeting.schema text = .ok v ∧
      json.decode Samples.greeting.schema (text ++ [0x0A]) = .ok v ∧
      json.Refuses Samples.greeting.schema (text ++ [0x7D]) := by
  intro v packed framed text
  have hpacked : msgpack.decode Samples.greeting.schema packed = .ok v := by
    have hname : ShortText (2 ^ 32) "a" := by decide
    have hshort : Samples.greeting.schema.Short (2 ^ 32) v := ⟨hname, trivial, trivial⟩
    refine decode_eq_ok.2 (MsgPack.decode_encode rfl (by decide) (by trivial) hshort
      (fun t ht => ?_) (by decide +kernel))
    obtain rfl := Option.some.inj ht
    decide
  have hframed : bson.decode Samples.greeting.schema framed = .ok v :=
    decode_eq_ok.2 (Bson.decode_encode rfl (by trivial) (by decide +kernel) (by decide))
  have htext : json.decode Samples.greeting.schema text = .ok v := by
    have hv : Samples.greeting.schema.Proper (fun _ => False) v := by trivial
    refine decode_eq_ok.2 (Json.decode_encode (fun _ => False.elim) (fun _ => False.elim) rfl hv
      (fun t ht => ?_) (by decide +kernel))
    obtain rfl := Option.some.inj ht
    decide
  obtain ⟨hmsgpack, hplace, hbson, hjson⟩ := decode_oneValue
  obtain ⟨hcounted, hcut⟩ := hmsgpack _ packed v hpacked
  obtain ⟨_, hbehind, rfl, -⟩ := hcounted [0x0A] (by decide)
  obtain ⟨tree, hparse, -⟩ := MsgPack.parse_of_decode (decode_eq_ok.1 hpacked)
  have hparse' : MsgPack.parse (packed ++ [0x0A]) = ⟨tree, some [0x0A]⟩ :=
    MsgPack.parse_append hparse [0x0A]
  obtain ⟨hrefused, hcut'⟩ := hbson _ framed v hframed
  exact ⟨⟨hpacked, hbehind, ⟨tree, hparse', (hplace _ _ _ hparse').1⟩,
      hcut _ (List.dropLast_prefix packed) (by decide)⟩,
    ⟨hframed, hrefused [0x0A] (by decide), hcut' _ (List.dropLast_prefix framed) (by decide)⟩,
    htext, (hjson _ text v htext [0x0A] (by decide)).1 (by decide),
    (hjson _ text v htext [0x7D] (by decide)).2 (by decide)⟩

end Conneg.Format
