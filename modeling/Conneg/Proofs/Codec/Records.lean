import Conneg.Proofs.Codec.Named
import Conneg.Proofs.Codec.OneValue
import Conneg.Proofs.Schema.Bodies

/-!
# Records are read by name

What the body of a record says does not depend on the order of its entries, nor on entries that
are no field's. A field that is left out is reported as missing, or is none where it may be left
out, and a field that is repeated is refused (`RecordBody.decode_byName`).

All of this is said of what is read of the body as it was written. That is the value itself, but
for an order in JSON: its price can be a double that JSON does not keep. If it is no number at all,
the order is refused, and then that is the fault whatever else is wrong with the body. Nor is
anything said of a body with a length that does not fit its four bytes. Both are shown to be needed
(`RecordBody.decode_notByName`).
-/

namespace Conneg

open Wire

/-! ## Body types that are records -/

theorem Fields.isRegular_of_mem (fs : Fields) (hfs : fs.isRegular = true) {name : String}
    {s : Schema} (h : (name, s) ∈ fs.toList) : s.isRegular = true := by
  match fs with
  | .nil => exact nomatch h
  | .cons _ _ rest =>
    obtain ⟨-, hs, hrest⟩ := notMem_of_isRegular hfs
    rcases List.mem_cons.1 h with heq | h
    · exact (Prod.mk.inj heq).2 ▸ hs
    · exact rest.isRegular_of_mem hrest h

theorem Fields.isFixed_of_mem {doubles : Bool} (fs : Fields) (hfs : fs.isFixed doubles = true)
    {name : String} {s : Schema} (h : (name, s) ∈ fs.toList) : s.isFixed doubles = true := by
  match fs with
  | .nil => exact nomatch h
  | .cons _ _ rest =>
    obtain ⟨hs, hrest⟩ := Bool.and_eq_true_iff.1 hfs
    rcases List.mem_cons.1 h with heq | h
    · exact (Prod.mk.inj heq).2 ▸ hs
    · exact rest.isFixed_of_mem hrest h

theorem Fields.depth_le_of_mem (fs : Fields) {name : String} {s : Schema}
    (h : (name, s) ∈ fs.toList) : s.depth ≤ fs.depth := by
  match fs with
  | .nil => exact nomatch h
  | .cons _ _ rest =>
    rcases List.mem_cons.1 h with heq | h
    · exact (Prod.mk.inj heq).2 ▸ Nat.le_max_left _ _
    · exact Nat.le_trans (rest.depth_le_of_mem h) (Nat.le_max_right _ _)

/-- The fields of a schema, if it is that of a record. -/
def Schema.fields : Schema → Fields
  | .record fs => fs
  | _ => .nil

/-- A body type that is a record. -/
inductive RecordBody
  | order
  | greeting
  | placedOrder
  | receipt
  | drawing
  deriving DecidableEq

namespace RecordBody

/-- The body type. -/
def body : RecordBody → Body
  | .order => .order
  | .greeting => .greeting
  | .placedOrder => .placedOrder
  | .receipt => .receipt
  | .drawing => .drawing

/-- The fields of the record. -/
abbrev fields (r : RecordBody) : Fields := r.body.schema.fields

/-- Whether a record may lack a field: an order its note. -/
def MayLack (r : RecordBody) (name : String) : Prop := r = .order ∧ name = "note"

instance (r : RecordBody) (name : String) : Decidable (r.MayLack name) :=
  inferInstanceAs (Decidable (_ ∧ _))

/-- The record without its note, if it is one that has a note. -/
def withoutNote : (r : RecordBody) → r.fields.Carrier → r.fields.Carrier
  | .order, (id, quantity, price, tags, _, shipping) =>
    (id, quantity, price, tags, none, shipping)
  | .greeting, v | .placedOrder, v | .receipt, v | .drawing, v => v

variable {r : RecordBody}

theorem schema_body (r : RecordBody) : r.body.schema = .record r.fields := by
  cases r <;> rfl

theorem isRegular_fields (r : RecordBody) : r.fields.isRegular = true := by
  have h := r.body.isRegular_schema
  rw [schema_body] at h
  exact h

theorem isFixed_fields (r : RecordBody) : r.fields.isFixed r.body.hasDoubles = true := by
  have h := r.body.isFixed_schema (by cases r <;> exact nofun)
  rw [schema_body] at h
  exact h

theorem depth_fields_le (r : RecordBody) : r.fields.depth ≤ 2 := by
  have h := r.body.depth_schema_le
  rw [schema_body] at h
  exact Nat.le_of_succ_le_succ h

/-- The one field with a double is the price of an order. -/
theorem price_or_isFixed {name : String} {s : Schema} (h : (name, s) ∈ r.fields.toList) :
    name = "price" ∧ s = .float ∨ s.isFixed false = true := by
  cases r with
  | order =>
    have hfields : ∀ f ∈ order.fields.toList,
        f.1 = "price" ∧ f.2 = .float ∨ f.2.isFixed false = true := by
      refine List.forall_mem_cons.2 ⟨.inr rfl, List.forall_mem_cons.2 ⟨.inr rfl, ?_⟩⟩
      refine List.forall_mem_cons.2 ⟨.inl ⟨rfl, rfl⟩, List.forall_mem_cons.2 ⟨.inr rfl, ?_⟩⟩
      exact List.forall_mem_cons.2 ⟨.inr rfl, List.forall_mem_cons.2 ⟨.inr rfl, nofun⟩⟩
    exact hfields _ h
  | greeting | placedOrder | receipt | drawing =>
    exact .inr (Fields.isFixed_of_mem _ (isFixed_fields _) h)

theorem plain (r : RecordBody) : r.fields.Plain where
  nodup := r.fields.nodup_names r.isRegular_fields
  regular _ hf := r.fields.isRegular_of_mem r.isRegular_fields hf
  shallow _ hf :=
    Nat.le_trans (r.fields.depth_le_of_mem hf) (Nat.le_trans r.depth_fields_le (by decide))
  fixed _ hf := (price_or_isFixed hf).imp_left And.right

/-- All fields but an order's note are required. -/
theorem absent?_eq_none {name : String} {s : Schema} (h : (name, s) ∈ r.fields.toList)
    (hname : ¬ r.MayLack name) : s.absent? = none := by
  have hfields : (r.fields.toList.all fun f => f.2.absent?.isNone || decide (r.MayLack f.1))
      = true := by
    cases r <;> rfl
  rcases Bool.or_eq_true_iff.1 (List.all_eq_true.1 hfields _ h) with hnone | hlack
  · exact Option.isNone_iff_eq_none.1 hnone
  · exact absurd (of_decide_eq_true hlack) hname

theorem leaveOut_eq {name : String} (h : r.MayLack name) (v : r.fields.Carrier) :
    r.fields.leaveOut name v = some (r.withoutNote v) := by
  obtain ⟨rfl, rfl⟩ := h
  rfl

/-! ## What is read of a record's body -/

variable {f : Format}

/-- A record is read as it was written, unless it is an order in JSON. -/
theorem decode_whole {v : r.fields.Carrier} {whole : Bytes}
    (hwhole : f.Holds (r.fields.entries v) whole) (h : f = .json → r ≠ .order) :
    f.decode (.record r.fields) whole = .ok v := by
  obtain ⟨σ, R, W, ok, b, hcodes, hok⟩ := f.exists_codes
  obtain ⟨ts, hts, hdecode⟩ := hcodes.decode hwhole
  rw [Fields.write_entries] at hts
  have hdoubles : r.body.hasDoubles = true → ∀ x, ok x := by
    intro hhas
    refine hok fun hjson => h hjson ?_
    cases r with
    | order => rfl
    | greeting | placedOrder | receipt | drawing => exact nomatch hhas
  have hdepth : ts.depth ≤ 100 :=
    Nat.le_trans (Fields.write_depth_le _ r.isFixed_fields v hts)
      (Nat.le_trans r.depth_fields_le (by decide))
  have hread := Fields.read_write hcodes.faithful r.fields r.isRegular_fields v
    (Fields.proper_of_isFixed hdoubles _ r.isFixed_fields v) hts (hcodes.room.of_le hdepth)
  rw [hdecode, Fields.readEntries, hread, Except.bind, r.fields.finish_filled v]
  rfl

/-- **Records are read by name.** Take the body of a record, and another whose entries are those
of the record and any further ones that are no fields, in any order. It is read as the first is,
which is as the record itself unless that is an order in JSON.

Without one of the fields, an order that may lack its note is read as one without a note. Any other
field is reported as missing if the record could be read as a whole, or if what is left out
is the only field that might not be. If the whole is refused, so is the rest.
With a field more than once, the body is refused. -/
theorem decode_byName (f : Format) (r : RecordBody) (v : r.fields.Carrier) (whole : Bytes)
    (hwhole : f.encode (.record r.fields) v = .ok whole)
    (hfits : f.Fits (r.fields.entries v) whole) :
    ((f = .json → r ≠ .order) → f.decode (.record r.fields) whole = .ok v) ∧
    ∀ further : List (String × Any), r.fields.Undeclared further →
      (∀ m ∈ further, m.2.nesting ≤ 100) →
      ∀ (items : List RecordEntry) (body : Bytes), f.Holds items body →
        (r.fields.Lists v further items →
          f.decode (.record r.fields) body = f.decode (.record r.fields) whole) ∧
        (∀ left : RecordEntry, left.name ∈ r.fields.names →
          r.fields.Lists v further (left :: items) →
          (r.MayLack left.name → ∀ w, f.decode (.record r.fields) whole = .ok w →
            f.decode (.record r.fields) body = .ok (r.withoutNote w)) ∧
          (¬ r.MayLack left.name →
            (∃ w, f.decode (.record r.fields) whole = .ok w) ∨ left.name = "price" →
            f.decode (.record r.fields) body = .error (.reading f (.missingField left.name))) ∧
          (f.Refuses (.record r.fields) whole → left.name ≠ "price" →
            f.decode (.record r.fields) body = .error (.reading f .unreadable))) ∧
        ∀ (again : RecordEntry) (others : List RecordEntry), again.name ∈ r.fields.names →
          items.Perm (again :: others) → r.fields.Lists v further others →
            f.Refuses (.record r.fields) body := by
  have hholds : f.Holds (r.fields.entries v) whole := ⟨(f.encode_entries _ v).trans hwhole, hfits⟩
  obtain ⟨σ, R, W, ok, b, hcodes, -⟩ := f.exists_codes
  have hplain := r.plain
  refine ⟨decode_whole hholds, fun further hnew hdeep items body hbody => ⟨?_, ?_, ?_⟩⟩
  · intro hitems
    exact hcodes.decode_reordered hplain hholds hbody hitems hnew hdeep
  · intro left hleft hitems
    have hmem : (left.name, left.schema) ∈ r.fields.toList :=
      r.fields.mem_entries (hitems.mem_entries hnew List.mem_cons_self hleft)
    refine ⟨?_, ?_, ?_⟩
    · intro hlack w hw
      exact hcodes.decode_without_optional hplain.nodup hholds hbody hitems hnew hdeep hleft hw
        (leaveOut_eq hlack w)
    · intro hlack hread
      have hothers : ReadableBut R W b r.fields v left.name := by
        rcases hread with ⟨w, hw⟩ | hprice
        · exact hcodes.readableBut_of_ok hplain.nodup hholds hw left.name
        · refine hcodes.readableBut_of_isFixed hplain hholds fun g hg hne => ?_
          refine (price_or_isFixed hg).resolve_left fun h => ?_
          exact hne (h.1.trans hprice.symm)
      exact hcodes.decode_without hplain.nodup hbody hitems hnew hdeep hleft
        (absent?_eq_none hmem hlack) hothers
    · intro hrefused hprice
      have hfixed : left.schema.isFixed false = true :=
        (price_or_isFixed hmem).resolve_left fun h => hprice h.1
      exact hcodes.decode_without_of_refuses hplain hholds hbody hitems hnew hdeep hleft hfixed
        hrefused
  · intro again others hagain hitems hothers
    exact hcodes.refuses_twice hplain.nodup hbody hitems hothers hnew hdeep hagain

/-- An order in MessagePack: in reverse and with a further entry behind it, then without its note,
then with two. -/
theorem decode_byName_reversed :
    let v : order.fields.Carrier :=
      ("a", .zero _, ⟨0x3FF8000000000000⟩, ["b"], some "c", ("d", "e", ()), ())
    let note : RecordEntry := ⟨"note", .optional .text, some "c"⟩
    let shipping : RecordEntry := ⟨"shipping", .record Samples.address, ("d", "e", ())⟩
    let others : List RecordEntry := [⟨"tags", .list .text, ["b"]⟩,
      ⟨"price", .float, ⟨0x3FF8000000000000⟩⟩, ⟨"quantity", .integer .i64, .zero _⟩,
      ⟨"id", .text, "a"⟩, ⟨"extra", .any, .list [.null, .object []]⟩]
    ∃ whole reversed unnoted twice,
      Format.msgpack.encode (.record order.fields) v = .ok whole ∧
      Format.msgpack.Fits (order.fields.entries v) whole ∧
      Format.msgpack.Holds (shipping :: note :: others) reversed ∧
      Format.msgpack.Holds (shipping :: others) unnoted ∧
      Format.msgpack.Holds (note :: shipping :: note :: others) twice ∧
      Format.msgpack.decode (.record order.fields) reversed = .ok v ∧
      Format.msgpack.decode (.record order.fields) unnoted = .ok (order.withoutNote v) ∧
      Format.msgpack.Refuses (.record order.fields) twice := by
  intro v note shipping others
  let further : List (String × Any) := [("extra", .list [.null, .object []])]
  have hitems : order.fields.Lists v further (shipping :: note :: others) := by
    have hreverse : ((order.fields.entries v).reverse ++ further.map RecordEntry.ofMember).Perm
        (order.fields.entries v ++ further.map RecordEntry.ofMember) :=
      (List.reverse_perm _).append_right _
    exact hreverse
  have hnew : order.fields.Undeclared further := List.forall_mem_singleton.2 (by decide)
  have hdeep : ∀ m ∈ further, m.2.nesting ≤ 100 := List.forall_mem_singleton.2 (by decide)
  have hshipping : shipping.IsShort :=
    ⟨by decide, by decide, (by decide : ShortText (2 ^ 32) "d"),
      (by decide : ShortText (2 ^ 32) "e"), trivial⟩
  have hnote : note.IsShort := by
    refine ⟨by decide, rfl, fun x hx => ?_⟩
    obtain rfl := Option.some.inj hx
    exact (by decide : ShortText (2 ^ 32) "c")
  have hothers : ∀ e ∈ others, e.IsShort := by
    refine List.forall_mem_cons.2 ⟨⟨by decide, rfl, by decide, ?_⟩, ?_⟩
    · exact List.forall_mem_singleton.2 (by decide : ShortText (2 ^ 32) "b")
    refine List.forall_mem_cons.2 ⟨⟨by decide, rfl, trivial⟩, ?_⟩
    refine List.forall_mem_cons.2 ⟨⟨by decide, rfl, trivial⟩, ?_⟩
    refine List.forall_mem_cons.2 ⟨⟨by decide, rfl, (by decide : ShortText (2 ^ 32) "a")⟩, ?_⟩
    exact List.forall_mem_singleton.2 ⟨by decide, rfl, by decide, trivial, ⟨by decide, trivial⟩,
      trivial⟩
  have hshort : ∀ e ∈ shipping :: note :: others, e.IsShort :=
    List.forall_mem_cons.2 ⟨hshipping, List.forall_mem_cons.2 ⟨hnote, hothers⟩⟩
  obtain ⟨whole, hwhole⟩ : ∃ whole, Format.msgpack.encode (.record order.fields) v = .ok whole :=
    ⟨_, rfl⟩
  have hfits : Format.msgpack.Fits (order.fields.entries v) whole :=
    ⟨by decide, fun e he => hshort e (hitems.symm.subset (List.mem_append_left _ he))⟩
  obtain ⟨reversed, hreversed⟩ : ∃ body, Format.msgpack.Holds (shipping :: note :: others) body :=
    ⟨_, rfl, by decide, hshort⟩
  obtain ⟨unnoted, hunnoted⟩ : ∃ body, Format.msgpack.Holds (shipping :: others) body :=
    ⟨_, rfl, by decide, List.forall_mem_cons.2 ⟨hshipping, hothers⟩⟩
  obtain ⟨twice, htwice⟩ : ∃ body, Format.msgpack.Holds (note :: shipping :: note :: others) body :=
    ⟨_, rfl, by decide, List.forall_mem_cons.2 ⟨hnote, hshort⟩⟩
  obtain ⟨hread, hbyName⟩ := decode_byName .msgpack .order v whole hwhole hfits
  have hv := hread nofun
  have hrest := hbyName further hnew hdeep
  have hleft : order.fields.Lists v further (note :: shipping :: others) :=
    (List.Perm.swap _ _ _).trans hitems
  have hnamed : note.name ∈ order.fields.names := by decide
  exact ⟨whole, reversed, unnoted, twice, hwhole, hfits, hreversed, hunnoted, htwice,
    ((hrest _ _ hreversed).1 hitems).trans hv,
    ((hrest _ _ hunnoted).2.1 note hnamed hleft).1 ⟨rfl, rfl⟩ v hv,
    (hrest _ _ htwice).2.2 note _ hnamed (List.Perm.refl _) hitems⟩

/-! ## What is not read by name

Three things stand in the way of a field that is missing: a price that JSON writes and does not
read, and lengths that BSON and MessagePack write though they do not fit. -/

/-- An order whose price is no finite number is written in JSON, but not read. -/
theorem json_refuses_unpriced {v : order.fields.Carrier} (hprice : v.2.2.1.isFinite = false)
    {whole : Bytes} (hwhole : Format.json.Holds (order.fields.entries v) whole) :
    Format.json.Refuses (.record order.fields) whole := by
  refine Format.refuses_of_forall_ne_ok fun w hw => ?_
  let price : RecordEntry := ⟨"price", .float, v.2.2.1⟩
  have hne : "price" ≠ "id" := by decide
  obtain ⟨x, hx⟩ := json_codes.readableBut_of_ok order.plain.nodup hwhole hw "id"
    price (.tail _ (.tail _ (.head _))) hne
  -- it is written as null, which is no double
  have hnull : price.tree Json.writeRules = .scalar .null := by
    show Node.scalar (if v.2.2.1.isFinite then _ else _) = _
    rw [hprice]
    rfl
  rw [hnull] at hx
  exact nomatch hx

/-- A text of so many letters. -/
def longText (n : Nat) : String := String.ofList (List.replicate n 'a')

theorem encode_longText (n : Nat) : Utf8.encode (longText n) = List.replicate n 0x61 := by
  have ha : String.utf8EncodeChar 'a' = [0x61] := Utf8.encodeChar_ascii (by decide)
  rw [longText, Utf8.encode, String.toList_ofList, List.flatMap_replicate, ha]
  exact List.flatten_replicate_singleton

section Bson

open Bson

/-- A BSON body of 2^31 bytes or more is not read, for its length has become negative. -/
theorem parse_frame_of_long {elements : Bytes} (hlow : 2 ^ 31 ≤ (frame elements).length)
    (hhigh : (frame elements).length < 2 ^ 32) : parse (frame elements) = .broken := by
  rw [length_frame] at hlow hhigh
  have hvalue : Bytes.toNatLE (Bytes.ofNatLE 4 (elements.length + 5)) = elements.length + 5 :=
    Bytes.toNatLE_ofNatLE hhigh
  have hlength : length? (frame elements) = none := by
    rw [frame, List.append_assoc, length?, Bytes.split?_of_length (Bytes.length_ofNatLE 4 _)]
    simp only [hvalue, if_neg (Nat.not_lt.2 hlow)]
  rw [parse, embedded?, hlength]

/-- A greeting with a name of 2^31 bytes is not read in BSON, with or without its count. -/
theorem bson_decode_uncounted {name : String} (h : (Utf8.encode name).length = 2 ^ 31) :
    ∃ body, Format.bson.encode (.record (RecordEntry.fields [⟨"name", .text, name⟩])) (name, ())
        = .ok body ∧
      Format.bson.decode (.record greeting.fields) body = .error (.reading .bson .unreadable) := by
  let es : Entries Atom := .cons (.scalar (.text "name")) (.scalar (.text name)) .done
  have hlength : (frame (printEntries es)).length = 2 ^ 31 + 16 := by
    have hkey : (printKey (.scalar (.text "name"))).length = 4 := by decide
    simp only [es, length_frame, printEntries, printNode, Atom.print, element, printText,
      List.length_append, List.length_cons, List.length_nil, hkey, Bytes.length_ofNatLE, h]
  have hbroken : parse (frame (printEntries es)) = .broken :=
    parse_frame_of_long (by omega) (by omega)
  have hwrite : (Schema.record (RecordEntry.fields [⟨"name", .text, name⟩])).write writeRules
      (name, ()) = some (.map es) := by
    have hname : writeRules.name "name" = some (.text "name") := rfl
    simp only [Schema.write, Fields.write, RecordEntry.fields, hname]
    rfl
  refine ⟨frame (printEntries es), Format.encode_eq_ok.2 ?_, Format.decode_of_error ?_⟩
  · show Bson.encode _ _ = _
    simp only [Bson.encode, hwrite]
  · show Bson.decode _ _ = _
    rw [Bson.decode, hbroken, Bson.read_broken]

end Bson

section MsgPack

open MsgPack

variable {s : State} {name : Bytes}

/-- A text of 2^32 bytes is announced as empty. -/
theorem next_text_wrapped (h : name.length = 2 ^ 32) (rest : Bytes) :
    Token.next ((Atom.text name).print ++ rest) = some (.atom (.text []), name ++ rest) := by
  have hheader : header 0xA0 32 (some 0xD9) 0xDA 0xDB name.length = marked 0xDB 4 0 := by
    rw [h]
    decide
  have hempty : Token.next (marked 0xDB 4 ([] : Bytes).length ++ ([] ++ (name ++ rest)))
      = some (.atom (.text []), name ++ rest) :=
    Token.next_sized .text (fun _ => rfl) (by decide) (name ++ rest)
  show Token.next (header 0xA0 32 (some 0xD9) 0xDA 0xDB name.length ++ name ++ rest) = _
  rw [hheader, List.append_assoc]
  exact hempty

theorem run_text_wrapped (h : name.length = 2 ^ 32) (rest : Bytes) :
    grammar.run (printNode (.scalar (.text name)) ++ rest) s
      = delivered (.scalar (.text [])) s (name ++ rest) :=
  run_deliver (next_text_wrapped h rest) rfl

theorem run_openMap_two (rest : Bytes) :
    grammar.run (header 0x80 16 none 0xDE 0xDF 2 ++ rest) []
      = grammar.run rest [(4, .entries [] none)] := by
  have htoken := Token.next_map (by decide : 2 < 2 ^ 32) rest
  exact Grammar.run_go htoken rfl

theorem run_letter (rest : Bytes) :
    grammar.run (0x61 :: rest) s = delivered (.scalar (.unsigned 0x61)) s rest :=
  run_printNode (.scalar (.unsigned 0x61)) (by decide : 0x61 < 2 ^ 64) s rest

/-- A greeting whose name takes 2^32 bytes is not read in MessagePack: from where the name was to
stand on, other things are read. What is at fault depends on the order of the entries. -/
theorem msgpack_decode_wrapped {name : String} (h : (Utf8.encode name).length = 2 ^ 32)
    {bs : Bytes} (hbs : Utf8.encode name = 0x61 :: 0x61 :: bs) :
    let v : greeting.fields.Carrier := (name, .zero _, ())
    ∃ whole body, Format.msgpack.encode (.record greeting.fields) v = .ok whole ∧
      Format.msgpack.encode (.record (RecordEntry.fields (greeting.fields.entries v).reverse))
        (RecordEntry.values _) = .ok body ∧
      Format.msgpack.decode (.record greeting.fields) whole
        = .error (.reading .msgpack (.missingField "count")) ∧
      Format.msgpack.decode (.record greeting.fields) body
        = .error (.reading .msgpack (.trailingBytes (2 ^ 32))) := by
  intro v
  let text : Node Atom := .scalar (.text (Utf8.encode name))
  let key : Node Atom := .scalar (.text (Utf8.encode "name"))
  let countKey : Node Atom := .scalar (.text (Utf8.encode "count"))
  let count : Node Atom := .scalar (.unsigned 0)
  have hkey : Node.Fits key := (by decide : (Utf8.encode "name").length < 2 ^ 32)
  have hcountKey : Node.Fits countKey := (by decide : (Utf8.encode "count").length < 2 ^ 32)
  have hcount : Node.Fits count := (by decide : 0 < 2 ^ 64)
  have hwhole : parse (printNode (.map (.cons key text (.cons countKey count .done))))
      = ⟨.map (.cons key (.scalar (.text []))
          (.cons (.scalar (.unsigned 0x61)) (.scalar (.unsigned 0x61)) .done)),
          some (bs ++ printEntries (.cons countKey count .done))⟩ := by
    show parse (header 0x80 16 none 0xDE 0xDF 2 ++ (printNode key ++ printNode text ++ _)) = _
    rw [parse, run_openMap_two, List.append_assoc, run_printNode key hkey,
      delivered_more (by decide), run_text_wrapped h, delivered_more (by decide), hbs,
      List.cons_append, List.cons_append, run_letter, delivered_more (by decide), run_letter,
      delivered_last]
    rfl
  have hbody : parse (printNode (.map (.cons countKey count (.cons key text .done))))
      = ⟨.map (.cons countKey count (.cons key (.scalar (.text [])) .done)),
          some (Utf8.encode name)⟩ := by
    show parse (header 0x80 16 none 0xDE 0xDF 2 ++ (printNode countKey ++ printNode count ++
      (printNode key ++ printNode text ++ []))) = _
    rw [parse, run_openMap_two, List.append_assoc, run_printNode countKey hcountKey,
      delivered_more (by decide), run_printNode count hcount, delivered_more (by decide),
      List.append_assoc, run_printNode key hkey, delivered_more (by decide), run_text_wrapped h,
      delivered_last, List.append_nil]
    rfl
  refine ⟨_, _, Format.encode_eq_ok.2 rfl, Format.encode_eq_ok.2 rfl, Format.decode_of_error ?_,
    Format.decode_of_error ?_⟩
  · show MsgPack.decode _ (printNode (.map (.cons key text (.cons countKey count .done)))) = _
    simp only [MsgPack.decode, hwhole]
    rfl
  · show MsgPack.decode _ (printNode (.map (.cons countKey count (.cons key text .done)))) = _
    rw [← h, hbs]
    simp only [MsgPack.decode, hbody, hbs]
    rfl

end MsgPack

/-- **Where records are not read by name.** A field that is left out is not what is reported
missing, and a note that is left out is not none, if JSON has written a price that is no number, or
if a BSON body is longer than its length can tell. And MessagePack does not read a greeting whose
name takes 2^32 bytes, in no two orders in the same way. -/
theorem decode_notByName :
    (let v : order.fields.Carrier :=
      ("a", .zero _, ⟨0x7FF8000000000000⟩, [], none, ("b", "c", ()), ())
    ∃ whole, Format.json.encode (.record order.fields) v = .ok whole ∧
      ∀ name ∈ ["id", "note"], ∃ body,
        Format.json.Holds ((order.fields.entries v).filter fun e => e.name ≠ name) body ∧
        Format.json.decode (.record order.fields) body = .error (.reading .json .unreadable)) ∧
    (let name := longText (2 ^ 31)
    ∃ body, Format.bson.encode (.record (RecordEntry.fields [⟨"name", .text, name⟩])) (name, ())
        = .ok body ∧
      Format.bson.decode (.record greeting.fields) body = .error (.reading .bson .unreadable)) ∧
    (let v : greeting.fields.Carrier := (longText (2 ^ 32), .zero _, ())
    ∃ whole body, Format.msgpack.encode (.record greeting.fields) v = .ok whole ∧
      Format.msgpack.encode (.record (RecordEntry.fields (greeting.fields.entries v).reverse))
        (RecordEntry.values _) = .ok body ∧
      Format.msgpack.decode (.record greeting.fields) whole
        = .error (.reading .msgpack (.missingField "count")) ∧
      Format.msgpack.decode (.record greeting.fields) body
        = .error (.reading .msgpack (.trailingBytes (2 ^ 32)))) := by
  refine ⟨?json, ?bson, ?msgpack⟩
  case json =>
    intro v
    obtain ⟨whole, hwhole⟩ : ∃ whole, Format.json.Holds (order.fields.entries v) whole :=
      ⟨_, rfl, trivial⟩
    have hrefused : Format.json.Refuses (.record order.fields) whole :=
      json_refuses_unpriced (by decide) hwhole
    have hwithout : ∀ (left : RecordEntry) (items : List RecordEntry),
        order.fields.Lists v [] (left :: items) → left.name ∈ order.fields.names →
        left.schema.isFixed false = true → (∃ body, Format.json.Holds items body) →
        ∃ body, Format.json.Holds items body ∧
          Format.json.decode (.record order.fields) body
            = .error (.reading .json .unreadable) := by
      intro left items hitems hleft hfixed ⟨body, hbody⟩
      exact ⟨body, hbody, json_codes.decode_without_of_refuses order.plain hwhole hbody hitems nofun
        nofun hleft hfixed hrefused⟩
    refine ⟨whole, (Format.encode_entries _ _ v).symm.trans hwhole.encoded, ?_⟩
    refine List.forall_mem_cons.2 ⟨?_, List.forall_mem_cons.2 ⟨?_, nofun⟩⟩
    · exact hwithout ⟨"id", .text, v.1⟩ _ (order.fields.lists_entries v) (.head _) rfl
        ⟨_, rfl, trivial⟩
    · have hnote : order.fields.Lists v [] (⟨"note", .optional .text, none⟩ ::
          ((order.fields.entries v).take 4 ++ (order.fields.entries v).drop 5)) :=
        List.perm_middle.symm
      exact hwithout _ _ hnote (.tail _ (.tail _ (.tail _ (.tail _ (.head _))))) rfl
        ⟨_, rfl, trivial⟩
  case bson =>
    refine bson_decode_uncounted ?_
    rw [encode_longText, List.length_replicate]
  case msgpack =>
    have hletters : Utf8.encode (longText (2 ^ 32))
        = 0x61 :: 0x61 :: List.replicate (2 ^ 32 - 2) 0x61 :=
      encode_longText _
    refine msgpack_decode_wrapped ?_ hletters
    rw [encode_longText, List.length_replicate]

end RecordBody
end Conneg
