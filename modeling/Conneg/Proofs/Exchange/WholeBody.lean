import Conneg.Exchange.Receive
import Conneg.Proofs.Text.Utf8

/-!
# Receiving a stream is receiving its whole body

`Policy.receive` meets a body frame by frame: it looks at the announced length,
counts the data that comes in against the limit, and may stop in the middle. Here
it is compared with a receiver that is handed the whole body at once,
`Policy.receiveWhole`, which decides by three facts only: whether the request is
over the limit (`Oversized`), whether the stream failed, and what its data is.

Two lemmas carry the comparison:

> `announcedLength?_eq_some`: the announced length is the number that the first
> `Content-Length` value writes, in the grammar of `Headers.Announces`;
>
> `Stream.collectFrom_some`: as long as the running total is within the limit,
> reading on ends in `tooLarge` exactly if the total and the data still to come
> are above the limit, and otherwise as it does without a limit.

`receive_refines_wholeBody` puts them together, with what follows from it: how the
data is cut into frames makes no difference, a limit that is not exceeded acts as
none, and a stream's own failure is never taken for the limit.
-/

namespace Conneg

/-! ## The announced length -/

/-- The number that ASCII digits write. -/
def decimalOfBytes (ds : Bytes) : Nat := ds.foldl (fun n b => n * 10 + (b.toNat - 0x30)) 0

/-- The first `Content-Length` value writes `n`: one or more digits, perhaps
after a plus sign, for a number below `2^64`. -/
def Headers.Announces (h : Headers) (n : Nat) : Prop :=
  ∃ sign digits : Bytes, h.first? contentLengthName = some (sign ++ digits) ∧
    (sign = [] ∨ sign = [0x2B]) ∧ digits ≠ [] ∧ (∀ b ∈ digits, 0x30 ≤ b ∧ b ≤ 0x39) ∧
    decimalOfBytes digits = n ∧ n < 2 ^ 64

theorem toNat_ofNat_byte (b : UInt8) : (Char.ofNat b.toNat).toNat = b.toNat := by
  have hb : b.toNat < 256 := UInt8.toNat_lt b
  exact Utf8.toNat_ofNat (Or.inl (by omega))

theorem ofChar?_byte {b : UInt8} {d : Digit} :
    Digit.ofChar? (Char.ofNat b.toNat) = some d ↔
      (0x30 ≤ b ∧ b ≤ 0x39) ∧ d.val = b.toNat - 0x30 := by
  have hb : b.toNat < 256 := UInt8.toNat_lt b
  rw [UInt8.le_iff_toNat_le, UInt8.le_iff_toNat_le]
  simp only [Digit.ofChar?, toNat_ofNat_byte, Digit.ofCode?]
  show _ ↔ (48 ≤ b.toNat ∧ b.toNat ≤ 57) ∧ d.val = b.toNat - 48
  split
  · next hlt =>
    split
    · next hle =>
      rw [Option.some.injEq, Fin.ext_iff]
      constructor
      · intro h; exact ⟨by omega, h.symm⟩
      · intro h; exact h.2.symm
    · next hle => simp; omega
  · next hlt => simp; omega

/-- Bytes read as digits exactly if all of them are, and then write the number
of those digits. -/
theorem mapM_ofChar?_bytes {bs : Bytes} {ds : List Digit}
    (h : (bs.map fun b => Char.ofNat b.toNat).mapM Digit.ofChar? = some ds) :
    (∀ b ∈ bs, 0x30 ≤ b ∧ b ≤ 0x39) ∧ valueOf ds = decimalOfBytes bs := by
  have key : ∀ (bs : Bytes) (ds : List Digit) (n : Nat),
      (bs.map fun b => Char.ofNat b.toNat).mapM Digit.ofChar? = some ds →
      (∀ b ∈ bs, 0x30 ≤ b ∧ b ≤ 0x39) ∧
        ds.foldl (fun n d => n * 10 + d.val) n
          = bs.foldl (fun n b => n * 10 + (b.toNat - 0x30)) n := by
    intro bs
    induction bs with
    | nil =>
      intro ds n h
      simp only [List.map_nil, List.mapM_nil, Option.pure_def, Option.some.injEq] at h
      subst h
      exact ⟨by simp, rfl⟩
    | cons b bs ih =>
      intro ds n h
      simp only [List.map_cons, List.mapM_cons, Option.pure_def, Option.bind_eq_bind,
        Option.bind_eq_some_iff] at h
      obtain ⟨d, hd, es, hes, h⟩ := h
      simp only [Option.some.injEq] at h
      subst h
      obtain ⟨hb, hval⟩ := ofChar?_byte.1 hd
      obtain ⟨hbs, hsum⟩ := ih es (n * 10 + d.val) hes
      refine ⟨?_, ?_⟩
      · intro c hc
        rcases List.mem_cons.1 hc with rfl | hc
        · exact hb
        · exact hbs c hc
      · rw [List.foldl_cons, List.foldl_cons, hsum, hval]
  exact key bs ds 0 h

theorem exists_mapM_ofChar? {bs : Bytes} (h : ∀ b ∈ bs, 0x30 ≤ b ∧ b ≤ 0x39) :
    ∃ ds, (bs.map fun b => Char.ofNat b.toNat).mapM Digit.ofChar? = some ds := by
  induction bs with
  | nil => exact ⟨[], rfl⟩
  | cons b bs ih =>
    obtain ⟨ds, hds⟩ := ih fun c hc => h c (List.mem_cons_of_mem _ hc)
    have hb := h b List.mem_cons_self
    have hb' : 48 ≤ b.toNat ∧ b.toNat ≤ 57 := by
      rw [UInt8.le_iff_toNat_le, UInt8.le_iff_toNat_le] at hb; exact hb
    have hd := (ofChar?_byte (b := b) (d := ⟨b.toNat - 0x30, by omega⟩)).2 ⟨hb, rfl⟩
    refine ⟨⟨b.toNat - 0x30, by omega⟩ :: ds, ?_⟩
    simp [List.mapM_cons, hd, hds]

/-- One or more bytes write a number exactly if they are its digits. -/
theorem readDecimal?_bytes {bs : Bytes} {n : Nat} :
    readDecimal? (bs.map fun b => Char.ofNat b.toNat) = some n ↔
      bs ≠ [] ∧ (∀ b ∈ bs, 0x30 ≤ b ∧ b ≤ 0x39) ∧ decimalOfBytes bs = n := by
  cases bs with
  | nil => simp [readDecimal?]
  | cons b bs =>
    simp only [readDecimal?, List.map_cons]
    rw [← List.map_cons (f := fun b : UInt8 => Char.ofNat b.toNat), Option.map_eq_some_iff]
    constructor
    · rintro ⟨ds, hds, hval⟩
      obtain ⟨hall, heq⟩ := mapM_ofChar?_bytes hds
      exact ⟨by simp, hall, heq ▸ hval⟩
    · rintro ⟨-, hall, hval⟩
      obtain ⟨ds, hds⟩ := exists_mapM_ofChar? hall
      exact ⟨ds, hds, (mapM_ofChar?_bytes hds).2.trans hval⟩

theorem isHeaderText_of_digit {b : UInt8} (h : 0x30 ≤ b ∧ b ≤ 0x39) : isHeaderText b = true := by
  have h1 : (0x20 : UInt8) ≤ b := UInt8.le_trans (by decide) h.1
  have h2 : b ≤ (0x7E : UInt8) := UInt8.le_trans h.2 (by decide)
  simp [isHeaderText, h1, h2]

theorem ofNat_byte_eq_plus {b : UInt8} : Char.ofNat b.toNat = '+' ↔ b = 0x2B := by
  constructor
  · intro h
    have := congrArg Char.toNat h
    rw [toNat_ofNat_byte] at this
    exact UInt8.toNat_inj.1 this
  · rintro rfl
    rfl

theorem headerText?_number {sign digits : Bytes} (hsign : sign = [] ∨ sign = [0x2B])
    (hdigits : ∀ b ∈ digits, 0x30 ≤ b ∧ b ≤ 0x39) :
    headerText? (sign ++ digits)
      = some (String.ofList ((sign ++ digits).map fun b => Char.ofNat b.toNat)) := by
  have hall : (sign ++ digits).all isHeaderText = true := by
    rw [List.all_eq_true]
    intro b hb
    rcases List.mem_append.1 hb with hb | hb
    · rcases hsign with rfl | rfl
      · simp at hb
      · rw [List.mem_singleton.1 hb]; decide
    · exact isHeaderText_of_digit (hdigits b hb)
  rw [headerText?, if_pos hall]

/-- The digits of a header value, once its plus sign is dropped. -/
def unsignedDigits (value : Bytes) : Bytes :=
  match value with
  | [] => []
  | b :: bs => if b = 0x2B then bs else b :: bs

theorem withoutPlus_map (value : Bytes) :
    withoutPlus (value.map fun b => Char.ofNat b.toNat)
      = (unsignedDigits value).map fun b => Char.ofNat b.toNat := by
  cases value with
  | nil => rfl
  | cons b bs =>
    by_cases hb : b = 0x2B
    · subst hb; rfl
    · have hc : Char.ofNat b.toNat ≠ '+' := fun h => hb (ofNat_byte_eq_plus.1 h)
      simp only [List.map_cons, unsignedDigits, if_neg hb]
      rw [withoutPlus]
      intro cs h
      exact hc (List.cons.inj h).1

/-- A number is announced exactly by a value in the grammar of numbers. -/
theorem announcedLength?_eq_some {h : Headers} {n : Nat} :
    announcedLength? h = some n ↔ h.Announces n := by
  unfold announcedLength?
  constructor
  · intro hn
    split at hn
    · simp at hn
    · next s hs =>
      obtain ⟨value, hvalue, htext⟩ := Option.bind_eq_some_iff.1 hs
      rw [headerText?] at htext
      split at htext
      · next hall =>
        simp only [Option.some.injEq] at htext
        subst htext
        simp only [String.toList_ofList, withoutPlus_map] at hn
        split at hn
        · next m hm =>
          split at hn
          · next hlt =>
            simp only [Option.some.injEq] at hn
            subst hn
            obtain ⟨hne, hdigits, hval⟩ := readDecimal?_bytes.1 hm
            cases value with
            | nil => exact absurd rfl hne
            | cons b bs =>
              by_cases hb : b = 0x2B
              · simp only [unsignedDigits, if_pos hb] at hne hdigits hval
                exact ⟨[0x2B], bs, by rw [hvalue, hb]; rfl, .inr rfl, hne, hdigits, hval, hlt⟩
              · simp only [unsignedDigits, if_neg hb] at hne hdigits hval
                exact ⟨[], b :: bs, hvalue, .inl rfl, hne, hdigits, hval, hlt⟩
          · simp at hn
        · simp at hn
      · simp at htext
  · rintro ⟨sign, digits, hvalue, hsign, hne, hdigits, hval, hlt⟩
    have hdrop : unsignedDigits (sign ++ digits) = digits := by
      rcases hsign with rfl | rfl
      · cases digits with
        | nil => rfl
        | cons b bs =>
          have hb : b ≠ 0x2B := by
            rintro rfl
            exact absurd (hdigits 0x2B List.mem_cons_self).1 (by decide)
          simp [unsignedDigits, hb]
      · rfl
    have hread := readDecimal?_bytes.2 ⟨hne, hdigits, hval⟩
    rw [hvalue, Option.bind_some, headerText?_number hsign hdigits]
    simp only [String.toList_ofList, withoutPlus_map, hdrop, hread, if_pos hlt]

/-! ## Reading within a limit -/

/-- Reading on from a total that is within the limit goes wrong for the limit
exactly if the data still to come brings the total above it; otherwise the limit
makes no difference. -/
theorem Stream.collectFrom_some {max : Nat} {s : Stream} {total : Nat} (h : total ≤ max) :
    collectFrom (some max) total s
      = if max < total + s.data.length then .error (.tooLarge max) else s.collect none := by
  induction s generalizing total with
  | nil =>
    rw [if_neg (by simp only [data, List.length_nil]; omega)]
    rfl
  | cons f rest ih =>
    cases f with
    | data bs =>
      simp only [collectFrom, data, List.length_append, Option.getD_some, decide_eq_true_eq]
      by_cases hover : max < total + bs.length
      · -- this frame brings the total above the limit, whatever comes after it
        rw [if_pos hover, if_pos (by omega)]
      · rw [if_neg hover, ih (by omega), Nat.add_assoc, collect_none, collect_none]
        split
        · rfl
        · simp only [failure?, data]
          cases failure? rest <;> rfl
    | trailers =>
      rw [collectFrom, ih h, collect_none, collect_none]
      rfl
    | failure text =>
      rw [if_neg (by simp only [data, List.length_nil]; omega)]
      rfl

/-- A stream is too large for a limit exactly if its data is. -/
theorem Stream.collect_some (max : Nat) (s : Stream) :
    s.collect (some max)
      = if max < s.data.length then .error (.tooLarge max) else s.collect none := by
  rw [collect, collectFrom_some (Nat.zero_le max), Nat.zero_add]

/-- A stream with more data than its own limit fails by itself. -/
theorem Stream.failure?_limitedFrom {max : Nat} {s : Stream} {total : Nat}
    (hover : max < total + s.data.length) (hwithin : total ≤ max) :
    (limitedFrom max total s).failure? = some "length limit exceeded" := by
  induction s generalizing total with
  | nil => simp only [data, List.length_nil] at hover; omega
  | cons f rest ih =>
    cases f with
    | data bs =>
      simp only [data, List.length_append] at hover
      simp only [limitedFrom]
      split
      · rfl
      · next hle => exact ih (by omega) (by omega)
    | trailers => exact ih hover hwithin
    | failure text => simp only [data, List.length_nil] at hover; omega

/-! ## The receiver of whole bodies -/

/-- A request is over a limit: it announces more, or it has more data. -/
def Oversized (max : Nat) (h : Headers) (data : Bytes) : Prop :=
  (∃ n, h.Announces n ∧ max < n) ∨ max < data.length

instance (max : Nat) (h : Headers) (data : Bytes) : Decidable (Oversized max h data) :=
  decidable_of_iff ((announcedLength? h).any (max < ·) = true ∨ max < data.length) <| by
    simp only [Oversized, Option.any_eq_true, announcedLength?_eq_some, decide_eq_true_eq]

namespace Policy

/-- Receives a body that is handed over whole, with the text of the stream's
failure if there was one. -/
def receiveWhole (p : Policy) (h : Headers) (data : Bytes) (failure : Option String)
    (s : Schema) (dest : s.Carrier) : Received s :=
  match p.limits.receive.filter (fun max => Oversized max h data), failure with
  | some max, _ => .refused (.requestTooLarge max) dest
  | none, some text => .refused (.body text) dest
  | none, none => receiveBytes h data s dest

/-- The policy without its limit on request bodies. -/
def withoutReceiveLimit (p : Policy) : Policy :=
  { p with limits := { p.limits with receive := none } }

/-- Whether the size of a request is within the limit, if there is one. -/
def Admits (p : Policy) (h : Headers) (data : Bytes) : Prop :=
  ∀ max, p.limits.receive = some max → ¬ Oversized max h data

/-- A stream within the limit is received as its whole body. -/
theorem receive_of_announced (p : Policy) (r : Request) (s : Schema) (dest : s.Carrier)
    (h : ∀ max n, p.limits.receive = some max → announcedLength? r.headers = some n → n ≤ max) :
    p.receive r s dest
      = match r.body.collect p.limits.receive with
        | .error e => .refused (.ofStream e) dest
        | .ok body => receiveBytes r.headers body s dest := by
  have hcheck : p.checkAnnounced r.headers = .ok () := by
    rw [checkAnnounced]
    split
    · next n hn =>
      rw [SizeLimits.checkReceive]
      split
      · next max hmax =>
        obtain ⟨hlimit, hlt⟩ := SizeLimits.exceeds_eq_some.1 hmax
        exact absurd (h max n hlimit hn) (Nat.not_le.2 hlt)
      · rfl
    · rfl
  unfold receive
  cases r.body.collect p.limits.receive <;> simp only [hcheck]

/-- A request that announces more than the limit is refused before its body is
read. -/
theorem receive_of_announced_lt {p : Policy} {r : Request} {s : Schema} {dest : s.Carrier}
    {max n : Nat} (hlimit : p.limits.receive = some max)
    (hn : announcedLength? r.headers = some n) (hlt : max < n) :
    p.receive r s dest = .refused (.requestTooLarge max) dest := by
  have hexceeds : SizeLimits.exceeds p.limits.receive n = some max :=
    SizeLimits.exceeds_eq_some.2 ⟨hlimit, hlt⟩
  have hcheck : p.checkAnnounced r.headers = .error (.requestTooLarge max) := by
    rw [checkAnnounced, hn]
    simp only [SizeLimits.checkReceive, hexceeds]
  rw [receive, hcheck]

/-- Receiving a stream is receiving its whole body. -/
theorem receive_eq_receiveWhole (p : Policy) (r : Request) (s : Schema) (dest : s.Carrier) :
    p.receive r s dest = p.receiveWhole r.headers r.body.data r.body.failure? s dest := by
  unfold receiveWhole
  cases hlimit : p.limits.receive with
  | none =>
    -- without a limit nothing is oversized, and `collect_none` is the rest
    rw [receive_of_announced p r s dest (by simp [hlimit]), hlimit, Stream.collect_none,
      Option.filter_none]
    cases r.body.failure? <;> rfl
  | some max =>
    by_cases hover : Oversized max r.headers r.body.data
    · rw [Option.filter_some_pos (by simpa using hover)]
      by_cases hann : ∃ n, announcedLength? r.headers = some n ∧ max < n
      · obtain ⟨n, hn, hlt⟩ := hann
        exact receive_of_announced_lt hlimit hn hlt
      · have hdata : max < r.body.data.length := by
          rcases hover with ⟨n, hn, hlt⟩ | hdata
          · exact absurd ⟨n, announcedLength?_eq_some.2 hn, hlt⟩ hann
          · exact hdata
        rw [receive_of_announced p r s dest, hlimit, Stream.collect_some, if_pos hdata]
        · rfl
        · intro max' n hmax' hn
          rw [hlimit, Option.some.injEq] at hmax'
          subst hmax'
          exact Nat.not_lt.1 fun hlt => hann ⟨n, hn, hlt⟩
    · rw [Option.filter_some_neg (by simpa using hover)]
      rw [receive_of_announced p r s dest, hlimit, Stream.collect_some,
        if_neg fun hdata => hover (.inr hdata), Stream.collect_none]
      · cases r.body.failure? <;> rfl
      · intro max' n hmax' hn
        rw [hlimit, Option.some.injEq] at hmax'
        subst hmax'
        exact Nat.not_lt.1 fun hlt => hover (.inl ⟨n, announcedLength?_eq_some.1 hn, hlt⟩)

/-- Where a limit is not exceeded, the whole body is received as without one. -/
theorem receiveWhole_of_admits {p : Policy} {h : Headers} {data : Bytes} {s : Schema}
    {failure : Option String} {dest : s.Carrier} (hadmits : p.Admits h data) :
    p.receiveWhole h data failure s dest
      = match failure with
        | some text => .refused (.body text) dest
        | none => receiveBytes h data s dest := by
  have hnone : p.limits.receive.filter (fun max => Oversized max h data) = none := by
    rw [Option.filter_eq_none_iff]
    intro max hmax
    simpa using hadmits max hmax
  unfold receiveWhole
  rw [hnone]
  cases failure <;> rfl

theorem admits_withoutReceiveLimit (p : Policy) (h : Headers) (data : Bytes) :
    p.withoutReceiveLimit.Admits h data := by
  intro max hmax
  simp [withoutReceiveLimit] at hmax

/-- **Receiving a stream refines receiving its whole body.** The outcome and the
destination are those of `receiveWhole`. So streams with the same data and the
same failure are received alike, a limit that is not exceeded acts as none, a
failure of the stream is reported with the stream's own text, and that is so also
for a stream that fails by itself because of a limit of its own. -/
theorem receive_refines_wholeBody (p : Policy) (r : Request) (s : Schema) (dest : s.Carrier) :
    p.receive r s dest = p.receiveWhole r.headers r.body.data r.body.failure? s dest ∧
    (∀ r' : Request, r'.headers = r.headers → r'.body.data = r.body.data →
      r'.body.failure? = r.body.failure? → p.receive r' s dest = p.receive r s dest) ∧
    (p.Admits r.headers r.body.data →
      p.receive r s dest = p.withoutReceiveLimit.receive r s dest ∧
      ∀ text, r.body.failure? = some text → p.receive r s dest = .refused (.body text) dest) ∧
    (∀ max, max < r.body.data.length → p.Admits r.headers (r.body.limited max).data →
      p.receive { r with body := r.body.limited max } s dest
        = .refused (.body "length limit exceeded") dest) := by
  refine ⟨receive_eq_receiveWhole p r s dest, ?_, ?_, ?_⟩
  · intro r' hheaders hdata hfailure
    rw [receive_eq_receiveWhole, receive_eq_receiveWhole, hheaders, hdata, hfailure]
  · intro hadmits
    refine ⟨?_, ?_⟩
    · rw [receive_eq_receiveWhole, receive_eq_receiveWhole, receiveWhole_of_admits hadmits,
        receiveWhole_of_admits (admits_withoutReceiveLimit p r.headers r.body.data)]
    · intro text htext
      rw [receive_eq_receiveWhole, receiveWhole_of_admits hadmits, htext]
  · intro max hover hadmits
    have hfail : (r.body.limited max).failure? = some "length limit exceeded" :=
      Stream.failure?_limitedFrom (by omega) (Nat.zero_le max)
    rw [receive_eq_receiveWhole, receiveWhole_of_admits hadmits, hfail]

/-- A request that announces `+3`, brings three bytes in two frames with trailers
between them, and then fails. -/
def cutShort : Request where
  headers := Headers.ofList [("Content-Length", [0x2B, 0x33])]
  body := [.data [0x31, 0x32], .trailers, .data [], .data [0x33],
    .failure "length limit exceeded", .data [0x34, 0x35]]

/-- Within a limit of three bytes, that request fails with the text of its
stream. -/
theorem receive_cutShort :
    (unlimited.withReceiveLimit 3).Admits cutShort.headers cutShort.body.data ∧
      (unlimited.withReceiveLimit 3).receive cutShort .text "kept"
        = .refused (.body "length limit exceeded") "kept" := by
  have hadmits : (unlimited.withReceiveLimit 3).Admits cutShort.headers cutShort.body.data := by
    intro max hmax
    obtain rfl : 3 = max := Option.some.inj hmax
    decide +kernel
  exact ⟨hadmits, ((receive_refines_wholeBody _ cutShort .text "kept").2.2.1 hadmits).2 _ rfl⟩

end Policy

end Conneg
