import Conneg.Proofs.Exchange.WholeBody

/-!
# A destination changes only on success

An application may receive into one destination again and again: from streams,
with or without a policy, or from bodies it has read already. Each such step is
an `Intake`, and `Intake.runAll` is a run of them.

`Intake.run_cases` says once what a step can do. It is refused and leaves the
destination, with an error that `Refusal` allows; or it succeeds on an empty body
and leaves the destination; or it replaces the destination by what its bytes hold
in the format of its content type. From it, by induction on the run,
`runAll_destination` gives the destination after any run: the value of the most
recent step that stored one, or the initial value.

`runAll_allOrNothing` collects what holds after each step of any run.
-/

namespace Conneg

/-- One step of receiving into a destination. -/
inductive Intake
  /-- A request's body, without limits. -/
  | stream (r : Request)
  /-- A request's body, under a policy. -/
  | streamUnder (p : Policy) (r : Request)
  /-- A body that has been read already. -/
  | bytes (h : Headers) (body : Bytes)

namespace Intake

/-- The header fields of a step. -/
def headers : Intake → Headers
  | .stream r => r.headers
  | .streamUnder _ r => r.headers
  | .bytes h _ => h

/-- The data of a step: all that comes before a failure. -/
def data : Intake → Bytes
  | .stream r => r.body.data
  | .streamUnder _ r => r.body.data
  | .bytes _ body => body

/-- What a step does to a destination. -/
def run (s : Schema) : Intake → s.Carrier → Received s
  | .stream r, dest => Policy.unlimited.receive r s dest
  | .streamUnder p r, dest => p.receive r s dest
  | .bytes h body, dest => receiveBytes h body s dest

/-- The value that the bytes of a step hold in the format of its content
type. -/
def content? (s : Schema) (x : Intake) : Option s.Carrier :=
  match requestFormat x.headers with
  | .ok f => (f.decode s x.data).toOption
  | .error _ => none

theorem content?_congr {s : Schema} {x y : Intake}
    (htype : y.headers.first? contentTypeName = x.headers.first? contentTypeName)
    (hdata : y.data = x.data) : y.content? s = x.content? s := by
  simp only [content?, requestFormat, htype, hdata]

end Intake

/-- The errors that receiving a body with these headers can end in. An error of
reading carries the format that the headers name. -/
inductive Refusal (h : Headers) : ExchangeError → Prop
  | tooLarge (max : Nat) : Refusal h (.requestTooLarge max)
  | failed (text : String) : Refusal h (.body text)
  | unsupported (raw : String) : Refusal h (.coding (.unsupported raw))
  | malformed (f : Format) (cause : Fault) (hf : requestFormat h = .ok f) :
    Refusal h (.coding (.reading f cause))

theorem requestFormat_error {h : Headers} {e : CodingError} (he : requestFormat h = .error e) :
    ∃ raw, e = .unsupported raw := by
  rw [requestFormat] at he
  split at he
  · exact ⟨"", (Except.error.inj he).symm⟩
  · next value _ =>
    split at he
    · next text _ =>
      rw [Format.ofContentType] at he
      split at he
      · simp at he
      · exact ⟨text, (Except.error.inj he).symm⟩
    · exact ⟨Utf8.decodeLossy value, (Except.error.inj he).symm⟩

/-- A body that has been read is refused, or empty, or taken. -/
theorem receiveBytes_cases (h : Headers) (body : Bytes) (s : Schema) (dest : s.Carrier) :
    (∃ e, Refusal h e ∧ receiveBytes h body s dest = .refused e dest) ∨
    (body = [] ∧ receiveBytes h body s dest = ⟨.ok (), dest⟩) ∨
    (body ≠ [] ∧ ∃ f v, requestFormat h = .ok f ∧ f.decode s body = .ok v ∧
      receiveBytes h body s dest = ⟨.ok (), v⟩) := by
  cases body with
  | nil => exact .inr (.inl ⟨rfl, rfl⟩)
  | cons b bs =>
    rw [receiveBytes, if_neg (by simp)]
    cases hf : requestFormat h with
    | error e =>
      obtain ⟨raw, rfl⟩ := requestFormat_error hf
      exact .inl ⟨_, .unsupported raw, rfl⟩
    | ok f =>
      cases hv : f.decode s (b :: bs) with
      | error e =>
        obtain ⟨cause, rfl⟩ := Format.decode_error hv
        exact .inl ⟨_, .malformed f cause hf, by simp only [hv]⟩
      | ok v => exact .inr (.inr ⟨by simp, f, v, rfl, hv, by simp only [hv]⟩)

theorem receive_cases (p : Policy) (r : Request) (s : Schema) (dest : s.Carrier) :
    (∃ e, Refusal r.headers e ∧ p.receive r s dest = .refused e dest) ∨
    (r.body.data = [] ∧ p.receive r s dest = ⟨.ok (), dest⟩) ∨
    (r.body.data ≠ [] ∧ ∃ f v, requestFormat r.headers = .ok f ∧
      f.decode s r.body.data = .ok v ∧ p.receive r s dest = ⟨.ok (), v⟩) := by
  rw [Policy.receive_eq_receiveWhole]
  unfold Policy.receiveWhole
  cases p.limits.receive.filter (fun max => Oversized max r.headers r.body.data) with
  | some max => exact .inl ⟨_, .tooLarge max, rfl⟩
  | none =>
    cases r.body.failure? with
    | some text => exact .inl ⟨_, .failed text, rfl⟩
    | none => exact receiveBytes_cases r.headers r.body.data s dest

namespace Intake

variable {s : Schema}

/-- Everything a step can do: it is refused, or its body is empty, or the
destination becomes what its body holds. -/
theorem run_cases (s : Schema) (x : Intake) (dest : s.Carrier) :
    (∃ e, Refusal x.headers e ∧ x.run s dest = .refused e dest) ∨
    (x.data = [] ∧ x.run s dest = ⟨.ok (), dest⟩) ∨
    (x.data ≠ [] ∧ ∃ f v, requestFormat x.headers = .ok f ∧ f.decode s x.data = .ok v ∧
      x.run s dest = ⟨.ok (), v⟩) := by
  cases x with
  | stream r => exact receive_cases .unlimited r s dest
  | streamUnder p r => exact receive_cases p r s dest
  | bytes h body => exact receiveBytes_cases h body s dest

/-- The outcome of a step does not depend on the destination. -/
theorem run_outcome (s : Schema) (x : Intake) (dest other : s.Carrier) :
    (x.run s other).outcome = (x.run s dest).outcome := by
  have hbytes : ∀ h body,
      (receiveBytes h body s other).outcome = (receiveBytes h body s dest).outcome := by
    intro h body
    simp only [receiveBytes]
    split
    · rfl
    · split
      · rfl
      · split <;> rfl
  have hstream : ∀ (p : Policy) r, (p.receive r s other).outcome = (p.receive r s dest).outcome := by
    intro p r
    simp only [Policy.receive]
    split
    · rfl
    · split
      · rfl
      · exact hbytes _ _
  cases x with
  | stream r => exact hstream .unlimited r
  | streamUnder p r => exact hstream p r
  | bytes h body => exact hbytes h body

theorem run_of_error {x : Intake} {dest : s.Carrier} {e : ExchangeError}
    (he : (x.run s dest).outcome = .error e) :
    Refusal x.headers e ∧ (x.run s dest).destination = dest := by
  rcases run_cases s x dest with ⟨e', hrefusal, hrun⟩ | ⟨-, hrun⟩ | ⟨-, f, v, -, -, hrun⟩
  · rw [hrun, Received.refused, Except.error.injEq] at he
    exact ⟨he ▸ hrefusal, by rw [hrun]; rfl⟩
  · rw [hrun] at he; simp at he
  · rw [hrun] at he; simp at he

theorem run_of_empty {x : Intake} (dest : s.Carrier) (hempty : x.data = []) :
    (x.run s dest).destination = dest := by
  rcases run_cases s x dest with ⟨e, -, hrun⟩ | ⟨-, hrun⟩ | ⟨hne, -⟩
  · rw [hrun]; rfl
  · rw [hrun]
  · exact absurd hempty hne

theorem run_of_ok {x : Intake} {dest : s.Carrier} (hok : (x.run s dest).outcome = .ok ())
    (hne : x.data ≠ []) : ∃ f v, requestFormat x.headers = .ok f ∧ f.decode s x.data = .ok v ∧
      (x.run s dest).destination = v := by
  rcases run_cases s x dest with ⟨e, -, hrun⟩ | ⟨hempty, -⟩ | ⟨-, f, v, hf, hv, hrun⟩
  · rw [hrun] at hok; simp [Received.refused] at hok
  · exact absurd hempty hne
  · exact ⟨f, v, hf, hv, by rw [hrun]⟩

/-! ## Runs -/

/-- A step with what it did. -/
abbrev Done (s : Schema) := Intake × Received s

/-- A run of steps on one destination, each with what it did. -/
def runAll (s : Schema) : s.Carrier → List Intake → List (Done s)
  | _, [] => []
  | dest, x :: xs => (x, x.run s dest) :: runAll s (x.run s dest).destination xs

/-- The destination after a run that began with `initial`. -/
def destinationAfter (initial : s.Carrier) (done : List (Done s)) : s.Carrier :=
  match done.getLast? with
  | some z => z.2.destination
  | none => initial

/-- Whether a step succeeded on a body that is not empty. -/
def stores (z : Done s) : Bool :=
  match z.2.outcome with
  | .ok () => !z.1.data.isEmpty
  | .error _ => false

/-- The value of the most recent step of a run that succeeded on a body that is
not empty. -/
def latest? (done : List (Done s)) : Option s.Carrier :=
  done.reverse.findSome? fun z => if stores z then z.1.content? s else none

theorem latest?_cons (z : Done s) (done : List (Done s)) :
    latest? (z :: done) = (latest? done).or (latest? [z]) := by
  simp only [latest?, List.reverse_cons, List.findSome?_append, List.reverse_nil, List.nil_append]

/-- A step stores the value of its bytes, or it leaves the destination. -/
theorem run_stores (s : Schema) (x : Intake) (dest : s.Carrier) :
    (stores (x, x.run s dest) = true ∧ x.content? s = some (x.run s dest).destination) ∨
    (stores (x, x.run s dest) = false ∧ (x.run s dest).destination = dest) := by
  rcases run_cases s x dest with ⟨e, -, hrun⟩ | ⟨hempty, hrun⟩ | ⟨hne, f, v, hf, hv, hrun⟩
  · exact .inr ⟨by rw [hrun]; rfl, by rw [hrun]; rfl⟩
  · exact .inr ⟨by simp [stores, hrun, hempty], by rw [hrun]⟩
  · refine .inl ⟨by simp [stores, hrun, hne], ?_⟩
    simp only [content?, hf, hv, hrun]
    rfl

/-- What a step stores is determined by its content type and its bytes. -/
theorem run_destination_congr {x y : Intake} {dest other : s.Carrier}
    (htype : y.headers.first? contentTypeName = x.headers.first? contentTypeName)
    (hdata : y.data = x.data) (hx : stores (x, x.run s dest) = true)
    (hy : stores (y, y.run s other) = true) :
    (y.run s other).destination = (x.run s dest).destination := by
  rcases run_stores s x dest with ⟨-, hxv⟩ | ⟨hno, -⟩
  · rcases run_stores s y other with ⟨-, hyv⟩ | ⟨hno, -⟩
    · rw [content?_congr htype hdata, hxv] at hyv
      exact (Option.some.inj hyv).symm
    · simp [hno] at hy
  · simp [hno] at hx

/-- After one step the destination is the value it stored, if it stored one. -/
theorem run_destination (s : Schema) (x : Intake) (dest : s.Carrier) :
    (x.run s dest).destination = (latest? [(x, x.run s dest)]).getD dest := by
  rcases run_stores s x dest with ⟨hstores, hcontent⟩ | ⟨hstores, hdest⟩
  · simp [latest?, hstores, hcontent]
  · simp [latest?, hstores, hdest]

/-- After a run the destination is the latest value stored, or the initial
one. -/
theorem runAll_destination (s : Schema) (initial : s.Carrier) (xs : List Intake) :
    destinationAfter initial (runAll s initial xs)
      = (latest? (runAll s initial xs)).getD initial := by
  induction xs generalizing initial with
  | nil => rfl
  | cons x xs ih =>
    have hlast : destinationAfter initial (runAll s initial (x :: xs))
        = destinationAfter (x.run s initial).destination
            (runAll s (x.run s initial).destination xs) := by
      simp only [destinationAfter, runAll, List.getLast?_cons]
      cases (runAll s (x.run s initial).destination xs).getLast? <;> rfl
    rw [hlast, ih, runAll, latest?_cons]
    cases latest? (runAll s (x.run s initial).destination xs) with
    | some v => rfl
    | none => exact run_destination s x initial

/-- A step of a run works on the destination after the steps before it, and the
run up to it is the run of the steps up to it. -/
theorem runAll_split {initial : s.Carrier} {xs : List Intake} {done rest : List (Done s)}
    {z : Done s} (h : runAll s initial xs = done ++ z :: rest) :
    z.2 = z.1.run s (destinationAfter initial done) ∧
      ∃ ys, done ++ [z] = runAll s initial ys := by
  induction done generalizing initial xs with
  | nil =>
    cases xs with
    | nil => simp [runAll] at h
    | cons x xs =>
      simp only [runAll, List.nil_append, List.cons.injEq] at h
      obtain ⟨rfl, -⟩ := h
      exact ⟨rfl, [x], rfl⟩
  | cons d done ih =>
    cases xs with
    | nil => simp [runAll] at h
    | cons x xs =>
      simp only [runAll, List.cons_append, List.cons.injEq] at h
      obtain ⟨rfl, htail⟩ := h
      obtain ⟨hz, ys, hys⟩ := ih htail
      refine ⟨?_, x :: ys, by rw [runAll, ← hys, List.cons_append]⟩
      rw [hz]
      simp only [destinationAfter, List.getLast?_cons]
      cases done.getLast? <;> rfl

/-- What holds of a step `z` that comes after the steps `done` of a run. -/
structure AllOrNothing (initial : s.Carrier) (done : List (Done s)) (z : Done s) : Prop where
  /-- The destination is the latest value stored so far, or the initial one. -/
  latest : z.2.destination = (latest? (done ++ [z])).getD initial
  /-- A success on a body that is not empty stores what the body holds. -/
  taken : z.2.outcome = .ok () → z.1.data ≠ [] → ∃ f v,
    requestFormat z.1.headers = .ok f ∧ f.decode s z.1.data = .ok v ∧ z.2.destination = v
  /-- The value stored is the one that any step with this content type and these
  bytes stores, whatever was in its destination before. -/
  determined : ∀ (y : Intake) (other : s.Carrier),
    y.headers.first? contentTypeName = z.1.headers.first? contentTypeName →
    y.data = z.1.data → stores (y, y.run s other) = true → stores z = true →
    (y.run s other).destination = z.2.destination
  /-- Whether a step succeeds does not depend on the destination either. -/
  outcome : ∀ other, (z.1.run s other).outcome = z.2.outcome
  /-- A failure leaves the destination as it was. -/
  refused : ∀ e, z.2.outcome = .error e → z.2.destination = destinationAfter initial done
  /-- An empty body leaves the destination as it was. -/
  empty : z.1.data = [] → z.2.destination = destinationAfter initial done
  /-- An error of reading carries the format that the headers name. -/
  format : ∀ f cause, z.2.outcome = .error (.coding (.reading f cause)) →
    requestFormat z.1.headers = .ok f
  /-- Receiving ends in no error of writing a value. -/
  notWriting : ∀ f cause, z.2.outcome ≠ .error (.coding (.writing f cause))
  /-- Receiving ends in no error of the size of a response. -/
  notResponse : ∀ size max, z.2.outcome ≠ .error (.responseTooLarge size max)

/-- **A destination is all or nothing over whole runs.** A run does its steps in
their order, and each step of it keeps the destination or replaces it by the
value of its own body. -/
theorem runAll_allOrNothing (s : Schema) (initial : s.Carrier) (xs : List Intake) :
    (runAll s initial xs).map Prod.fst = xs ∧
    ∀ done z rest, runAll s initial xs = done ++ z :: rest →
      z.2 = z.1.run s (destinationAfter initial done) ∧ AllOrNothing initial done z := by
  refine ⟨?_, ?_⟩
  · induction xs generalizing initial with
    | nil => rfl
    | cons x xs ih => simp [runAll, ih]
  · intro done z rest hsplit
    obtain ⟨hz, ys, hys⟩ := runAll_split hsplit
    obtain ⟨x, r⟩ := z
    simp only at hz
    subst hz
    refine ⟨rfl, ?_, run_of_ok, ?_, run_outcome s x _, fun e he => (run_of_error he).2,
      run_of_empty _, ?_, ?_, ?_⟩
    · have hend := runAll_destination s initial ys
      rw [← hys] at hend
      simpa [destinationAfter] using hend
    · intro y other htype hdata hy hx
      exact run_destination_congr htype hdata hx hy
    · intro f cause he
      cases (run_of_error he).1 with
      | malformed _ _ hf => exact hf
    · intro f cause he
      cases (run_of_error he).1
    · intro size max he
      cases (run_of_error he).1

/-- A JSON text, and the same text cut off. -/
def twoTexts : List Intake :=
  let json := Headers.ofList [("Content-Type", Utf8.encode "application/json")]
  [.bytes json (Utf8.encode "\"new\""), .bytes json (Utf8.encode "\"ne")]

/-- A stream that fails after some data. -/
def failingStream : Intake :=
  .stream { body := [.data (Utf8.encode "\"x\""), .failure "reset"] }

/-- A stream that fails after those two texts leaves what the first one stored. -/
theorem runAll_failingStream :
    let done := runAll .text "old" twoTexts
    let z := (failingStream, failingStream.run .text (destinationAfter "old" done))
    runAll .text "old" (twoTexts ++ [failingStream]) = done ++ z :: [] ∧
      AllOrNothing (s := .text) "old" done z ∧ z.2.destination = "new" :=
  ⟨rfl, ((runAll_allOrNothing .text "old" (twoTexts ++ [failingStream])).2 _ _ [] rfl).2,
    by decide +kernel⟩

end Intake

end Conneg
