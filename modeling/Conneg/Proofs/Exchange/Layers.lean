import Conneg.Exchange.Extract
import Conneg.Proofs.Exchange.Answer

/-!
# One policy behind nested layers

A layer goes around a service: it installs its policy in a request and passes it on
(`Layer.around`). Layers around layers pass a request through all of them, from the outermost
to the innermost, and each replaces the policy that it finds. So the service at the centre is
given the request that came, under the policy of the innermost layer (`nested_eq`, by
induction on the layers).

Whatever that service takes from the request then follows this one policy: the value of the
body is what the policy receives, and the preference has the fallback and the limits of the
policy (`layers_agree`).
-/

namespace Conneg

namespace Layer

variable {α : Type}

/-- A service behind a layer. -/
def around (l : Layer) (service : Request → α) : Request → α := fun r => service (l.install r)

/-- A service behind nested layers, given outermost first. -/
def nested (ls : List Layer) (service : Request → α) : Request → α := ls.foldr around service

/-- A service behind nested layers is given the request that has passed them all. -/
theorem nested_eq_installAll (ls : List Layer) (service : Request → α) (r : Request) :
    nested ls service r = service (installAll ls r) := by
  induction ls generalizing r with
  | nil => rfl
  | cons l ls ih =>
    -- the outermost layer passes its request to the others
    show nested ls service (l.install r) = service (installAll ls (l.install r))
    exact ih (l.install r)

/-- The policy of the innermost layer, or the one that was there before. -/
def innermost (ls : List Layer) (before : Option Policy) : Option Policy :=
  (ls.getLast?.map Layer.policy).or before

/-- Layers change nothing of a request but its policy. -/
theorem exists_installAll_eq (ls : List Layer) (r : Request) :
    ∃ policy, installAll ls r = { r with policy := policy } := by
  induction ls generalizing r with
  | nil => exact ⟨r.policy, rfl⟩
  | cons l ls ih =>
    obtain ⟨policy, hpolicy⟩ := ih (l.install r)
    exact ⟨policy, hpolicy⟩

/-- A service behind nested layers is given the request as it came, under the policy of the
innermost. -/
theorem nested_eq (ls : List Layer) (service : Request → α) (r : Request) :
    nested ls service r = service { r with policy := innermost ls r.policy } := by
  obtain ⟨policy, hpassed⟩ := exists_installAll_eq ls r
  have hpolicy : policy = innermost ls r.policy := by
    have hlast := policy_installAll ls r
    rw [hpassed] at hlast
    rw [innermost]
    cases hls : ls.getLast? with
    | none => rwa [hls] at hlast
    | some l => rwa [hls] at hlast
  rw [nested_eq_installAll, hpassed, hpolicy]

end Layer

open Layer in
/-- **Layers, and what is taken behind them, agree on one policy.** A service behind nested
layers is given the request as it came, under the policy of the innermost layer, or without
layers under its own. The value of the body is what that policy receives into
the initial value, or the policy without limits if there is none. What it refuses is the
client's mistake, and is answered as JSON with its code and message. The preference is
chosen with the fallback of the same policy, and has its limits. -/
theorem layers_agree (ls : List Layer) (r : Request) :
    let installed := innermost ls r.policy
    let p := installed.getD ⟨⟨none, none⟩, .json⟩
    let preference := nested ls Preference.ofRequest r
    (∀ (α : Type) (service : Request → α),
      nested ls service r = service ⟨r.headers, r.body, installed⟩) ∧
    (∀ t : BodyType,
      (∀ v, nested ls (Request.extract · t) r = .ok v ↔
        p.receive r t.schema t.initial = ⟨.ok (), v⟩) ∧
      (∀ e, nested ls (Request.extract · t) r = .error e ↔
        (p.receive r t.schema t.initial).outcome = .error e) ∧
      ∀ e, nested ls (Request.extract · t) r = .error e →
        (e.status = 400 ∨ e.status = 413 ∨ e.status = 415) ∧
        e.toResponse = .inFormat .json e.status e.problem ∧
        Format.json.decode (.record problemFields) e.problem = .ok (e.code, e.message, ())) ∧
    ((∀ text, r.headers.Accepts text →
        preference.format = Accept.negotiate (some text) p.fallback) ∧
      ((∀ text, ¬ r.headers.Accepts text) → preference.format = p.fallback) ∧
      preference.limits = p.limits) := by
  intro installed p preference
  refine ⟨fun α service => nested_eq ls service r, ?extract, ?preference⟩
  case extract =>
    intro t
    -- receiving does not look at the policy that a request carries
    have hextract : nested ls (Request.extract · t) r
        = ({ r with policy := installed } : Request).extract t := nested_eq ls _ r
    rw [hextract]
    refine ⟨fun v => extract_eq_ok_iff_receive, fun e => extract_eq_error_iff_receive, fun e he => ?_⟩
    have hstatus : e.status = 400 ∨ e.status = 413 ∨ e.status = 415 := status_cases_of_extract he
    have hmessage : e.publicMessage = e.message := by
      apply ExchangeError.publicMessage_of_clientError
      omega
    refine ⟨hstatus, rfl, ?_⟩
    rw [← hmessage]
    exact (ExchangeError.problem_kept e).2
  case preference =>
    have hpreference : preference = Preference.ofRequest { r with policy := installed } :=
      nested_eq ls _ r
    obtain ⟨hnegotiated, hfallback⟩ := Preference.format_ofRequest { r with policy := installed }
    rw [hpreference]
    exact ⟨hnegotiated, hfallback, rfl⟩

open Layer in
/-- Three bytes without a content type, behind two layers and a policy of the request's own.
They are above the limit of the narrow layer if that is the inner one; behind the wide one
they are of no format. Only without layers the request's own policy counts. -/
theorem layers_narrowInside :
    let wide : Layer := ⟨⟨⟨some 9, none⟩, .bson⟩⟩
    let narrow : Layer := ⟨⟨⟨some 2, some 5⟩, .msgpack⟩⟩
    let r : Request := {
      headers := Headers.ofList [("Accept", Utf8.encode "text/html")]
      body := [.data [1, 2], .trailers, .data [3]]
      policy := some ⟨⟨some 1, none⟩, .json⟩ }
    let text : BodyType := ⟨.text, "kept"⟩
    let e : ExchangeError := .requestTooLarge 2
    nested [wide, narrow] (Request.extract · text) r = .error e ∧
      e.toResponse = .inFormat .json 413 e.problem ∧
      Format.json.decode (.record problemFields) e.problem = .ok (e.code, e.message, ()) ∧
      nested [narrow, wide] (Request.extract · text) r = .error (.coding (.unsupported "")) ∧
      nested [] (Request.extract · text) r = .error (.requestTooLarge 1) ∧
      r.headers.Accepts "text/html" ∧
      (nested [wide, narrow] Preference.ofRequest r).format = .msgpack ∧
      (nested [narrow, wide] Preference.ofRequest r).format = .bson ∧
      (nested [wide, narrow] Preference.ofRequest r).limits = ⟨some 2, some 5⟩ := by
  intro wide narrow r text e
  have haccepts : r.headers.Accepts "text/html" := Headers.accepts_iff.2 (by decide +kernel)
  obtain ⟨-, hnarrow, hmsgpack, -, hlimits⟩ := layers_agree [wide, narrow] r
  obtain ⟨-, hwide, hbson, -, -⟩ := layers_agree [narrow, wide] r
  obtain ⟨-, hown, -⟩ := layers_agree [] r
  have htooLarge : nested [wide, narrow] (Request.extract · text) r = .error e :=
    ((hnarrow text).2.1 e).2 rfl
  obtain ⟨-, hresponse, hproblem⟩ := (hnarrow text).2.2 e htooLarge
  refine ⟨htooLarge, hresponse, hproblem, ?_, ?_, haccepts, ?_, ?_, hlimits⟩
  · exact ((hwide text).2.1 _).2 rfl
  · exact ((hown text).2.1 _).2 rfl
  · exact (hmsgpack _ haccepts).trans (by decide +kernel)
  · exact (hbson _ haccepts).trans (by decide +kernel)

end Conneg
