import Conneg.Accept.Quality
import Conneg.ContentType

/-!
# Choosing a response format

An `Accept` header is a list of entries between commas, and the first decisive
entry settles the format: a wildcard chooses the fallback, a recognised media
type its own format. Blank entries, entries that a quality value refuses and
unrecognised types decide nothing. Where no entry decides, the fallback is used.

Main statement: the decision over a list of entries is that of the first entry
that makes one (`choose_append`).
-/

namespace Conneg.Accept

/-- The quality text of an entry's parameters: what follows `q=` in the first
parameter that, trimmed, begins so. -/
def qualityText? (parameters : List Char) : Option (List Char) :=
  (Text.fieldsOf ';' parameters).findSome? fun p =>
    match Text.trim p with
    | 'q' :: '=' :: q => some q
    | _ => none

/-- Whether an entry's parameters refuse it. A quality text that is no number
refuses nothing. -/
def refused (parameters : List Char) : Bool :=
  match (qualityText? parameters).bind fun q => readQuality? (Text.trim q) with
  | some q => q.refuses
  | none => false

/-- Whether a media type leaves the choice of format open. -/
def isWildcard (media : List Char) : Bool :=
  media == "*/*".toList || Text.sameIgnoringCase media "application/*".toList

/-- The format that one entry decides on, if it decides. -/
def decide? (fallback : Format) (entry : List Char) : Option Format :=
  let entry := Text.trim entry
  if entry.isEmpty then none
  else if refused (Text.after ';' entry) then none
  else
    let media := essence entry
    if isWildcard media then some fallback else Format.ofContentType? media

/-- The format that the first decisive entry decides on. -/
def choose (fallback : Format) (entries : List (List Char)) : Format :=
  (entries.findSome? (decide? fallback)).getD fallback

/-- The entries of a header. -/
def entriesOf (accept : String) : List (List Char) := Text.fieldsOf ',' accept.toList

/-- The response format for an `Accept` header, or for none. -/
def negotiate (accept : Option String) (fallback : Format) : Format :=
  match accept with
  | none => fallback
  | some s => choose fallback (entriesOf s)

/-- Entries after a decisive one do not count, and entries before it that
decide nothing do not either. -/
theorem choose_append (fallback : Format) (a b : List (List Char)) :
    choose fallback (a ++ b)
      = match a.findSome? (decide? fallback) with
        | some f => f
        | none => choose fallback b := by
  simp only [choose, List.findSome?_append]
  cases a.findSome? (decide? fallback) <;> rfl

example : negotiate (some "text/html, application/x-bson;q=0.5") .json = .bson := by
  decide +kernel
example : negotiate (some "application/x-bson;q=0, */*") .msgpack = .msgpack := by decide +kernel

end Conneg.Accept
