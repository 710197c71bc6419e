/-!
# The three body formats

A body is written in one of three formats. Each has a short name and a media
type token; the token is what a `Content-Type` header says and what an `Accept`
header asks for. Distinct formats have distinct tokens.
-/

namespace Conneg

/-- A format of request and response bodies. -/
inductive Format
  | json
  | bson
  | msgpack
  deriving DecidableEq, Repr

namespace Format

/-- The formats, in order of preference. -/
def all : List Format := [.json, .bson, .msgpack]

/-- The format used where nothing says otherwise. -/
def preferred : Format := .json

/-- The short name of a format. -/
def name : Format → String
  | .json => "json"
  | .bson => "bson"
  | .msgpack => "msgpack"

/-- The media type token of a format. -/
def token : Format → String
  | .json => "application/json"
  | .bson => "application/x-bson"
  | .msgpack => "application/x-msgpack"

/-- The tokens of all formats, in their order. -/
def supportedTokens : List String := all.map token

/-- Every format is listed. -/
theorem mem_all (f : Format) : f ∈ all := by cases f <;> decide

/-- A token determines its format. -/
theorem token_injective {f g : Format} (h : f.token = g.token) : f = g := by
  cases f <;> cases g <;> simp_all [token]

end Format
end Conneg
