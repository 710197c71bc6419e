import Conneg.Codec.Error
import Conneg.Text.Fields

/-!
# Resolving a content type

A content type is a media type, perhaps with parameters after a semicolon. Only
the media type counts: white space around it is dropped, and it names a format
when it equals the format's token up to the case of ASCII letters.
-/

namespace Conneg

/-- The media type of a content type: the text before the first semicolon,
trimmed. -/
def essence (cs : List Char) : List Char := Text.trim (Text.before ';' cs)

namespace Format

/-- The format with this token, up to the case of ASCII letters. -/
def ofToken? (cs : List Char) : Option Format :=
  all.find? fun f => Text.sameIgnoringCase cs f.token.toList

/-- The format that a content type names. -/
def ofContentType? (cs : List Char) : Option Format := ofToken? (essence cs)

/-- The format that a content type names, or an error that carries the raw
text. -/
def ofContentType (raw : String) : Except CodingError Format :=
  match ofContentType? raw.toList with
  | some f => .ok f
  | none => .error (.unsupported raw)

/-- The format that a plain text stands for. It is read as a content type is. -/
def ofText (text : String) : Except CodingError Format := ofContentType text

/-- A format's own token resolves to it. -/
theorem ofToken?_token (f : Format) : ofToken? f.token.toList = some f := by
  cases f <;> decide

example : ofContentType? "\u00a0Application/JSON ; charset=utf-8; x".toList = some .json := by
  decide
example : ofContentType? "application/jsonx".toList = none := by decide
example : ofContentType? ";application/json".toList = none := by decide

end Format
end Conneg
