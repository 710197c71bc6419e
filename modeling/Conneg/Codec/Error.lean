import Conneg.Format
import Conneg.Number.Natural
import Conneg.Text.Quoted

/-!
# Errors of naming and coding a format

Three things can go wrong between a header or a body and a value: the header
names no known format, the body cannot be read, the value cannot be written. The
last two say in which format, and why.

A cause is a `Fault`. A body that is malformed, or holds the wrong kind of value, is
only `unreadable`: its message is one fixed placeholder, so that no answer depends on
how far a reader got. The faults of a record that is well formed but does not fit are
named.
-/

namespace Conneg

/-! ## Causes -/

/-- The cause of a failed reading or writing. -/
inductive Fault
  /-- The bytes break the format, or hold a value of the wrong kind. -/
  | unreadable
  /-- The value has no form in the format. -/
  | unwritable
  /-- A record ended without this field. -/
  | missingField (name : String)
  /-- A record gave this field twice. -/
  | duplicateField (name : String)
  /-- A choice named none of its cases. -/
  | unknownCase
  /-- Bytes were left after the value. -/
  | trailingBytes (count : Nat)
  /-- A cause described in words from elsewhere. -/
  | described (text : String)
  deriving DecidableEq, Repr

/-- The text of a fault. -/
def Fault.message : Fault → String
  | .unreadable => "<diagnostic>"
  | .unwritable => "<diagnostic>"
  | .missingField name => "missing field \x60" ++ name ++ "\x60"
  | .duplicateField name => "duplicate field \x60" ++ name ++ "\x60"
  | .unknownCase => "unknown variant"
  | .trailingBytes count => decimalText count ++ " trailing bytes after value"
  | .described text => text

/-! ## Errors -/

/-- An error of resolving a content type, reading a body or writing one. -/
inductive CodingError
  /-- The content type names no format; the raw text is kept unchanged. -/
  | unsupported (raw : String)
  /-- A body in this format could not be read. -/
  | reading (format : Format) (cause : Fault)
  /-- A value could not be written in this format. -/
  | writing (format : Format) (cause : Fault)
  deriving DecidableEq, Repr

namespace CodingError

/-- The text of the error. -/
def message : CodingError → String
  | .unsupported raw => "unsupported content-type: " ++ Text.quoted raw
  | .reading f cause => "failed to decode " ++ f.name ++ " body: " ++ cause.message
  | .writing f cause => "failed to encode " ++ f.name ++ " body: " ++ cause.message

/-- The raw content type, where that was the trouble. -/
def contentType? : CodingError → Option String
  | .unsupported raw => some raw
  | _ => none

/-- The format that was being read or written. -/
def format? : CodingError → Option Format
  | .unsupported _ => none
  | .reading f _ => some f
  | .writing f _ => some f

/-- The text of the underlying cause, where there is one. -/
def source? : CodingError → Option String
  | .unsupported _ => none
  | .reading _ cause => some cause.message
  | .writing _ cause => some cause.message

/-- Whether the content type named no format. -/
def isUnsupported : CodingError → Bool
  | .unsupported _ => true
  | _ => false

/-- Whether a body could not be read. -/
def isReading : CodingError → Bool
  | .reading _ _ => true
  | _ => false

/-- Whether a value could not be written. -/
def isWriting : CodingError → Bool
  | .writing _ _ => true
  | _ => false

end CodingError

end Conneg
