import Conneg.Proofs.Exchange.Problem
import Conneg.Proofs.Text.Quoted

/-!
# What an error response says

An error response is one JSON object of two texts, and its bytes are known up to the two
(`problem_eq`). Whatever characters the texts hold, a reader of JSON gets both back, also one
that knows nothing of error responses (`decode_any_problem`).

The message for a content type that names no format holds the raw text in quotes. It went
through two escapes, that of the quotes and that of JSON, and each can be undone. So a client
learns exactly what was refused, and two raw texts never get the same response.
-/

namespace Conneg

namespace ExchangeError

/-- What an error response says, as a value of no fixed type. -/
def report (e : ExchangeError) : Any :=
  .object [("code", .text e.code), ("message", .text e.publicMessage)]

/-- The JSON object of a code and a message that are JSON themselves, without blanks. -/
def document (code message : Bytes) : Bytes :=
  Utf8.encode "\x7b\"code\":" ++ code ++ Utf8.encode ",\"message\":" ++ message ++
    Utf8.encode "\x7d"

/-- An object of two texts is printed with their raw bytes between quotes. -/
theorem printNode_pair (key raw key' raw' : Bytes) :
    Json.printNode (.map (.ofList [(.scalar (.text key), .scalar (.text raw)),
        (.scalar (.text key'), .scalar (.text raw'))]))
      = 0x7B :: 0x22 :: key ++ 0x22 :: 0x3A :: (Json.Atom.text raw).print
          ++ 0x2C :: 0x22 :: key' ++ 0x22 :: 0x3A :: (Json.Atom.text raw').print ++ [0x7D] := by
  simp [Json.printNode, Wire.Entries.ofList, Json.printEntries, Json.Atom.print]

theorem problem_eq (e : ExchangeError) :
    e.problem = document (Json.Atom.text (Json.Quoting.encode e.code)).print
      (Json.Atom.text (Json.Quoting.encode e.publicMessage)).print := by
  have hwritten : Json.encode (.record problemFields) (e.code, e.publicMessage, ())
      = some (Json.printNode (.map (.ofList
          [(.scalar (.text (Json.Quoting.encode "code")),
            .scalar (.text (Json.Quoting.encode e.code))),
          (.scalar (.text (Json.Quoting.encode "message")),
            .scalar (.text (Json.Quoting.encode e.publicMessage)))]))) := rfl
  have hopen : Utf8.encode "\x7b\"code\":"
      = 0x7B :: 0x22 :: Json.Quoting.encode "code" ++ [0x22, 0x3A] := by decide
  have hnext : Utf8.encode ",\"message\":"
      = 0x2C :: 0x22 :: Json.Quoting.encode "message" ++ [0x22, 0x3A] := by decide
  have hclose : Utf8.encode "\x7d" = [0x7D] := by decide
  rw [problem, hwritten, Option.getD_some, printNode_pair, document, hopen, hnext, hclose]
  simp only [List.append_assoc, List.cons_append, List.nil_append]

/-- The body of an error response is what its report is written as. -/
theorem encode_report (e : ExchangeError) : Json.encode .any e.report = some e.problem := by
  have hsame : Json.encode .any e.report
      = Json.encode (.record problemFields) (e.code, e.publicMessage, ()) := rfl
  rw [hsame]
  exact Format.json_encode_eq_ok.1 (problem_kept e).1

/-- An error response is read by a reader that expects no fixed type. -/
theorem decode_any_problem (e : ExchangeError) :
    Format.json.decode .any e.problem = .ok e.report := by
  have hkeys : (["code", "message"] : List String).Nodup := by decide
  have hlead : some "code" ≠ some Any.rawKey := by decide
  have hexact : Body.value.Exact e.report :=
    ⟨⟨hkeys, trivial, trivial, trivial⟩, ⟨hlead, trivial, trivial, trivial⟩, (by decide : 1 ≤ 127)⟩
  refine Format.json_decode_eq_ok.2 ?_
  exact Json.decode_encode (fun _ => False.elim) (fun _ => False.elim) Body.value.isRegular_schema
    hexact.proper (fun t ht => hexact.depth_le ht) (encode_report e)

/-- Errors with the same response have the same code and show the same message. -/
theorem shown_of_toResponse_eq {e e' : ExchangeError} (h : e.toResponse = e'.toResponse) :
    e.code = e'.code ∧ e.publicMessage = e'.publicMessage := by
  have hbody : e.problem = e'.problem := congrArg Response.body h
  have hread := (problem_kept e).2
  rw [hbody, (problem_kept e').2] at hread
  obtain ⟨hcode, hrest⟩ := Prod.mk.inj (Except.ok.inj hread)
  exact ⟨hcode.symm, (Prod.mk.inj hrest).1.symm⟩

/-- Content types that name no format are told apart by the responses to them. -/
theorem raw_of_toResponse_eq {raw raw' : String}
    (h : (ExchangeError.coding (.unsupported raw)).toResponse
      = (ExchangeError.coding (.unsupported raw')).toResponse) : raw = raw' := by
  have hmessage : "unsupported content-type: " ++ Text.quoted raw
      = "unsupported content-type: " ++ Text.quoted raw' := (shown_of_toResponse_eq h).2
  have hlist := congrArg String.toList hmessage
  rw [String.toList_append, String.toList_append] at hlist
  exact Text.quoted_injective (String.toList_inj.1 (List.append_cancel_left hlist))

end ExchangeError

/-- **An error response is read back without loss.** It has the status of the error, no header
but its content type, and for its body the JSON object of the code and the message for clients,
in this order and without blanks. A reader of JSON gets both back exactly, and for a client's
mistake the message is the whole text of the error. Where a content type names no format, the
message is a fixed beginning and the raw text in quotes, which can be unquoted, whatever
follows the quotes: so two raw texts never get the same response. -/
theorem errorResponse_lossless :
    (∀ e : ExchangeError,
      e.toResponse.status = e.status ∧
      e.toResponse.headers.fields = [("content-type", Utf8.encode "application/json")] ∧
      (∃ code message : Bytes,
        Format.json.encode .text e.code = .ok code ∧
        Format.json.encode .text e.publicMessage = .ok message ∧
        e.toResponse.body = Utf8.encode "\x7b\"code\":" ++ code ++
          Utf8.encode ",\"message\":" ++ message ++ Utf8.encode "\x7d") ∧
      Format.json.decode (.record problemFields) e.toResponse.body
        = .ok (e.code, e.publicMessage, ()) ∧
      Format.json.decode .any e.toResponse.body
        = .ok (.object [("code", .text e.code), ("message", .text e.publicMessage)]) ∧
      (e.status < 500 → e.publicMessage = e.message)) ∧
    (∀ raw : String,
      (ExchangeError.coding (.unsupported raw)).publicMessage
        = "unsupported content-type: " ++ Text.quoted raw ∧
      Text.unquote? (Text.quoted raw) = some raw ∧
      ∀ rest, Text.readQuoted? ((Text.quoted raw).toList ++ rest) = some (raw, rest)) ∧
    ∀ raw raw' : String, raw ≠ raw' →
      Text.quoted raw ≠ Text.quoted raw' ∧
      (ExchangeError.coding (.unsupported raw)).toResponse
        ≠ (ExchangeError.coding (.unsupported raw')).toResponse := by
  refine ⟨?response, ?message, ?distinct⟩
  case response =>
    intro e
    exact ⟨rfl, rfl, ⟨_, _, rfl, rfl, ExchangeError.problem_eq e⟩,
      (ExchangeError.problem_kept e).2, ExchangeError.decode_any_problem e,
      ExchangeError.publicMessage_of_clientError⟩
  case message =>
    intro raw
    exact ⟨rfl, Text.unquote?_quoted raw, Text.readQuoted?_append raw⟩
  case distinct =>
    intro raw raw' hne
    exact ⟨fun h => hne (Text.quoted_injective h),
      fun h => hne (ExchangeError.raw_of_toResponse_eq h)⟩

/-- A quote, a backslash, a NUL, a combining accent and a letter outside of the first plane;
and a text that spells the escapes of the first two. -/
theorem errorResponse_lossless_escapes :
    let raw := "\"\\\x00\u0301𝕏"
    let raw' := "\\\"\\\\\x00\u0301𝕏"
    let e : ExchangeError := .coding (.unsupported raw)
    let e' : ExchangeError := .coding (.unsupported raw')
    e.status < 500 ∧ raw ≠ raw' ∧
      Text.quoted raw = "\"\\\"\\\\\\0\\u\x7b301\x7d𝕏\"" ∧
      e.message = "unsupported content-type: \"\\\"\\\\\\0\\u\x7b301\x7d𝕏\"" ∧
      Format.json.decode (.record problemFields) e.toResponse.body
        = .ok ("unsupported_content_type", e.message, ()) ∧
      Text.unquote? (Text.quoted raw) = some raw ∧ e.toResponse ≠ e'.toResponse := by
  intro raw raw' e e'
  have hquoted : Text.quoted raw = "\"\\\"\\\\\\0\\u\x7b301\x7d𝕏\"" := by decide +kernel
  have hne : raw ≠ raw' := by decide
  obtain ⟨hresponse, hmessage, hdistinct⟩ := errorResponse_lossless
  obtain ⟨-, -, -, hdecode, -, hpublic⟩ := hresponse e
  rw [hpublic (by decide)] at hdecode
  have hshown : e.message
      = "unsupported content-type: \"\\\"\\\\\\0\\u\x7b301\x7d𝕏\"" := by
    show "unsupported content-type: " ++ Text.quoted raw = _
    rw [hquoted]
    decide
  exact ⟨by decide, hne, hquoted, hshown, hdecode, (hmessage raw).2.1, (hdistinct raw raw' hne).2⟩

end Conneg
