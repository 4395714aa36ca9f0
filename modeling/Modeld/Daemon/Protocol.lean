import Modeld.Host.Json

/-!
# Varlink calls and replies
-/

namespace Modeld

open Host

/-- An incoming Varlink method invocation. -/
structure VarlinkCall where
  method : String
  parameters : Option Json
  more : Option Bool

/-- An outgoing Varlink reply envelope. -/
structure VarlinkReply where
  parameters : Option Json
  error : Option String
  continues : Option Bool

namespace VarlinkReply

/-- Creates a successful method reply. -/
def ok (parameters : Json) : VarlinkReply := ⟨some parameters, none, none⟩

/-- Creates an error reply with an optional diagnostic payload. -/
def err (error : String) (parameters : Option Json) : VarlinkReply := ⟨parameters, some error, none⟩

@[simp] theorem error_ok (parameters : Json) : (ok parameters).error = none := rfl

@[simp] theorem error_err (error : String) (parameters : Option Json) :
    (err error parameters).error = some error := rfl

/-- The fields that are written: those that have a value. -/
def fields (reply : VarlinkReply) : List (String × Json) :=
  (reply.parameters.map fun p => ("parameters", p)).toList ++
    (reply.error.map fun e => ("error", Json.str e)).toList ++
    (reply.continues.map fun c => ("continues", Json.bool c)).toList

/-- The reply as JSON text. Writing these values does not fail. -/
def text (floatText : UInt64 → String) (reply : VarlinkReply) : String :=
  (Json.obj reply.fields).text floatText

/-- Serializes the reply to NUL-terminated JSON bytes for the wire. -/
def toBytes (floatText : UInt64 → String) (reply : VarlinkReply) : Bytes :=
  Text.toBytes (reply.text floatText) ++ [0x00]

/-- The only zero byte of a reply is its terminator. -/
theorem zero_not_mem_text {floatText : UInt64 → String} (hfloat : Json.NulFree floatText)
    (reply : VarlinkReply) : 0 ∉ Text.toBytes (reply.text floatText) :=
  Text.zero_not_mem_toBytes (Json.nul_not_mem_text hfloat _)

end VarlinkReply

/-- The parameter of a call that is text, `params.get(name).as_str()`. -/
def textParam (params : Option Json) (name : String) : Option String :=
  (params.bind fun p => p.get name).bind Json.asStr

end Modeld
