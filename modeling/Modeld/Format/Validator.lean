import Modeld.Core.Digest
import Modeld.Host.LittleEndian

/-!
# Which files are accepted

The check of a file's extension, and the detector that tells a format by the first bytes of a
stream. The detector reads once, into a buffer of 16 bytes, and knows only what that read returned.
-/

namespace Modeld

open Host

/-- Banned file extensions known to contain arbitrary executable bytecode. -/
def BANNED_EXTENSIONS : List String := ["pt", "bin", "pkl", "pickle", "joblib"]

/-- Recognized safe format headers. -/
inductive SafeFormat
  | gguf
  | safeTensors
  | onnx
deriving DecidableEq

/-- `validate_file_safety`. -/
def validateFileSafety (path : Path) : Except ModeldError Unit :=
  match path.getLast?.bind fun name => Text.extension name.text with
  | some ext =>
    if Text.toLowercase ext ∈ BANNED_EXTENSIONS then
      .error (.securityRejection ("File extension '." ++ ext ++
        "' may contain unsafe Python pickle bytecode"))
    else .ok ()
  | none => .ok ()

/-- The longest JSON header that the detector and the parser accept. -/
def MAX_SAFETENSORS_HEADER : Nat := 8 * 1024 * 1024

/-- The bytes of structure and white space that the detector lists: braces, quote, colon, comma, space, tab,
line feed, carriage return, brackets, and `. - + _ / \`. -/
def jsonHeadBytes : Bytes :=
  [0x7b, 0x7d, 0x22, 0x3a, 0x2c, 0x20, 0x09, 0x0a, 0x0d, 0x5b, 0x5d, 0x2e, 0x2d, 0x2b, 0x5f, 0x2f,
    0x5c]

/-- A byte that JSON text may hold as far as the detector can tell. -/
def isJsonHeadByte (b : UInt8) : Bool := b ∈ jsonHeadBytes || !(b ≤ 0x1f || b = 0x7f)

/-- `looks_like_safetensors_json_head`. -/
def looksLikeSafetensorsJsonHead (bytes : Bytes) : Bool := bytes.all isJsonHeadByte

/-- The start of a GGUF file. -/
def GGUF_MAGIC : Bytes := [0x47, 0x47, 0x55, 0x46]

/-- The start of a zip archive. -/
def ZIP_MAGIC : Bytes := [0x50, 0x4b, 0x03, 0x04]

/-- Python pickle protocol opcodes: `0x80` and then `0x02` to `0x05`. -/
def isPickleHead : Bytes → Bool
  | b0 :: b1 :: _ => b0 = 0x80 && 2 ≤ b1 && b1 ≤ 5
  | _ => false

/-- The start of a SafeTensors file: the length of the JSON text, and the text as far as it was
read. -/
def isSafetensorsHead (head : Bytes) : Bool :=
  9 ≤ head.length && 8 ≤ ofLe (head.take 8) && ofLe (head.take 8) ≤ MAX_SAFETENSORS_HEADER &&
    head[8]? = some 0x7b && looksLikeSafetensorsJsonHead (head.drop 8)

/-- `detect_safe_format`, on what its one read returned. -/
def detectSafeFormat (head : Bytes) : Except ModeldError SafeFormat :=
  if head.length < 4 then
    .error (.invalidFormat "Stream too short for header")
  else if head.take 4 = GGUF_MAGIC then
    .ok .gguf
  else if isPickleHead head then
    .error (.securityRejection "Detected Python pickle protocol header opcode")
  else if head.take 4 = ZIP_MAGIC then
    .error (.securityRejection "Detected PyTorch PK zip header containing pickle bytecode")
  else if isSafetensorsHead head then
    .ok .safeTensors
  else if head.head? = some 0x08 then
    .ok .onnx
  else
    .error (.invalidFormat "Unrecognized or unsupported model format header")

end Modeld
