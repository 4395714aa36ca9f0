import Modeld.Core.Eviction
import Modeld.Core.Tags
import Modeld.Daemon.Protocol
import Modeld.Format.Gguf
import Modeld.Format.Safetensors

/-!
# Looking up a model

Identifiers are resolved by the tag registry. What `Inspect` and `Register` report about a blob is
read from the blob itself.
-/

namespace Modeld

open Host

/-- Context holding shared storage references for Varlink method execution. -/
structure ModelServiceContext where
  cas : CasStore
  tags : TagRegistry
  eviction : EvictionManager

/-- Distinguishes the three outcomes of resolving a user-supplied identifier. -/
inductive ResolveOutcome
  | ok (digest : String)
  | invalid
  | notFound
deriving DecidableEq

/-- `resolve_digest`. -/
def resolveDigest (tags : TagRegistry) (id : String) : Io ResolveOutcome := do
  match ← tags.resolve id with
  | .ok (some d) => return .ok d
  | .ok none => return .notFound
  | .error _ => return .invalid

/-- What the daemon calls the format of a blob. -/
def formatName (format : Option SafeFormat) : String :=
  if format = some .safeTensors then "safetensors" else "gguf"

/-- `detect_safe_format` on an open file. -/
def detectFile (file : Ino) : Io (Except ModeldError SafeFormat) := do
  match ← read file with
  | .error e => return .error (.io e)
  | .ok bytes => return detectSafeFormat (bytes.take 16)

/-- A parser on an open file, from its start. -/
def parseFile {α : Type} (parse : Bytes → Except ModeldError α) (file : Ino) :
    Io (Except ModeldError α) := do
  match ← read file with
  | .error e => return .error (.io e)
  | .ok bytes => return parse bytes

/-- What is reported about a SafeTensors file. -/
def SafeTensorsMetadata.summary (found : SafeTensorsMetadata) : String :=
  "architecture: " ++ found.architecture.getD "unknown" ++ ", parameter_count: " ++
    toString found.parameterCount ++ ", tensor_count: " ++ toString found.tensorCount

/-- The number of parameters that a GGUF file names, or of its tensors. -/
def GgufMetadata.parameterCount (found : GgufMetadata) : String :=
  ((found.attributes.lookup "general.parameter_count").or
    (found.architecture.bind fun a => found.attributes.lookup (a ++ ".parameter_count"))).getD
    (toString found.tensorCount)

/-- What is reported about a GGUF file. -/
def GgufMetadata.summary (found : GgufMetadata) : String :=
  "architecture: " ++ found.architecture.getD "unknown" ++ ", parameter_count: " ++
    found.parameterCount ++ ", context_length: " ++
    ((found.contextLength.map toString).getD "unknown")

/-- What is reported when a blob cannot be read or parsed. -/
def digestText (digest : String) : String := "Digest: " ++ digest

/-- What is reported about an open blob of a known format. -/
def describeFile (json : JsonLibrary) (digest : String) (format : Option SafeFormat) (file : Ino) :
    Io String := do
  if format = some .safeTensors then
    match ← parseFile (parseSafetensorsHeader json) file with
    | .ok found => return found.summary
    | .error _ => return digestText digest
  else
    match ← parseFile parseGgufHeader file with
    | .ok found => return found.summary
    | .error _ => return digestText digest

/-- The size of a blob, or zero. -/
def sizeOrZero (cas : CasStore) (digest : String) : Io Nat := do
  match ← cas.blobSize digest with
  | .ok size => return size
  | .error _ => return 0

/-- The format and the description of a blob, as `handle_inspect` finds them. -/
def inspectBlob (json : JsonLibrary) (cas : CasStore) (digest : String) : Io (String × String) := do
  match ← cas.openBlob digest with
  | .error _ => return ("gguf", digestText digest)
  | .ok file =>
    let format := (← detectFile file).toOption
    return (formatName format, ← describeFile json digest format file)

/-- What an identifier that does not resolve is answered with. -/
def unresolved (id : String) : ResolveOutcome → VarlinkReply
  | .notFound => .err "io.syntrop.Model1.NoSuchModel" (some (.object [("id", .str id)]))
  | _ => .err "io.syntrop.Model1.InvalidIdentifier" (some (.object [("id", .str id)]))

/-- `handle_inspect`. -/
def handleInspect (json : JsonLibrary) (params : Option Json) (ctx : ModelServiceContext) :
    Io VarlinkReply := do
  match textParam params "id" with
  | none => return .err "io.syntrop.Model1.InvalidIdentifier" none
  | some id =>
    match ← resolveDigest ctx.tags id with
    | .ok digest =>
      let size ← sizeOrZero ctx.cas digest
      let pinned ← ctx.eviction.isPinned digest
      let (format, description) ← inspectBlob json ctx.cas digest
      return .ok (.object [
        ("info", .object [
          ("id", .str id),
          ("digest", .str digest),
          ("size_bytes", .ofNat size),
          ("pinned", .bool pinned),
          ("format", .str format)]),
        ("metadata", .str description)])
    | outcome => return unresolved id outcome

end Modeld
