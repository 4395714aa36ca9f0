import Modeld.Daemon.Inspect

/-!
# `Register`

Names a digest. The tag is written once the digest is known to be one; what the blob holds is looked
at afterwards.
-/

namespace Modeld

open Host

/-- The name and the tag that the parameters ask for. -/
def registerTarget (id : String) : Option String → String × String
  | some tag => (((Text.splitOnce ':' id).map (·.1)).getD id, Text.trim tag)
  | none => (Text.splitOnce ':' id).getD (id, "latest")

/-- A digest without what may stand before and after it, in lower case. -/
def cleanDigest (candidate : String) : String :=
  let d := ((Text.stripPrefix candidate "sha256:").or (Text.stripPrefix candidate "sha256-")).getD
    candidate
  let d := ((Text.stripSuffix d ".gguf").or (Text.stripSuffix d ".safetensors")).getD d
  Text.toAsciiLowercase d

/-- A refused parameter. -/
def invalidParameter (parameter reason : String) : VarlinkReply :=
  .err "io.syntrop.Model1.InvalidParameter"
    (some (.object [("parameter", .str parameter), ("reason", .str reason)]))

/-- A failed operation. -/
def operationFailed (e : ModeldError) : VarlinkReply :=
  .err "io.syntrop.Model1.OperationFailed" (some (.object [("reason", .str e.toText)]))

/-- The digest to register: the one given, or the one that the name and the tag have. -/
def digestCandidate (tags : TagRegistry) (name tag : String) (digest : Option String) :
    Io (Except VarlinkReply String) := do
  match digest with
  | some d => return .ok (Text.trim d)
  | none =>
    let resolveId := name ++ ":" ++ tag
    match ← tags.resolve resolveId with
    | .ok (some d) => return .ok d
    | .ok none =>
      return .error (.err "io.syntrop.Model1.NoSuchModel" (some (.object [("id", .str resolveId)])))
    | .error _ =>
      return .error
        (.err "io.syntrop.Model1.InvalidIdentifier" (some (.object [("id", .str resolveId)])))

/-- The format and the description of a blob, unless it is unsafe. -/
def registerBlob (json : JsonLibrary) (cas : CasStore) (digest : String) :
    Io (Except VarlinkReply (String × String)) := do
  match ← cas.openBlob digest with
  | .error _ => return .ok ("gguf", digestText digest)
  | .ok file =>
    match ← detectFile file with
    | .error (.securityRejection reason) =>
      return .error
        (.err "io.syntrop.Model1.SecurityRejection" (some (.object [("reason", .str reason)])))
    | detected =>
      let format := detected.toOption
      return .ok (formatName format, ← describeFile json digest format file)

/-- What follows the tag. -/
def describeEntry (json : JsonLibrary) (ctx : ModelServiceContext) (name tag digest : String) :
    Io VarlinkReply := do
  let size ← sizeOrZero ctx.cas digest
  let pinned ← ctx.eviction.isPinned digest
  match ← registerBlob json ctx.cas digest with
  | .error reply => return reply
  | .ok (format, description) =>
    return .ok (.object [
      ("entry", .object [
        ("id", .str (name ++ ":" ++ tag)),
        ("digest", .str digest),
        ("name", .str name),
        ("tag", .str tag),
        ("size_bytes", .ofNat size),
        ("pinned", .bool pinned),
        ("format", .str format)]),
      ("metadata", .str description)])

/-- What follows the checks of the name and the tag. -/
def registerDigest (json : JsonLibrary) (ctx : ModelServiceContext) (name tag : String)
    (digest : Option String) : Io VarlinkReply := do
  match ← digestCandidate ctx.tags name tag digest with
  | .error reply => return reply
  | .ok candidate =>
    match validateDigestFormat (cleanDigest candidate) with
    | .error e => return invalidParameter "digest" e.toText
    | .ok () =>
      match ← ctx.tags.setTag name tag (cleanDigest candidate) with
      | .error e => return operationFailed e
      | .ok () => describeEntry json ctx name tag (cleanDigest candidate)

/-- The identifier of a call, trimmed, unless there is nothing left of it. -/
def registerId (params : Option Json) : Option String :=
  ((textParam params "id").map Text.trim).filter (· ≠ "")

/-- `handle_register`. -/
def handleRegister (json : JsonLibrary) (params : Option Json) (ctx : ModelServiceContext) :
    Io VarlinkReply := do
  match registerId params with
  | none => return .err "io.syntrop.Model1.InvalidIdentifier" none
  | some id =>
    let (name, tag) := registerTarget id (textParam params "tag")
    match validateTagSegment name with
    | .error e =>
      return .err "io.syntrop.Model1.InvalidIdentifier"
        (some (.object [("id", .str id), ("reason", .str e.toText)]))
    | .ok _ =>
      match validateTagSegment tag with
      | .error e => return invalidParameter "tag" e.toText
      | .ok _ => registerDigest json ctx name tag (textParam params "digest")

end Modeld
