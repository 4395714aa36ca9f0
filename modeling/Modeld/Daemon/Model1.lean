import Modeld.Daemon.Register
import Modeld.Daemon.Service

/-!
# `io.syntrop.Model1`

The handlers of the model interface, and the dispatch of a call.
-/

namespace Modeld

open Host

/-- The format of a blob, as `handle_list` finds it. -/
def listFormat (cas : CasStore) (digest : String) : Io String := do
  match ← cas.openBlob digest with
  | .ok file => return formatName (← detectFile file).toOption
  | .error _ => return "gguf"

/-- One entry of the list. -/
def listEntry (ctx : ModelServiceContext) (tag : ModelTag) : Io Json := do
  let size ← sizeOrZero ctx.cas tag.digest
  let pinned ← ctx.eviction.isPinned tag.digest
  let format ← listFormat ctx.cas tag.digest
  return .object [
    ("id", .str (tag.name ++ ":" ++ tag.tag)),
    ("digest", .str tag.digest),
    ("name", .str tag.name),
    ("tag", .str tag.tag),
    ("size_bytes", .ofNat size),
    ("pinned", .bool pinned),
    ("format", .str format)]

/-- The entries of the list. -/
def listEntries (ctx : ModelServiceContext) : List ModelTag → Io (List Json)
  | [] => return []
  | tag :: tags => do
    let entry ← listEntry ctx tag
    return entry :: (← listEntries ctx tags)

/-- `handle_list`. -/
def handleList (ctx : ModelServiceContext) : Io VarlinkReply := do
  let entries ← listEntries ctx ((← ctx.tags.listTags).toOption.getD [])
  return .ok (.object [("models", .arr entries)])

/-- `handle_pin` and `handle_unpin`: an operation on the digest that an identifier resolves to. -/
def handleDigest {α : Type} (operation : EvictionManager → String → Io (Except ModeldError α))
    (params : Option Json) (ctx : ModelServiceContext) : Io VarlinkReply := do
  match textParam params "id" with
  | none => return .err "io.syntrop.Model1.InvalidIdentifier" none
  | some id =>
    match ← resolveDigest ctx.tags id with
    | .ok digest =>
      match ← operation ctx.eviction digest with
      | .ok _ => return .ok (.object [])
      | .error e => return operationFailed e
    | outcome => return unresolved id outcome

/-- `handle_pin`. -/
def handlePin : Option Json → ModelServiceContext → Io VarlinkReply := handleDigest EvictionManager.pin

/-- `handle_unpin`. -/
def handleUnpin : Option Json → ModelServiceContext → Io VarlinkReply :=
  handleDigest EvictionManager.unpin

/-- The quota that the parameters ask for, zero when there is none. -/
def maxBytesParam (params : Option Json) : Nat :=
  ((params.bind fun p => p.get "max_bytes").bind Json.asU64).getD 0

/-- `handle_prune`. -/
def handlePrune (params : Option Json) (ctx : ModelServiceContext) : Io VarlinkReply := do
  if maxBytesParam params = 0 then
    return invalidParameter "max_bytes" "max_bytes must be greater than zero"
  else
    match ← ctx.eviction.prune ctx.cas (maxBytesParam params) with
    | .ok reclaimed => return .ok (.object [("reclaimed_bytes", .ofNat reclaimed)])
    | .error e => return operationFailed e

/-- What `handle_get_storage_stats` has counted so far. -/
structure StorageStats where
  visitedInodes : List Ino
  totalBytes : Nat
  modelCount : Nat

/-- A file counts unless its inode was counted already. -/
def countEntry (found : StorageStats) (e : DirEntry) : StorageStats :=
  if e.metadata.isFile && !(e.metadata.ino ∈ found.visitedInodes) then
    { visitedInodes := e.metadata.ino :: found.visitedInodes
      totalBytes := u64 (found.totalBytes + e.metadata.len)
      modelCount := found.modelCount + 1 }
  else found

/-- The names of flat files. -/
def isFlatName (name : String) : Bool :=
  Text.startsWith name "sha256-" && (Text.endsWith name ".gguf" || Text.endsWith name ".safetensors")

/-- The two directory walks of `handle_get_storage_stats`. A directory that cannot be read is left
out. -/
def storageStats (cas : CasStore) : Io StorageStats := do
  let blobs := (← readDir cas.blobsDir).toOption.getD []
  let flats := (← readDir cas.casDir).toOption.getD []
  let found := blobs.foldl countEntry ⟨[], 0, 0⟩
  return (flats.filter fun e => isFlatName e.name.text).foldl countEntry found

/-- `handle_get_storage_stats`. -/
def handleGetStorageStats (ctx : ModelServiceContext) : Io VarlinkReply := do
  let stats ← storageStats ctx.cas
  let pinned := (← ctx.eviction.listPinned).toOption.getD []
  return .ok (.object [
    ("total_bytes", .ofNat stats.totalBytes),
    ("model_count", .ofNat stats.modelCount),
    ("pinned_count", .ofNat pinned.length)])

/-- `handle_model1_call`. -/
def handleModel1Call (json : JsonLibrary) (method : String) (params : Option Json)
    (ctx : ModelServiceContext) : Option (Io VarlinkReply) :=
  if method = "io.syntrop.Model1.List" then some (handleList ctx)
  else if method = "io.syntrop.Model1.Inspect" then some (handleInspect json params ctx)
  else if method = "io.syntrop.Model1.Register" then some (handleRegister json params ctx)
  else if method = "io.syntrop.Model1.Pin" then some (handlePin params ctx)
  else if method = "io.syntrop.Model1.Unpin" then some (handleUnpin params ctx)
  else if method = "io.syntrop.Model1.Prune" then some (handlePrune params ctx)
  else if method = "io.syntrop.Model1.GetStorageStats" then some (handleGetStorageStats ctx)
  else none

/-- `dispatch_call`. -/
def dispatchCall (json : JsonLibrary) (call : VarlinkCall) (ctx : ModelServiceContext) :
    Io VarlinkReply :=
  match handleServiceCall call.method call.parameters with
  | some reply => return reply
  | none =>
    match handleModel1Call json call.method call.parameters ctx with
    | some reply => reply
    | none =>
      return .err "org.varlink.service.MethodNotFound" (some (.object [("method", .str call.method)]))

end Modeld
