import Modeld.Core.PinSet
import Modeld.Core.TagMap
import Modeld.Daemon.FdHandoff
import Modeld.Host.Quota
import Modeld.Runs.Identifiers

/-!
# What the daemon is for

A catalogue: names for digests, a set of pinned digests, and contents, kept in the order in which they
were last stored. The methods of `io.syntrop.Model1`, the handoff of a content and `store_blob` are
functions on it, with no files and no directories in them.
-/

namespace Modeld

open Host

/-- Names for digests, pinned digests, and contents by digest, the one stored first in front. -/
structure Catalogue where
  tags : TagMap
  pins : PinSet
  blobs : List (String × Bytes)

namespace Catalogue

variable (c : Catalogue)

/-- The content of a digest. -/
def content (d : String) : Option Bytes := (c.blobs.find? (·.1 = d)).map (·.2)

/-- What an identifier stands for. -/
def resolve (id : String) : ResolveOutcome :=
  let s := Text.trim id
  if IsHex s then
    if IsDigest s then .ok s else .invalid
  else if IsTagged s then
    match c.tags.lookup (identifierParts s) with
    | some d => .ok d
    | none => .notFound
  else .invalid

/-! ### What is reported -/

/-- The size of a content, or zero. -/
def size (d : String) : Nat := ((c.content d).map List.length).getD 0

/-- What is reported about a content of a known format. -/
def describeBytes (json : JsonLibrary) (d : String) (format : Option SafeFormat) (x : Bytes) : String :=
  if format = some .safeTensors then
    match parseSafetensorsHeader json x with
    | .ok found => found.summary
    | .error _ => digestText d
  else
    match parseGgufHeader x with
    | .ok found => found.summary
    | .error _ => digestText d

/-- The format of a content. -/
def format (d : String) : String :=
  match c.content d with
  | some x => formatName (detectSafeFormat (x.take 16)).toOption
  | none => "gguf"

/-- The metadata of a content. -/
def description (json : JsonLibrary) (d : String) : String :=
  match c.content d with
  | some x => describeBytes json d (detectSafeFormat (x.take 16)).toOption x
  | none => digestText d

/-- Why a content is refused. -/
def refusal (d : String) : Option String :=
  match (c.content d).map fun x => detectSafeFormat (x.take 16) with
  | some (.error (.securityRejection reason)) => some reason
  | _ => none

/-- One entry of the list. -/
def entry (tag : ModelTag) : Json :=
  .object [
    ("id", .str (tag.name ++ ":" ++ tag.tag)),
    ("digest", .str tag.digest),
    ("name", .str tag.name),
    ("tag", .str tag.tag),
    ("size_bytes", .ofNat (c.size tag.digest)),
    ("pinned", .bool (decide (tag.digest ∈ c.pins))),
    ("format", .str (c.format tag.digest))]

/-! ### The methods -/

/-- `List`. -/
def list : VarlinkReply := .ok (.object [("models", .arr (c.tags.listing.map c.entry))])

/-- `Inspect`. -/
def inspect (json : JsonLibrary) (params : Option Json) : VarlinkReply :=
  match textParam params "id" with
  | none => .err "io.syntrop.Model1.InvalidIdentifier" none
  | some id =>
    match c.resolve id with
    | .ok d => .ok (.object [
        ("info", .object [
          ("id", .str id),
          ("digest", .str d),
          ("size_bytes", .ofNat (c.size d)),
          ("pinned", .bool (decide (d ∈ c.pins))),
          ("format", .str (c.format d))]),
        ("metadata", .str (c.description json d))])
    | outcome => unresolved id outcome

/-- `Pin` and `Unpin`: a change of the pins, at the digest that an identifier stands for. -/
def repin (change : String → PinSet → PinSet) (params : Option Json) : VarlinkReply × Catalogue :=
  match textParam params "id" with
  | none => (.err "io.syntrop.Model1.InvalidIdentifier" none, c)
  | some id =>
    match c.resolve id with
    | .ok d => (.ok (.object []), { c with pins := change d c.pins })
    | outcome => (unresolved id outcome, c)

/-- The digest that `Register` is asked for: the one given, or the one that the name and the tag
have. -/
def candidate (name tag : String) (digest : Option String) : Except VarlinkReply String :=
  match digest with
  | some d => .ok (Text.trim d)
  | none =>
    match c.resolve (name ++ ":" ++ tag) with
    | .ok d => .ok d
    | .notFound =>
      .error (.err "io.syntrop.Model1.NoSuchModel" (some (.object [("id", .str (name ++ ":" ++ tag))])))
    | .invalid => .error
        (.err "io.syntrop.Model1.InvalidIdentifier" (some (.object [("id", .str (name ++ ":" ++ tag))])))

/-- What `Register` replies once the tag is set. -/
def registered (json : JsonLibrary) (name tag d : String) : VarlinkReply :=
  match c.refusal d with
  | some reason => .err "io.syntrop.Model1.SecurityRejection" (some (.object [("reason", .str reason)]))
  | none => .ok (.object [("entry", c.entry ⟨name, tag, d⟩), ("metadata", .str (c.description json d))])

/-- `Register`, under a name and a tag that are valid. -/
def nameDigest (json : JsonLibrary) (name tag : String) (digest : Option String) :
    VarlinkReply × Catalogue :=
  match c.candidate name tag digest with
  | .error reply => (reply, c)
  | .ok x =>
    match validateDigestFormat (cleanDigest x) with
    | .error e => (invalidParameter "digest" e.toText, c)
    | .ok () =>
      let c' := { c with tags := c.tags.insert (name, tag) (cleanDigest x) }
      (c'.registered json name tag (cleanDigest x), c')

/-- `Register`. -/
def register (json : JsonLibrary) (params : Option Json) : VarlinkReply × Catalogue :=
  match registerId params with
  | none => (.err "io.syntrop.Model1.InvalidIdentifier" none, c)
  | some id =>
    let target := registerTarget id (textParam params "tag")
    match validateTagSegment target.1 with
    | .error e => (.err "io.syntrop.Model1.InvalidIdentifier"
        (some (.object [("id", .str id), ("reason", .str e.toText)])), c)
    | .ok _ =>
      match validateTagSegment target.2 with
      | .error e => (invalidParameter "tag" e.toText, c)
      | .ok _ => c.nameDigest json target.1 target.2 (textParam params "digest")

/-- The bytes that are stored. -/
def total : Nat := Quota.total (fun b : String × Bytes => b.2.length) c.blobs

/-- What is given up for a quota: of what is not pinned, as much as is needed, the least recently
stored first. -/
def surplus (max : Nat) : List (String × Bytes) :=
  Quota.shortest (fun b : String × Bytes => b.2.length) max c.total
    (c.blobs.filter fun b => decide (b.1 ∉ c.pins))

/-- `Prune`. -/
def prune (params : Option Json) : VarlinkReply × Catalogue :=
  let max := maxBytesParam params
  if max = 0 then (invalidParameter "max_bytes" "max_bytes must be greater than zero", c)
  else
    (.ok (.object [("reclaimed_bytes",
        .ofNat (Quota.total (fun b : String × Bytes => b.2.length) (c.surplus max)))]),
      { c with blobs := c.blobs.filter fun b => decide (b ∉ c.surplus max) })

/-- `GetStorageStats`. -/
def stats : VarlinkReply :=
  .ok (.object [
    ("total_bytes", .ofNat c.total),
    ("model_count", .ofNat c.blobs.length),
    ("pinned_count", .ofNat c.pins.card)])

/-- A call of any method. -/
def answer (json : JsonLibrary) (call : VarlinkCall) : VarlinkReply × Catalogue :=
  match handleServiceCall call.method call.parameters with
  | some reply => (reply, c)
  | none =>
    if call.method = "io.syntrop.Model1.List" then (c.list, c)
    else if call.method = "io.syntrop.Model1.Inspect" then (c.inspect json call.parameters, c)
    else if call.method = "io.syntrop.Model1.Register" then c.register json call.parameters
    else if call.method = "io.syntrop.Model1.Pin" then c.repin insert call.parameters
    else if call.method = "io.syntrop.Model1.Unpin" then c.repin (fun d s => s.erase d) call.parameters
    else if call.method = "io.syntrop.Model1.Prune" then c.prune call.parameters
    else if call.method = "io.syntrop.Model1.GetStorageStats" then (c.stats, c)
    else (.err "org.varlink.service.MethodNotFound"
      (some (.object [("method", .str call.method)])), c)

/-- `store_blob`. What is stored again counts as stored last. -/
def store (sha : Sha256) (reader : Reader) (expected : Option String) :
    Except ModeldError (String × Nat) × Catalogue :=
  match reader.content with
  | .error e => (.error (.io e), c)
  | .ok x =>
    match CasStore.mismatch (sha.hash x) expected with
    | some d => (.error (.digestMismatch d (sha.hash x)), c)
    | none => (.ok (sha.hash x, x.length),
        { c with blobs := c.blobs.filter (fun b => decide (b.1 ≠ sha.hash x)) ++ [(sha.hash x, x)] })

/-- A handoff. The connection is closed without a reply where there is none. -/
def handoff (request : Json) : Option FdReply :=
  let id := (textParam (some request) "id").getD ""
  match c.resolve id with
  | .ok d => (c.content d).map fun x => .descriptor id d x.length x
  | .notFound => some (.modelNotFound id)
  | .invalid => none

end Catalogue

/-! ### Runs -/

/-- What clients do. -/
inductive ClientEvent
  | call (call : VarlinkCall)
  | store (pid : Pid) (reader : Reader) (expected : Option String)
  | handoff (request : Json)

/-- What they get. -/
inductive ClientReply
  | call (reply : VarlinkReply)
  | store (result : Except ModeldError (String × Nat))
  | handoff (reply : Option FdReply)

/-- One event on the catalogue. -/
def Catalogue.step (inst : Installation) (c : Catalogue) : ClientEvent → ClientReply × Catalogue
  | .call call => ((.call (c.answer inst.json call).1), (c.answer inst.json call).2)
  | .store _ reader expected =>
    (.store (c.store inst.sha reader expected).1, (c.store inst.sha reader expected).2)
  | .handoff request => (.handoff (c.handoff request), c)

/-- A run of events on the catalogue. -/
def Catalogue.stepAll (inst : Installation) (c : Catalogue) :
    List ClientEvent → List ClientReply × Catalogue
  | [] => ([], c)
  | e :: events =>
    ((c.step inst e).1 :: ((c.step inst e).2.stepAll inst events).1,
      ((c.step inst e).2.stepAll inst events).2)

namespace ClientEvent

/-- What the daemon does. -/
def program (inst : Installation) : ClientEvent → Io ClientReply
  | .call request => do return .call (← dispatchCall inst.json request inst.ctx)
  | .store pid reader expected => do
    return .store (← inst.cas.storeBlob inst.sha pid reader expected)
  | .handoff request => do
    return .handoff (← handleFdRequest request inst.cas inst.ctx.tags).toOption

/-- A run of events. -/
def runAll (inst : Installation) (h : Fs) : List ClientEvent → List ClientReply × Fs
  | [] => ([], h)
  | e :: events =>
    let r := (e.program inst).run Fs.exec h
    (r.1 :: (runAll inst r.2 events).1, (runAll inst r.2 events).2)

/-- How many bytes an event may store. -/
def bytes : ClientEvent → Nat
  | .store _ reader _ => match reader.content with
    | .ok x => x.length
    | .error _ => 0
  | _ => 0

end ClientEvent

end Modeld
