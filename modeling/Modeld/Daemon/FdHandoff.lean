import Modeld.Core.Footprint
import Modeld.Daemon.Protocol

/-!
# Handing off descriptors

What `handle_fd_request` does with a request once the peer is authorized: it resolves the identifier
and copies the blob into a sealed descriptor. It reads the store and writes nothing.
-/

namespace Modeld

open Host Program

/-- What the peer is sent. -/
inductive FdReply
  /-- `{"error": "Model not found", "id": id}` -/
  | modelNotFound (id : String)
  /-- The payload, and what the sealed descriptor holds. -/
  | descriptor (id digest : String) (sizeBytes : Nat) (sealed : Bytes)

/-- `create_sealed_memfd_from_file`, up to the descriptor itself: the copy that it holds. -/
def createSealedMemfdFromFile (source : Ino) : Io (Except ModeldError Bytes) := do
  match ← read source with
  | .error e => return .error (.io e)
  | .ok bytes => return .ok bytes

/-- `handle_fd_request`, from the request on. -/
def handleFdRequest (request : Json) (cas : CasStore) (tags : TagRegistry) :
    Io (Except ModeldError FdReply) := do
  let id := (textParam (some request) "id").getD ""
  match ← tags.resolve id with
  | .error e => return .error e
  | .ok none => return .ok (.modelNotFound id)
  | .ok (some digest) =>
    match ← cas.blobSize digest with
    | .error e => return .error e
    | .ok size =>
      match ← cas.openBlob digest with
      | .error e => return .error e
      | .ok file =>
        match ← createSealedMemfdFromFile file with
        | .error e => return .error e
        | .ok bytes => return .ok (.descriptor id digest size bytes)

theorem only_createSealedMemfdFromFile {file : Ino} : Only Reads (createSealedMemfdFromFile file) := by
  refine Only.perform trivial fun r => ?_
  cases r <;> exact only_done _

/-- A handoff only reads. -/
theorem only_handleFdRequest {request : Json} {cas : CasStore} {tags : TagRegistry} :
    Only Reads (handleFdRequest request cas tags) := by
  refine TagRegistry.only_resolve.bind fun r => ?_
  rcases r with e | digest | digest
  · exact only_done _
  · exact only_done _
  refine (reads_of_looks CasStore.only_blobSize).bind fun r => ?_
  rcases r with e | size
  · exact only_done _
  refine CasStore.only_openBlob.bind fun r => ?_
  rcases r with e | file
  · exact only_done _
  refine only_createSealedMemfdFromFile.bind fun r => ?_
  cases r <;> exact only_done _

end Modeld
