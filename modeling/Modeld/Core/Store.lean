import Modeld.Core.Digest
import Modeld.Host.Call

/-!
# The content-addressed store

`CasStore` as programs over the calls of a file system, one call of the model for one call of the
source. A blob has three possible places, tried in order: `cas/blobs/sha256/<d>`,
`cas/sha256-<d>.gguf` and `cas/sha256-<d>.safetensors`.
-/

namespace Modeld

open Host

/-- Primary manager for Content-Addressable Storage blobs on host filesystem. -/
structure CasStore where
  rootDir : Path

/-- The number of a process. -/
abbrev Pid := Nat

/-- What each `read` of a stream returns, in order. An empty chunk, like the end of the list, is the
end of the stream. -/
abbrev Reader := List (Except IoError Bytes)

/-- The content of a stream, up to its end or to the first failed read. -/
def Reader.content : Reader → Except IoError Bytes
  | [] => .ok []
  | .error e :: _ => .error e
  | .ok chunk :: reader =>
    if chunk = [] then .ok []
    else (Reader.content reader).map (chunk ++ ·)

namespace CasStore

/-- `CasStore::cas_dir`. -/
def casDir (s : CasStore) : Path := s.rootDir.join "cas"

/-- `CasStore::blobs_dir`. -/
def blobsDir (s : CasStore) : Path := ((s.rootDir.join "cas").join "blobs").join "sha256"

/-- `CasStore::incoming_dir`. -/
def incomingDir (s : CasStore) : Path := (s.rootDir.join "cas").join "incoming"

/-- `CasStore::new`. -/
def new (root : Path) : Io (Except ModeldError CasStore) := do
  let store : CasStore := ⟨root⟩
  match ← createDirAll store.blobsDir with
  | .error e => return .error (.io e)
  | .ok () =>
    match ← createDirAll store.incomingDir with
    | .error e => return .error (.io e)
    | .ok () => return .ok store

/-- The flat place of a blob committed as GGUF. -/
def flatGguf (s : CasStore) (digest : String) : Path :=
  s.casDir.join ("sha256-" ++ digest ++ ".gguf")

/-- The flat place of a blob committed as SafeTensors. -/
def flatSt (s : CasStore) (digest : String) : Path :=
  s.casDir.join ("sha256-" ++ digest ++ ".safetensors")

/-- `CasStore::blob_path`. -/
def blobPath (s : CasStore) (digest : String) : Io Path := do
  let standard := s.blobsDir.join digest
  if ← isFile standard then
    return standard
  if ← isFile (s.flatGguf digest) then
    return s.flatGguf digest
  if ← isFile (s.flatSt digest) then
    return s.flatSt digest
  return standard

/-- `CasStore::has_blob`. -/
def hasBlob (s : CasStore) (digest : String) : Io Bool := do
  isFile (← s.blobPath digest)

/-- `CasStore::open_blob`. -/
def openBlob (s : CasStore) (digest : String) : Io (Except ModeldError Ino) := do
  let path ← s.blobPath digest
  if !(← isFile path) then
    return .error (.notFound digest)
  match ← openFile path with
  | .error e => return .error (.io e)
  | .ok file => return .ok file

/-- `CasStore::blob_size`. -/
def blobSize (s : CasStore) (digest : String) : Io (Except ModeldError Nat) := do
  let path ← s.blobPath digest
  match ← metadata path with
  | .error _ => return .error (.notFound digest)
  | .ok found => return .ok found.len

/-- `stage_nonce`. Each process has a counter of its own. -/
def stageNonce (pid : Pid) : Io String := do
  let counter ← fetchAdd pid
  return Text.hex pid ++ "-" ++ Text.hex counter

/-- The loop of `store_blob`: `hashed` is what the hasher has been given so far, and the staging
file stands at the end of it. -/
def storeLoop (file : Ino) : Reader → (hashed : Bytes) → (totalBytes : Nat) →
    Io (Except ModeldError (Bytes × Nat))
  | [], hashed, total => return .ok (hashed, total)
  | .error e :: _, _, _ => return .error (.io e)
  | .ok chunk :: reader, hashed, total => do
    if chunk = [] then
      return .ok (hashed, total)
    match ← writeAt file hashed.length chunk with
    | .error e => return .error (.io e)
    | .ok () => storeLoop file reader (hashed ++ chunk) (total + chunk.length)

/-- The expected digest, trimmed, when the computed one does not match it. -/
def mismatch (computedDigest : String) : Option String → Option String
  | some expected =>
    if Text.eqIgnoreAsciiCase computedDigest (Text.trim expected) then none
    else some (Text.trim expected)
  | none => none

/-- What `store_blob` does once the stream is staged. -/
def storeStaged (s : CasStore) (tempPath : Path) (computedDigest : String) (totalBytes : Nat)
    (expectedDigest : Option String) : Io (Except ModeldError (String × Nat)) := do
  match mismatch computedDigest expectedDigest with
  | some expected =>
    let _ ← removeFile tempPath
    return .error (.digestMismatch expected computedDigest)
  | none =>
    let targetPath ← s.blobPath computedDigest
    match ← rename tempPath targetPath with
    | .error e => return .error (.io e)
    | .ok () => return .ok (computedDigest, totalBytes)

/-- `CasStore::store_blob`. -/
def storeBlob (sha : Sha256) (s : CasStore) (pid : Pid) (reader : Reader)
    (expectedDigest : Option String) : Io (Except ModeldError (String × Nat)) := do
  let nonce ← stageNonce pid
  let tempPath := s.incomingDir.join ("stage-" ++ nonce)
  match ← create tempPath with
  | .error e => return .error (.io e)
  | .ok file =>
    match ← storeLoop file reader [] 0 with
    | .error e => return .error e
    | .ok (hashed, total) => s.storeStaged tempPath (sha.hash hashed) total expectedDigest

end CasStore

end Modeld
