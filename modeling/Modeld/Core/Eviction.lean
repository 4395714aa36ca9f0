import Mathlib
import Modeld.Core.Store

/-!
# Pins and eviction

A digest is pinned by an empty file of its name under `pinned/`. `prune` takes one listing of the
blobs and of the flat GGUF files, and walks it from the oldest entry on, removing what is not
pinned until its own count of bytes is within the quota.
-/

namespace Modeld

open Host

/-- Manages pinned model status and quota eviction. -/
structure EvictionManager where
  pinnedDir : Path

/-- A blob that `prune` found: its digest, size and time of modification. -/
structure Candidate where
  digest : String
  size : Nat
  modified : Nat
deriving DecidableEq

/-- What a 64-bit unsigned integer can hold. -/
def u64 (n : Nat) : Nat := n % 2 ^ 64

namespace EvictionManager

/-- `EvictionManager::new`. -/
def new (root : Path) : Io (Except ModeldError EvictionManager) := do
  let pinnedDir := root.join "pinned"
  match ← createDirAll pinnedDir with
  | .error e => return .error (.io e)
  | .ok () => return .ok ⟨pinnedDir⟩

/-- `EvictionManager::pin`. -/
def pin (m : EvictionManager) (digest : String) : Io (Except ModeldError Unit) := do
  match validateDigestFormat (Text.trim digest) with
  | .error e => return .error e
  | .ok () =>
    match ← create (m.pinnedDir.join (Text.trim digest)) with
    | .error e => return .error (.io e)
    | .ok _ => return .ok ()

/-- `EvictionManager::unpin`. -/
def unpin (m : EvictionManager) (digest : String) : Io (Except ModeldError Bool) := do
  match validateDigestFormat (Text.trim digest) with
  | .error e => return .error e
  | .ok () =>
    let pinFile := m.pinnedDir.join (Text.trim digest)
    if ← isFile pinFile then
      match ← removeFile pinFile with
      | .error e => return .error (.io e)
      | .ok () => return .ok true
    else
      return .ok false

/-- `EvictionManager::is_pinned`. -/
def isPinned (m : EvictionManager) (digest : String) : Io Bool := do
  if isDigestFormat (Text.trim digest) then
    isFile (m.pinnedDir.join (Text.trim digest))
  else
    return false

/-- `EvictionManager::list_pinned`. -/
def listPinned (m : EvictionManager) : Io (Except ModeldError (List String)) := do
  if !(← isDir m.pinnedDir) then
    return .ok []
  match ← readDir m.pinnedDir with
  | .error e => return .error (.io e)
  | .ok entries =>
    return .ok (((entries.filter (·.metadata.isFile)).map (·.name.text)).insertionSort (· ≤ ·))

/-- One entry of the blobs directory. -/
def scanBlob (found : List Candidate × Nat) (e : DirEntry) : List Candidate × Nat :=
  if e.metadata.isFile then
    (found.1 ++ [⟨e.name.text, e.metadata.len, e.metadata.modified⟩],
      u64 (found.2 + e.metadata.len))
  else found

/-- The digest in the name of a flat GGUF file. -/
def flatDigest (name : String) : Option String :=
  (Text.stripPrefix name "sha256-").bind fun rest => Text.stripSuffix rest ".gguf"

/-- One entry of the `cas` directory: a flat GGUF file counts unless its digest was found already. -/
def scanFlat (found : List Candidate × Nat) (e : DirEntry) : List Candidate × Nat :=
  match e.metadata.isFile, flatDigest e.name.text with
  | true, some digest =>
    if found.1.any (·.digest = digest) then found
    else (found.1 ++ [⟨digest, e.metadata.len, e.metadata.modified⟩],
      u64 (found.2 + e.metadata.len))
  | _, _ => found

/-- The entries of the blobs directory. -/
def listBlobs (cas : CasStore) : Io (Except IoError (List DirEntry)) := do
  if ← isDir cas.blobsDir then
    readDir cas.blobsDir
  else
    return .ok []

/-- The two directory walks of `prune`: what was found, and how many bytes it is. -/
def scan (cas : CasStore) : Io (Except ModeldError (List Candidate × Nat)) := do
  match ← listBlobs cas with
  | .error e => return .error (.io e)
  | .ok entries =>
    let found := entries.foldl scanBlob ([], 0)
    if ← isDir cas.casDir then
      match ← readDir cas.casDir with
      | .error _ => return .ok found
      | .ok entries => return .ok (entries.foldl scanFlat found)
    else
      return .ok found

/-- The removals of `prune`. -/
def evict (m : EvictionManager) (cas : CasStore) (maxBytes : Nat) :
    List Candidate → (currentTotal reclaimedBytes : Nat) → Io Nat
  | [], _, reclaimed => return reclaimed
  | b :: rest, total, reclaimed => do
    if total ≤ maxBytes then
      return reclaimed
    if ← m.isPinned b.digest then
      evict m cas maxBytes rest total reclaimed
    else
      let r1 ← removeFile (cas.blobsDir.join b.digest)
      let r2 ← removeFile (cas.flatGguf b.digest)
      if r1.isOk || r2.isOk then
        evict m cas maxBytes rest (total - b.size) (u64 (reclaimed + b.size))
      else
        evict m cas maxBytes rest total reclaimed

/-- Oldest first; entries of one time stay in the order in which they were found. -/
def byAge (blobs : List Candidate) : List Candidate :=
  blobs.insertionSort fun a b => a.modified ≤ b.modified

/-- `EvictionManager::prune`. -/
def prune (m : EvictionManager) (cas : CasStore) (maxBytes : Nat) :
    Io (Except ModeldError Nat) := do
  match ← scan cas with
  | .error e => return .error e
  | .ok (blobs, currentTotal) =>
    if currentTotal ≤ maxBytes then
      return .ok 0
    return .ok (← m.evict cas maxBytes (byAge blobs) currentTotal 0)

end EvictionManager

end Modeld
