import Modeld.Core.Store
import Modeld.Ctl.CommitArtifact

/-!
# Pulling a model

`run_pull` from the point where the model is resolved: it streams the download into a staging file
of its own, hashing as it goes, and commits the file. What the network does is given. The calls to
the daemon and the router at the end are calls of other programs and are left out.
-/

namespace Modeld

open Host

/-- `parse_tag_override`: what the option `--tag` makes of the name and the tag of a model. -/
def parseTagOverride (defaultName defaultTag : String) : Option String → String × String
  | none => (defaultName, defaultTag)
  | some overrideStr =>
    let t := Text.trim overrideStr
    match Text.splitOnce ':' t with
    | some (n, v) =>
      (if Text.trim n = "" then defaultName else Text.trim n,
        if Text.trim v = "" then defaultTag else Text.trim v)
    | none => if t ≠ "" then (defaultName, t) else (defaultName, defaultTag)

/-- What `run_pull` is given: the resolved model, what the server sends, and what tells its staging
file from others. -/
structure Pull where
  storageRoot : Path
  name : String
  tag : String
  format : String
  force : Bool
  /-- The chunks of the body, up to a failure of the network, or why there is no body. -/
  response : Except String (List (Except String Bytes))
  /-- The companion tokenizer, when there is one and it could be downloaded. -/
  tokenizer : Option Bytes
  pid : Pid
  seq : Nat
  nanos : Nat

namespace Pull

/-- `resolved.name` and `resolved.tag` as part of a file name. -/
def stageFilename (p : Pull) : String :=
  "pull-" ++ toString p.pid ++ "-" ++ Text.replaceChar p.name '/' "-" ++ "-" ++
    Text.replaceChar p.tag ':' "-" ++ "-" ++ toString p.seq ++ "-" ++ toString p.nanos

/-- The staging directory. -/
def incomingDir (p : Pull) : Path := (p.storageRoot.join "cas").join "incoming"

/-- The staging file. -/
def stagePath (p : Pull) : Path := p.incomingDir.join p.stageFilename

/-- What is committed once the download is complete. -/
def commit (p : Pull) (digest : String) : ArtifactCommit where
  storageRoot := p.storageRoot
  stagePath := p.stagePath
  digest := digest
  format := p.format
  name := p.name
  tag := p.tag

@[simp] theorem storageRoot_commit (p : Pull) (d : String) :
    (p.commit d).storageRoot = p.storageRoot := by rw [commit]

@[simp] theorem stagePath_commit (p : Pull) (d : String) :
    (p.commit d).stagePath = p.stagePath := by rw [commit]

@[simp] theorem digest_commit (p : Pull) (d : String) : (p.commit d).digest = d := by rw [commit]

/-- `fs::read_to_string(path).unwrap_or_default()`. -/
def readOrEmpty (path : Path) : Io String := do
  match ← openFile path with
  | .error _ => return ""
  | .ok file =>
    match ← read file with
    | .error _ => return ""
    | .ok bytes => return (Text.ofBytes? bytes).getD ""

/-- The file of the tag. -/
def tagFile (p : Pull) : Path := ((p.storageRoot.join "tags").join p.name).join p.tag

/-- The tag names a digest that is in the store. -/
def isPresent (p : Pull) : Io Bool := do
  if (← isFile p.tagFile) && !p.force then
    let digest := Text.trim (← readOrEmpty p.tagFile)
    if ← isFile (p.commit digest).casDest then
      return true
    isFile (p.commit digest).blobPath
  else
    return false

/-- The loop of the download: `hashed` is what the hasher has been given, and the file stands at
the end of it. -/
def downloadLoop (file : Ino) : List (Except String Bytes) → (hashed : Bytes) →
    Io (Except String Bytes)
  | [], hashed => return .ok hashed
  | .error _ :: _, _ => return .error "Network error during streaming download"
  | .ok chunk :: chunks, hashed => do
    match ← writeAt file hashed.length chunk with
    | .error e => return .error ("Disk write failure: " ++ e.text)
    | .ok () => downloadLoop file chunks (hashed ++ chunk)

/-- The download. When it fails, the staging file is removed. -/
def download (p : Pull) (chunks : List (Except String Bytes)) : Io (Except String Bytes) := do
  match ← create p.stagePath with
  | .error e =>
    return .error (ArtifactCommit.failure e "creating staging file at" p.stagePath
      ("Failed to create staging file at " ++ ArtifactCommit.display p.stagePath))
  | .ok file =>
    match ← downloadLoop file chunks [] with
    | .error e =>
      let _ ← removeFile p.stagePath
      return .error e
    | .ok bytes => return .ok bytes

/-- The commit of a complete download, and of the tokenizer. -/
def finish (sha : Sha256) (p : Pull) (bytes : Bytes) : Io (Except String Unit) := do
  match ← commitArtifact (p.commit (sha.hash bytes)) with
  | .error e => return .error e
  | .ok () =>
    match p.tokenizer with
    | none => return .ok ()
    | some data =>
      let _ ← commitTokenizer p.storageRoot p.name data
      return .ok ()

end Pull

/-- `run_pull`. -/
def runPull (sha : Sha256) (p : Pull) : Io (Except String Unit) := do
  if ← p.isPresent then
    return .ok ()
  match p.response with
  | .error e => return .error e
  | .ok chunks =>
    match ← createDirAll p.incomingDir with
    | .error e =>
      return .error (ArtifactCommit.failure e "creating incoming directory at" p.incomingDir
        ("Failed to create incoming directory at " ++ ArtifactCommit.display p.incomingDir))
    | .ok () =>
      match ← p.download chunks with
      | .error e => return .error e
      | .ok bytes => p.finish sha bytes

end Modeld
