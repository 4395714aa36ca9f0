import Modeld.Core.Digest
import Modeld.Host.Call

/-!
# Committing a pulled model

`commit_artifact` moves a staged file to its flat place in the store, gives it its second name under
`blobs/sha256`, writes the tag, and links the model under `<root>/<ext>/`. It joins the model's
name and tag to paths as they are.
-/

namespace Modeld

open Host

/-- `ArtifactCommit`. -/
structure ArtifactCommit where
  storageRoot : Path
  stagePath : Path
  digest : String
  format : String
  name : String
  tag : String

namespace ArtifactCommit

/-- The extension that goes with a format. -/
def extOf (format : String) : String :=
  if Text.eqIgnoreAsciiCase format "safetensors" then "safetensors" else "gguf"

/-- The extension of the committed file. -/
def ext (c : ArtifactCommit) : String := extOf c.format

/-- Where the staged file goes. -/
def casDest (c : ArtifactCommit) : Path :=
  (c.storageRoot.join "cas").join ("sha256-" ++ c.digest ++ "." ++ c.ext)

/-- The directory of the second name. -/
def blobDir (c : ArtifactCommit) : Path :=
  ((c.storageRoot.join "cas").join "blobs").join "sha256"

/-- The second name. -/
def blobPath (c : ArtifactCommit) : Path := c.blobDir.join c.digest

/-- The directory of the tag. -/
def tagDir (c : ArtifactCommit) : Path := (c.storageRoot.join "tags").join c.name

/-- The directory of the links. -/
def fmtDir (c : ArtifactCommit) : Path := c.storageRoot.join c.ext

/-- A path as text. -/
def display (p : Path) : String := String.join (p.map fun n => "/" ++ n.text)

/-- The text of a failed call, which explains itself when permission was denied. -/
def failure (e : IoError) (doing : String) (p : Path) (otherwise : String) : String :=
  if e = .permissionDenied then
    "Permission denied " ++ doing ++ " " ++ display p ++
      ". Ensure your user belongs to the 'syntrop' group (try: newgrp syntrop) or re-run with sudo: "
      ++ e.text
  else otherwise ++ ": " ++ e.text

/-- Step 2: the second name. Failures are ignored. -/
def linkBlob (c : ArtifactCommit) : Io Unit := do
  if (← createDirAll c.blobDir).isOk then
    let _ ← removeFile c.blobPath
    if !(← hardLink c.casDest c.blobPath).isOk then
      let _ ← copy c.casDest c.blobPath

/-- Step 3: the tag. -/
def writeTag (c : ArtifactCommit) : Io (Except String Unit) := do
  match ← createDirAll c.tagDir with
  | .error e =>
    return .error (failure e "creating tags directory at" c.tagDir
      "Failed to create tags directory")
  | .ok () =>
    let tagFile := c.tagDir.join c.tag
    match ← write tagFile (Text.toBytes c.digest) with
    | .error e => return .error (failure e "writing tag file at" tagFile "Failed to write tag file")
    | .ok () => return .ok ()

/-- Replace a link. -/
def relink (target dest : Path) : Io Unit := do
  let _ ← removeFile dest
  let _ ← symlink target dest

/-- What the links point at. -/
def linkTarget (c : ArtifactCommit) : Io Path := do
  match ← canonicalize c.casDest with
  | .error _ => return c.casDest
  | .ok p => return p

/-- The link without a tag is made for the tag `latest`, and otherwise only when there is none. -/
def linkUntagged (c : ArtifactCommit) (target : Path) : Io Unit := do
  let symlinkDest := c.fmtDir.join (c.name ++ "." ++ c.ext)
  if c.tag = "latest" then
    relink target symlinkDest
  else if !(← pathExists symlinkDest) then
    relink target symlinkDest

/-- Step 4: the links. Failures to make a link are ignored. -/
def linkFormat (c : ArtifactCommit) : Io (Except String Unit) := do
  match ← createDirAll c.fmtDir with
  | .error e =>
    return .error (failure e ("creating " ++ c.ext ++ " directory at") c.fmtDir
      ("Failed to create " ++ c.ext ++ " directory"))
  | .ok () =>
    let target ← c.linkTarget
    c.linkUntagged target
    if c.tag ≠ "latest" then
      relink target (c.fmtDir.join (c.name ++ ":" ++ c.tag ++ "." ++ c.ext))
      relink target (c.fmtDir.join (c.name ++ "-" ++ c.tag ++ "." ++ c.ext))
    return .ok ()

/-- What follows the two steps in the store. -/
def afterStore (c : ArtifactCommit) : Io (Except String Unit) := do
  match ← c.writeTag with
  | .error e => return .error e
  | .ok () => c.linkFormat

end ArtifactCommit

/-- `commit_artifact`. -/
def commitArtifact (c : ArtifactCommit) : Io (Except String Unit) := do
  match ← rename c.stagePath c.casDest with
  | .error e =>
    return .error (ArtifactCommit.failure e "committing CAS artifact to" c.casDest
      "Failed to commit CAS artifact")
  | .ok () =>
    c.linkBlob
    c.afterStore

/-- `commit_tokenizer`. -/
def commitTokenizer (storageRoot : Path) (name : String) (data : Bytes) :
    Io (Except String Unit) := do
  let stDir := storageRoot.join "safetensors"
  match ← createDirAll stDir with
  | .error _ => return .error "Failed to create safetensors directory"
  | .ok () =>
    match ← write (stDir.join (name ++ ".tokenizer.json")) data with
    | .error _ => return .error "Failed to write companion tokenizer.json"
    | .ok () => return .ok ()

end Modeld
