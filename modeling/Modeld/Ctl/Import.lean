import Modeld.Core.Store
import Modeld.Core.Tags
import Modeld.Format.Validator

/-!
# Importing a file

`run_import` stores a local file unless the detector refuses it as unsafe, and names it if asked.
-/

namespace Modeld

open Host

/-- How a file is read piece by piece. -/
structure Chunking where
  split : Bytes → Reader
  content_split : ∀ bytes, (split bytes).content = .ok bytes

/-- A file as a stream, once it has been read or not. -/
def Chunking.reader (chunking : Chunking) : Except IoError Bytes → Reader
  | .ok bytes => chunking.split bytes
  | .error e => [.error e]

/-- The part of `run_import` behind the checks. -/
def storeImport (sha : Sha256) (cas : CasStore) (tags : TagRegistry) (pid : Pid)
    (reader : Reader) (tag : Option String) : Io (Except ModeldError Unit) := do
  match ← cas.storeBlob sha pid reader none with
  | .error e => return .error e
  | .ok (digest, _) =>
    match tag with
    | none => return .ok ()
    | some t =>
      let (name, variant) := (Text.splitOnce ':' t).getD (t, "latest")
      tags.setTag name variant digest

/-- What the detector says about an open file, when it refuses it as unsafe. -/
def refusal : Except IoError Bytes → Option String
  | .error _ => none
  | .ok bytes =>
    match detectSafeFormat (bytes.take 16) with
    | .error (.securityRejection reason) => some reason
    | _ => none

/-- `run_import`. -/
def runImport (sha : Sha256) (chunking : Chunking) (storageRoot : Path) (pid : Pid) (source : Path)
    (tag : Option String) : Io (Except String Unit) := do
  if !(← isFile source) then
    return .error ("Source file not found: " ++ Text.debug ("/" ++ "/".intercalate
      (source.map Name.text)))
  match validateFileSafety source with
  | .error e => return .error e.toText
  | .ok () =>
    match ← CasStore.new storageRoot with
    | .error e => return .error e.toText
    | .ok cas =>
      match ← TagRegistry.new storageRoot with
      | .error e => return .error e.toText
      | .ok tags =>
        match ← openFile source with
        | .error e => return .error e.text
        | .ok file =>
          match refusal (← read file) with
          | some reason => return .error ("Security rejection: " ++ reason)
          | none =>
            match ← storeImport sha cas tags pid (chunking.reader (← read file)) tag with
            | .error e => return .error e.toText
            | .ok () => return .ok ()

end Modeld
