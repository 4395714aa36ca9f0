import Modeld.Ctl.Pull

/-!
# Resolving a model

Before a pull downloads anything it finds out what: a name of the table of aliases or a repository of
the hub, which of the files listed there, and under which name and tag the file will be stored. What
the hub answers is given.
-/

namespace Modeld

open Host

/-- `ModelAlias`. -/
structure ModelAlias where
  aliasSpec : String
  repo : String
  file : String
  name : String
  tag : String

/-- `ALIASES`. -/
def aliases : List ModelAlias :=
  [⟨"qwen2.5:0.5b", "Qwen/Qwen2.5-0.5B-Instruct-GGUF", "qwen2.5-0.5b-instruct-q4_k_m.gguf",
      "qwen2.5", "0.5b"⟩,
    ⟨"qwen2.5:1.5b", "Qwen/Qwen2.5-1.5B-Instruct-GGUF", "qwen2.5-1.5b-instruct-q4_k_m.gguf",
      "qwen2.5", "1.5b"⟩,
    ⟨"llama3.2:1b", "bartowski/Llama-3.2-1B-Instruct-GGUF", "Llama-3.2-1B-Instruct-Q4_K_M.gguf",
      "llama3.2", "1b"⟩,
    ⟨"smollm2:360m", "HuggingFaceTB/SmolLM2-360M-Instruct-GGUF",
      "smollm2-360m-instruct-q4_k_m.gguf", "smollm2", "360m"⟩,
    ⟨"gemma4:e2b", "bartowski/gemma-2-2b-it-GGUF", "gemma-2-2b-it-Q4_K_M.gguf", "gemma4", "e2b"⟩,
    ⟨"qwen2.5-coder:1.5b", "Qwen/Qwen2.5-Coder-1.5B-Instruct-GGUF",
      "qwen2.5-coder-1.5b-instruct-q4_k_m.gguf", "qwen2.5-coder", "1.5b"⟩,
    ⟨"qwen2.5-coder:7b", "Qwen/Qwen2.5-Coder-7B-Instruct-GGUF",
      "qwen2.5-coder-7b-instruct-q4_k_m.gguf", "qwen2.5-coder", "7b"⟩]

/-- `find_alias`. -/
def findAlias (spec : String) : Option ModelAlias :=
  aliases.find? fun a => Text.eqIgnoreAsciiCase a.aliasSpec spec

/-! ### Selecting a file -/

/-- `matches_quant_strict`. -/
def matchesQuantStrict (fileUpper qUpper : String) : Bool :=
  Text.endsWith fileUpper ("-" ++ qUpper ++ ".GGUF") ||
  Text.endsWith fileUpper ("_" ++ qUpper ++ ".GGUF") ||
  Text.endsWith fileUpper ("." ++ qUpper ++ ".GGUF")

/-- The character is a delimiter, or there is none. -/
def isBoundary : Option Char → Bool
  | none => true
  | some c => c = '-' || c = '_' || c = '.'

/-- The search of `matches_quant_delimited` from where the text goes on as given, `prev` being the
character before. It goes on one byte behind the start of what it found, so it panics where that is
in the middle of a character or behind the end. -/
def searchDelimited (q : List Char) (prev : Option Char) : List Char → Except String Bool
  | [] =>
    if q = [] then
      if isBoundary prev then .ok true else .error "byte index is out of bounds"
    else .ok false
  | c :: rest =>
    if q <+: c :: rest then
      if isBoundary prev && isBoundary ((c :: rest).drop q.length).head? then .ok true
      else if c.toNat < 128 then searchDelimited q (some c) rest
      else .error "byte index is not a char boundary"
    else searchDelimited q (some c) rest

/-- A file in `BF16` that does not offer `F16` as well. -/
def isBf16Only (fileUpper qUpper : String) : Bool :=
  qUpper = "F16" && Text.contains fileUpper "BF16" && !Text.contains fileUpper "-F16"

/-- `matches_quant_delimited`. -/
def matchesQuantDelimited (fileUpper qUpper : String) : Except String Bool :=
  if isBf16Only fileUpper qUpper then .ok false
  else searchDelimited qUpper.toList none fileUpper.toList

/-- The preferred quantizations, when none was asked for. -/
def preferredQuants : List String := ["Q4_K_M", "Q4_0", "Q8_0", "F16"]

/-- `select_file` for a quantization. -/
def selectQuant (files : List String) (q : String) : Except String String := do
  let qUpper := Text.toAsciiUppercase q
  match files.find? fun f => matchesQuantStrict (Text.toAsciiUppercase f) qUpper with
  | some found => return found
  | none =>
    match ← files.findM? fun f => matchesQuantDelimited (Text.toAsciiUppercase f) qUpper with
    | some found => return found
    | none =>
      match files.find? fun f => !isBf16Only (Text.toAsciiUppercase f) qUpper &&
          Text.contains (Text.toAsciiUppercase f) qUpper with
      | some found => return found
      | none =>
        .error ("No file matching quantization '" ++ q ++ "' found. Available: " ++
          ", ".intercalate files)

/-- `select_file` without a quantization. -/
def selectPreferred (files : List String) (first : String) : Except String String := do
  match preferredQuants.findSome? fun q =>
      files.find? fun f => matchesQuantStrict (Text.toAsciiUppercase f) q with
  | some found => return found
  | none =>
    match ← preferredQuants.findSomeM? fun q =>
        files.findM? fun f => matchesQuantDelimited (Text.toAsciiUppercase f) q with
    | some found => return found
    | none => return first

/-- `select_file`. -/
def selectFile (files : List String) (format : String) (quant : Option String) :
    Except String String :=
  match files with
  | [] => .error "No matching files found for selection"
  | first :: _ =>
    if format = "safetensors" then .ok ((files.find? (· = "model.safetensors")).getD first)
    else
      match quant with
      | some q => selectQuant files q
      | none => selectPreferred files first

/-! ### Repositories of the hub -/

/-- `HfTreeEntry`. -/
structure HfTreeEntry where
  path : String
  type : String
deriving DecidableEq

/-- The entry is a file with that ending. -/
def HfTreeEntry.isFileWith (ending : String) (e : HfTreeEntry) : Bool :=
  e.type = "file" && Text.endsWith e.path ending

/-- What the hub answers when it is asked for the files of a repository: the entries, or why there
are none. -/
structure HfHub where
  tree : (repo : String) → Except String (List HfTreeEntry)

/-- `ResolvedModel`. -/
structure ResolvedModel where
  downloadUrl : String
  filename : String
  name : String
  tag : String
  format : String
  tokenizerUrl : Option String

/-- The URL of a file of a repository. -/
def fileUrl (repo file : String) : String :=
  "https://huggingface.co/" ++ repo ++ "/resolve/main/" ++ file

/-- The files of a repository that a pull in SafeTensors can choose from. -/
def safetensorsFiles (repo : String) (entries : List HfTreeEntry) : Except String (List String) :=
  let stFiles := (entries.filter (·.isFileWith ".safetensors")).map (·.path)
  let hasShards := stFiles.any fun f => Text.contains f "-of-" || Text.contains f ".part"
  if hasShards || (decide (1 < stFiles.length) && !stFiles.any (· = "model.safetensors")) then
    .error ("Sharded Safetensors model detected in '" ++ repo ++ "' (found " ++
      toString stFiles.length ++ " shards: " ++ ", ".intercalate stFiles ++
      "). Sharded weights are not supported for single-stream pull. " ++
      "Please choose an unsharded model or a GGUF quant.")
  else if stFiles = [] then
    .error ("No .safetensors files found in repository '" ++ repo ++ "'")
  else .ok stFiles

/-- The files of a repository that a pull in GGUF can choose from. -/
def ggufFiles (repo : String) (entries : List HfTreeEntry) : Except String (List String) :=
  let files := (entries.filter (·.isFileWith ".gguf")).map (·.path)
  if files = [] then .error ("No .gguf files found in repository '" ++ repo ++ "'")
  else .ok files

/-- `resolve_hf_repo`. -/
def resolveHfRepo (hub : HfHub) (repo format : String) (quant tagOverride : Option String) :
    Except String ResolvedModel := do
  let entries ← hub.tree repo
  let isSafetensors := Text.eqIgnoreAsciiCase format "safetensors"
  let matchedFiles ←
    if isSafetensors then safetensorsFiles repo entries else ggufFiles repo entries
  let selected ← selectFile matchedFiles format quant
  let defaultName := Text.replaceChar (Text.toAsciiLowercase (Text.lastPiece '/' repo)) '_' "-"
  let defaultTag :=
    if isSafetensors then "latest" else Text.toAsciiLowercase (quant.getD "latest")
  let (name, tag) := parseTagOverride defaultName defaultTag tagOverride
  return {
    downloadUrl := fileUrl repo selected
    filename := selected
    name := name
    tag := tag
    format := if isSafetensors then "safetensors" else "gguf"
    tokenizerUrl :=
      if isSafetensors && entries.any (fun e => e.type = "file" && e.path = "tokenizer.json") then
        some (fileUrl repo "tokenizer.json")
      else none }

/-- `resolve_model_with_format`. -/
def resolveModelWithFormat (hub : HfHub) (modelSpec format : String)
    (quant tagOverride : Option String) : Except String ResolvedModel :=
  let spec := Text.trim modelSpec
  let fmt := Text.toAsciiLowercase format
  match if fmt = "gguf" then findAlias spec else none with
  | some a =>
    if quant.isNone then
      let (name, tag) := parseTagOverride a.name a.tag tagOverride
      .ok ⟨fileUrl a.repo a.file, a.file, name, tag, "gguf", none⟩
    else resolveHfRepo hub a.repo fmt quant tagOverride
  | none =>
    if spec.toList.contains '/' then resolveHfRepo hub spec fmt quant tagOverride
    else .error ("Unknown model alias '" ++ spec ++ "'. Known aliases: " ++
      ", ".intercalate (aliases.map (·.aliasSpec)))

/-! ### The whole pull -/

/-- What a pull is asked for, and what it meets. -/
structure PullRequest where
  storageRoot : Path
  modelSpec : String
  format : String
  quant : Option String
  tagOverride : Option String
  force : Bool
  hub : HfHub
  /-- The body of the reply to a request for a file, or why there is none. -/
  response : (url : String) → Except String (List (Except String Bytes))
  /-- The companion tokenizer, when it could be downloaded. -/
  tokenizer : (url : String) → Option Bytes
  pid : Pid
  seq : Nat
  nanos : Nat

namespace PullRequest

/-- What is to be pulled. -/
def resolve (r : PullRequest) : Except String ResolvedModel :=
  resolveModelWithFormat r.hub r.modelSpec r.format r.quant r.tagOverride

/-- The pull of a resolved model. -/
def pull (r : PullRequest) (m : ResolvedModel) : Pull where
  storageRoot := r.storageRoot
  name := m.name
  tag := m.tag
  format := m.format
  force := r.force
  response := r.response m.downloadUrl
  tokenizer := m.tokenizerUrl.bind r.tokenizer
  pid := r.pid
  seq := r.seq
  nanos := r.nanos

/-- `run_pull`, from the resolution on. -/
def run (sha : Sha256) (r : PullRequest) : Io (Except String Unit) :=
  match r.resolve with
  | .error e => return .error e
  | .ok m => runPull sha (r.pull m)

end PullRequest

end Modeld
