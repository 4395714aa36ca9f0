import Mathlib
import Modeld.Core.Digest
import Modeld.Host.Call

/-!
# Tags

A tag is a file `tags/<name>/<tag>` that holds a digest. Names and tags become parts of paths only
after `validateTagSegment`.
-/

namespace Modeld

open Host

/-- Represents a model tag mapping to a cryptographic digest. -/
structure ModelTag where
  name : String
  tag : String
  digest : String
deriving DecidableEq

/-- The characters of a portable file name. -/
def isSegmentChar (c : Char) : Bool :=
  c.isAlphanum || c = '.' || c = '-' || c = '_' || c = '+'

/-- `validate_tag_segment`. -/
def validateTagSegment (segment : String) : Except ModeldError String :=
  if segment = "" then
    .error (.invalidFormat "tag name and variant must not be empty")
  else if segment = "." ∨ segment = ".." then
    .error (.invalidFormat ("tag segment '" ++ segment ++ "' is reserved"))
  else if segment.toList.any fun c => c = '/' || c = '\\' || c = '\x00' then
    .error (.invalidFormat ("tag segment '" ++ segment ++ "' contains forbidden characters"))
  else if !segment.toList.all isSegmentChar then
    .error (.invalidFormat ("tag segment '" ++ segment ++
      "' contains unsupported characters; allowed: [A-Za-z0-9._-+]"))
  else .ok segment

/-- Text that may be the name or the tag of a model. -/
def IsSegment (s : String) : Prop := PlainName s ∧ ∀ c ∈ s.toList, isSegmentChar c = true

instance (s : String) : Decidable (IsSegment s) :=
  @instDecidableAnd _ _ inferInstance (List.decidableBAll _ s.toList)

theorem validateTagSegment_eq_ok {s t : String} :
    validateTagSegment s = .ok t ↔ t = s ∧ IsSegment s := by
  have hslash : isSegmentChar '/' = false := by decide
  have hback : isSegmentChar '\\' = false := by decide
  have hnul : isSegmentChar '\x00' = false := by decide
  unfold validateTagSegment IsSegment PlainName
  split_ifs with h1 h2 h3 h4
  · simp [h1]
  · rcases h2 with h2 | h2 <;> simp [h2]
  · obtain ⟨c, hc, hbad⟩ := List.any_eq_true.1 h3
    have : isSegmentChar c = false := by
      simp only [Bool.or_eq_true, decide_eq_true_eq] at hbad
      rcases hbad with (rfl | rfl) | rfl
      · exact hslash
      · exact hback
      · exact hnul
    simp only [false_iff, not_and]
    rintro - - hall
    simp [hall c hc] at this
  · simp only [Bool.not_eq_true', List.all_eq_false] at h4
    obtain ⟨c, hc, hbad⟩ := h4
    simp only [false_iff, not_and]
    exact fun _ _ hall => hbad (hall c hc)
  · simp only [Bool.not_eq_true', Bool.not_eq_false, List.all_eq_true] at h4
    have hno : '/' ∉ s.toList := fun hmem => by simp [h4 _ hmem] at hslash
    simp only [Except.ok.injEq]
    push Not at h2
    exact ⟨fun h => ⟨h.symm, ⟨h1, h2.1, h2.2, hno⟩, h4⟩, fun h => h.1.symm⟩

/-- A refused segment is an invalid format. -/
theorem validateTagSegment_eq_error {s : String} {e : ModeldError} (h : validateTagSegment s = .error e) :
    ∃ msg, e = .invalidFormat msg := by
  unfold validateTagSegment at h
  split_ifs at h
  all_goals
    cases h
    exact ⟨_, rfl⟩

/-- The check either returns the segment or an error. -/
theorem validateTagSegment_cases (s : String) :
    (IsSegment s ∧ validateTagSegment s = .ok s) ∨
      (¬ IsSegment s ∧ ∃ msg, validateTagSegment s = .error (.invalidFormat msg)) := by
  rcases h : validateTagSegment s with e | t
  · obtain ⟨msg, rfl⟩ := validateTagSegment_eq_error h
    exact .inr ⟨fun hs => by simp [validateTagSegment_eq_ok.2 ⟨rfl, hs⟩] at h, msg, rfl⟩
  · obtain ⟨rfl, hs⟩ := validateTagSegment_eq_ok.1 h
    exact .inl ⟨hs, rfl⟩

/-- Tag registry manager. -/
structure TagRegistry where
  tagsDir : Path

namespace TagRegistry

/-- `TagRegistry::new`. -/
def new (root : Path) : Io (Except ModeldError TagRegistry) := do
  let tagsDir := root.join "tags"
  match ← createDirAll tagsDir with
  | .error e => return .error (.io e)
  | .ok () => return .ok ⟨tagsDir⟩

/-- The part of `set_tag` that writes, once everything is validated. -/
def writeTag (t : TagRegistry) (name tag digest : String) : Io (Except ModeldError Unit) := do
  let modelDir := t.tagsDir.join name
  match ← createDirAll modelDir with
  | .error e => return .error (.io e)
  | .ok () =>
    match ← create (modelDir.join tag) with
    | .error e => return .error (.io e)
    | .ok file =>
      match ← writeAt file 0 (Text.toBytes digest) with
      | .error e => return .error (.io e)
      | .ok () => return .ok ()

/-- `TagRegistry::set_tag`. -/
def setTag (t : TagRegistry) (name tag digest : String) : Io (Except ModeldError Unit) := do
  match validateTagSegment name with
  | .error e => return .error e
  | .ok safeName =>
    match validateTagSegment tag with
    | .error e => return .error e
    | .ok safeTag =>
      match validateDigestFormat (Text.trim digest) with
      | .error e => return .error e
      | .ok () => t.writeTag safeName safeTag (Text.trim digest)

/-- The part of `get_tag` that reads. -/
def readTag (tagFile : Path) : Io (Except ModeldError (Option String)) := do
  if !(← isFile tagFile) then
    return .ok none
  match ← openFile tagFile with
  | .error e => return .error (.io e)
  | .ok file =>
    match ← read file with
    | .error e => return .error (.io e)
    | .ok bytes =>
      match Text.ofBytes? bytes with
      | none => return .error (.io .invalidData)
      | some digest => return .ok (some (Text.trim digest))

/-- `TagRegistry::get_tag`. -/
def getTag (t : TagRegistry) (name tag : String) : Io (Except ModeldError (Option String)) := do
  match validateTagSegment name with
  | .error e => return .error e
  | .ok _ =>
    match validateTagSegment tag with
    | .error e => return .error e
    | .ok _ => readTag ((t.tagsDir.join name).join tag)

/-- `TagRegistry::remove_tag`. -/
def removeTag (t : TagRegistry) (name tag : String) : Io (Except ModeldError Bool) := do
  match validateTagSegment name with
  | .error e => return .error e
  | .ok _ =>
    match validateTagSegment tag with
    | .error e => return .error e
    | .ok _ =>
      let tagFile := (t.tagsDir.join name).join tag
      if ← isFile tagFile then
        match ← removeFile tagFile with
        | .error e => return .error (.io e)
        | .ok () => return .ok true
      else
        return .ok false

/-- The tags of one model directory. -/
def listModel (t : TagRegistry) (modelName : String) :
    List DirEntry → List ModelTag → Io (Except ModeldError (List ModelTag))
  | [], result => return .ok result
  | e :: entries, result => do
    if e.metadata.isFile then
      match ← t.getTag modelName e.name.text with
      | .error err => return .error err
      | .ok none => t.listModel modelName entries result
      | .ok (some digest) =>
        t.listModel modelName entries (result ++ [⟨modelName, e.name.text, digest⟩])
    else
      t.listModel modelName entries result

/-- The model directories. -/
def listModels (t : TagRegistry) :
    List DirEntry → List ModelTag → Io (Except ModeldError (List ModelTag))
  | [], result => return .ok result
  | e :: entries, result => do
    if e.metadata.isDir then
      match ← readDir (t.tagsDir ++ [e.name]) with
      | .error err => return .error (.io err)
      | .ok tagEntries =>
        match ← t.listModel e.name.text tagEntries result with
        | .error err => return .error err
        | .ok result => t.listModels entries result
    else
      t.listModels entries result

/-- `TagRegistry::list_tags`. -/
def listTags (t : TagRegistry) : Io (Except ModeldError (List ModelTag)) := do
  if !(← isDir t.tagsDir) then
    return .ok []
  match ← readDir t.tagsDir with
  | .error e => return .error (.io e)
  | .ok entries =>
    match ← t.listModels entries [] with
    | .error e => return .error e
    | .ok result =>
      return .ok (result.insertionSort fun a b => a.name < b.name ∨ (a.name = b.name ∧ a.tag ≤ b.tag))

/-- A hexadecimal digit of either case. -/
def isHexDigit (c : Char) : Bool := isDigestChar (Text.lowerAscii c)

/-- `TagRegistry::resolve`. -/
def resolve (t : TagRegistry) (identifier : String) : Io (Except ModeldError (Option String)) := do
  let trimmed := Text.trim identifier
  if trimmed.toList.length = 64 && trimmed.toList.all isHexDigit then
    match validateDigestFormat trimmed with
    | .error e => return .error e
    | .ok () => return .ok (some trimmed)
  let (name, tag) := (Text.splitOnce ':' trimmed).getD (trimmed, "latest")
  match validateTagSegment name with
  | .error e => return .error e
  | .ok _ =>
    match validateTagSegment tag with
    | .error e => return .error e
    | .ok _ => t.getTag name tag

end TagRegistry

end Modeld
