import Modeld.Core.StoreRun
import Modeld.Core.TagWrites
import Modeld.Runs.WrittenTags

/-!
# Imports that fail

An import stores its file before it looks at the tag. What it leaves behind when it fails is a blob
without a tag, or the staging file of a source that could not be read to its end.
-/

namespace Modeld

open Host Program

variable {root : Path} {h h₁ h₂ : Fs} {sha : Sha256} {chunking : Chunking} {pid : Pid} {source : Path}
  {tag : Option String} {failure : Option IoError} {α : Type}

/-! ### Files that cannot be read -/

/-- The answers where reading fails, if there is a failure. -/
def execReading (failure : Option IoError) : (o : Call) → Fs → Reply o × Fs
  | .read i, h => (match failure with
    | none => .ok (h.data i)
    | some e => .error e, h)
  | o, h => Fs.exec o h

/-- A call that does not read from a file. -/
def ReadsNoFile : Call → Prop
  | .read _ => False
  | _ => True

theorem run_execReading {p : Io α} (hp : Only ReadsNoFile p) (h : Fs) :
    p.run (execReading failure) h = p.run Fs.exec h := by
  induction p generalizing h with
  | done a => rfl
  | call o k ih =>
    rw [Only, keeps_call] at hp
    have hexec : execReading failure o h = Fs.exec o h := by
      cases o <;> first | exact hp.1.elim | rfl
    rw [run_call, run_call, hexec]
    exact ih _ (hp.2 _ trivial) _

theorem readsNoFile_storeImport {reader : Reader} :
    Only ReadsNoFile (storeImport sha ⟨root⟩ (TagRegistry.ofRoot root) pid reader tag) := by
  have hpath : ∀ d, IsDigest d → Only ReadsNoFile ((CasStore.mk root).blobPath d) := by
    intro d hd
    unfold CasStore.blobPath
    refine Only.perform trivial fun r => ?_
    split
    · exact only_done _
    refine Only.perform trivial fun r => ?_
    split
    · exact only_done _
    refine Only.perform trivial fun r => ?_
    split <;> exact only_done _
  refine (CasStore.keeps_storeBlob (N := fun _ _ => True) hpath trivial (fun _ => trivial)
    (fun _ _ _ _ _ => trivial) (fun _ => trivial) fun _ _ _ _ _ => trivial).bind fun r _ => ?_
  rcases r with e | ⟨digest, total⟩
  · exact only_done _
  cases tag with
  | none => exact only_done _
  | some t =>
    exact TagRegistry.only_setTag (fun _ => trivial) (fun _ _ => trivial) fun _ _ => trivial

/-! ### What may not change -/

/-- The blobs, the tags and the staging directory are the same. -/
structure SameSets (root : Path) (h h' : Fs) : Prop where
  blobs : ∀ d, IsDigest d → ((CasStore.mk root).Stored h' d ↔ (CasStore.mk root).Stored h d)
  tags : ∀ name tag, tagAt root h' name tag = tagAt root h name tag
  incoming : ∀ q, root ++ [Dir.cas, Dir.incoming] <+: q → h'.lookup q = h.lookup q ∧
    ∀ i, h.lookup q = some (.file i) → h'.data i = h.data i

theorem SameSets.refl : SameSets root h h := ⟨fun _ _ => Iff.rfl, fun _ _ => rfl, fun _ _ => ⟨rfl, fun _ _ => rfl⟩⟩

/-- The tag that is asked for can be written. -/
def CanTag (root : Path) (h : Fs) (t : String) : Prop :=
  ∃ ht : IsTagged t, Writable root h ⟨_, ht.isPlain_name⟩ ⟨_, ht.isPlain_tag⟩

/-- What the store leaves behind once the source was opened and not refused: the start of a staging
file, or a blob whose tag cannot be written. Where a staging file was left by an earlier process, it is
emptied or goes with the blob. -/
def StoreLeavesBehind (root : Path) (h : Fs) (sha : Sha256) (pid : Pid) (reading : Except IoError Bytes)
    (tag : Option String) : Prop :=
  h.lookup ((CasStore.mk root).nextStage pid h) ≠ some .dir ∧
  match reading with
  | .error _ => h.contents ((CasStore.mk root).nextStage pid h) ≠ some []
  | .ok bytes => (∃ t, tag = some t ∧ ¬ CanTag root h t) ∧
    (¬ (CasStore.mk root).Stored h (sha.hash bytes) ∨
      h.lookup ((CasStore.mk root).nextStage pid h) ≠ none)

/-! ### The store -/

/-- What an import leaves behind when it fails. -/
def LeavesBehind (root : Path) (h : Fs) (sha : Sha256) (pid : Pid) (source : Path) (tag : Option String)
    (failure : Option IoError) : Prop :=
  validateFileSafety source = .ok () ∧ ∃ i, h.fileAt source = some i ∧
    refusal (execReading failure (.read i) h).1 = none ∧
    StoreLeavesBehind root h sha pid (execReading failure (.read i) h).1 tag

/-- An import comes to nothing before the store, or is the store of what was read. -/
theorem run_runImport_cases (hw : WellFormed root h) :
    let r := (runImport sha chunking root pid source tag).run (execReading failure) h
    (r.2 = h ∧ ¬ LeavesBehind root h sha pid source tag failure) ∨
    ∃ reading, (∃ i, h.fileAt source = some i ∧ reading = (execReading failure (.read i) h).1) ∧
      refusal reading = none ∧ (LeavesBehind root h sha pid source tag failure ↔
        StoreLeavesBehind root h sha pid reading tag) ∧
      let stored := (storeImport sha ⟨root⟩ (TagRegistry.ofRoot root) pid (chunking.reader reading) tag).run
        Fs.exec h
      ((∃ e, r.1 = .error e) ↔ ∃ e, stored.1 = .error e) ∧ r.2 = stored.2 := by
  intro r
  have hnewCas : (CasStore.new root).run (execReading failure) h = (.ok ⟨root⟩, h) := by
    rw [run_execReading, CasStore.run_new hw]
    refine Only.perform trivial fun r => ?_
    rcases r with e | u
    · exact only_done _
    refine Only.perform trivial fun r => ?_
    cases r <;> exact only_done _
  have hnewTags : (TagRegistry.new root).run (execReading failure) h = (.ok (TagRegistry.ofRoot root), h) := by
    rw [run_execReading, TagRegistry.run_new hw]
    refine Only.perform trivial fun r => ?_
    cases r <;> exact only_done _
  have hfileAt : h.isFile source = true ↔ ∃ i, h.fileAt source = some i := by
    rw [Fs.isFile, Option.isSome_iff_exists]
  have hisFile : execReading failure (.isFile source) h = (h.isFile source, h) := rfl
  unfold r runImport
  rw [perform_bind, run_call, hisFile]
  cases hfile : h.isFile source with
  | false =>
    refine .inl ⟨rfl, ?_⟩
    rintro ⟨-, i, hi, -⟩
    rw [hfileAt.2 ⟨i, hi⟩] at hfile
    cases hfile
  | true =>
    obtain ⟨i, hi⟩ := hfileAt.1 hfile
    rw [if_neg (show ¬ (!true) = true by decide)]
    cases hsafe : validateFileSafety source with
    | error e =>
      refine .inl ⟨rfl, ?_⟩
      rintro ⟨hok, -⟩
      rw [hsafe] at hok
      cases hok
    | ok u =>
      have hopen : execReading failure (.openFile source) h = (.ok i, h) :=
        Prod.ext (CasStore.openFile_of_fileAt hi) rfl
      have hread : execReading failure (.read i) h = ((execReading failure (.read i) h).1, h) := rfl
      dsimp only
      rw [run_bind, hnewCas]
      dsimp only
      rw [run_bind, hnewTags]
      dsimp only
      rw [perform_bind, run_call, hopen]
      dsimp only
      rw [perform_bind, run_call, hread]
      have hleaves : LeavesBehind root h sha pid source tag failure ↔
          refusal (execReading failure (.read i) h).1 = none ∧
            StoreLeavesBehind root h sha pid (execReading failure (.read i) h).1 tag := by
        constructor
        · rintro ⟨-, j, hj, hstore⟩
          obtain rfl : i = j := Option.some.inj (hi.symm.trans hj)
          exact hstore
        · exact fun hstore => ⟨hsafe, i, hi, hstore⟩
      cases hrefusal : refusal (execReading failure (.read i) h).1 with
      | some reason =>
        refine .inl ⟨rfl, fun hbad => ?_⟩
        rw [hleaves, hrefusal] at hbad
        cases hbad.1
      | none =>
        refine .inr ⟨(execReading failure (.read i) h).1, ⟨i, hi, rfl⟩, hrefusal,
          hleaves.trans (and_iff_right hrefusal), ?_⟩
        dsimp only
        rw [perform_bind, run_call, hread, run_bind, run_execReading readsNoFile_storeImport]
        generalize (storeImport sha ⟨root⟩ (TagRegistry.ofRoot root) pid
          (chunking.reader (execReading failure (.read i) h).1) tag).run Fs.exec h = stored
        obtain ⟨result, h'⟩ := stored
        cases result with
        | error e => exact ⟨iff_of_true ⟨_, rfl⟩ ⟨_, rfl⟩, rfl⟩
        | ok u => exact ⟨iff_of_false (by rintro ⟨_, ⟨⟩⟩) (by rintro ⟨_, ⟨⟩⟩), rfl⟩

end Modeld
