import Modeld.Core.Blobs
import Modeld.Core.Opening
import Modeld.Ctl.PullCalls
import Modeld.Ctl.Resolve
import Modeld.Host.Clock

/-!
# Where a pull writes

A pull joins the name and the tag that it resolved to its paths as they are, where the tag registry
checks them first. With acceptable names everything it makes lies in the storage root; with others the
pull goes ahead as well.
-/

namespace Modeld

open Host Program

/-- The call makes something at the path, or writes to what is there. -/
def Makes : Call → Path → Prop
  | .create p, q | .write p _, q | .copy _ p, q | .rename _ p, q | .hardLink _ p, q
  | .symlink _ p, q | .createDirAll p, q => q = p
  | _, _ => False

/-- What the call makes is in the storage root, and nothing but the given tag is under `tags`. -/
def Places (root : Path) (n t : Name) (o : Call) : Prop :=
  ∀ p, Makes o p → root <+: p ∧ (root ++ [Dir.tags] <+: p →
    p = root ++ [Dir.tags, n, t] ∨ o = .createDirAll (root ++ [Dir.tags, n]))

section Places

variable {root p q : Path} {n t : Name} {o : Call}

theorem Reads.places (ho : Reads o) : Places root n t o := by
  intro p hp
  cases o <;> first | exact ho.elim | exact hp.elim

end Places

namespace Pull

variable {p : Pull}

end Pull

/-! ### What a pull is to keep to -/

/-- What a call makes that was not there lies in the storage root. -/
theorem Places.inside {root : Path} {n t : Name} {o : Call} {h : Fs} (ho : Places root n t o)
    (htidy : Tidy root o) (hw : WellFormed root h) {q : Path} (hnone : h.lookup q = none)
    (hsome : (Fs.exec o h).2.lookup q ≠ none) : root <+: q := by
  have hone : ∀ {p : Path} {e : Entry}, Makes o p →
      (Fs.exec o h).2.lookup q = (if q = p then some e else h.lookup q) → root <+: q := by
    intro p e hp hl
    rw [hl] at hsome
    split at hsome
    · rename_i hq
      rw [hq]
      exact (ho p hp).1
    · exact absurd hnone hsome
  cases Fs.effect_exec o h with
  | keep o hl => exact absurd ((hl q).trans hnone) hsome
  | newFile o p hcall _ hl _ =>
    have hp : Makes o p ∧ root <+: p ∧ ¬ LinkPlace root p := by
      rcases hcall with rfl | ⟨x, rfl⟩ | ⟨a, rfl⟩ <;> exact ⟨rfl, htidy⟩
    rw [hw.final_eq hp.2.1 hp.2.2] at hl
    exact hone hp.1 (hl q)
  | newDirs p hl =>
    rcases hl q with hq | ⟨-, -, hq⟩
    · exact absurd (hq.trans hnone) hsome
    · -- What is above the storage root is there already.
      rcases List.prefix_or_prefix_of_prefix hq (ho p rfl).1 with habove | hbelow
      · rw [hw.base q (.inl habove)] at hnone
        cases hnone
      · exact hbelow
  | link a b e _ _ _ hl => exact hone (p := b) rfl (hl q)
  | symlink u p _ hl => exact hone (p := p) rfl (hl q)
  | remove p e _ _ hl =>
    rw [hl] at hsome
    split at hsome
    · exact absurd rfl hsome
    · exact absurd hnone hsome
  | rename a b e _ _ _ hl =>
    rw [hl] at hsome
    split at hsome
    · rename_i hq
      rw [hq]
      exact (ho b rfl).1
    · split at hsome
      · exact absurd rfl hsome
      · exact absurd hnone hsome

namespace Pull

variable {p : Pull} {h : Fs}

/-- The tag is a file that holds a digest, and the digest is in the store: a pull that is not forced
has nothing to do. -/
def presentIn (p : Pull) (h : Fs) : Bool :=
  h.isFile p.tagFile && !p.force &&
    let digest := Text.trim (((h.contents p.tagFile).bind Text.ofBytes?).getD "")
    h.isFile (p.commit digest).casDest || h.isFile (p.commit digest).blobPath

private theorem openFile_of_fileAt_none {path : Path} (hfile : h.fileAt path = none) :
    ∃ e, h.openFile path = .error e := by
  unfold Fs.openFile
  rw [Fs.fileAt] at hfile
  split at hfile
  · cases hfile
  · rename_i hno
    split
    · rename_i i hi
      exact absurd hi (hno i)
    · exact ⟨_, rfl⟩
    · exact ⟨_, rfl⟩
    · exact ⟨_, rfl⟩

private theorem run_readOrEmpty (path : Path) : (readOrEmpty path).run Fs.exec h =
    (((h.contents path).bind Text.ofBytes?).getD "", h) := by
  rw [readOrEmpty, Fs.run_openFile, Fs.contents]
  cases hfile : h.fileAt path with
  | some i =>
    rw [CasStore.openFile_of_fileAt hfile]
    rfl
  | none =>
    obtain ⟨e, he⟩ := openFile_of_fileAt_none hfile
    rw [he]
    rfl

theorem run_isPresent : p.isPresent.run Fs.exec h = (p.presentIn h, h) := by
  rw [isPresent, Fs.run_isFile, presentIn]
  cases hgo : h.isFile p.tagFile && !p.force with
  | false => rfl
  | true =>
    rw [if_pos rfl, run_bind, run_readOrEmpty, Fs.run_isFile]
    dsimp only
    generalize Text.trim _ = digest
    cases h.isFile (p.commit digest).casDest with
    | true => rfl
    | false => rfl

/-- What a pull does once it knows that it has something to do. -/
def fetch (sha : Sha256) (p : Pull) : Io (Except String Unit) :=
  match p.response with
  | .error e => return .error e
  | .ok chunks => do
    match ← createDirAll p.incomingDir with
    | .error e =>
      return .error (ArtifactCommit.failure e "creating incoming directory at" p.incomingDir
        ("Failed to create incoming directory at " ++ ArtifactCommit.display p.incomingDir))
    | .ok () =>
      match ← p.download chunks with
      | .error e => return .error e
      | .ok bytes => p.finish sha bytes

theorem runPull_eq (sha : Sha256) (p : Pull) :
    runPull sha p = p.isPresent >>= fun present => if present then done (.ok ()) else p.fetch sha := by
  rfl

end Pull

end Modeld
