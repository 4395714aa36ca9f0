import Modeld.Core.Integrity
import Modeld.Ctl.CommitRun
import Modeld.Runs.Operations

/-!
# Integrity of the store over runs in which calls fail

Stores, pulls and prunes one after the other, where any call may fail. Whatever `open_blob` yields
afterwards has the digest that was asked for, as long as no copy fails halfway and pulls use
ordinary file names. A copy that fails halfway leaves the second name of a blob cut off, and
`commit_artifact` ignores that failure.
-/

namespace Modeld

open Host Program

variable {sha : Sha256} {root : Path} {h h' : Fs} {p q : Path} {i : Ino} {x : Bytes}

theorem Outside.putsNoBlob {o : Call} (ho : Outside root o) : PutsNoBlob root o := by
  obtain ⟨htidy, havoid, hopen⟩ := ho
  have hcas := havoid Dir.cas (.inl rfl)
  refine ⟨htidy, ?_⟩
  cases o with
  | create p => exact fun d hd hp => hcas (hp.in_cas hd)
  | write p y => exact fun d hd hp => hcas (hp.in_cas hd)
  | copy a p => exact fun d hd hp => hcas (hp.in_cas hd)
  | hardLink a p => exact fun d hd hp => hcas (hp.in_cas hd)
  | rename a p => exact fun d hd hp => hcas.2 (hp.in_cas hd)
  | writeAt k off y => exact hopen k off y rfl
  | _ => exact trivial

/-! ### Commits -/

/-- Making a directory or removing a path leaves the files behind other paths where they are. -/
theorem lookup_file_iff {o : Call} {r : Reply o} (ha : Fs.Answers o h r h')
    (ho : o = .createDirAll p ∨ o = .removeFile p) :
    (∀ q k, h'.lookup q = some (.file k) → h.lookup q = some (.file k)) ∧
      ∀ q k, q ≠ p → h.lookup q = some (.file k) → h'.lookup q = some (.file k) := by
  cases ha.effect with
  | keep o hl => exact ⟨fun q k hq => by rwa [hl] at hq, fun q k _ hq => by rwa [hl]⟩
  | newDirs c hl =>
    refine ⟨fun q k hq => ?_, fun q k _ hq => ?_⟩
    · rcases hl q with hsame | ⟨-, hdir, -⟩
      · rwa [hsame] at hq
      · rw [hdir] at hq
        cases hq
    · rcases hl q with hsame | ⟨hnone, -, -⟩
      · rwa [hsame]
      · rw [hnone] at hq
        cases hq
  | remove c e he hdir hl =>
    have hc : c = p := by
      rcases ho with heq | heq <;> cases heq
      rfl
    subst hc
    refine ⟨fun q k hq => ?_, fun q k hne hq => ?_⟩
    · rw [hl] at hq
      split at hq
      · cases hq
      · exact hq
    · rw [hl, if_neg hne, hq]
  | newFile o c hc _ _ _ =>
    rcases ho with rfl | rfl <;> rcases hc with heq | ⟨y, heq⟩ | ⟨c, heq⟩ <;> cases heq
  | link => rcases ho with heq | heq <;> cases heq
  | symlink => rcases ho with heq | heq <;> cases heq
  | rename => rcases ho with heq | heq <;> cases heq

/-- A copy that is not cut off leaves the content of the source, unless both are one file. -/
private theorem contents_of_copy {a b : Path} {r : Except IoError Unit} (hw : WellFormed root h)
    (hroot : root <+: b) (hlink : ¬ LinkPlace root b) (ha : h.lookup a = some (.file i))
    (hfresh : i < h.nextIno) (hb : h.lookup b ≠ some (.file i)) (hcopy : h.copy a b = (r, h')) :
    h' = h ∨ h'.contents b = some (h.data i) := by
  rcases Fs.copy_cases h a b with ⟨k, j, h₁, hk, hcreate, hr⟩ | ⟨e, hr⟩
  · cases hcopy.symm.trans hr
    have hik : i = k := Option.some.inj ((Fs.fileAt_of_lookup ha).symm.trans hk)
    have hbi : h.fileAt b ≠ some i := by
      rwa [ne_eq, hw.fileAt_eq_some hroot hlink]
    have hdata := ((Fs.create_frame hcreate).2.2.2 i hfresh hbi).2
    have hnew := (Fs.create_lookup hcreate (hw.final_eq hroot hlink)).1
    have hj : (h₁.setData j (h₁.data k)).fileAt b = some j := Fs.fileAt_of_lookup hnew
    right
    rw [Fs.contents, hj, Option.map_some, Fs.data_setData_self, ← hik, hdata]
  · exact .inl (congrArg Prod.snd (hcopy.symm.trans hr))

namespace ArtifactCommit.Valid

variable {c : ArtifactCommit}

/-- The second name is made from a file that it does not name itself. -/
theorem safely_linkBlob (hc : c.Valid) (hs : Sound sha c.storageRoot h)
    (hi : h.lookup c.casDest = some (.file i)) (hother : h.lookup c.blobPath ≠ some (.file i)) :
    Safely CopiesWhole (Sound sha c.storageRoot) c.linkBlob
      (fun _ h' => Sound sha c.storageRoot h') h := by
  have hdest : c.cas.Names c.digest c.casDest := names_casDest
  have hblob : c.cas.Names c.digest c.blobPath := names_blobPath
  have hne := casDest_ne_blobPath hc.digest
  refine Safely.perform fun r h₁ ha => ?_
  have hs₁ : Sound sha c.storageRoot h₁ := by
    have hputs : PutsNoBlob c.storageRoot (.createDirAll c.blobDir) :=
      ⟨CasStore.inArea_blobsDir.1, trivial⟩
    exact hs.of_putsNoBlob hputs ha.answers
  have hi₁ : h₁.lookup c.casDest = some (.file i) ∧ h₁.lookup c.blobPath ≠ some (.file i) := by
    obtain ⟨hfrom, hto⟩ := lookup_file_iff ha.answers (.inl rfl)
    have hdir : c.casDest ≠ c.blobDir := by
      intro heq
      exact CasStore.not_prefix_blobsDir hc.digest hdest (heq ▸ List.prefix_rfl)
    exact ⟨hto _ _ hdir hi, fun hblobi => hother (hfrom _ _ hblobi)⟩
  refine ⟨hs₁, ?_⟩
  split
  swap
  · exact (safely_done _).2 hs₁
  refine Safely.perform fun r₂ h₂ ha₂ => ?_
  have hs₂ : Sound sha c.storageRoot h₂ := by
    have hputs : PutsNoBlob c.storageRoot (.removeFile c.blobPath) := ⟨trivial, trivial⟩
    exact hs₁.of_putsNoBlob hputs ha₂.answers
  have hi₂ : h₂.lookup c.casDest = some (.file i) ∧ h₂.lookup c.blobPath ≠ some (.file i) := by
    obtain ⟨hfrom, hto⟩ := lookup_file_iff ha₂.answers (.inr rfl)
    exact ⟨hto _ _ hne hi₁.1, fun hblobi => hi₁.2 (hfrom _ _ hblobi)⟩
  refine ⟨hs₂, Safely.perform fun r₃ h₃ ha₃ => ?_⟩
  have hs₃ := hs₂.hardLink hc.digest hdest hblob ha₃.answers
  refine ⟨hs₃, ?_⟩
  cases r₃ with
  | ok u => exact (safely_done _).2 hs₃
  | error e =>
    have hsame : h₃ = h₂ := by
      rcases ha₃.answers with hexec | hfault
      · rcases Fs.hardLink_cases h₂ c.casDest c.blobPath with ⟨f, -, -, -, -, -, hr⟩ | ⟨e', hr⟩
        · cases hexec.symm.trans hr
        · exact congrArg Prod.snd (hexec.symm.trans hr)
      · cases hfault
        rfl
    subst hsame
    refine Safely.perform fun r₄ h₄ ha₄ => ?_
    suffices hs₄ : Sound sha c.storageRoot h₄ from ⟨hs₄, (safely_done _).2 hs₄⟩
    have hfile := Fs.fileAt_of_lookup hi₂.1
    have hhash := hs₂.integral _ _ i hc.digest hdest hi₂.1
    have hwhole : h₄ = h₃ ∨ h₄.contents c.blobPath = some (h₃.data i) := by
      rcases ha₄ with hexec | ⟨-, hcopy⟩
      · have hfresh := hs₂.wellFormed.fresh _ i (hdest.under hc.digest) hi₂.1
        exact contents_of_copy hs₂.wellFormed (hblob.under hc.digest)
          (hblob.not_linkPlace hc.digest) hi₂.1 hfresh hi₂.2 hexec
      · have hsource : h₃.contents c.casDest = some (h₃.data i) := by rw [Fs.contents, hfile]; rfl
        rw [← hsource]
        exact hcopy _ _ rfl
    rcases hwhole with rfl | hcontents
    · exact hs₂
    · exact hs₂.copy hc.digest hblob ha₄.answers hcontents hhash

/-- A commit of a staged file keeps the integrity of the blobs. -/
theorem safely_commitArtifact (hc : c.Valid) (hs : Sound sha c.storageRoot h)
    (hst : Staged c.stagePath i x h) (hx : sha.hash x = c.digest) :
    Safely CopiesWhole (Sound sha c.storageRoot) (commitArtifact c)
      (fun _ h' => Sound sha c.storageRoot h') h := by
  refine Safely.perform fun r h₁ ha => ?_
  have hs₁ := hs.rename hc.stage hst hc.digest hx names_casDest ha.answers
  refine ⟨hs₁, ?_⟩
  cases r with
  | error e => exact (safely_done _).2 hs₁
  | ok u =>
    obtain ⟨-, hi, hother⟩ := StagePlace.renamed hc.stage hs.wellFormed hst.lookup hc.digest
      names_casDest ha.answers
    have hblob := hother _ (names_blobPath.under hc.digest) (casDest_ne_blobPath hc.digest).symm
    refine (hc.safely_linkBlob hs₁ hi hblob).bind fun _ h₂ hs₂ => ?_
    exact hs₂.safely (hc.outside_afterStore.mono fun _ ho => ho.putsNoBlob)

end ArtifactCommit.Valid

/-! ### Pulls -/

namespace Pull.Valid

theorem stagePlace {p : Pull} (hp : p.Valid) : StagePlace p.storageRoot p.stagePath :=
  ⟨_, hp.stagePath_eq⟩

/-- What the download has hashed is what it has written. -/
theorem safely_downloadLoop (hp : StagePlace root q) (chunks : List (Except String Bytes))
    (hs : Sound sha root h) (hst : Staged q i x h) :
    Safely CopiesWhole (Sound sha root) (downloadLoop i chunks x)
      (fun r h' => Sound sha root h' ∧ ∀ y, r = .ok y → Staged q i y h') h := by
  induction chunks generalizing x h with
  | nil =>
    refine (safely_done _).2 ⟨hs, ?_⟩
    rintro y ⟨⟩
    exact hst
  | cons chunk chunks ih =>
    rcases chunk with e | chunk
    · exact (safely_done _).2 ⟨hs, nofun⟩
    refine Safely.perform fun r h' ha => ?_
    obtain ⟨hs', hst'⟩ := hs.writeAt hp hst ha.answers
    refine ⟨hs', ?_⟩
    cases r with
    | error e => exact (safely_done _).2 ⟨hs', nofun⟩
    | ok u => exact ih hs' (hst' rfl)

variable {p : Pull}

theorem safely_download (hp : p.Valid) (hs : Sound sha p.storageRoot h)
    (chunks : List (Except String Bytes)) :
    Safely CopiesWhole (Sound sha p.storageRoot) (p.download chunks)
      (fun r h' => Sound sha p.storageRoot h' ∧
        ∀ x, r = .ok x → ∃ i, Staged p.stagePath i x h') h := by
  refine Safely.perform fun r h₁ ha => ?_
  have hs₁ := hs.create hp.stagePlace ha.answers
  refine ⟨hs₁, ?_⟩
  cases r with
  | error e => exact (safely_done _).2 ⟨hs₁, nofun⟩
  | ok file =>
    have hst := hp.stagePlace.created hs.wellFormed ha.answers
    refine (safely_downloadLoop hp.stagePlace chunks hs₁ hst).bind ?_
    rintro r h₂ ⟨hs₂, hst₂⟩
    cases r with
    | error e =>
      refine Safely.perform fun _ h₃ ha => ?_
      have hputs : PutsNoBlob p.storageRoot (.removeFile p.stagePath) := ⟨trivial, trivial⟩
      have hs₃ := hs₂.of_putsNoBlob hputs ha.answers
      exact ⟨hs₃, (safely_done _).2 ⟨hs₃, nofun⟩⟩
    | ok x =>
      refine (safely_done _).2 ⟨hs₂, ?_⟩
      rintro y ⟨⟩
      exact ⟨file, hst₂ x rfl⟩

/-- A pull under ordinary file names keeps the integrity of the blobs. -/
theorem safely_runPull (hp : p.Valid) (hs : Sound sha p.storageRoot h) :
    Safely CopiesWhole (Sound sha p.storageRoot) (runPull sha p)
      (fun _ h' => Sound sha p.storageRoot h') h := by
  refine (hs.safely_of_reads (only_isPresent)).bind ?_
  rintro present _ ⟨-, rfl⟩
  split
  · exact (safely_done _).2 hs
  split
  · exact (safely_done _).2 hs
  rename_i chunks hchunks
  refine Safely.perform fun r h₁ ha => ?_
  have hs₁ : Sound sha p.storageRoot h₁ := by
    have hputs : PutsNoBlob p.storageRoot (.createDirAll p.incomingDir) :=
      ⟨inArea_incomingDir.1, trivial⟩
    exact hs.of_putsNoBlob hputs ha.answers
  refine ⟨hs₁, ?_⟩
  cases r with
  | error e => exact (safely_done _).2 hs₁
  | ok u =>
    refine (hp.safely_download hs₁ chunks).bind ?_
    rintro r h₂ ⟨hs₂, hst₂⟩
    cases r with
    | error e => exact (safely_done _).2 hs₂
    | ok x =>
      obtain ⟨i, hst⟩ := hst₂ x rfl
      have hc := hp.valid_commit (sha.isDigest_hash x)
      rw [← storageRoot_commit p (sha.hash x)] at hs₂
      rw [← stagePath_commit p (sha.hash x)] at hst
      refine (hc.safely_commitArtifact hs₂ hst rfl).bind fun r h₃ hs₃ => ?_
      cases r with
      | error e => exact (safely_done _).2 hs₃
      | ok u =>
        dsimp only
        split
        · exact (safely_done _).2 hs₃
        · refine Safely.bind (hs₃.safely ((hp.outside_commitTokenizer _).mono fun _ ho =>
            ho.putsNoBlob)) fun _ h₄ hs₄ => (safely_done _).2 hs₄

end Pull.Valid

/-! ### Runs -/

/-- What is done to the store. -/
inductive StoreTask
  | store (pid : Pid) (reader : Reader) (expected : Option String)
  | pull (p : Pull)
  | prune (maxBytes : Nat)

namespace StoreTask

def program (inst : Installation) : StoreTask → Io Unit
  | store pid reader expected => do
    let _ ← inst.cas.storeBlob inst.sha pid reader expected
    return ()
  | pull p => do
    let _ ← runPull inst.sha p
    return ()
  | prune maxBytes => do
    let _ ← inst.ctx.eviction.prune inst.cas maxBytes
    return ()

/-- Pulls are to this storage root, under ordinary file names. -/
def Valid (root : Path) : StoreTask → Prop
  | pull p => p.storageRoot = root ∧ p.Valid
  | _ => True

/-- One task after the other. -/
def sequence (inst : Installation) : List StoreTask → Io Unit
  | [] => return ()
  | task :: tasks => do
    task.program inst
    sequence inst tasks

/-- One task, whatever fails. -/
theorem Valid.safely {inst : Installation} {task : StoreTask} (ht : task.Valid inst.root)
    (hs : Sound inst.sha inst.root h) :
    Safely CopiesWhole (Sound inst.sha inst.root) (task.program inst)
      (fun _ h' => Sound inst.sha inst.root h') h := by
  cases task with
  | store pid reader expected =>
    exact (CasStore.safely_storeBlob hs).bind fun _ _ hs' => (safely_done _).2 hs'
  | pull p =>
    obtain ⟨hroot, hp⟩ := ht
    rw [← hroot] at hs ⊢
    exact (hp.safely_runPull hs).bind fun _ _ hs' => (safely_done _).2 hs'
  | prune max =>
    have hprune : Only (PutsNoBlob inst.root) ((EvictionManager.ofRoot inst.root).prune
      ⟨inst.root⟩ max) := EvictionManager.only_putsNoBlob_prune
    exact (hs.safely hprune).bind fun _ _ hs' => (safely_done _).2 hs'

/-- A run of tasks. -/
theorem safely_sequence {inst : Installation} (tasks : List StoreTask)
    (htasks : ∀ task ∈ tasks, task.Valid inst.root) (hs : Sound inst.sha inst.root h) :
    Safely CopiesWhole (Sound inst.sha inst.root) (sequence inst tasks) (fun _ _ => True) h := by
  induction tasks generalizing h with
  | nil => exact (safely_done _).2 trivial
  | cons task tasks ih =>
    refine ((htasks task (List.mem_cons_self ..)).safely hs).bind fun _ h' hs' => ?_
    exact ih (fun task' ht => htasks task' (List.mem_cons_of_mem _ ht)) hs'

end StoreTask

/-- Whatever `open_blob` yields has the digest that was asked for. -/
def OpensTrue (sha : Sha256) (root : Path) (h : Fs) : Prop :=
  ∀ d x, IsDigest d → (CasStore.mk root).content h d = some x → sha.hash x = d

/-- After every call of a run of stores, pulls and prunes, however many calls fail, an opened blob
has the digest that was asked for, as long as no copy fails halfway. -/
theorem opened_blobs_true (inst : Installation) (h : Fs) (hw : WellFormed inst.root h)
    (hblobs : Integral inst.sha inst.root h) (tasks : List StoreTask)
    (htasks : ∀ task ∈ tasks, task.Valid inst.root) :
    Safely CopiesWhole (OpensTrue inst.sha inst.root) (StoreTask.sequence inst tasks)
      (fun _ _ => True) h :=
  (StoreTask.safely_sequence tasks htasks ⟨hw, hblobs⟩).weaken
    fun _ hs _ _ hd hx => hs.content hd hx

/-! ### Sample runs -/

/-- A pull of a one-byte model. -/
def oneBytePull : Pull where
  storageRoot := sampleRoot
  name := "m"
  tag := "latest"
  format := "gguf"
  force := false
  response := .ok [.ok [1]]
  tokenizer := none
  pid := 7
  seq := 0
  nanos := 0

theorem integral_sampleFs {hardLinks : Bool} :
    Integral sampleSha sampleRoot (sampleFs hardLinks) := by
  intro d p i _ _ hi
  exact (lookup_openedFs_ne_file sampleRoot hardLinks id p i hi).elim

/-- A pull, a store of the same content and a prune. -/
theorem sample_tasks_true :
    Safely CopiesWhole (OpensTrue sampleSha sampleRoot)
      (StoreTask.sequence sampleInstallation [.pull oneBytePull, .store 7 [.ok [1]] none, .prune 0])
      (fun _ _ => True) (sampleFs false) := by
  apply opened_blobs_true sampleInstallation (sampleFs false) (wellFormed_openedFs ..)
  · exact integral_sampleFs
  · simp only [List.mem_cons, List.not_mem_nil, or_false]
    rintro task (rfl | rfl | rfl)
    · exact ⟨rfl, by decide, by decide⟩
    · exact trivial
    · exact trivial

/-- The file system on which the first copies fail for want of space, before they have written
anything. The number says how many. -/
def fullExec (o : Call) (s : Fs × Nat) : Reply o × Fs × Nat :=
  match o, s with
  | .copy a b, (h, n + 1) =>
    match h.fileAt a, h.create b with
    | some i, (.ok j, h') => (.error .storageFull, h'.setData j ((h'.data i).take 0), n)
    | _, _ => ((h.copy a b).1, (h.copy a b).2, n + 1)
  | o, (h, n) => ((Fs.exec o h).1, (Fs.exec o h).2, n)

/-- Such failures are among those that may happen. -/
theorem faulty_fullExec (o : Call) (s : Fs × Nat) :
    Fs.faulty o s (fullExec o s).1 (fullExec o s).2 := by
  unfold fullExec
  split
  · rename_i a b h n
    split
    · rename_i i j h' hi hj
      exact .inr ⟨.copyPart h h' a b i j 0 .storageFull hi hj, rfl⟩
    · exact .inl ⟨rfl, rfl⟩
  · exact .inl ⟨rfl, rfl⟩

/-- One copy that fails leaves a blob that opens as an empty file. -/
theorem sample_copy_cut :
    ¬ Safely Fs.faulty (fun s => OpensTrue sampleSha sampleRoot s.1)
      (StoreTask.sequence sampleInstallation [.pull oneBytePull]) (fun _ _ => True)
      (sampleFs false, 1) := by
  intro hsafe
  have hsound : Sound sampleSha sampleRoot (sampleFs false) :=
    ⟨wellFormed_openedFs .., integral_sampleFs⟩
  have hstart : OpensTrue sampleSha sampleRoot (sampleFs false) := fun _ _ hd hx =>
    hsound.content hd hx
  have hlast := hsafe.and_last hstart
  have hopens := (hlast.run fullExec faulty_fullExec).2 digestOne [] isDigest_digestOne
  have hcut : (CasStore.mk sampleRoot).content ((StoreTask.sequence sampleInstallation
      [.pull oneBytePull]).run fullExec (sampleFs false, 1)).2.1 digestOne = some [] := by
    decide +kernel
  exact absurd (hopens hcut) (by decide)

end Modeld
