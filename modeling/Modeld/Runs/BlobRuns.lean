import Modeld.Core.PruneRun
import Modeld.Ctl.CommitRun
import Modeld.Daemon.FdHandoff
import Modeld.Runs.Operations

/-!
# Runs over the blobs of a storage root

Stores, commits, handoffs, pins and prunes, one after the other. Each of them puts files under names of
one digest, or removes names, or leaves the shelf as it was.
-/

namespace Modeld

open Host Program

/-- What happens to the blobs of a storage root. A commit is of a file that was staged before. -/
inductive BlobEvent
  | store (pid : Pid) (reader : Reader) (expected : Option String)
  | commit (staged : Bytes) (c : ArtifactCommit)
  | handoff (request : Json)
  | pin (digest : String)
  | unpin (digest : String)
  | prune (maxBytes : Nat)

namespace BlobEvent

/-- What an event does. It returns the digest that was stored, committed or handed off. -/
def program (inst : Installation) : BlobEvent → Io (Option String)
  | store pid reader expected => do
    match ← inst.cas.storeBlob inst.sha pid reader expected with
    | .ok (digest, _) => return some digest
    | .error _ => return none
  | commit staged c => do
    let _ ← write c.stagePath staged
    match ← commitArtifact c with
    | .ok () => return some c.digest
    | .error _ => return none
  | handoff request => do
    match ← handleFdRequest request inst.cas inst.ctx.tags with
    | .ok (.descriptor _ digest _ _) => return some digest
    | _ => return none
  | pin digest => do
    let _ ← inst.ctx.eviction.pin digest
    return none
  | unpin digest => do
    let _ ← inst.ctx.eviction.unpin digest
    return none
  | prune maxBytes => do
    let _ ← inst.ctx.eviction.prune inst.cas maxBytes
    return none

/-- Commits are to this storage root, of a staged file, under ordinary file names. -/
def Valid (root : Path) : BlobEvent → Prop
  | commit _ c => c.storageRoot = root ∧ c.Valid
  | _ => True

/-- The state after an event. -/
def after (inst : Installation) (e : BlobEvent) (h : Fs) : Fs := ((e.program inst).run Fs.exec h).2

/-- The state after a run of events. -/
def afterAll (inst : Installation) (events : List BlobEvent) (h : Fs) : Fs :=
  events.foldl (fun h e => e.after inst h) h

variable {inst : Installation} {root : Path} {h : Fs} {e : BlobEvent}

theorem afterAll_append (events events' : List BlobEvent) (h : Fs) :
    afterAll inst (events ++ events') h = afterAll inst events' (afterAll inst events h) :=
  List.foldl_append ..

/-! ### One event -/

/-- A store that is accepted puts one file where the digest has its blob. -/
theorem after_store {pid : Pid} {reader : Reader} {expected : Option String}
    (hw : WellFormed inst.root h) :
    (∀ bytes, inst.cas.Accepts inst.sha pid reader expected h bytes →
      ∃ i, Shelves inst.root (inst.sha.hash bytes) bytes
        (fun q => if q = inst.cas.blobPathAt h (inst.sha.hash bytes) then some i else none) h
        ((store pid reader expected).after inst h)) ∧
    ((¬ ∃ bytes, inst.cas.Accepts inst.sha pid reader expected h bytes) →
      SameShelf inst.root h ((store pid reader expected).after inst h)) := by
  have hafter : (store pid reader expected).after inst h =
      ((inst.cas.storeBlob inst.sha pid reader expected).run Fs.exec h).2 := by
    unfold after program
    rw [run_bind]
    cases ((inst.cas.storeBlob inst.sha pid reader expected).run Fs.exec h).1 <;> rfl
  obtain ⟨hok, herr⟩ := @CasStore.run_storeBlob inst.root h inst.sha pid reader expected hw
  rw [hafter]
  exact ⟨fun bytes hbytes => (hok bytes hbytes).2, fun hno => (herr hno).2⟩

theorem after_commit_eq {staged : Bytes} {c : ArtifactCommit} : (commit staged c).after inst h =
    ((write c.stagePath staged >>= fun _ => commitArtifact c).run Fs.exec h).2 := by
  unfold after program
  rw [run_bind, run_bind]
  cases ((commitArtifact c).run Fs.exec ((write c.stagePath staged).run Fs.exec h).2).1 <;> rfl

/-- A commit makes no directory in the store. -/
theorem dir_of_commit {staged : Bytes} {c : ArtifactCommit} {q : Path} (hw : WellFormed inst.root h)
    (hc : (commit staged c).Valid inst.root) (hq : inst.root ++ [Dir.cas] <+: q)
    (hdir : ((commit staged c).after inst h).lookup q = some .dir) : h.lookup q = some .dir := by
  rw [after_commit_eq] at hdir
  have hmakes := hc.2.makesNoDir_commit staged
  rw [hc.1] at hmakes
  exact dir_of_run hmakes hw hq hdir

/-- A commit whose file can be staged puts it under both names. -/
theorem after_commit {staged : Bytes} {c : ArtifactCommit} (hw : WellFormed inst.root h)
    (hc : (commit staged c).Valid inst.root) :
    (h.lookup c.stagePath ≠ some .dir → ∃ i j, (h.hardLinks = true → j = i) ∧
      (h.hardLinks = false → j ≠ i) ∧ Shelves inst.root c.digest staged (c.newNames i j) h
        ((commit staged c).after inst h)) ∧
    (h.lookup c.stagePath = some .dir → (commit staged c).after inst h = h) := by
  obtain ⟨hroot, hvalid⟩ := hc
  rw [after_commit_eq]
  constructor
  · intro hdir
    rw [← hroot] at hw ⊢
    exact hvalid.shelves_commit hw hdir staged
  · intro hdir
    have hcreate : h.create c.stagePath = (.error .isADirectory, h) := by
      rw [Fs.create, Fs.final_eq_self (by simp [hdir]), hdir]
    have hwrite : h.write c.stagePath staged = (.error .isADirectory, h) := by
      rw [Fs.write, hcreate]
    have hrename : h.rename c.stagePath c.casDest = (.error .other, h) := by
      rw [Fs.rename, hdir]
    rw [Fs.run_write, hwrite]
    unfold commitArtifact
    rw [Fs.run_rename, hrename]
    rfl

/-- A handoff changes nothing. -/
theorem after_handoff {request : Json} : (handoff request).after inst h = h := by
  unfold after program
  rw [run_bind_of_reads only_handleFdRequest]
  generalize ((handleFdRequest request inst.cas inst.ctx.tags).run Fs.exec h).1 = r
  rcases r with e | ⟨id⟩ | ⟨id, digest, size, bytes⟩ <;> rfl

private theorem run_discard {α : Type} (p : Io α) :
    ((p >>= fun _ => (Program.done none : Io (Option String))).run Fs.exec h).2 =
      (p.run Fs.exec h).2 := by
  rw [run_bind]
  rfl

/-- Pins are off the shelf. -/
theorem after_pin {digest : String} (hw : WellFormed inst.root h) :
    SameShelf inst.root h ((pin digest).after inst h) := by
  have hafter : (pin digest).after inst h = ((inst.ctx.eviction.pin digest).run Fs.exec h).2 :=
    run_discard _
  rw [hafter]
  exact (sameShelf_run EvictionManager.offShelf_pin hw).2

theorem after_unpin {digest : String} (hw : WellFormed inst.root h) :
    SameShelf inst.root h ((unpin digest).after inst h) := by
  have hafter : (unpin digest).after inst h = ((inst.ctx.eviction.unpin digest).run Fs.exec h).2 :=
    run_discard _
  rw [hafter]
  exact (sameShelf_run EvictionManager.offShelf_unpin hw).2

/-- What a prune does is to remove names. -/
theorem after_prune {max : Nat} (hw : WellFormed inst.root h) (hs : Shelved inst.root h) :
    ∃ gone, Removes inst.root gone h ((prune max).after inst h) := by
  have hafter : (prune max).after inst h =
      ((inst.ctx.eviction.prune inst.cas max).run Fs.exec h).2 := run_discard _
  rw [hafter]
  obtain ⟨blobs, -, -, hkeep, hevict⟩ := EvictionManager.run_prune hw hs max
  rcases le_or_gt (u64 (EvictionManager.sizes blobs)) max with hle | hlt
  · refine ⟨fun _ => False, ?_⟩
    rw [hkeep hle]
    exact .of_none fun _ => id
  · obtain ⟨pre, suf, -, hremoves, -⟩ := hevict hlt
    exact ⟨_, hremoves⟩

/-! ### Runs -/

theorem Valid.wellFormed_after (he : e.Valid inst.root) (hw : WellFormed inst.root h) :
    WellFormed inst.root (e.after inst h) := by
  have hrun : ∀ {p : Io (Option String)}, Only (Tidy inst.root) p →
      WellFormed inst.root (p.run Fs.exec h).2 := fun hp =>
    Only.run Fs.exec (fun _ _ ho hs => hs.answers ho (.inl rfl)) hp hw
  cases e with
  | store pid reader expected =>
    have hstore : Only (Tidy inst.root) (inst.cas.storeBlob inst.sha pid reader expected) :=
      CasStore.inArea_storeBlob.mono fun _ ho => ho.1
    apply hrun
    refine hstore.bind fun r => ?_
    rcases r with e | ⟨digest, total⟩ <;> exact only_done _
  | commit staged c =>
    obtain ⟨hroot, hc⟩ := he
    have hprefix : c.storageRoot ++ [Dir.cas] <+: c.stagePath := by
      obtain ⟨n, hn⟩ := hc.stage
      rw [hn]
      simp
    rw [hroot] at hprefix
    apply hrun
    refine Only.perform ⟨under_root hprefix, not_linkPlace_of_area hprefix (by decide) (by decide)⟩
      fun _ => ?_
    have hcommit : Only (Tidy inst.root) (commitArtifact c) := by
      rw [← hroot]
      exact hc.keepsPins_commitArtifact.mono fun _ ho => ho.1
    refine hcommit.bind fun r => ?_
    cases r <;> exact only_done _
  | handoff request =>
    rw [after_handoff]
    exact hw
  | pin digest =>
    exact hrun ((EvictionManager.inArea_pin.mono fun _ ho => ho.1).bind fun _ => only_done _)
  | unpin digest =>
    exact hrun ((EvictionManager.inArea_unpin.mono fun _ ho => ho.1).bind fun _ => only_done _)
  | prune max =>
    exact hrun ((EvictionManager.inArea_prune.mono fun _ ho => ho.1).bind fun _ => only_done _)

theorem Valid.shelved_after (he : e.Valid inst.root) (hw : WellFormed inst.root h)
    (hs : Shelved inst.root h) : Shelved inst.root (e.after inst h) := by
  cases e with
  | store pid reader expected =>
    obtain ⟨hok, herr⟩ := @after_store inst h pid reader expected hw
    by_cases hacc : ∃ bytes, inst.cas.Accepts inst.sha pid reader expected h bytes
    · obtain ⟨bytes, hbytes⟩ := hacc
      obtain ⟨i, hi⟩ := hok bytes hbytes
      exact hs.of_shelves (inst.sha.isDigest_hash bytes) hi
    · exact hs.of_sameShelf (herr hacc)
  | commit staged c =>
    obtain ⟨hok, herr⟩ := after_commit hw he
    by_cases hdir : h.lookup c.stagePath = some .dir
    · rw [herr hdir]
      exact hs
    · obtain ⟨i, j, -, -, hij⟩ := hok hdir
      exact hs.of_shelves he.2.digest hij
  | handoff request =>
    rw [after_handoff]
    exact hs
  | pin digest => exact hs.of_sameShelf (after_pin hw)
  | unpin digest => exact hs.of_sameShelf (after_unpin hw)
  | prune max =>
    obtain ⟨gone, hremoves⟩ := @after_prune inst h max hw hs
    exact hremoves.shelved hs

/-- There is nothing on the shelf of a storage root that was just opened. -/
theorem shelved_openedFs (root : Path) (hardLinks : Bool) (clock : Nat → Nat) :
    Shelved root (openedFs root hardLinks clock) :=
  fun q i _ hi => absurd hi (lookup_openedFs_ne_file root hardLinks clock q i)

end BlobEvent

end Modeld
