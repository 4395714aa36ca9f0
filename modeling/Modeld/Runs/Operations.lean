import Modeld.Core.Opening
import Modeld.Ctl.PullCalls
import Modeld.Daemon.DaemonCalls

/-!
# Runs of operations

What clients do with one storage root: calls to the daemon, stores, pulls, commits and imports, one
after the other. The states that they reach from an empty storage root are well formed, as long as
pulls and commits use ordinary file names.
-/

namespace Modeld

open Host Program

/-- What all operations on one storage root share. -/
structure Installation where
  root : Path
  json : JsonLibrary
  sha : Sha256

/-- The daemon's view of the storage root. -/
abbrev Installation.ctx (inst : Installation) : ModelServiceContext := .ofRoot inst.root

/-- The store. -/
abbrev Installation.cas (inst : Installation) : CasStore := ⟨inst.root⟩

/-- One operation, from its start to its end. A commit is of a file that was staged before. -/
inductive Operation
  | call (call : VarlinkCall)
  | store (pid : Pid) (reader : Reader) (expected : Option String)
  | pull (p : Pull)
  | commit (staged : Bytes) (c : ArtifactCommit)
  | importFile (chunking : Chunking) (pid : Pid) (source : Path) (tag : Option String)

namespace Operation

/-- What an operation does. Replies go to the client. -/
def program (inst : Installation) : Operation → Io Unit
  | call c => do
    let _ ← dispatchCall inst.json c inst.ctx
    return ()
  | store pid reader expected => do
    let _ ← inst.cas.storeBlob inst.sha pid reader expected
    return ()
  | pull p => do
    let _ ← runPull inst.sha p
    return ()
  | commit staged c => do
    let _ ← write c.stagePath staged
    let _ ← commitArtifact c
    return ()
  | importFile chunking pid source tag => do
    let _ ← runImport inst.sha chunking inst.root pid source tag
    return ()

/-- Pulls and commits are to this storage root, under ordinary file names. -/
def Valid (root : Path) : Operation → Prop
  | pull p => p.storageRoot = root ∧ p.Valid
  | commit _ c => c.storageRoot = root ∧ c.Valid
  | _ => True

/-- The state after an operation. -/
def after (inst : Installation) (o : Operation) (h : Fs) : Fs := ((o.program inst).run Fs.exec h).2

/-- The state after a run of operations. -/
def afterAll (inst : Installation) (ops : List Operation) (h : Fs) : Fs :=
  ops.foldl (fun h o => o.after inst h) h

end Operation

/-- The states that valid operations reach from an empty storage root. -/
def Reachable (inst : Installation) (h : Fs) : Prop :=
  ∃ hardLinks clock ops, (∀ o ∈ ops, Operation.Valid inst.root o) ∧
    h = Operation.afterAll inst ops (openedFs inst.root hardLinks clock)

/-! ### Operations keep to the layout -/

variable {inst : Installation} {root : Path} {h : Fs} {o : Operation}

/-- A commit together with the staging of its file. -/
theorem ArtifactCommit.Valid.keepsPins_staged {c : ArtifactCommit} (hc : c.Valid) (staged : Bytes) :
    Only (KeepsPins c.storageRoot) (do
      let _ ← write c.stagePath staged
      let _ ← commitArtifact c
      return ()) := by
  obtain ⟨n, hn⟩ := hc.stage
  have hcas : c.storageRoot ++ [Dir.cas] <+: c.stagePath := by
    rw [hn]
    simp
  refine Only.perform ⟨⟨under_root hcas, not_linkPlace_of_area hcas (by decide) (by decide)⟩,
    not_under hcas (by decide)⟩ fun _ => ?_
  exact hc.keepsPins_commitArtifact.bind fun _ => only_done _

namespace Operation

/-- Operations under ordinary file names keep to the layout. Only calls to the daemon touch pins. -/
theorem Valid.keepsPins (ho : o.Valid inst.root) (hcall : ∀ c, o ≠ call c) :
    Only (KeepsPins inst.root) (o.program inst) := by
  cases o with
  | call c => exact absurd rfl (hcall c)
  | store pid reader expected =>
    refine Only.bind ?_ fun _ => only_done _
    exact CasStore.inArea_storeBlob.mono fun _ ho => ho.keepsPins (by decide)
  | pull p =>
    obtain ⟨hroot, hp⟩ := ho
    rw [← hroot]
    exact hp.keepsPins_runPull.bind fun _ => only_done _
  | commit staged c =>
    obtain ⟨hroot, hc⟩ := ho
    rw [← hroot]
    exact hc.keepsPins_staged staged
  | importFile chunking pid source tag => exact keepsPins_runImport.bind fun _ => only_done _

theorem Valid.tidy (ho : o.Valid inst.root) : Only (Tidy inst.root) (o.program inst) := by
  by_cases hcall : ∃ c, o = call c
  · obtain ⟨c, rfl⟩ := hcall
    exact (tidy_dispatchCall c).bind fun _ => only_done _
  · exact (ho.keepsPins fun c hc => hcall ⟨c, hc⟩).mono fun _ ho => ho.1

/-- One operation. -/
theorem Valid.wellFormed_after (ho : o.Valid inst.root) (hw : WellFormed inst.root h) :
    WellFormed inst.root (o.after inst h) :=
  Only.run Fs.exec (fun _ _ hmay hw => hw.answers hmay (.inl rfl)) ho.tidy hw

/-- A run of operations. -/
theorem wellFormed_afterAll {ops : List Operation} (hops : ∀ o ∈ ops, o.Valid inst.root)
    (hw : WellFormed inst.root h) : WellFormed inst.root (afterAll inst ops h) := by
  induction ops generalizing h with
  | nil => exact hw
  | cons o ops ih =>
    exact ih (fun o' ho' => hops o' (List.mem_cons_of_mem _ ho'))
      ((hops o (List.mem_cons_self ..)).wellFormed_after hw)

end Operation

theorem reachable_openedFs (hardLinks : Bool) (clock : Nat → Nat) :
    Reachable inst (openedFs inst.root hardLinks clock) := ⟨hardLinks, clock, [], nofun, rfl⟩

theorem Reachable.wellFormed (hh : Reachable inst h) : WellFormed inst.root h := by
  obtain ⟨hardLinks, clock, ops, hops, rfl⟩ := hh
  exact Operation.wellFormed_afterAll hops (wellFormed_openedFs ..)

/-! ### Sample operations -/

def sampleInstallation : Installation := ⟨sampleRoot, emptyObjectLibrary, sampleSha⟩

/-- A call of `io.syntrop.Model1` with text parameters. -/
def modelCall (method : String) (params : List (String × Json)) : VarlinkCall where
  method := "io.syntrop.Model1." ++ method
  parameters := some (.object params)
  more := none

end Modeld
