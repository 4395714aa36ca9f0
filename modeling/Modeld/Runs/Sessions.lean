import Modeld.Core.Opening
import Modeld.Core.SharedStore
import Modeld.Ctl.Import
import Modeld.Daemon.DaemonCalls
import Modeld.Runs.Catalogue
import Modeld.Runs.FaultyRuns

/-!
# Sessions on one storage root

In a session, any number of calls, handoffs, stores and imports work on the storage root at the same
time, in any number of processes; any file system call may fail, and any task may be left where it
stands when the session ends. The next session finds what the last one left.
-/

namespace Modeld

open Host Program

/-- What works on a storage root. -/
inductive StoreUser
  | start
  | client (e : ClientEvent)
  | importer (chunking : Chunking) (pid : Pid) (source : Path) (tag : Option String)

/-- What it does. A client gets a reply. -/
def StoreUser.program (inst : Installation) : StoreUser → Io (Option ClientReply)
  | start => do
    let _ ← openStorage inst.root
    return none
  | client e => do return some (← e.program inst)
  | importer chunking pid source tag => do
    let _ ← runImport inst.sha chunking inst.root pid source tag
    return none

/-- The users of a session, which all start from their counters. -/
def session {ι : Type} (inst : Installation) (users : ι → StoreUser) (counters : Nat → Nat) (h : Fs) :
    Pool ι Fs Reply (Option ClientReply) where
  state := { h with counters := counters }
  threads i := (users i).program inst

/-- A step of a session, whose calls may fail. -/
abbrev SessionRun {ι : Type} [DecidableEq ι] :
    Pool ι Fs Reply (Option ClientReply) → Pool ι Fs Reply (Option ClientReply) → Prop :=
  Pool.Steps Fs.Answers fun _ _ _ _ => True

/-- What sessions leave, one after the other. -/
inductive Reached (inst : Installation) : Fs → Prop
  | opened (hardLinks : Bool) (clock : Nat → Nat) :
      Reached inst (openedFs inst.root hardLinks clock)
  | session {h : Fs} (hh : Reached inst h) {ι : Type} [DecidableEq ι] (users : ι → StoreUser)
      (counters : Nat → Nat) (pool : Pool ι Fs Reply (Option ClientReply))
      (hrun : SessionRun (Modeld.session inst users counters h) pool) : Reached inst pool.state

variable {ι : Type} [DecidableEq ι] {sha : Sha256} {root : Path} {h : Fs} {i : ι} {g : Grip}
  {json : JsonLibrary} {params : Option Json} {d : String} {inst : Installation}

/-! ### Calls -/

theorem Only.quiet_of_reads {α : Type} {p : Io α} (hp : Only Reads p) : Only (Quiet root) p :=
  hp.mono fun _ => Reads.quiet

theorem quiet_handlePin : Only (Quiet root) (handlePin params (ModelServiceContext.ofRoot root)) := by
  refine only_handleDigest (fun _ => Reads.quiet) fun d => EvictionManager.only_pin fun hd => .inr ?_
  rw [EvictionManager.pinFile_eq hd]
  simp

theorem quiet_handleUnpin :
    Only (Quiet root) (handleUnpin params (ModelServiceContext.ofRoot root)) := by
  refine only_handleDigest (fun _ => Reads.quiet) fun d =>
    EvictionManager.only_unpin (fun _ ho => ho.reads.quiet) fun hd => ?_
  rw [EvictionManager.pinFile_eq hd]
  have hpinned : root ++ [Dir.pinned] <+: root ++ [Dir.pinned, ⟨Text.trim d, hd.plain⟩] := by simp
  exact ⟨fun hstage => absurd (area_unique hstage.in_cas hpinned) (by decide),
    fun htags => absurd (area_unique htags hpinned) (by decide)⟩

/-- What a prune removes is on the shelf. -/
theorem quiet_prune {max : Nat} : Only (Quiet root) ((EvictionManager.ofRoot root).prune ⟨root⟩ max) := by
  refine EvictionManager.only_prune (fun _ ho => ho.reads.quiet) trivial trivial fun x hx => ?_
  have hquiet : ∀ p : Path, root ++ [Dir.cas] <+: p → ¬ root ++ [Dir.cas, Dir.incoming] <+: p →
      Quiet root (.removeFile p) := by
    intro p hcas hincoming
    refine ⟨?_, fun htags => absurd (area_unique htags hcas) (by decide)⟩
    rintro ⟨n, rfl⟩
    exact hincoming (by simp)
  constructor
  · refine hquiet _ (EvictionManager.in_cas_candidate hx) ?_
    by_cases hplain : PlainName x
    · rw [CasStore.blobsDir_join hplain]
      simp
    · rcases Path.join_of_not_plain (CasStore.mk root).blobsDir hx hplain with hjoin | hjoin <;>
        rw [hjoin, CasStore.blobsDir_eq] <;> simp [List.dropLast_append_of_ne_nil]
  · rw [CasStore.flatGguf_eq hx]
    refine hquiet _ (by simp) ?_
    have hhead : ¬ "incoming" = "sha256-" ++ x ++ ".gguf" := by
      intro heq
      have hhead := congrArg List.head? (String.toList_inj.2 heq)
      simp at hhead
    simpa using hhead

/-- Every method but `Register` is quiet. -/
theorem quiet_dispatchCall (request : VarlinkCall)
    (hregister : request.method ≠ "io.syntrop.Model1.Register") :
    Only (Quiet root) (dispatchCall json request (ModelServiceContext.ofRoot root)) := by
  unfold dispatchCall
  split
  · exact only_done _
  split
  · rename_i hcall
    unfold handleModel1Call at hcall
    rw [if_neg hregister] at hcall
    split_ifs at hcall
    all_goals obtain rfl := Option.some.inj hcall
    · exact Only.quiet_of_reads only_handleList
    · exact Only.quiet_of_reads only_handleInspect
    · exact quiet_handlePin
    · exact quiet_handleUnpin
    · exact only_handlePrune quiet_prune
    · exact Only.quiet_of_reads only_handleGetStorageStats
  · exact only_done _

theorem inCompany_handleRegister :
    InCompany sha root i (handleRegister json params (ModelServiceContext.ofRoot root))
      (fun _ _ => True) g := by
  have hreads : ∀ {p : Io VarlinkReply} {g : Grip}, Only Reads p →
      InCompany sha root i p (fun _ _ => True) g := fun hp =>
    (InCompany.of_reads hp).mono fun _ _ _ => trivial
  unfold handleRegister
  split
  · exact .done trivial
  dsimp only
  split
  · exact .done trivial
  split
  · exact .done trivial
  unfold registerDigest
  refine (InCompany.of_reads only_digestCandidate).bind fun r g _ => ?_
  rcases r with reply | candidate
  · exact InCompany.done trivial
  dsimp only
  split
  · exact InCompany.done trivial
  refine TagRegistry.inCompany_setTag.bind fun r g _ => ?_
  rcases r with e | -
  · exact InCompany.done trivial
  · exact hreads only_describeEntry

theorem inCompany_dispatchCall (request : VarlinkCall) :
    InCompany sha root i (dispatchCall json request (ModelServiceContext.ofRoot root))
      (fun _ _ => True) g := by
  by_cases hregister : request.method = "io.syntrop.Model1.Register"
  · obtain ⟨method, params, more⟩ := request
    obtain rfl : method = "io.syntrop.Model1.Register" := hregister
    exact inCompany_handleRegister
  · exact (InCompany.of_keeps (P := fun _ => True) (quiet_dispatchCall request hregister)).mono
      fun _ _ _ => trivial

/-! ### Handoffs -/

/-- The descriptor holds a content of the digest that it is announced with, and the announced size is
that of such a content. -/
def HandedOff (sha : Sha256) (d : String) (size : Nat) (sealed : Bytes) : Prop :=
  IsDigest d ∧ sha.hash sealed = d ∧ ∃ x, sha.hash x = d ∧ x.length = size

theorem inCompany_handleFdRequest (request : Json) :
    InCompany sha root i (handleFdRequest request ⟨root⟩ (TagRegistry.ofRoot root))
      (fun r _ => ∀ id d size sealed, r = .ok (.descriptor id d size sealed) →
        HandedOff sha d size sealed) g := by
  have herror : ∀ {e : ModeldError} {g : Grip}, InCompany sha root i
      (Program.done (.error e) : Io (Except ModeldError FdReply))
      (fun r _ => ∀ id d size sealed, r = .ok (.descriptor id d size sealed) →
        HandedOff sha d size sealed) g := by
    intro e g
    refine .done ?_
    rintro id d size sealed ⟨⟩
  unfold handleFdRequest
  dsimp only
  refine TagRegistry.inCompany_resolve.bind fun r g hslash => ?_
  rcases r with e | d | d
  · exact herror
  · refine InCompany.done ?_
    rintro id d size sealed ⟨⟩
  refine CasStore.inCompany_blobSize.bind fun r g hsize => ?_
  rcases r with e | size
  · exact herror
  refine (CasStore.inCompany_openBlob (hslash d rfl)).bind fun r g hopen => ?_
  rcases r with e | k
  · exact herror
  obtain ⟨hd, rfl⟩ := hopen k rfl
  unfold createSealedMemfdFromFile
  refine InCompany.quiet (o := .read k) trivial fun γ s r s' hγ hs ha => ?_
  rcases r with e | bytes
  · exact herror
  refine InCompany.done ?_
  rintro id d size sealed ⟨⟩
  have hreading : Reading sha root d k s := by
    have hi := hs.holds i
    rwa [hγ] at hi
  have hbytes : bytes = s.data k := by
    rcases ha with hexec | hfault
    · cases hexec
      rfl
    · cases hfault
  exact ⟨hd, hbytes ▸ hreading.data, hsize hd size rfl⟩

/-! ### Users -/

theorem quiet_openStorage : Only (Quiet root) (openStorage root) := by
  have hblobs : Quiet root (.createDirAll (CasStore.mk root).blobsDir) := CasStore.inArea_blobsDir.1
  have hincoming : Quiet root (.createDirAll (CasStore.mk root).incomingDir) :=
    CasStore.inArea_incomingDir.1
  have htags : Quiet root (.createDirAll (root.join "tags")) := TagRegistry.inArea_tagsDir.1
  have hpinned : Quiet root (.createDirAll (root.join "pinned")) := by
    rw [Path.join_name _ Dir.pinned]
    intro q hq d hd hnames
    exact not_under (x := Dir.pinned) List.prefix_rfl (by decide) ((hnames.in_cas hd).trans hq)
  refine Keeps.bind (CasStore.keeps_new hblobs hincoming) fun r _ => ?_
  rcases r with e | -
  · exact only_done _
  refine Keeps.bind (TagRegistry.keeps_new htags) fun r _ => ?_
  rcases r with e | -
  · exact only_done _
  refine Only.bind (Only.perform hpinned fun r => ?_) fun r => ?_
  · cases r <;> exact only_done _
  · cases r <;> exact only_done _

theorem inCompany_runImport {chunking : Chunking} {pid : Pid} {source : Path} {tag : Option String} :
    InCompany sha root i (runImport sha chunking root pid source tag) (fun _ _ => True) g := by
  have hblobs : Quiet root (.createDirAll (CasStore.mk root).blobsDir) := CasStore.inArea_blobsDir.1
  have hincoming : Quiet root (.createDirAll (CasStore.mk root).incomingDir) :=
    CasStore.inArea_incomingDir.1
  have htags : Quiet root (.createDirAll (root.join "tags")) := TagRegistry.inArea_tagsDir.1
  unfold runImport
  refine .quiet trivial fun _ _ r _ _ _ _ => ?_
  split
  · exact .done trivial
  split
  · exact .done trivial
  refine (InCompany.of_keeps (CasStore.keeps_new hblobs hincoming)).bind ?_
  rintro r g ⟨hcas, rfl⟩
  rcases r with e | cas
  · exact InCompany.done trivial
  obtain rfl := hcas cas rfl
  refine (InCompany.of_keeps (TagRegistry.keeps_new htags)).bind ?_
  rintro r g ⟨htags, rfl⟩
  rcases r with e | tags
  · exact InCompany.done trivial
  obtain rfl := htags tags rfl
  refine InCompany.quiet trivial fun _ _ r _ _ _ _ => ?_
  rcases r with e | file
  · exact InCompany.done trivial
  refine InCompany.quiet (o := .read file) trivial fun _ _ r _ _ _ _ => ?_
  split
  · exact InCompany.done trivial
  refine InCompany.quiet (o := .read file) trivial fun _ _ r _ _ _ _ => ?_
  refine Pool.Outline.bind (Q := fun _ _ => True) ?_ fun r g _ => ?_
  swap
  · cases r <;> exact InCompany.done trivial
  unfold storeImport
  refine CasStore.inCompany_storeBlob.bind fun r g _ => ?_
  rcases r with e | ⟨digest, total⟩
  · exact InCompany.done trivial
  dsimp only
  split
  · exact InCompany.done trivial
  · rw [Path.join_name _ Dir.tags]
    exact TagRegistry.inCompany_setTag

/-- What a user gets is true, in any company. -/
theorem StoreUser.inCompany (user : StoreUser) :
    InCompany inst.sha inst.root i (user.program inst) (fun r _ => ∀ id d size sealed,
      r = some (.handoff (some (.descriptor id d size sealed))) →
        HandedOff inst.sha d size sealed) .nothing := by
  cases user with
  | start =>
    refine (InCompany.of_keeps quiet_openStorage).bind fun r g _ => InCompany.done ?_
    rintro id d size sealed ⟨⟩
  | importer chunking pid source tag =>
    refine inCompany_runImport.bind fun r g _ => InCompany.done ?_
    rintro id d size sealed ⟨⟩
  | client e =>
    cases e with
    | call request =>
      refine ((inCompany_dispatchCall request).bind fun r g _ => InCompany.done
        (Q := fun r _ => ∃ reply, r = ClientReply.call reply) ⟨r, rfl⟩).bind ?_
      rintro _ g ⟨reply, rfl⟩
      refine InCompany.done ?_
      rintro id d size sealed ⟨⟩
    | store pid reader expected =>
      refine (CasStore.inCompany_storeBlob.bind fun r g _ => InCompany.done
        (Q := fun r _ => ∃ result, r = ClientReply.store result) ⟨r, rfl⟩).bind ?_
      rintro _ g ⟨result, rfl⟩
      refine InCompany.done ?_
      rintro id d size sealed ⟨⟩
    | handoff request =>
      refine ((inCompany_handleFdRequest request).bind fun r g hr => InCompany.done
        (Q := fun reply _ => ∀ id d size sealed,
          reply = ClientReply.handoff (some (.descriptor id d size sealed)) →
            HandedOff inst.sha d size sealed) ?_).bind fun reply g hreply => InCompany.done ?_
      · intro id d size sealed heq
        rcases r with e | r
        · cases heq
        · cases heq
          exact hr id d size sealed rfl
      · intro id d size sealed heq
        exact hreply id d size sealed (Option.some.inj heq)

/-! ### Sessions -/

/-- The counters are no part of what is stored. -/
theorem Intact.of_counters (hi : Intact sha root h) (counters : Nat → Nat) :
    Intact sha root { h with counters := counters } :=
  ⟨⟨hi.sound.wellFormed.of_lookup_eq (fun _ => rfl) le_rfl, hi.sound.integral⟩, hi.shelved, hi.tags⟩

theorem intact_openedFs (root : Path) (hardLinks : Bool) (clock : Nat → Nat) :
    Intact sha root (openedFs root hardLinks clock) := by
  have hnone := lookup_openedFs_ne_file root hardLinks clock
  exact ⟨⟨wellFormed_openedFs .., fun d p i _ _ hi => absurd hi (hnone p i)⟩,
    fun q i _ hi => absurd hi (hnone q i), fun p i _ hi => absurd hi (hnone p i)⟩

/-- Where a session has come. -/
theorem outlined_session (hi : Intact inst.sha inst.root h) (users : ι → StoreUser)
    (counters : Nat → Nat) {pool : Pool ι Fs Reply (Option ClientReply)}
    (hrun : SessionRun (session inst users counters h) pool) :
    Pool.Outlined Fs.Answers (fun _ _ _ _ => True)
      (fun γ s _ => Shared inst.sha inst.root γ s) (fun _ _ _ _ => True)
      (fun _ r _ => ∀ id d size sealed, r = some (.handoff (some (.descriptor id d size sealed))) →
        HandedOff inst.sha d size sealed) pool := by
  refine hrun.outlined ⟨fun _ => .nothing, ⟨hi.of_counters counters, fun _ => trivial, ?_, ?_⟩,
    fun i => (users i).inCompany⟩
  · rintro i pid n ⟨⟩
  · rintro i j c ⟨⟩

theorem Reached.intact (hh : Reached inst h) : Intact inst.sha inst.root h := by
  induction hh with
  | opened hardLinks clock => exact intact_openedFs inst.root hardLinks clock
  | session hh users counters pool hrun ih =>
    obtain ⟨γ, hs, -⟩ := outlined_session ih users counters hrun
    exact hs.intact

/-- After any number of sessions, each left at any point, and at any point of the next one, an opened
blob has the digest that was asked for, and so has whatever was handed off. -/
theorem sessions_serve_true (inst : Installation) {h : Fs} (hh : Reached inst h) {ι : Type}
    [DecidableEq ι] (users : ι → StoreUser) (counters : Nat → Nat)
    (pool : Pool ι Fs Reply (Option ClientReply))
    (hrun : SessionRun (session inst users counters h) pool) :
    OpensTrue inst.sha inst.root pool.state ∧ ∀ i id d size sealed,
      pool.threads i = .done (some (.handoff (some (.descriptor id d size sealed)))) →
        HandedOff inst.sha d size sealed := by
  obtain ⟨γ, hs, hthreads⟩ := outlined_session hh.intact users counters hrun
  refine ⟨fun d x hd hx => hs.intact.sound.content hd hx, fun i id d size sealed hdone => ?_⟩
  have hi := hthreads i
  rw [hdone, Pool.outline_done] at hi
  exact hi id d size sealed rfl

/-- A run in which no call fails is one. -/
theorem sessionRun_of_reliable {pool pool' : Pool ι Fs Reply (Option ClientReply)}
    (hrun : Pool.Steps Fs.reliable (fun _ _ _ _ => True) pool pool') : SessionRun pool pool' := by
  induction hrun with
  | refl => exact .refl
  | tail _ hlast ih =>
    obtain ⟨i, o, k, r, s', hthread, hallowed, hsys⟩ := hlast
    exact ih.tail (.call i o k r s' hthread hallowed (.inl hsys))

/-- A store of one byte, and a handoff of it. -/
def sampleUsers : Bool → StoreUser
  | false => .client (.store 7 [.ok [1]] none)
  | true => .client (.handoff (.object [("id", .str digestOne)]))

/-- The byte is stored while the handoff waits, and then handed off. -/
theorem sample_session_serves : ∃ pool,
    SessionRun (session sampleInstallation sampleUsers (fun _ => 0) (sampleFs true)) pool ∧
    pool.threads true = .done (some (.handoff (some (.descriptor digestOne digestOne 1 [1])))) ∧
    HandedOff sampleSha digestOne 1 [1] := by
  obtain ⟨pool₁, hrun₁, hthreads₁, hstate₁⟩ := Pool.Steps.finish Fs.exec
    (fun _ _ _ _ => True) (fun _ => True) (i := false) _
    (session sampleInstallation sampleUsers (fun _ => 0) (sampleFs true)) rfl (only_true _)
    fun _ _ _ _ => trivial
  have htrue : pool₁.threads true = (sampleUsers true).program sampleInstallation := by
    rw [hthreads₁]
    rfl
  obtain ⟨pool₂, hrun₂, hthreads₂, -⟩ := Pool.Steps.finish Fs.exec
    (fun _ _ _ _ => True) (fun _ => True) (i := true) _ pool₁ htrue (only_true _)
    fun _ _ _ _ => trivial
  have hdone : pool₂.threads true =
      .done (some (.handoff (some (.descriptor digestOne digestOne 1 [1])))) := by
    rw [hthreads₂, Function.update_self, hstate₁]
    rfl
  have hrun := sessionRun_of_reliable (hrun₁.trans hrun₂)
  exact ⟨pool₂, hrun, hdone, (sessions_serve_true sampleInstallation (.opened true id) sampleUsers
    (fun _ => 0) pool₂ hrun).2 true _ _ _ _ hdone⟩

end Modeld
