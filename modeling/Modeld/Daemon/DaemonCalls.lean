import Modeld.Core.Footprint
import Modeld.Daemon.Model1

/-!
# Which calls the daemon makes

`List`, `Inspect` and `GetStorageStats` only read. `Pin`, `Unpin`, `Prune` and `Register` each write
in one area of the storage root.
-/

namespace Modeld

open Host Program

variable {may : Call → Prop} {json : JsonLibrary} {params : Option Json}
  {ctx : ModelServiceContext} {id digest name tag : String}

/-! ### What only reads -/

theorem only_resolveDigest {tags : TagRegistry} : Only Reads (resolveDigest tags id) := by
  refine TagRegistry.only_resolve.bind fun r => ?_
  rcases r with e | d | d <;> exact only_done _

theorem only_detectFile {file : Ino} : Only Looks (detectFile file) := by
  refine Only.perform trivial fun r => ?_
  cases r <;> exact only_done _

theorem only_parseFile {α : Type} {parse : Bytes → Except ModeldError α} {file : Ino} :
    Only Looks (parseFile parse file) := by
  refine Only.perform trivial fun r => ?_
  cases r <;> exact only_done _

theorem only_describeFile {format : Option SafeFormat} {file : Ino} :
    Only Looks (describeFile json digest format file) := by
  unfold describeFile
  split
  · refine only_parseFile.bind fun r => ?_
    cases r <;> exact only_done _
  · refine only_parseFile.bind fun r => ?_
    cases r <;> exact only_done _

theorem only_sizeOrZero {cas : CasStore} : Only Looks (sizeOrZero cas digest) := by
  refine CasStore.only_blobSize.bind fun r => ?_
  cases r <;> exact only_done _

theorem only_inspectBlob {cas : CasStore} : Only Reads (inspectBlob json cas digest) := by
  refine CasStore.only_openBlob.bind fun r => ?_
  rcases r with e | file
  · exact only_done _
  · exact reads_of_looks (only_detectFile.bind fun _ => only_describeFile.bind fun _ => only_done _)

theorem only_handleInspect : Only Reads (handleInspect json params ctx) := by
  unfold handleInspect
  split
  · exact only_done _
  refine only_resolveDigest.bind fun outcome => ?_
  cases outcome with
  | ok digest =>
    refine (reads_of_looks only_sizeOrZero).bind fun _ => ?_
    refine (reads_of_looks EvictionManager.only_isPinned).bind fun _ => ?_
    exact only_inspectBlob.bind fun _ => only_done _
  | invalid => exact only_done _
  | notFound => exact only_done _

theorem only_listFormat {cas : CasStore} : Only Reads (listFormat cas digest) := by
  refine CasStore.only_openBlob.bind fun r => ?_
  rcases r with e | file
  · exact only_done _
  · exact reads_of_looks (only_detectFile.bind fun _ => only_done _)

theorem only_listEntry {tag : ModelTag} : Only Reads (listEntry ctx tag) :=
  (reads_of_looks only_sizeOrZero).bind fun _ =>
    (reads_of_looks EvictionManager.only_isPinned).bind fun _ => only_listFormat.bind fun _ => only_done _

theorem only_listEntries (tags : List ModelTag) : Only Reads (listEntries ctx tags) := by
  induction tags with
  | nil => exact only_done _
  | cons tag tags ih => exact only_listEntry.bind fun _ => ih.bind fun _ => only_done _

theorem only_handleList : Only Reads (handleList ctx) :=
  TagRegistry.only_listTags.bind fun _ => (only_listEntries _).bind fun _ => only_done _

theorem only_storageStats {cas : CasStore} : Only Reads (storageStats cas) :=
  Only.perform trivial fun _ => Only.perform trivial fun _ => only_done _

theorem only_handleGetStorageStats : Only Reads (handleGetStorageStats ctx) :=
  only_storageStats.bind fun _ => EvictionManager.only_listPinned.bind fun _ => only_done _

theorem only_digestCandidate {tags : TagRegistry} {d : Option String} :
    Only Reads (digestCandidate tags name tag d) := by
  unfold digestCandidate
  cases d with
  | some d => exact only_done _
  | none =>
    refine TagRegistry.only_resolve.bind fun r => ?_
    rcases r with e | d | d <;> exact only_done _

theorem only_registerBlob {cas : CasStore} : Only Reads (registerBlob json cas digest) := by
  refine CasStore.only_openBlob.bind fun r => ?_
  rcases r with e | file
  · exact only_done _
  refine (reads_of_looks only_detectFile).bind fun r => ?_
  split
  · exact only_done _
  · exact (reads_of_looks only_describeFile).bind fun _ => only_done _

theorem only_describeEntry : Only Reads (describeEntry json ctx name tag digest) := by
  refine (reads_of_looks only_sizeOrZero).bind fun _ => ?_
  refine (reads_of_looks EvictionManager.only_isPinned).bind fun _ => ?_
  refine only_registerBlob.bind fun r => ?_
  cases r <;> exact only_done _

/-! ### What writes -/

theorem only_handleDigest {α : Type}
    {operation : EvictionManager → String → Io (Except ModeldError α)}
    (hreads : ∀ o, Reads o → may o) (hop : ∀ d, Only may (operation ctx.eviction d)) :
    Only may (handleDigest operation params ctx) := by
  unfold handleDigest
  split
  · exact only_done _
  refine (only_resolveDigest.mono hreads).bind fun outcome => ?_
  cases outcome with
  | ok digest =>
    refine (hop digest).bind fun r => ?_
    cases r <;> exact only_done _
  | invalid => exact only_done _
  | notFound => exact only_done _

theorem only_handlePrune (hprune : Only may (ctx.eviction.prune ctx.cas (maxBytesParam params))) :
    Only may (handlePrune params ctx) := by
  unfold handlePrune
  split
  · exact only_done _
  refine hprune.bind fun r => ?_
  cases r <;> exact only_done _

theorem only_handleRegister (hreads : ∀ o, Reads o → may o)
    (hset : ∀ name tag d, Only may (ctx.tags.setTag name tag d)) :
    Only may (handleRegister json params ctx) := by
  unfold handleRegister
  split
  · exact only_done _
  dsimp only
  split
  · exact only_done _
  split
  · exact only_done _
  refine (only_digestCandidate.mono hreads).bind fun r => ?_
  rcases r with reply | candidate
  · exact only_done _
  dsimp only
  split
  · exact only_done _
  refine (hset _ _ _).bind fun r => ?_
  rcases r with e | -
  · exact only_done _
  · exact only_describeEntry.mono hreads

/-! ### Where the calls go -/

/-- The context of a storage root. -/
abbrev ModelServiceContext.ofRoot (root : Path) : ModelServiceContext :=
  ⟨⟨root⟩, TagRegistry.ofRoot root, EvictionManager.ofRoot root⟩

variable {root : Path}

theorem inArea_handlePin :
    Only (InArea root Dir.pinned) (handlePin params (ModelServiceContext.ofRoot root)) :=
  only_handleDigest (fun _ => Reads.inArea) fun _ => EvictionManager.inArea_pin

theorem inArea_handleUnpin :
    Only (InArea root Dir.pinned) (handleUnpin params (ModelServiceContext.ofRoot root)) :=
  only_handleDigest (fun _ => Reads.inArea) fun _ => EvictionManager.inArea_unpin

theorem inArea_handlePrune :
    Only (InArea root Dir.cas) (handlePrune params (ModelServiceContext.ofRoot root)) :=
  only_handlePrune EvictionManager.inArea_prune

theorem inArea_handleRegister :
    Only (InArea root Dir.tags) (handleRegister json params (ModelServiceContext.ofRoot root)) :=
  only_handleRegister (fun _ => Reads.inArea) fun _ _ _ => TagRegistry.inArea_setTag

/-- Every method but `Pin` and `Unpin` leaves the pins alone. -/
theorem keepsPins_dispatchCall (call : VarlinkCall) (hpin : call.method ≠ "io.syntrop.Model1.Pin")
    (hunpin : call.method ≠ "io.syntrop.Model1.Unpin") :
    Only (KeepsPins root) (dispatchCall json call (ModelServiceContext.ofRoot root)) := by
  have hreads : ∀ {p : Io VarlinkReply}, Only Reads p → Only (KeepsPins root) p :=
    fun hp => hp.mono fun _ ho => ho.inArea.keepsPins (x := Dir.cas) (by decide)
  unfold dispatchCall
  split
  · exact hreads (only_done _)
  split
  · rename_i hcall
    unfold handleModel1Call at hcall
    rw [if_neg hpin, if_neg hunpin] at hcall
    split_ifs at hcall
    all_goals obtain rfl := Option.some.inj hcall
    · exact hreads only_handleList
    · exact hreads only_handleInspect
    · exact inArea_handleRegister.mono fun _ ho => ho.keepsPins (by decide)
    · exact inArea_handlePrune.mono fun _ ho => ho.keepsPins (by decide)
    · exact hreads only_handleGetStorageStats
  · exact hreads (only_done _)

theorem dispatchCall_inspect (params : Option Json) (more : Option Bool) :
    dispatchCall json ⟨"io.syntrop.Model1.Inspect", params, more⟩ ctx = handleInspect json params ctx :=
  rfl

theorem dispatchCall_pin (params : Option Json) (more : Option Bool) :
    dispatchCall json ⟨"io.syntrop.Model1.Pin", params, more⟩ ctx = handlePin params ctx := rfl

theorem dispatchCall_unpin (params : Option Json) (more : Option Bool) :
    dispatchCall json ⟨"io.syntrop.Model1.Unpin", params, more⟩ ctx = handleUnpin params ctx := rfl

theorem dispatchCall_prune (params : Option Json) (more : Option Bool) :
    dispatchCall json ⟨"io.syntrop.Model1.Prune", params, more⟩ ctx = handlePrune params ctx := rfl

/-- Every call of the daemon keeps to the layout. -/
theorem tidy_dispatchCall (call : VarlinkCall) :
    Only (Tidy root) (dispatchCall json call (ModelServiceContext.ofRoot root)) := by
  obtain ⟨method, params, more⟩ := call
  rcases eq_or_ne method "io.syntrop.Model1.Pin" with rfl | hpin
  · rw [dispatchCall_pin]
    exact inArea_handlePin.mono fun _ ho => ho.1
  rcases eq_or_ne method "io.syntrop.Model1.Unpin" with rfl | hunpin
  · rw [dispatchCall_unpin]
    exact inArea_handleUnpin.mono fun _ ho => ho.1
  · exact (keepsPins_dispatchCall _ hpin hunpin).mono fun _ ho => ho.1

end Modeld
