import Modeld.Ctl.CommitRun
import Modeld.Daemon.CallFrame
import Modeld.Format.Delivery
import Modeld.Runs.BlobRuns
import Modeld.Runs.ImportErrors
import Modeld.Runs.Operations
import Modeld.Runs.PulledTags

/-!
# Pickles in the store

An import refuses a file that begins like a pickle or a zip archive, but not one that is too short
for the detector, and a pull does not look at what it downloads. Apart from these two ways in, no
blob begins so: every operation leaves the blobs as they were, or makes one of what it was given.
-/

namespace Modeld

open Host Program

variable {root : Path} {h h' : Fs} {bytes : Bytes}

instance (bytes : Bytes) : Decidable (IsDangerous bytes) :=
  inferInstanceAs (Decidable (isPickleHead bytes = true ∨ bytes.take 4 = ZIP_MAGIC))

/-- What the detector lets through is not dangerous, or too short for it. -/
theorem short_of_refusal_eq_none (hnone : refusal (.ok bytes) = none) (hbad : IsDangerous bytes) :
    bytes.length < 4 := by
  by_contra hlong
  have hseen : bytes.take 16 = bytes.take (min 16 bytes.length) := List.take_eq_take_min ..
  obtain ⟨reason, hreason⟩ := hbad.detect (show 4 ≤ min 16 bytes.length by omega) (by omega)
  rw [refusal, hseen, hreason] at hnone
  cases hnone

/-! ### Where blobs come from -/

/-- Every blob is one that was there before, as it was, or has a content of the given kind. -/
def BlobsFrom (root : Path) (P : Bytes → Prop) (h h' : Fs) : Prop :=
  ∀ d p i, IsDigest d → (CasStore.mk root).Names d p → h'.lookup p = some (.file i) →
    P (h'.data i) ∨ (h.lookup p = some (.file i) ∧ h'.data i = h.data i)

namespace BlobsFrom

variable {P Q : Bytes → Prop}

theorem refl : BlobsFrom root P h h := fun _ _ _ _ _ hi => .inr ⟨hi, rfl⟩

theorem mono (hs : BlobsFrom root P h h') (hPQ : ∀ bytes, P bytes → Q bytes) :
    BlobsFrom root Q h h' :=
  fun d p i hd hp hi => (hs d p i hd hp hi).imp_left (hPQ _)

theorem of_sameShelf (hs : SameShelf root h h') : BlobsFrom root P h h' := by
  intro d p i hd hp hi
  have hshelf := hp.onShelf hd
  rw [hs.lookup p hshelf] at hi
  exact .inr ⟨hi, congrArg Inode.data (hs.kept p i hshelf hi)⟩

theorem trans_sameStore {h₁ : Fs} (hs : BlobsFrom root P h h₁) (hs' : SameStore root h₁ h') :
    BlobsFrom root P h h' := by
  intro d p i hd hp hi
  have hcas := hp.in_cas hd
  rw [hs'.lookup p hcas] at hi
  rw [hs'.data p i hcas hi]
  exact hs d p i hd hp hi

theorem of_shelves {e : String} {new : Path → Option Ino} (hs : Shelves root e bytes new h h')
    (hbytes : P bytes) : BlobsFrom root P h h' := by
  intro d p i hd hp hi
  have hshelf := hp.onShelf hd
  rw [hs.lookup p hshelf] at hi
  cases hnew : new p with
  | some j =>
    rw [hnew] at hi
    obtain rfl : j = i := by simpa using hi
    rw [hs.data p j hnew]
    exact .inl hbytes
  | none =>
    rw [hnew] at hi
    exact .inr ⟨hi, congrArg Inode.data (hs.kept p i hshelf hnew hi)⟩

/-- A record that no digest has the name of. -/
theorem of_sameBut {R : Path → Prop} (hs : SameBut root R h h')
    (hR : ∀ q, R q → ¬ root ++ [Dir.cas] <+: q) : BlobsFrom root P h h' := by
  intro d p i hd hp hi
  have hother : ¬ R p := fun hbad => hR p hbad (hp.in_cas hd)
  rw [hs.lookup p hother] at hi
  exact .inr ⟨hi, congrArg Inode.data (hs.inodes p i (hp.under hd) hother hi)⟩

theorem of_takesAway {R : Path → Prop} (hs : TakesAway R h h') : BlobsFrom root P h h' := by
  intro d p i hd hp hi
  rcases hs.1 p with hsame | ⟨-, hnone⟩
  · rw [hsame] at hi
    exact .inr ⟨hi, congrArg Inode.data (congrFun hs.2 i)⟩
  · rw [hnone] at hi
    cases hi

end BlobsFrom

/-- A call to the daemon makes no blob. -/
theorem blobsFrom_dispatchCall {json : JsonLibrary} (call : VarlinkCall) (hw : WellFormed root h) :
    BlobsFrom root (fun _ => False) h
      ((dispatchCall json call (.ofRoot root)).run Fs.exec h).2 := by
  have hframe := @callFrame_dispatchCall root h json call hw
  generalize ((dispatchCall json call (.ofRoot root)).run Fs.exec h).2 = h' at hframe
  have hresolved : OnResolved root call.parameters h h' → BlobsFrom root (fun _ => False) h h' := by
    rintro (rfl | ⟨id, d, -, -, hs⟩)
    · exact .refl
    · refine .of_sameBut hs fun q hq => ?_
      obtain ⟨hd, rfl⟩ := hq
      exact not_under (x := Dir.pinned) (by simp) (by decide)
  by_cases hpin : call.method = "io.syntrop.Model1.Pin"
  · exact hresolved (hframe.pin hpin)
  by_cases hunpin : call.method = "io.syntrop.Model1.Unpin"
  · exact hresolved (hframe.unpin hunpin)
  by_cases hprune : call.method = "io.syntrop.Model1.Prune"
  · exact .of_takesAway (hframe.prune hprune)
  by_cases hregister : call.method = "io.syntrop.Model1.Register"
  · rcases hframe.register hregister with rfl | ⟨id, name, tag, -, -, hs⟩
    · exact .refl
    · refine .of_sameBut hs fun q hq => ?_
      rcases hq with rfl | ⟨rfl, -⟩
      · exact not_under (x := Dir.tags) (by simp) (by decide)
      · exact not_under (x := Dir.tags) (by simp) (by decide)
  · rw [hframe.other hpin hunpin hprune hregister]
    exact .refl

/-! ### What a pull puts on the shelf -/

namespace Pull

variable {p : Pull}

/-- The loop of the download writes what it returns. -/
theorem run_downloadLoop {file : Ino} (chunks : List (Except String Bytes)) (hashed : Bytes)
    (hdata : h.data file = hashed) :
    let r := (downloadLoop file chunks hashed).run Fs.exec h
    Fs.OnlyWrites file h r.2 ∧ ∀ bytes, r.1 = .ok bytes → r.2.data file = bytes := by
  induction chunks generalizing hashed h with
  | nil =>
    refine ⟨.refl, ?_⟩
    rintro _ ⟨⟩
    exact hdata
  | cons chunk chunks ih =>
    rcases chunk with e | chunk
    · exact ⟨.refl, nofun⟩
    · have hwrite : (h.writeAt file hashed.length chunk).data file = hashed ++ chunk := by
        rw [Fs.writeAt, Fs.data_setData_self, hdata, Fs.patch_length]
      obtain ⟨hwrites, hresult⟩ := ih (hashed ++ chunk) hwrite
      rw [downloadLoop, Fs.run_writeAt]
      exact ⟨Fs.OnlyWrites.setData.trans hwrites, hresult⟩

/-- A download leaves the shelf as it was, and a staged file when it succeeds. -/
theorem Valid.shelf_download (hp : p.Valid) (hw : WellFormed p.storageRoot h)
    (chunks : List (Except String Bytes)) :
    let r := (p.download chunks).run Fs.exec h
    WellFormed p.storageRoot r.2 ∧ SameShelf p.storageRoot h r.2 ∧ ∀ bytes, r.1 = .ok bytes →
      ∃ i, ArtifactCommit.StagedSince p.storageRoot p.stagePath i bytes h r.2 := by
  have hincoming : p.storageRoot ++ [Dir.cas, Dir.incoming] <+: p.stagePath := by
    rw [hp.stagePath_eq]
    simp
  have hnone : ∀ d, IsDigest d → ¬ (CasStore.mk p.storageRoot).Names d p.stagePath := by
    intro d hd
    rw [hp.stagePath_eq]
    exact CasStore.not_names_incoming hd _
  intro r
  have hr : r = (p.download chunks).run Fs.exec h := rfl
  clear_value r
  rw [download, Fs.run_create] at hr
  rcases hcreate : h.create p.stagePath with ⟨opened, h₁⟩
  rw [hcreate] at hr
  cases opened with
  | error e =>
    obtain rfl : h₁ = h := Fs.create_error hcreate
    rw [hr]
    exact ⟨hw, .refl, by rintro _ ⟨⟩⟩
  | ok file =>
    obtain ⟨hempty, -⟩ := Fs.create_spec hcreate
    obtain ⟨hwrites, hdata⟩ := run_downloadLoop chunks [] hempty
    obtain ⟨hw₂, hself, hsame, hfresh, htime⟩ :=
      CasStore.staged_spec hw hincoming hnone hcreate hwrites
    have hnext : h.nextIno ≤ h₁.nextIno := (Fs.create_frame hcreate).1
    dsimp only at hr
    rw [run_bind] at hr
    generalize (downloadLoop file chunks []).run Fs.exec h₁ = looped at *
    obtain ⟨result, h₂⟩ := looped
    cases result with
    | error e =>
      have hremove : h₂.removeFile p.stagePath = (.ok (), h₂.unlink p.stagePath) := by
        rw [Fs.removeFile, show h₂.lookup p.stagePath = some (.file file) from hself]
      dsimp only at hr
      rw [Fs.run_removeFile, hremove] at hr
      obtain rfl : r = (.error e, h₂.unlink p.stagePath) := hr
      refine ⟨hw₂.answers (o := .removeFile p.stagePath) (r := .ok ()) trivial (.inl hremove), ?_,
        by rintro _ ⟨⟩⟩
      refine hsame.trans ⟨fun q hq => ?_, fun _ _ _ _ => rfl, rfl, rfl, le_rfl⟩
      apply Fs.lookup_unlink_of_ne
      intro heq
      rw [heq] at hq
      exact hq.2 hincoming
    | ok bytes =>
      obtain rfl : r = (.ok bytes, h₂) := hr
      refine ⟨hw₂, hsame, fun found hfound => ?_⟩
      obtain rfl : bytes = found := Except.ok.inj hfound
      exact ⟨file, hw₂, hself, hnext.trans hwrites.nextIno.ge, hsame, hfresh, htime, hdata _ rfl⟩

/-- Committing what was downloaded puts it on the shelf. -/
theorem Valid.shelf_finish {h₀ : Fs} {i : Ino} (hp : p.Valid) (sha : Sha256)
    (hw₀ : WellFormed p.storageRoot h₀)
    (hs : ArtifactCommit.StagedSince p.storageRoot p.stagePath i bytes h₀ h) :
    ∃ new, Shelves p.storageRoot (sha.hash bytes) bytes new h₀
      ((p.finish sha bytes).run Fs.exec h).2 := by
  have hd := sha.isDigest_hash bytes
  have hc := hp.valid_commit hd
  have hstaged : ArtifactCommit.StagedSince (p.commit (sha.hash bytes)).storageRoot
      (p.commit (sha.hash bytes)).stagePath i bytes h₀ h := by
    rwa [storageRoot_commit, stagePath_commit]
  obtain ⟨j, h₁, hrun, hw₁, -, -, hshelves⟩ :=
    hc.run_staged (by rwa [storageRoot_commit]) hstaged
  rw [storageRoot_commit] at hw₁ hshelves
  rw [digest_commit] at hshelves
  have hafter := hc.offShelf_afterStore
  rw [storageRoot_commit] at hafter
  obtain ⟨hw₂, hsame₂⟩ := sameShelf_run hafter hw₁
  refine ⟨_, hshelves.trans_sameShelf hd (hsame₂.trans ?_)⟩
  rw [← hrun] at hw₂ ⊢
  rw [finish, run_bind]
  generalize (commitArtifact (p.commit (sha.hash bytes))).run Fs.exec h = committed at hw₂
  obtain ⟨result, h₂⟩ := committed
  cases result with
  | error e => exact .refl
  | ok u =>
    cases htokenizer : p.tokenizer with
    | none => exact .refl
    | some data =>
      have htok : Only (OffShelf p.storageRoot) (commitTokenizer p.storageRoot p.name data) :=
        (hp.outside_commitTokenizer data).mono fun _ ho => ⟨ho.1, ho.2.1 _ (.inl rfl), ho.2.2⟩
      dsimp only
      rw [run_bind]
      exact (sameShelf_run htok hw₂).2

/-- A pull leaves the shelf as it was, or puts on it what it was served. -/
theorem Valid.shelf_runPull (hp : p.Valid) (sha : Sha256) (hw : WellFormed p.storageRoot h) :
    let h' := ((runPull sha p).run Fs.exec h).2
    SameShelf p.storageRoot h h' ∨ ∃ bytes new, Served p.response bytes ∧
      Shelves p.storageRoot (sha.hash bytes) bytes new h h' := by
  intro h'
  have hh' : h' = ((runPull sha p).run Fs.exec h).2 := rfl
  clear_value h'
  rw [runPull_eq, run_bind, run_isPresent] at hh'
  dsimp only at hh'
  by_cases hpresent : p.presentIn h = true
  · rw [if_pos hpresent] at hh'
    rw [hh']
    exact .inl .refl
  rw [if_neg hpresent] at hh'
  unfold fetch at hh'
  cases hresponse : p.response with
  | error e =>
    rw [hresponse] at hh'
    rw [hh']
    exact .inl .refl
  | ok chunks =>
    have hdirs : h.createDirAll p.incomingDir = (.ok (), h) := by
      apply hw.createDirAll_of_base
      rw [incomingDir_eq]
      simp [baseDirs]
    obtain ⟨hw₁, hsame, hstaged⟩ := hp.shelf_download hw chunks
    have hserved := @served_of_download h p chunks
    rw [hresponse] at hh'
    dsimp only at hh'
    rw [Fs.run_createDirAll, hdirs] at hh'
    dsimp only at hh'
    rw [run_bind] at hh'
    generalize (p.download chunks).run Fs.exec h = downloaded at *
    obtain ⟨result, h₁⟩ := downloaded
    cases result with
    | error e =>
      rw [hh']
      exact .inl hsame
    | ok bytes =>
      obtain ⟨i, hstaged⟩ := hstaged bytes rfl
      obtain ⟨new, hnew⟩ := hp.shelf_finish sha hw hstaged
      rw [hh']
      exact .inr ⟨bytes, new, hserved rfl, hnew⟩

end Pull

/-! ### What an import puts on the shelf -/

theorem sameStore_setTag {name tag d : String} (hw : WellFormed root h) (hd : IsDigest d) :
    SameStore root h (((TagRegistry.ofRoot root).setTag name tag d).run Fs.exec h).2 := by
  rcases @TagRegistry.run_setTag_cases root h name tag d hw hd with
    ⟨⟨hname, htag, -⟩, hok⟩ | ⟨-, -, hsame⟩
  · rcases TagRegistry.run_setTag hw hname htag hd with ⟨-, ⟨e, he⟩, -⟩ | ⟨-, -, -, -, -, hsame⟩
    · exact absurd (hok.symm.trans he) nofun
    · exact hsame
  · exact hsame.store

/-- An import makes no blob but one of its source, which the detector has not refused. -/
theorem blobsFrom_runImport {sha : Sha256} {chunking : Chunking} {pid : Pid} {source : Path}
    {tag : Option String} (hw : WellFormed root h) :
    BlobsFrom root (fun bytes => ∃ i, h.fileAt source = some i ∧ h.data i = bytes ∧
      refusal (.ok bytes) = none) h
      ((runImport sha chunking root pid source tag).run Fs.exec h).2 := by
  have hexec : execReading none = Fs.exec := by
    funext o s
    cases o <;> rfl
  have hcases := @run_runImport_cases root h sha chunking pid source tag none hw
  rw [hexec] at hcases
  rcases hcases with ⟨hsame, -⟩ | ⟨reading, ⟨i, hi, hreading⟩, hrefusal, -, -, hstate⟩
  · rw [hsame]
    exact .refl
  obtain rfl : reading = .ok (h.data i) := hreading
  rw [hstate]
  have hcontent : Reader.content (chunking.reader (.ok (h.data i))) = .ok (h.data i) :=
    chunking.content_split _
  obtain ⟨haccepts, hrefuses⟩ := @CasStore.run_storeBlob root h sha pid
    (chunking.reader (.ok (h.data i))) none hw
  have hw₁ : WellFormed root (((CasStore.mk root).storeBlob sha pid
      (chunking.reader (.ok (h.data i))) none).run Fs.exec h).2 :=
    Only.run (I := WellFormed root) Fs.exec (fun _ _ ho hs => hs.answers ho.1 (.inl rfl))
      CasStore.inArea_storeBlob hw
  rw [storeImport, run_bind]
  generalize ((CasStore.mk root).storeBlob sha pid (chunking.reader (.ok (h.data i))) none).run
    Fs.exec h = stored at *
  have hstored : BlobsFrom root (fun bytes => ∃ i, h.fileAt source = some i ∧ h.data i = bytes ∧
      refusal (.ok bytes) = none) h stored.2 ∧
      ∀ x, stored.1 = .ok x → IsDigest x.1 := by
    by_cases haccepted : ∃ bytes, (CasStore.mk root).Accepts sha pid
        (chunking.reader (.ok (h.data i))) none h bytes
    · obtain ⟨bytes, hbytes⟩ := haccepted
      obtain rfl : h.data i = bytes := Except.ok.inj (hcontent.symm.trans hbytes.1)
      obtain ⟨hok, j, hshelves⟩ := haccepts _ hbytes
      refine ⟨.of_shelves hshelves ⟨i, hi, rfl, hrefusal⟩, fun x hx => ?_⟩
      obtain rfl : (_, _) = x := Except.ok.inj (hok.symm.trans hx)
      exact sha.isDigest_hash _
    · obtain ⟨⟨e, he⟩, hsame⟩ := hrefuses haccepted
      refine ⟨.of_sameShelf hsame, fun x hx => ?_⟩
      cases he.symm.trans hx
  obtain ⟨hstored, hdigest⟩ := hstored
  obtain ⟨result, h₁⟩ := stored
  rcases result with e | ⟨digest, total⟩
  · exact hstored
  cases tag with
  | none => exact hstored
  | some t =>
    exact hstored.trans_sameStore (sameStore_setTag hw₁ (hdigest _ rfl))

/-! ### Runs -/

namespace Operation

/-- What an operation may put into the store. -/
def MayStore (h : Fs) : Operation → Bytes → Prop
  | call _, _ => False
  | store _ reader _, bytes => reader.content = .ok bytes
  | pull p, bytes => Served p.response bytes
  | commit staged _, bytes => bytes = staged
  | importFile _ _ source _, bytes => ∃ i, h.fileAt source = some i ∧ h.data i = bytes ∧
      refusal (.ok bytes) = none

/-- An operation makes no blob but of what it may store. -/
theorem Valid.blobsFrom {inst : Installation} {o : Operation} (ho : o.Valid inst.root)
    (hw : WellFormed inst.root h) : BlobsFrom inst.root (o.MayStore h) h (o.after inst h) := by
  have hafter : ∀ {α : Type} (p : Io α),
      ((p >>= fun _ => (pure () : Io Unit)).run Fs.exec h).2 = (p.run Fs.exec h).2 := by
    intro α p
    rw [run_bind]
    rfl
  cases o with
  | call c =>
    rw [after, program, hafter]
    exact blobsFrom_dispatchCall c hw
  | store pid reader expected =>
    rw [after, program, hafter]
    obtain ⟨haccepts, hrefuses⟩ :=
      @CasStore.run_storeBlob inst.root h inst.sha pid reader expected hw
    by_cases haccepted : ∃ bytes, inst.cas.Accepts inst.sha pid reader expected h bytes
    · obtain ⟨bytes, hbytes⟩ := haccepted
      obtain ⟨-, i, hshelves⟩ := haccepts bytes hbytes
      exact .of_shelves hshelves hbytes.1
    · exact .of_sameShelf (hrefuses haccepted).2
  | pull p =>
    obtain ⟨hroot, hp⟩ := ho
    rw [after, program, hafter]
    rw [← hroot] at hw ⊢
    rcases hp.shelf_runPull inst.sha hw with hsame | ⟨bytes, new, hserved, hshelves⟩
    · exact .of_sameShelf hsame
    · exact .of_shelves hshelves hserved
  | commit staged c =>
    have hcommit : (commit staged c).after inst h = (BlobEvent.commit staged c).after inst h := by
      rw [BlobEvent.after_commit_eq, after, program, run_bind, run_bind, run_bind]
      rfl
    obtain ⟨hstages, hfails⟩ := BlobEvent.after_commit hw ho
    rw [hcommit]
    by_cases hdir : h.lookup c.stagePath = some .dir
    · rw [hfails hdir]
      exact .refl
    · obtain ⟨i, j, -, -, hshelves⟩ := hstages hdir
      exact .of_shelves hshelves rfl
  | importFile chunking pid source tag =>
    rw [after, program, hafter]
    exact blobsFrom_runImport hw

/-- The operation puts nothing into the store that begins like a pickle or a zip archive: no such
file is served, stored or committed, and none that is too short for the detector is imported. -/
def Vetted (h : Fs) : Operation → Prop
  | call _ => True
  | store _ reader _ => ∀ bytes, reader.content = .ok bytes → ¬ IsDangerous bytes
  | pull p => ∀ bytes, Served p.response bytes → ¬ IsDangerous bytes
  | commit staged _ => ¬ IsDangerous staged
  | importFile _ _ source _ => ∀ i, h.fileAt source = some i → (h.data i).length < 4 →
      ¬ IsDangerous (h.data i)

theorem Vetted.not_dangerous {o : Operation} (ho : o.Vetted h) (hbytes : o.MayStore h bytes) :
    ¬ IsDangerous bytes := by
  cases o with
  | call c => exact hbytes.elim
  | store pid reader expected => exact ho bytes hbytes
  | pull p => exact ho bytes hbytes
  | commit staged c =>
    obtain rfl : bytes = staged := hbytes
    exact ho
  | importFile chunking pid source tag =>
    obtain ⟨i, hi, rfl, hrefusal⟩ := hbytes
    intro hbad
    exact ho i hi (short_of_refusal_eq_none hrefusal hbad) hbad

end Operation

/-- No blob begins like a pickle or a zip archive. -/
def NoDangerousBlob (root : Path) (h : Fs) : Prop :=
  ∀ d p i, IsDigest d → (CasStore.mk root).Names d p → h.lookup p = some (.file i) →
    ¬ IsDangerous (h.data i)

/-- One operation. -/
theorem NoDangerousBlob.after {inst : Installation} {o : Operation}
    (hsafe : NoDangerousBlob inst.root h) (ho : o.Valid inst.root) (hw : WellFormed inst.root h)
    (hvetted : o.Vetted h) : NoDangerousBlob inst.root (o.after inst h) := by
  intro d p i hd hp hi
  rcases ho.blobsFrom hw d p i hd hp hi with hnew | ⟨hold, hsame⟩
  · exact hvetted.not_dangerous hnew
  · rw [hsame]
    exact hsafe d p i hd hp hold

end Modeld
