import Modeld.Core.Blobs
import Modeld.Core.Shelf

/-!
# What storing a blob does

Run alone, `store_blob` gives the path that `blob_path` chooses to a new file, or leaves every name
in the store as it was.
-/

namespace Modeld

open Host Program

variable {root : Path} {h h' h'' : Fs} {d : String} {p q : Path} {i : Ino}

namespace CasStore

/-! ### The stream -/

/-- What the loop returns, and what the file holds afterwards. -/
theorem run_storeLoop {file : Ino} (reader : Reader) (hashed : Bytes) (total : Nat)
    (hdata : h.data file = hashed) (htotal : total = hashed.length) :
    (∀ e, reader.content = .error e →
      ((storeLoop file reader hashed total).run Fs.exec h).1 = .error (.io e)) ∧
    (∀ rest, reader.content = .ok rest →
      ((storeLoop file reader hashed total).run Fs.exec h).1 =
        .ok (hashed ++ rest, (hashed ++ rest).length) ∧
      ((storeLoop file reader hashed total).run Fs.exec h).2.data file = hashed ++ rest) ∧
    Fs.OnlyWrites file h ((storeLoop file reader hashed total).run Fs.exec h).2 := by
  induction reader generalizing hashed total h with
  | nil =>
    refine ⟨nofun, ?_, .refl⟩
    rintro rest ⟨⟩
    rw [List.append_nil]
    exact ⟨by rw [htotal]; rfl, hdata⟩
  | cons chunk reader ih =>
    rcases chunk with e | chunk
    · refine ⟨?_, nofun, .refl⟩
      rintro e' ⟨⟩
      rfl
    by_cases hempty : chunk = []
    · have hrun : storeLoop file (.ok chunk :: reader) hashed total = Program.done (.ok (hashed, total)) := by
        rw [storeLoop, if_pos hempty]
        rfl
      have hcontent : Reader.content (.ok chunk :: reader) = .ok [] := by
        rw [Reader.content, if_pos hempty]
      rw [hrun, hcontent]
      refine ⟨nofun, ?_, .refl⟩
      rintro rest ⟨⟩
      rw [List.append_nil]
      exact ⟨by rw [htotal]; rfl, hdata⟩
    · have hwrite : (h.writeAt file hashed.length chunk).data file = hashed ++ chunk := by
        rw [Fs.writeAt, Fs.data_setData_self, hdata, Fs.patch_length]
      have hrun : (storeLoop file (.ok chunk :: reader) hashed total).run Fs.exec h =
          (storeLoop file reader (hashed ++ chunk) (total + chunk.length)).run Fs.exec
            (h.writeAt file hashed.length chunk) := by
        rw [storeLoop, if_neg hempty, Fs.run_writeAt]
      obtain ⟨herror, hok, hwrites⟩ := ih (hashed ++ chunk) (total + chunk.length) hwrite
        (by rw [htotal, List.length_append])
      rw [hrun, Reader.content, if_neg hempty]
      refine ⟨fun e he => ?_, fun rest hrest => ?_, Fs.OnlyWrites.setData.trans hwrites⟩
      · cases hcontent : Reader.content reader with
        | error e' =>
          rw [hcontent] at he
          cases he
          exact herror e hcontent
        | ok rest =>
          rw [hcontent] at he
          cases he
      · cases hcontent : Reader.content reader with
        | error e' =>
          rw [hcontent] at hrest
          cases hrest
        | ok rest' =>
          rw [hcontent] at hrest
          cases hrest
          rw [← List.append_assoc]
          exact hok rest' hcontent

/-! ### One call -/

variable {sha : Sha256} {pid : Pid} {reader : Reader} {expected : Option String}

/-- What a call that creates its staging file does on the shelf until it renames the file. -/
theorem staged_spec {file : Ino} (hw : WellFormed root h) (hroot : root ++ [Dir.cas, Dir.incoming] <+: p)
    (hnone : ∀ d, IsDigest d → ¬ (mk root).Names d p) (hc : h.create p = (.ok file, h'))
    (hwrites : Fs.OnlyWrites file h' h'') :
    WellFormed root h'' ∧ h''.lookup p = some (.file file) ∧ SameShelf root h h'' ∧
      (∀ q, OnShelf root q → h.lookup q ≠ some (.file file)) ∧ Fs.WrittenSince file h h'' := by
  have hcas : root ++ [Dir.cas] <+: p := by
    refine List.IsPrefix.trans ?_ hroot
    simp
  have hlink : ¬ LinkPlace root p := not_linkPlace_of_area hcas (by decide) (by decide)
  have hfinal := hw.final_eq (under_root hcas) hlink
  obtain ⟨hself, hother⟩ := Fs.create_lookup hc hfinal
  obtain ⟨-, hinodes, ⟨k, hk, hk', htime⟩, hclock, hlinks, -⟩ := Fs.create_spec hc
  have hne : ∀ q, OnShelf root q → q ≠ p := by
    rintro q hq rfl
    exact hq.2 hroot
  have hfresh : ∀ q, OnShelf root q → h.lookup q ≠ some (.file file) := by
    intro q hq hqi
    obtain ⟨-, hold | rfl, -⟩ := Fs.create_frame hc
    · rw [hw.fileAt_eq_some (under_root hcas) hlink] at hold
      exact hne q hq (hw.eq_of_shared (under_root hcas) (under_root hq.1) hold hqi hnone).symm
    · exact lt_irrefl _ (hw.fresh q _ (under_root hq.1) hqi)
  have hexec : Fs.exec (.create p) h = (.ok file, h') := hc
  have hw' : WellFormed root h' := hw.answers (o := .create p) ⟨under_root hcas, hlink⟩ (.inl hexec)
  refine ⟨hw'.of_lookup_eq hwrites.lookup hwrites.nextIno.ge, (hwrites.lookup p).trans hself,
    ⟨fun q hq => ?_, fun q j hq hqj => ?_, hwrites.hardLinks.trans hlinks, hwrites.clock.trans hclock,
      (hk.trans hk'.le).trans hwrites.ticks⟩, hfresh, ?_⟩
  · exact (hwrites.lookup q).trans (hother q (hne q hq))
  · have hji : j ≠ file := by
      rintro rfl
      exact hfresh q hq hqj
    exact (hwrites.inodes j hji).trans (hinodes j hji)
  · rcases hwrites.time with hsame | ⟨l, hl, hl', htime'⟩
    · exact ⟨k, hk, hk'.trans_le hwrites.ticks, by rw [hsame, htime]⟩
    · exact ⟨l, (hk.trans hk'.le).trans hl, hl', by rw [htime', hclock]⟩

/-- The path that `blob_path` chooses depends on the names of the digest only. -/
theorem blobPathAt_congr (hw : WellFormed root h) (hw' : WellFormed root h') (hd : IsDigest d)
    (hl : ∀ p, (mk root).Names d p → h'.lookup p = h.lookup p) :
    (mk root).blobPathAt h' d = (mk root).blobPathAt h d := by
  have hfile : ∀ p, (mk root).Names d p → h'.isFile p = h.isFile p := by
    intro p hp
    rw [Bool.eq_iff_iff, isFile_iff hw hd hp, isFile_iff hw' hd hp, hl p hp]
  rw [blobPathAt, blobPathAt, hfile _ (.inl rfl), hfile _ (.inr (.inl rfl)), hfile _ (.inr (.inr rfl))]

theorem names_blobPathAt : (mk root).Names d ((mk root).blobPathAt h d) := by
  unfold blobPathAt
  split
  · exact .inl rfl
  split
  · exact .inr (.inl rfl)
  split
  · exact .inr (.inr rfl)
  · exact .inl rfl

/-- A staged file is put where the digest has its blob. -/
theorem run_storeStaged {file : Ino} {total : Nat} (hw : WellFormed root h)
    (hd : IsDigest d) (hroot : root ++ [Dir.cas, Dir.incoming] <+: p)
    (hnone : ∀ d, IsDigest d → ¬ (mk root).Names d p) (hp : h.lookup p = some (.file file)) :
    let r := ((mk root).storeStaged p d total expected).run Fs.exec h
    (∀ e, mismatch d expected = some e →
      r.1 = .error (.digestMismatch e d) ∧ r.2 = h.unlink p ∧ SameShelf root h r.2) ∧
    (mismatch d expected = none → r.1 = .ok (d, total) ∧ r.2.lookup p = none ∧
      r.2 = (h.unlink p).setEntry ((mk root).blobPathAt h d) (.file file)) := by
  intro r
  have hpne : p ≠ [] := by
    rintro rfl
    exact absurd (List.prefix_nil.1 hroot) (by simp)
  have htarget : (mk root).Names d ((mk root).blobPathAt h d) := names_blobPathAt
  have hunder : root <+: p := (List.prefix_append _ _).trans hroot
  have hne : p ≠ (mk root).blobPathAt h d := fun heq => hnone d hd (heq ▸ htarget)
  constructor
  · intro e he
    have hremove : h.removeFile p = (.ok (), h.unlink p) := by
      rw [Fs.removeFile, hp]
    have hrun : r = (.error (.digestMismatch e d), h.unlink p) := by
      change ((mk root).storeStaged p d total expected).run Fs.exec h = _
      rw [storeStaged, he]
      dsimp only
      rw [Fs.run_removeFile, hremove]
      rfl
    rw [hrun]
    refine ⟨rfl, rfl, ⟨fun q hq => ?_, fun _ _ _ _ => rfl, rfl, rfl, le_rfl⟩⟩
    apply Fs.lookup_unlink_of_ne
    rintro rfl
    exact hq.2 hroot
  · intro hmatch
    have hrename : h.rename p ((mk root).blobPathAt h d) =
        (.ok (), (h.unlink p).setEntry ((mk root).blobPathAt h d) (.file file)) := by
      refine Fs.rename_ok hp (hw.notDir d _ hd htarget) (fun hsame => hne ?_)
        (hw.parent_of_names hd htarget)
      exact hw.eq_of_shared hunder (htarget.under hd) hp hsame hnone
    have hrun : r = (.ok (d, total), (h.unlink p).setEntry ((mk root).blobPathAt h d) (.file file)) := by
      change ((mk root).storeStaged p d total expected).run Fs.exec h = _
      rw [storeStaged, hmatch]
      dsimp only
      rw [run_bind, run_blobPath]
      dsimp only
      rw [Fs.run_rename, hrename]
      rfl
    rw [hrun]
    refine ⟨rfl, ?_, rfl⟩
    rw [Fs.lookup_setEntry_of_ne hne, Fs.lookup_unlink_self hpne]

/-- What is renamed from the staging directory to a name of a digest is on the shelf. -/
theorem shelves_of_rename {file : Ino} {bytes : Bytes} {target : Path} {h₀ : Fs}
    (hs : SameShelf root h₀ h) (hd : IsDigest d) (htarget : (mk root).Names d target)
    (hroot : root ++ [Dir.cas, Dir.incoming] <+: p)
    (hfresh : ∀ q, OnShelf root q → h₀.lookup q ≠ some (.file file))
    (hdata : h.data file = bytes) (htime : Fs.WrittenSince file h₀ h) :
    Shelves root d bytes (fun q => if q = target then some file else none) h₀
      ((h.unlink p).setEntry target (.file file)) where
  names q i hq := by
    split at hq
    · rename_i heq
      rw [heq]
      exact htarget
    · cases hq
  lookup q hq := by
    have hqp : q ≠ p := by
      rintro rfl
      exact hq.2 hroot
    have htargetne : target ≠ [] := by
      rintro rfl
      exact absurd (List.prefix_nil.1 (htarget.in_cas hd)) (by simp)
    rw [Fs.lookup_setEntry htargetne]
    split
    · rfl
    · rw [Fs.lookup_unlink_of_ne hqp, hs.lookup q hq]
      rfl
  fresh q i hq := by
    split at hq
    · cases hq
      exact hfresh
    · cases hq
  data q i hq := by
    split at hq
    · cases hq
      exact hdata
    · cases hq
  time q i hq := by
    split at hq
    · cases hq
      exact htime
    · cases hq
  kept q j hq _ := hs.kept q j hq
  hardLinks := hs.hardLinks
  clock := hs.clock
  ticks := hs.ticks

/-- The staging file of the next call. -/
def nextStage (s : CasStore) (pid : Pid) (h : Fs) : Path := s.stagePath (nonceOf pid (h.counters pid))

/-- The call stores the content: the stream has one, of the expected digest, and can be staged. -/
def Accepts (s : CasStore) (sha : Sha256) (pid : Pid) (reader : Reader) (expected : Option String)
    (h : Fs) (bytes : Bytes) : Prop :=
  reader.content = .ok bytes ∧ mismatch (sha.hash bytes) expected = none ∧
    h.lookup (s.nextStage pid h) ≠ some .dir

/-- What is left of a call once its staging file is there. -/
def storeInto (s : CasStore) (sha : Sha256) (reader : Reader) (expected : Option String) (stage : Path)
    (file : Ino) : Io (Except ModeldError (String × Nat)) := do
  match ← storeLoop file reader [] 0 with
  | .error e => return .error e
  | .ok (hashed, total) => s.storeStaged stage (sha.hash hashed) total expected

/-- What is left of a call once it has asked for its staging file. -/
def storeOpened (s : CasStore) (sha : Sha256) (reader : Reader) (expected : Option String)
    (stage : Path) : Except IoError Ino → Io (Except ModeldError (String × Nat))
  | .error e => return .error (.io e)
  | .ok file => s.storeInto sha reader expected stage file

theorem nextStage_incoming : root ++ [Dir.cas, Dir.incoming] <+: (mk root).nextStage pid h := by
  rw [nextStage, stagePath_eq]
  exact ⟨[_], List.append_assoc ..⟩

theorem not_names_nextStage (hd : IsDigest d) : ¬ (mk root).Names d ((mk root).nextStage pid h) := by
  rw [nextStage, stagePath_eq]
  exact not_names_incoming hd _

/-- A call starts with its staging file, unless a directory is in its place. -/
theorem run_storeBlob_start (hw : WellFormed root h) :
    let stage := (mk root).nextStage pid h
    let r := ((mk root).storeBlob sha pid reader expected).run Fs.exec h
    (h.lookup stage = some .dir ∧ r = (.error (.io .isADirectory), (h.fetchAdd pid).2)) ∨
    (h.lookup stage ≠ some .dir ∧ ∃ file h₁, (h.fetchAdd pid).2.create stage = (.ok file, h₁) ∧
      r = ((mk root).storeInto sha reader expected stage file).run Fs.exec h₁) := by
  intro stage r
  have hw₀ : WellFormed root (h.fetchAdd pid).2 := hw.of_lookup_eq (fun _ => rfl) le_rfl
  have hcas : root ++ [Dir.cas] <+: stage := List.IsPrefix.trans (by simp) nextStage_incoming
  have hlink : ¬ LinkPlace root stage := not_linkPlace_of_area hcas (by decide) (by decide)
  have hstart : r = (create stage >>= (mk root).storeOpened sha reader expected stage).run Fs.exec
      (h.fetchAdd pid).2 := by
    unfold storeOpened storeInto stage nextStage
    rfl
  rw [hstart, Fs.run_create]
  by_cases hdir : h.lookup stage = some .dir
  · have hcreate : (h.fetchAdd pid).2.create stage = (.error .isADirectory, (h.fetchAdd pid).2) := by
      rw [Fs.create, hw₀.final_eq (under_root hcas) hlink,
        show (h.fetchAdd pid).2.lookup stage = some .dir from hdir]
    rw [hcreate]
    exact .inl ⟨hdir, rfl⟩
  · have hparent : (h.fetchAdd pid).2.lookup stage.dropLast = some .dir := by
      rw [show stage = (mk root).nextStage pid h from rfl, nextStage, stagePath_eq]
      exact hw.base _ (.inr (by simp [baseDirs]))
    have hno : ∀ t, (h.fetchAdd pid).2.lookup stage ≠ some (.symlink t) := fun t ht =>
      hlink (hw₀.links _ t (under_root hcas) ht)
    obtain ⟨file, h₁, hcreate⟩ := Fs.create_ok hno hdir hparent
    rw [hcreate]
    exact .inr ⟨hdir, file, h₁, rfl, rfl⟩

/-- A call of `store_blob` either puts its content where the digest has its blob, or fails and leaves
the shelf as it was. -/
theorem run_storeBlob (hw : WellFormed root h) :
    let r := ((mk root).storeBlob sha pid reader expected).run Fs.exec h
    (∀ bytes, (mk root).Accepts sha pid reader expected h bytes →
      r.1 = .ok (sha.hash bytes, bytes.length) ∧ ∃ i, Shelves root (sha.hash bytes) bytes
        (fun q => if q = (mk root).blobPathAt h (sha.hash bytes) then some i else none) h r.2) ∧
    ((¬ ∃ bytes, (mk root).Accepts sha pid reader expected h bytes) →
      (∃ e, r.1 = .error e) ∧ SameShelf root h r.2) := by
  intro r
  -- The state once the counter was read, which differs in the counter alone.
  have hw₀ : WellFormed root (h.fetchAdd pid).2 := hw.of_lookup_eq (fun _ => rfl) le_rfl
  have hsame₀ : SameShelf root h (h.fetchAdd pid).2 := ⟨fun _ _ => rfl, fun _ _ _ _ => rfl, rfl, rfl, le_rfl⟩
  rcases @run_storeBlob_start root h sha pid reader expected hw with ⟨hdir, hr⟩ | ⟨hdir, file, h₁, hcreate, hr⟩
  · rw [show r = _ from hr]
    exact ⟨fun bytes hbytes => absurd hdir hbytes.2.2, fun _ => ⟨⟨_, rfl⟩, hsame₀⟩⟩
  rw [show r = _ from hr, storeInto]
  obtain ⟨hempty, -⟩ := Fs.create_spec hcreate
  obtain ⟨herror, hok, hwrites⟩ := run_storeLoop reader [] 0 hempty rfl
  obtain ⟨hw₂, hself, hsame, hfresh, htime⟩ := staged_spec hw₀ nextStage_incoming
    (fun d hd => not_names_nextStage hd) hcreate hwrites
  rw [run_bind]
  cases hcontent : reader.content with
  | error e =>
    rw [herror e hcontent]
    refine ⟨fun bytes hbytes => ?_, fun _ => ⟨⟨_, rfl⟩, hsame₀.trans hsame⟩⟩
    exact absurd (hcontent.symm.trans hbytes.1) nofun
  | ok bytes =>
    obtain ⟨hresult, hdata⟩ := hok bytes hcontent
    rw [hresult]
    rw [List.nil_append] at hdata ⊢
    dsimp only
    obtain ⟨hbad, hgood⟩ := @run_storeStaged root _ _ _ expected _ bytes.length hw₂
      (sha.isDigest_hash bytes) nextStage_incoming (fun d hd => not_names_nextStage hd) hself
    constructor
    · rintro bytes' ⟨hbytes, hmatch, -⟩
      obtain rfl : bytes = bytes' := Except.ok.inj (hcontent.symm.trans hbytes)
      obtain ⟨hr, -, hstate⟩ := hgood hmatch
      have htarget : (mk root).blobPathAt ((storeLoop file reader [] 0).run Fs.exec h₁).2
          (sha.hash bytes) = (mk root).blobPathAt h (sha.hash bytes) := by
        refine blobPathAt_congr hw hw₂ (sha.isDigest_hash bytes) fun p hp => ?_
        exact (hsame₀.trans hsame).lookup p (hp.onShelf (sha.isDigest_hash bytes))
      refine ⟨hr, file, ?_⟩
      rw [hstate, htarget]
      exact shelves_of_rename (hsame₀.trans hsame) (sha.isDigest_hash bytes) names_blobPathAt
        nextStage_incoming hfresh hdata htime
    · intro hnot
      cases hmatch : mismatch (sha.hash bytes) expected with
      | none => exact absurd ⟨bytes, hcontent, hmatch, hdir⟩ hnot
      | some e =>
        obtain ⟨hr, -, hshelf⟩ := hbad e hmatch
        exact ⟨⟨_, hr⟩, (hsame₀.trans hsame).trans hshelf⟩

end CasStore

end Modeld
