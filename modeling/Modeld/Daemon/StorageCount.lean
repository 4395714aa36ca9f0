import Mathlib
import Modeld.Core.PruneRun
import Modeld.Core.StoreRun
import Modeld.Daemon.DaemonCalls

/-!
# What the storage statistics count

`GetStorageStats` counts the inodes behind the names in the store. It counts the stored digests
exactly when no digest has its content under two inodes.
-/

namespace Modeld

open Host Program EvictionManager

/-! ### The walk -/

/-- Every inode was counted once. -/
structure Counted (len : Ino → Nat) (s : StorageStats) : Prop where
  nodup : s.visitedInodes.Nodup
  count : s.modelCount = s.visitedInodes.length
  total : s.totalBytes = u64 (s.visitedInodes.map len).sum

theorem counted_foldl {len : Ino → Nat} (l : List DirEntry) (s : StorageStats) (hs : Counted len s)
    (hlen : ∀ e ∈ l, e.metadata.isFile = true → e.metadata.len = len e.metadata.ino) :
    Counted len (l.foldl countEntry s) ∧ ∀ i, i ∈ (l.foldl countEntry s).visitedInodes ↔
      i ∈ s.visitedInodes ∨ ∃ e ∈ l, e.metadata.isFile = true ∧ e.metadata.ino = i := by
  induction l generalizing s with
  | nil => exact ⟨hs, fun i => by simp⟩
  | cons e l ih =>
    have hlen' := fun x hx => hlen x (List.mem_cons_of_mem e hx)
    rw [List.foldl_cons]
    -- An entry that is a file of a new inode is counted, and any other is passed over.
    by_cases hnew : e.metadata.isFile = true ∧ e.metadata.ino ∉ s.visitedInodes
    · obtain ⟨hfile, hino⟩ := hnew
      have hstep : countEntry s e = ⟨e.metadata.ino :: s.visitedInodes,
          u64 (s.totalBytes + e.metadata.len), s.modelCount + 1⟩ := by
        rw [countEntry, if_pos (by simp [hfile, hino])]
      have hcounted : Counted len (countEntry s e) := by
        rw [hstep]
        refine ⟨List.nodup_cons.2 ⟨hino, hs.nodup⟩, by simp [hs.count], ?_⟩
        dsimp only
        rw [hs.total, u64_add, List.map_cons, List.sum_cons, hlen e (List.mem_cons_self ..) hfile,
          Nat.add_comm]
      obtain ⟨hcount, hmem⟩ := ih _ hcounted hlen'
      refine ⟨hcount, fun i => (hmem i).trans ?_⟩
      rw [hstep]
      simp only [List.mem_cons, exists_eq_or_imp, hfile, true_and]
      rw [eq_comm, or_comm (b := i ∈ s.visitedInodes), or_assoc]
    · have hstep : countEntry s e = s := by
        rw [countEntry, if_neg]
        simpa using hnew
      rw [hstep]
      obtain ⟨hcount, hmem⟩ := ih _ hs hlen'
      refine ⟨hcount, fun i => (hmem i).trans ?_⟩
      simp only [List.mem_cons, exists_eq_or_imp]
      refine ⟨fun hi => hi.imp_right .inr, ?_⟩
      rintro (hi | ⟨hfile, rfl⟩ | hi)
      · exact .inl hi
      · exact .inl (not_not.1 fun hino => hnew ⟨hfile, hino⟩)
      · exact .inr hi

variable {root : Path} {h : Fs} {d : String} {i : Ino}

/-- The inode is behind a name of a digest. -/
def Holding (root : Path) (h : Fs) (d : String) (i : Ino) : Prop :=
  IsDigest d ∧ ∃ p, (CasStore.mk root).Names d p ∧ h.lookup p = some (.file i)

theorem isFlatName_of_names {ext : String} (hext : ext = ".gguf" ∨ ext = ".safetensors") :
    isFlatName ("sha256-" ++ d ++ ext) = true := by
  have hstart : Text.startsWith ("sha256-" ++ d ++ ext) "sha256-" = true := by
    simp [Text.startsWith]
  have hend : Text.endsWith ("sha256-" ++ d ++ ext) ext = true := by
    rw [Text.endsWith, decide_eq_true_eq, String.toList_append]
    exact List.suffix_append ..
  rcases hext with rfl | rfl
  · simp [isFlatName, hstart, hend]
  · simp [isFlatName, hstart, hend]

/-- The statistics count every inode behind a name of a digest, once. -/
theorem run_storageStats (hw : WellFormed root h) (hs : Shelved root h) :
    Counted (fun i => (h.data i).length) ((storageStats ⟨root⟩).run Fs.exec h).1 ∧
      ∀ i, i ∈ ((storageStats ⟨root⟩).run Fs.exec h).1.visitedInodes ↔ ∃ d, Holding root h d i := by
  have hblobs : h.lookup (CasStore.mk root).blobsDir = some .dir := by
    rw [CasStore.blobsDir_eq]
    exact hw.base _ (.inr (by simp [baseDirs]))
  have hcas : h.lookup (CasStore.mk root).casDir = some .dir := by
    rw [CasStore.casDir_eq]
    exact hw.base _ (.inr (by simp [baseDirs]))
  obtain ⟨l, hl⟩ := Fs.exists_readDir hblobs
  obtain ⟨l', hl'⟩ := Fs.exists_readDir hcas
  have hrun : ((storageStats ⟨root⟩).run Fs.exec h).1 =
      (l'.filter fun e => isFlatName e.name.text).foldl countEntry (l.foldl countEntry ⟨[], 0, 0⟩) := by
    unfold storageStats
    rw [Fs.run_readDir, Fs.run_readDir, hl, hl']
    rfl
  have hlen : ∀ {dir : Path} {entries : List DirEntry}, h.readDir dir = .ok entries →
      ∀ e ∈ entries, e.metadata.isFile = true →
        e.metadata.len = (h.data e.metadata.ino).length ∧
          h.lookup (dir ++ [e.name]) = some (.file e.metadata.ino) := by
    intro dir entries hentries e he hfile
    obtain ⟨x, hx, hmeta⟩ := (Fs.mem_readDir hentries).1 he
    rw [hmeta] at hfile ⊢
    obtain ⟨i, rfl⟩ := Fs.stat_isFile.1 hfile
    exact ⟨rfl, hx⟩
  obtain ⟨hcount, hmem⟩ := @counted_foldl (fun i => (h.data i).length) l ⟨[], 0, 0⟩
    ⟨.nil, rfl, rfl⟩ fun e he hfile => (hlen hl e he hfile).1
  obtain ⟨hcount', hmem'⟩ := counted_foldl (l'.filter fun e => isFlatName e.name.text) _ hcount
    fun e he hfile => (hlen hl' e (List.mem_filter.1 he).1 hfile).1
  rw [hrun]
  refine ⟨hcount', fun i => ?_⟩
  rw [hmem', hmem]
  constructor
  · rintro ((hnil | ⟨e, he, hfile, rfl⟩) | ⟨e, he, hfile, rfl⟩)
    · cases hnil
    · have hi := (hlen hl e he hfile).2
      obtain ⟨d, hd, hnames⟩ := hs _ _ (by
        rw [CasStore.blobsDir_eq]
        exact ⟨by simp, by simp⟩) hi
      exact ⟨d, hd, _, hnames, hi⟩
    · obtain ⟨he, hflat⟩ := List.mem_filter.1 he
      have hi := (hlen hl' e he hfile).2
      obtain ⟨d, hd, hnames⟩ := hs _ _ (by
        rw [CasStore.casDir_eq]
        refine ⟨by simp, ?_⟩
        simp only [List.append_assoc, List.prefix_append_right_inj, List.cons_append, List.nil_append]
        intro hpre
        have hincoming := (List.cons_prefix_cons.1 (List.cons_prefix_cons.1 hpre).2).1
        rw [← hincoming] at hflat
        exact absurd hflat (by decide)) hi
      exact ⟨d, hd, _, hnames, hi⟩
  · rintro ⟨d, hd, p, hp, hi⟩
    have hflat : ∀ ext, (ext = ".gguf" ∨ ext = ".safetensors") → ∀ hplain : PlainName _,
        p = root ++ [Dir.cas, ⟨"sha256-" ++ d ++ ext, hplain⟩] →
        ∃ e ∈ l'.filter fun e => isFlatName e.name.text,
          e.metadata.isFile = true ∧ e.metadata.ino = i := by
      intro ext hext hplain hpath
      refine ⟨⟨⟨"sha256-" ++ d ++ ext, hplain⟩, h.stat (.file i)⟩, ?_, rfl, rfl⟩
      rw [List.mem_filter, Fs.mem_readDir hl']
      refine ⟨⟨.file i, ?_, rfl⟩, isFlatName_of_names hext⟩
      rw [CasStore.casDir_eq, ← hi, hpath]
      simp
    rcases (CasStore.names_iff hd).1 hp with hpath | hpath | hpath
    · left
      right
      refine ⟨⟨⟨d, hd.plain⟩, h.stat (.file i)⟩, ?_, rfl, rfl⟩
      rw [Fs.mem_readDir hl]
      refine ⟨.file i, ?_, rfl⟩
      rw [CasStore.blobsDir_eq, ← hi, hpath]
      simp
    · exact .inr (hflat ".gguf" (.inl rfl) _ hpath)
    · exact .inr (hflat ".safetensors" (.inr rfl) _ hpath)

/-! ### Once for each content -/

/-- A number that `GetStorageStats` reports. -/
def reportedStat (ctx : ModelServiceContext) (h : Fs) (field : String) : Option Json :=
  ((handleGetStorageStats ctx).run Fs.exec h).1.parameters.bind (·.get field)

/-- `GetStorageStats` counts the digests for which `has_blob` holds, and the sizes of their contents. -/
def CountsOnce (root : Path) (h : Fs) : Prop :=
  ∃ ds : Finset String,
    (∀ d, d ∈ ds ↔ IsDigest d ∧ (((CasStore.mk root).hasBlob d).run Fs.exec h).1 = true) ∧
    reportedStat (.ofRoot root) h "model_count" = some (.ofNat ds.card) ∧
    reportedStat (.ofRoot root) h "total_bytes" =
      some (.ofNat (u64 (∑ d ∈ ds, (((CasStore.mk root).content h d).getD []).length)))

/-- All names of a digest are names of one file. -/
def OneInode (root : Path) (h : Fs) : Prop :=
  ∀ d i j, Holding root h d i → Holding root h d j → i = j

theorem reportedStat_eq (ctx : ModelServiceContext) (h : Fs) :
    reportedStat ctx h "model_count" =
        some (.ofNat ((storageStats ctx.cas).run Fs.exec h).1.modelCount) ∧
      reportedStat ctx h "total_bytes" =
        some (.ofNat ((storageStats ctx.cas).run Fs.exec h).1.totalBytes) := by
  have hreads : Only Reads (storageStats ctx.cas) :=
    Only.perform trivial fun _ => Only.perform trivial fun _ => only_done _
  unfold reportedStat handleGetStorageStats
  rw [run_bind_of_reads hreads, run_bind_of_reads EvictionManager.only_listPinned]
  exact ⟨Json.get_object (by simp) (by simp), Json.get_object (by simp) (by simp)⟩

theorem run_hasBlob (hw : WellFormed root h) (hd : IsDigest d) :
    (((CasStore.mk root).hasBlob d).run Fs.exec h).1 = true ↔ ∃ i, Holding root h d i := by
  have hrun : (((CasStore.mk root).hasBlob d).run Fs.exec h).1 =
      h.isFile ((CasStore.mk root).blobPathAt h d) := by
    unfold CasStore.hasBlob
    rw [run_bind, CasStore.run_blobPath]
    rfl
  have hstored : (CasStore.mk root).Stored h d ↔ ∃ i, Holding root h d i := by
    constructor
    · rintro ⟨p, i, hp, hi⟩
      exact ⟨i, hd, p, hp, hi⟩
    · rintro ⟨i, -, p, hp, hi⟩
      exact ⟨p, i, hp, hi⟩
  rw [hrun, ← hstored, CasStore.stored_iff_content hw hd, CasStore.content_eq, Option.isSome_map,
    Fs.isFile]

/-- An inode is behind the names of one digest only. -/
theorem Holding.digest_eq (hw : WellFormed root h) {e : String} (hi : Holding root h d i)
    (he : Holding root h e i) : d = e := by
  obtain ⟨hd, p, hp, hpi⟩ := hi
  obtain ⟨he, q, hq, hqi⟩ := he
  exact (hw.names_of_shared hd hp (hq.under he) hpi hqi).digest_eq hd he hq

/-- When a digest has one file, a reader gets its content. -/
theorem OneInode.content_eq (hone : OneInode root h) (hw : WellFormed root h)
    (hi : Holding root h d i) : (CasStore.mk root).content h d = some (h.data i) := by
  obtain ⟨hd, p, hp, hpi⟩ := hi
  apply CasStore.content_of_forall hw hd ⟨p, i, hp, hpi⟩
  intro q j hq hj
  rw [hone d j i ⟨hd, q, hq, hj⟩ ⟨hd, p, hp, hpi⟩]

/-- The statistics count every content once exactly if no digest has two files. -/
theorem countsOnce_iff (hw : WellFormed root h) (hs : Shelved root h) :
    CountsOnce root h ↔ OneInode root h := by
  obtain ⟨hcount, hmem⟩ := run_storageStats hw hs
  obtain ⟨hmodels, htotal⟩ := reportedStat_eq (.ofRoot root) h
  have hmodels' := hmodels.trans (congrArg (some ∘ Json.ofNat) hcount.count)
  have htotal' := htotal.trans (congrArg (some ∘ Json.ofNat) hcount.total)
  have hnodup := hcount.nodup
  generalize ((storageStats ⟨root⟩).run Fs.exec h).1.visitedInodes = visited at *
  choose! f hf using fun i hi => (hmem i).1 hi
  have himage : ∀ d, d ∈ visited.toFinset.image f ↔ ∃ i, Holding root h d i := by
    intro d
    rw [Finset.mem_image]
    constructor
    · rintro ⟨i, hi, rfl⟩
      exact ⟨i, hf i (List.mem_toFinset.1 hi)⟩
    · rintro ⟨i, hi⟩
      have hvisited : i ∈ visited := (hmem i).2 ⟨d, hi⟩
      exact ⟨i, List.mem_toFinset.2 hvisited, (hf i hvisited).digest_eq hw hi⟩
  have hstored : ∀ d, (IsDigest d ∧ (((CasStore.mk root).hasBlob d).run Fs.exec h).1 = true) ↔
      ∃ i, Holding root h d i := by
    intro d
    constructor
    · rintro ⟨hd, hblob⟩
      exact (run_hasBlob hw hd).1 hblob
    · rintro ⟨i, hi⟩
      exact ⟨hi.1, (run_hasBlob hw hi.1).2 ⟨i, hi⟩⟩
  -- One digest for each inode means as many digests as inodes.
  have hinj : Set.InjOn f visited.toFinset ↔ OneInode root h := by
    constructor
    · intro hinj d i j hi hj
      have hi' : i ∈ visited := (hmem i).2 ⟨d, hi⟩
      have hj' : j ∈ visited := (hmem j).2 ⟨d, hj⟩
      apply hinj (by simpa using hi') (by simpa using hj')
      rw [(hf i hi').digest_eq hw hi, (hf j hj').digest_eq hw hj]
    · intro hone i hi j hj heq
      have hi' : i ∈ visited := by simpa using hi
      have hj' : j ∈ visited := by simpa using hj
      have hfj := hf j hj'
      rw [← heq] at hfj
      exact hone (f i) i j (hf i hi') hfj
  unfold CountsOnce
  rw [hmodels', htotal', ← hinj, ← Finset.card_image_iff, List.toFinset_card_of_nodup hnodup]
  constructor
  · rintro ⟨ds, hds, hcard, -⟩
    have heq : ds = visited.toFinset.image f := by
      ext d
      rw [hds, hstored, himage]
    rw [← heq]
    simpa [Json.ofNat] using hcard.symm
  · intro hcard
    have hone := hinj.1 (Finset.card_image_iff.1 (hcard.trans (List.toFinset_card_of_nodup hnodup).symm))
    refine ⟨visited.toFinset.image f, fun d => (himage d).trans (hstored d).symm, ?_, ?_⟩
    · rw [hcard]
      rfl
    · rw [Finset.sum_image (hinj.2 hone)]
      have hsize : ∀ i ∈ visited.toFinset,
          (((CasStore.mk root).content h (f i)).getD []).length = (h.data i).length := by
        intro i hi
        rw [hone.content_eq hw (hf i (List.mem_toFinset.1 hi))]
        rfl
      rw [Finset.sum_congr rfl hsize, List.sum_toFinset _ hnodup]
      rfl

end Modeld
