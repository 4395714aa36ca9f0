import Modeld.Daemon.StorageCount
import Modeld.Runs.Catalogue
import Modeld.Runs.EvictionOrder
import Modeld.Runs.RegistryRuns

/-!
# Directories that stand for a catalogue

The registry stands for the tags, the directory of the pins for the set, and the blobs directory has a
file for each content, each of them written after the ones that come before it in the list.
-/

namespace Modeld

open Host Program

/-- The store has a file for each content in the blobs directory and no other file, and the times of
the files are in the order of the list. -/
structure Stocked (root : Path) (h : Fs) (file : String → Ino) (blobs : List (String × Bytes)) :
    Prop where
  digest : ∀ b ∈ blobs, IsDigest b.1
  nodup : (blobs.map (·.1)).Nodup
  present : ∀ b ∈ blobs, h.lookup ((CasStore.mk root).blobsDir.join b.1) = some (.file (file b.1)) ∧
    h.data (file b.1) = b.2
  only : ∀ q i, OnShelf root q → h.lookup q = some (.file i) →
    ∃ b ∈ blobs, q = (CasStore.mk root).blobsDir.join b.1
  order : blobs.Pairwise fun a b => (h.inodes (file a.1)).mtime < (h.inodes (file b.1)).mtime
  past : ∀ b ∈ blobs, ∃ t < h.ticks, (h.inodes (file b.1)).mtime = h.clock t
  clock : StrictMono h.clock

variable {root : Path} {h h' : Fs} {file : String → Ino} {blobs : List (String × Bytes)} {d : String}
  {p : Path} {i : Ino}

namespace Stocked

theorem shelved (hs : Stocked root h file blobs) : Shelved root h := by
  intro q i hq hi
  obtain ⟨b, hb, hqb⟩ := hs.only q i hq hi
  exact ⟨b.1, hs.digest b hb, .inl hqb⟩

/-- A file under a name of a digest is the one in the blobs directory. -/
theorem of_names (hs : Stocked root h file blobs) (hd : IsDigest d) (hp : (CasStore.mk root).Names d p)
    (hi : h.lookup p = some (.file i)) :
    (d, h.data i) ∈ blobs ∧ p = (CasStore.mk root).blobsDir.join d ∧ i = file d := by
  obtain ⟨⟨e, x⟩, hb, hpb⟩ := hs.only p i (hp.onShelf hd) hi
  have he : (CasStore.mk root).Names e p := .inl hpb
  obtain rfl : d = e := hp.digest_eq hd (hs.digest _ hb) he
  obtain ⟨hfile, hdata⟩ := hs.present _ hb
  rw [hpb, hfile] at hi
  cases hi
  rw [hdata]
  exact ⟨hb, hpb, rfl⟩

theorem find?_eq (hs : Stocked root h file blobs) {x : Bytes} (hb : (d, x) ∈ blobs) :
    blobs.find? (·.1 = d) = some (d, x) := by
  cases hfind : blobs.find? (·.1 = d) with
  | none =>
    have hno := List.find?_eq_none.1 hfind (d, x) hb
    simp at hno
  | some b =>
    have hkey : b.1 = d := by simpa using List.find?_some hfind
    have hmem := List.mem_of_find?_eq_some hfind
    rw [List.inj_on_of_nodup_map hs.nodup hmem hb hkey]

/-- A reader gets the content in the list. -/
theorem content_eq (hs : Stocked root h file blobs) (hw : WellFormed root h) (hd : IsDigest d) :
    (CasStore.mk root).content h d = (blobs.find? (·.1 = d)).map (·.2) := by
  rcases CasStore.content_cases hw hd with ⟨p, i, hp, hi, hcontent⟩ | ⟨hno, hcontent⟩
  · obtain ⟨hmem, -, -⟩ := hs.of_names hd hp hi
    rw [hcontent, hs.find?_eq hmem]
    rfl
  · cases hfind : blobs.find? (·.1 = d) with
    | none => exact hcontent
    | some b =>
      have hkey : b.1 = d := by simpa using List.find?_some hfind
      obtain ⟨hfile, -⟩ := hs.present b (List.mem_of_find?_eq_some hfind)
      rw [hkey] at hfile
      exact absurd ⟨_, _, .inl rfl, hfile⟩ hno

/-- The files differ. -/
theorem pairwise_file (hs : Stocked root h file blobs) :
    blobs.Pairwise fun a b => file a.1 ≠ file b.1 :=
  hs.order.imp fun hlt heq => hlt.ne (by rw [heq])

theorem join_ne {e : String} (hd : IsDigest d) (he : IsDigest e) (hne : e ≠ d) :
    (CasStore.mk root).blobsDir.join e ≠ (CasStore.mk root).blobsDir.join d := by
  intro heq
  have hnames : (CasStore.mk root).Names d ((CasStore.mk root).blobsDir.join e) := .inl heq
  exact hne ((CasStore.Names.digest_eq he hd (.inl rfl) hnames))

theorem blobPathAt_eq (hs : Stocked root h file blobs) (hw : WellFormed root h) (hd : IsDigest d) :
    (CasStore.mk root).blobPathAt h d = (CasStore.mk root).blobsDir.join d := by
  have hflat : ∀ p, (CasStore.mk root).Names d p → h.isFile p = true →
      p = (CasStore.mk root).blobsDir.join d := by
    intro p hp hfile
    obtain ⟨i, hi⟩ := (CasStore.isFile_iff hw hd hp).1 hfile
    exact (hs.of_names hd hp hi).2.1
  unfold CasStore.blobPathAt
  split
  · rfl
  split
  · rename_i hfile
    exact hflat _ (.inr (.inl rfl)) hfile
  split
  · rename_i hfile
    exact hflat _ (.inr (.inr rfl)) hfile
  · rfl

/-- What leaves the shelf as it was. -/
theorem of_sameShelf (hs : Stocked root h file blobs) (hsame : SameShelf root h h') :
    Stocked root h' file blobs := by
  have hkept : ∀ b ∈ blobs, h'.inodes (file b.1) = h.inodes (file b.1) := by
    intro b hb
    have hname : (CasStore.mk root).Names b.1 ((CasStore.mk root).blobsDir.join b.1) := .inl rfl
    exact hsame.kept _ _ (hname.onShelf (hs.digest b hb)) (hs.present b hb).1
  refine ⟨hs.digest, hs.nodup, fun b hb => ?_, fun q i hq hi => ?_, ?_, fun b hb => ?_, ?_⟩
  · have hname : (CasStore.mk root).Names b.1 ((CasStore.mk root).blobsDir.join b.1) := .inl rfl
    rw [hsame.lookup _ (hname.onShelf (hs.digest b hb)), Fs.data, hkept b hb]
    exact hs.present b hb
  · rw [hsame.lookup q hq] at hi
    exact hs.only q i hq hi
  · refine hs.order.imp_of_mem fun ha hb hlt => ?_
    rw [hkept _ ha, hkept _ hb]
    exact hlt
  · obtain ⟨t, ht, htime⟩ := hs.past b hb
    rw [hkept b hb, hsame.clock]
    exact ⟨t, ht.trans_le hsame.ticks, htime⟩
  · rw [hsame.clock]
    exact hs.clock

/-- A content that is stored comes last. -/
theorem store {bytes : Bytes} (hs : Stocked root h file blobs) (hw : WellFormed root h)
    (hd : IsDigest d) (hshelves : Shelves root d bytes
      (fun q => if q = (CasStore.mk root).blobPathAt h d then some i else none) h h') :
    Stocked root h' (Function.update file d i)
      (blobs.filter (fun b => decide (b.1 ≠ d)) ++ [(d, bytes)]) := by
  rw [hs.blobPathAt_eq hw hd] at hshelves
  have hold : ∀ b ∈ blobs.filter (fun b => decide (b.1 ≠ d)), b ∈ blobs ∧ b.1 ≠ d := by
    intro b hb
    obtain ⟨hb, hne⟩ := List.mem_filter.1 hb
    exact ⟨hb, by simpa using hne⟩
  have hshelf : ∀ e, IsDigest e → OnShelf root ((CasStore.mk root).blobsDir.join e) := fun e he =>
    CasStore.Names.onShelf he (.inl rfl)
  have hnew : h'.lookup ((CasStore.mk root).blobsDir.join d) = some (.file i) := by
    rw [hshelves.lookup _ (hshelf d hd), if_pos rfl]
    rfl
  have hdata : h'.data i = bytes := hshelves.data _ i (if_pos rfl)
  -- The other files stay.
  have hkept : ∀ b ∈ blobs, b.1 ≠ d →
      h'.lookup ((CasStore.mk root).blobsDir.join b.1) = some (.file (file b.1)) ∧
        h'.inodes (file b.1) = h.inodes (file b.1) := by
    intro b hb hne
    have hpath := @join_ne root d b.1 hd (hs.digest b hb) hne
    refine ⟨?_, hshelves.kept _ _ (hshelf _ (hs.digest b hb)) (if_neg hpath) (hs.present b hb).1⟩
    rw [hshelves.lookup _ (hshelf _ (hs.digest b hb)), if_neg hpath]
    exact (hs.present b hb).1
  obtain ⟨k, hk, hk', htime⟩ := hshelves.time _ i (if_pos rfl)
  refine ⟨fun b hb => ?_, ?_, fun b hb => ?_, fun q j hq hj => ?_, ?_, fun b hb => ?_, ?_⟩
  · rcases List.mem_append.1 hb with hb | hb
    · exact hs.digest b (hold b hb).1
    · rw [List.mem_singleton.1 hb]
      exact hd
  · rw [List.map_append, List.nodup_append]
    refine ⟨hs.nodup.sublist (List.filter_sublist.map _), List.nodup_singleton _, ?_⟩
    intro a ha e he
    obtain ⟨b, hb, rfl⟩ := List.mem_map.1 ha
    rw [List.mem_singleton.1 he]
    exact (hold b hb).2
  · rcases List.mem_append.1 hb with hb | hb
    · obtain ⟨hmem, hne⟩ := hold b hb
      obtain ⟨hl, hino⟩ := hkept b hmem hne
      rw [Function.update_of_ne hne, Fs.data, hino]
      exact ⟨hl, (hs.present b hmem).2⟩
    · rw [List.mem_singleton.1 hb]
      dsimp only
      rw [Function.update_self]
      exact ⟨hnew, hdata⟩
  · by_cases hqd : q = (CasStore.mk root).blobsDir.join d
    · exact ⟨(d, bytes), List.mem_append_right _ (List.mem_singleton_self _), hqd⟩
    · rw [hshelves.lookup q hq, if_neg hqd] at hj
      obtain ⟨b, hb, hqb⟩ := hs.only q j hq hj
      refine ⟨b, List.mem_append_left _ (List.mem_filter.2 ⟨hb, ?_⟩), hqb⟩
      rw [decide_eq_true_iff]
      intro hbd
      exact hqd (by rw [hqb, hbd])
  · rw [List.pairwise_append]
    refine ⟨(hs.order.sublist List.filter_sublist).imp_of_mem fun ha hb hlt => ?_,
      List.pairwise_singleton .., fun a ha b hb => ?_⟩
    · obtain ⟨ha, hane⟩ := hold _ ha
      obtain ⟨hb, hbne⟩ := hold _ hb
      rw [Function.update_of_ne hane, Function.update_of_ne hbne, (hkept _ ha hane).2,
        (hkept _ hb hbne).2]
      exact hlt
    · obtain ⟨ha, hne⟩ := hold a ha
      obtain ⟨t, ht, hold⟩ := hs.past a ha
      rw [List.mem_singleton.1 hb]
      dsimp only
      rw [Function.update_of_ne hne, Function.update_self, (hkept a ha hne).2, hold, htime]
      exact hs.clock (ht.trans_le hk)
  · rw [hshelves.clock]
    rcases List.mem_append.1 hb with hb | hb
    · obtain ⟨hmem, hne⟩ := hold b hb
      obtain ⟨t, ht, htime⟩ := hs.past b hmem
      rw [Function.update_of_ne hne, (hkept b hmem hne).2]
      exact ⟨t, ht.trans_le hshelves.ticks, htime⟩
    · rw [List.mem_singleton.1 hb]
      dsimp only
      rw [Function.update_self]
      exact ⟨k, hk', htime⟩
  · rw [hshelves.clock]
    exact hs.clock

/-! ### Pruning -/

/-- What `prune` counts of a content. -/
def candidateOf (h : Fs) (file : String → Ino) (b : String × Bytes) : Candidate :=
  ⟨b.1, b.2.length, (h.inodes (file b.1)).mtime⟩

/-- The walks of `prune` find the contents, and their order is that of the list. -/
theorem run_scan (hs : Stocked root h file blobs) (hw : WellFormed root h) :
    ∃ found, (EvictionManager.scan ⟨root⟩).run Fs.exec h =
        (.ok (found, u64 (EvictionManager.sizes found)), h) ∧
      found.Perm (blobs.map (candidateOf h file)) ∧
      EvictionManager.byAge found = blobs.map (candidateOf h file) := by
  obtain ⟨⟨found, total⟩, hrun, hscanned, hall⟩ := EvictionManager.run_scan hw hs.shelved
  obtain rfl : total = u64 (EvictionManager.sizes found) := hscanned.total
  have hsound : ∀ c ∈ found, ∃ b ∈ blobs, candidateOf h file b = c := by
    intro c hc
    obtain ⟨hd, i, hi, hsize, htime⟩ := hscanned.sound c hc
    obtain ⟨hmem, -, rfl⟩ := hs.of_names hd prunedName_prunedPath.names hi
    refine ⟨_, hmem, ?_⟩
    rw [candidateOf, ← hsize, ← htime]
  have hcomplete : ∀ b ∈ blobs, candidateOf h file b ∈ found := by
    intro b hb
    have hd := hs.digest b hb
    obtain ⟨hi, -⟩ := hs.present b hb
    obtain ⟨j, hj⟩ := exists_prunedFile hw hd (.inl rfl) hi
    obtain ⟨c, hc, hcd⟩ := hall b.1 j hd hj.2
    obtain ⟨b', hb', rfl⟩ := hsound c hc
    rwa [List.inj_on_of_nodup_map hs.nodup hb hb' hcd.symm]
  have horder : (blobs.map (candidateOf h file)).Pairwise fun a b => a.modified < b.modified :=
    List.pairwise_map.2 hs.order
  have hperm : found.Perm (blobs.map (candidateOf h file)) := by
    refine (List.perm_ext_iff_of_nodup ?_ ?_).2 fun c => ?_
    · exact hscanned.distinct.imp fun hne heq => hne (by rw [heq])
    · exact horder.imp fun hlt heq => hlt.ne (by rw [heq])
    · rw [List.mem_map]
      constructor
      · exact hsound c
      · rintro ⟨b, hb, rfl⟩
        exact hcomplete b hb
  have hage := EvictionManager.sortedByAge_byAge found
  have hsame := hage.perm.trans hperm
  have hne : (EvictionManager.byAge found).Pairwise fun a b => a.modified ≠ b.modified :=
    (hsame.pairwise_iff fun hab => hab.symm).2 (horder.imp fun hlt => hlt.ne)
  have hstrict := (hage.sorted.and hne).imp fun hab => lt_of_le_of_ne hab.1 hab.2
  exact ⟨found, hrun, hperm, List.Perm.eq_of_pairwise
    (fun a b _ _ hab hba => absurd hba hab.not_gt) hstrict horder hsame⟩

/-- What is left of the contents when some of them were removed. -/
theorem evict (hs : Stocked root h file blobs) {taken : List (String × Bytes)} (hsub : taken ⊆ blobs)
    (hevicts : EvictionManager.Evicts root (taken.map (candidateOf h file)) h h') :
    Stocked root h' file (blobs.filter fun b => decide (b ∉ taken)) := by
  have hrest : h'.inodes = h.inodes ∧ h'.clock = h.clock ∧ h'.ticks = h.ticks := by
    obtain ⟨entries, rfl⟩ := hevicts.rest
    exact ⟨rfl, rfl, rfl⟩
  obtain ⟨hinodes, hclock, hticks⟩ := hrest
  have hleft : ∀ b ∈ blobs.filter (fun b => decide (b ∉ taken)), b ∈ blobs ∧ b ∉ taken := by
    intro b hb
    obtain ⟨hb, hno⟩ := List.mem_filter.1 hb
    exact ⟨hb, by simpa using hno⟩
  have hlookup : ∀ b ∈ blobs, h'.lookup ((CasStore.mk root).blobsDir.join b.1) =
      if b ∈ taken then none else some (.file (file b.1)) := by
    intro b hb
    obtain ⟨hfile, -⟩ := hs.present b hb
    split
    · rename_i hmem
      refine hevicts.removed _ ⟨_, List.mem_map.2 ⟨b, hmem, rfl⟩, .inl rfl⟩ ?_
      rw [hfile]
      rintro ⟨⟩
    · rename_i hno
      rw [← hfile]
      refine hevicts.kept _ (.inl ?_)
      rintro ⟨c, hc, hname⟩
      obtain ⟨b', hb', rfl⟩ := List.mem_map.1 hc
      have hkey : b.1 = b'.1 := CasStore.Names.digest_eq (hs.digest b hb)
        (hs.digest b' (hsub hb')) (.inl rfl) hname.names
      rw [List.inj_on_of_nodup_map hs.nodup hb (hsub hb') hkey] at hno
      exact hno hb'
  refine ⟨fun b hb => hs.digest b (hleft b hb).1, hs.nodup.sublist (List.filter_sublist.map _),
    fun b hb => ?_, fun q i hq hi => ?_, ?_, fun b hb => ?_, ?_⟩
  · obtain ⟨hb, hno⟩ := hleft b hb
    rw [hlookup b hb, if_neg hno, Fs.data, hinodes]
    exact ⟨rfl, (hs.present b hb).2⟩
  · have hold : h.lookup q = some (.file i) := by
      by_cases hname : ∃ b ∈ taken.map (candidateOf h file), (CasStore.mk root).PrunedName b.digest q
      · by_cases hdir : h.lookup q = some .dir
        · rw [hevicts.kept q (.inr hdir), hdir] at hi
          cases hi
        · rw [hevicts.removed q hname hdir] at hi
          cases hi
      · rwa [hevicts.kept q (.inl hname)] at hi
    obtain ⟨b, hb, rfl⟩ := hs.only q i hq hold
    refine ⟨b, List.mem_filter.2 ⟨hb, ?_⟩, rfl⟩
    rw [decide_eq_true_iff]
    intro hmem
    rw [hlookup b hb, if_pos hmem] at hi
    cases hi
  · rw [hinodes]
    exact hs.order.sublist List.filter_sublist
  · rw [hinodes, hclock, hticks]
    exact hs.past b (hleft b hb).1
  · rw [hclock]
    exact hs.clock

/-- What `is_pinned` says is what the set says. -/
theorem saysPinned_eq {pins : PinSet} (hp : (EvictionManager.ofRoot root).HoldsPins h pins)
    (hd : IsDigest d) : EvictionManager.saysPinned root h d = decide (d ∈ pins) := by
  rw [EvictionManager.saysPinned, hp.run_isPinned, hd.trim_eq]

/-- The size of a content. -/
abbrev len (b : String × Bytes) : Nat := b.2.length

theorem sizes_candidateOf (h : Fs) (file : String → Ino) (l : List (String × Bytes)) :
    EvictionManager.sizes (l.map (candidateOf h file)) = Quota.total len l := by
  rw [EvictionManager.sizes, Quota.total, List.map_map]
  rfl

theorem unpinned_candidates (hs : Stocked root h file blobs) {pins : PinSet}
    (hp : (EvictionManager.ofRoot root).HoldsPins h pins) :
    EvictionManager.unpinned root h (blobs.map (candidateOf h file)) =
      (blobs.filter fun b => decide (b.1 ∉ pins)).map (candidateOf h file) := by
  rw [EvictionManager.unpinned, List.filter_map]
  refine congrArg (List.map _) (List.filter_congr fun b hb => ?_)
  rw [Function.comp_apply, candidateOf, saysPinned_eq hp (hs.digest b hb), decide_not]

/-- The removals of `prune`. -/
theorem run_evict (hs : Stocked root h file blobs) (hw : WellFormed root h) {pins : PinSet}
    (hp : (EvictionManager.ofRoot root).HoldsPins h pins) (max total : Nat)
    {taken : List (String × Bytes)}
    (htaken : taken = Quota.shortest len max total (blobs.filter fun b => decide (b.1 ∉ pins)))
    (hsum : Quota.total len taken < 2 ^ 64) :
    let r := ((EvictionManager.ofRoot root).evict ⟨root⟩ max (blobs.map (candidateOf h file)) total
      0).run Fs.exec h
    r.1 = Quota.total len taken ∧ Stocked root r.2 file (blobs.filter fun b => decide (b ∉ taken)) := by
  have hpresent : ∀ c ∈ blobs.map (candidateOf h file), EvictionManager.Present root h c := by
    intro c hc
    obtain ⟨b, hb, rfl⟩ := List.mem_map.1 hc
    have hplain := (hs.digest b hb).plain
    exact ⟨hplain.2.2.2, _, _, .inl ⟨hplain, rfl⟩, (hs.present b hb).1⟩
  have hdistinct : (blobs.map (candidateOf h file)).Pairwise fun a b => a.digest ≠ b.digest :=
    List.pairwise_map.2 (List.pairwise_map.1 (List.nodup_iff_pairwise_ne.1 hs.nodup))
  obtain ⟨evicted, hshortest, hevicts, hresult⟩ := @EvictionManager.run_evict_shortest root h max
    (EvictionManager.pinsAreFiles_of_wellFormed hw) _ total 0 hpresent hdistinct rfl
  have hevicted : evicted = taken.map (candidateOf h file) := by
    rw [hs.unpinned_candidates hp] at hshortest
    rw [Quota.eq_shortest Candidate.size hshortest.taken hshortest.minimal hshortest.enough,
      Quota.shortest_map, htaken]
    rfl
  have hsub : taken ⊆ blobs := by
    rw [htaken]
    exact fun b hb => List.filter_sublist.subset ((Quota.shortest_prefix ..).subset hb)
  rw [hevicted] at hevicts hresult
  refine ⟨?_, hs.evict hsub hevicts⟩
  rw [hresult, sizes_candidateOf, Nat.zero_add, u64, Nat.mod_eq_of_lt hsum]

/-- `prune` gives up, of what is not pinned, as much as is needed, the least recently stored first. -/
theorem run_prune (hs : Stocked root h file blobs) (hw : WellFormed root h) {pins : PinSet}
    (hp : (EvictionManager.ofRoot root).HoldsPins h pins) (hsum : Quota.total len blobs < 2 ^ 64)
    (max : Nat) {taken : List (String × Bytes)}
    (htaken : taken = Quota.shortest len max (Quota.total len blobs)
      (blobs.filter fun b => decide (b.1 ∉ pins))) :
    (((EvictionManager.ofRoot root).prune ⟨root⟩ max).run Fs.exec h).1 =
        .ok (Quota.total len taken) ∧
      Stocked root (((EvictionManager.ofRoot root).prune ⟨root⟩ max).run Fs.exec h).2 file
        (blobs.filter fun b => decide (b ∉ taken)) := by
  obtain ⟨found, hrun, hperm, hage⟩ := hs.run_scan hw
  have htotal : u64 (EvictionManager.sizes found) = Quota.total len blobs := by
    rw [← sizes_candidateOf h file] at hsum ⊢
    rw [EvictionManager.sizes, (hperm.map _).sum_nat]
    exact Nat.mod_eq_of_lt hsum
  unfold EvictionManager.prune
  rw [Program.run_bind, hrun]
  dsimp only
  rw [htotal, hage]
  split
  · rename_i hle
    rw [Quota.shortest_of_le _ hle] at htaken
    have hall : blobs.filter (fun b => decide (b ∉ taken)) = blobs := by simp [htaken]
    rw [hall, htaken]
    exact ⟨rfl, hs⟩
  · have hle : Quota.total len taken ≤ Quota.total len blobs := by
      rw [htaken]
      exact Quota.total_le_of_sublist _
        ((Quota.shortest_prefix ..).sublist.trans List.filter_sublist)
    obtain ⟨hresult, hstocked⟩ := hs.run_evict hw hp max _ htaken (hle.trans_lt hsum)
    rw [Program.run_bind, Program.pure_eq, Program.run_done, hresult]
    exact ⟨rfl, hstocked⟩

/-! ### Counting -/

/-- The statistics count the contents and their sizes. -/
theorem storageStats_eq (hs : Stocked root h file blobs) (hw : WellFormed root h) :
    ((storageStats ⟨root⟩).run Fs.exec h).1.modelCount = blobs.length ∧
      ((storageStats ⟨root⟩).run Fs.exec h).1.totalBytes = u64 (Quota.total len blobs) := by
  obtain ⟨hcount, hmem⟩ := run_storageStats hw hs.shelved
  have hperm : ((storageStats ⟨root⟩).run Fs.exec h).1.visitedInodes.Perm
      (blobs.map fun b => file b.1) := by
    refine (List.perm_ext_iff_of_nodup hcount.nodup ?_).2 fun i => ?_
    · exact List.nodup_iff_pairwise_ne.2 (List.pairwise_map.2 hs.pairwise_file)
    · rw [hmem, List.mem_map]
      constructor
      · rintro ⟨d, hd, p, hp, hi⟩
        obtain ⟨hb, -, rfl⟩ := hs.of_names hd hp hi
        exact ⟨_, hb, rfl⟩
      · rintro ⟨b, hb, rfl⟩
        exact ⟨b.1, hs.digest b hb, _, .inl rfl, (hs.present b hb).1⟩
  rw [hcount.count, hcount.total, hperm.length_eq, (hperm.map _).sum_nat, List.map_map,
    List.length_map, Quota.total]
  refine ⟨rfl, congrArg (fun l => u64 l.sum) (List.map_congr_left fun b hb => ?_)⟩
  rw [Function.comp_apply, (hs.present b hb).2]

end Stocked

end Modeld
