import Modeld.Core.PinnedBlobs
import Modeld.Core.Shelf
import Modeld.Host.Listing

/-!
# What pruning does

The scan finds every digest that has a file in the blobs directory or a flat GGUF file, once, with
the sizes summed up; the loop then removes these two names of every digest that is not pinned, for a
stretch of the candidates from the oldest on, and stops when its count is within the quota.
-/

namespace Modeld

open Host Program

theorem u64_add (a b : Nat) : u64 (u64 a + b) = u64 (a + b) := by
  unfold u64
  omega

theorem u64_u64 (a : Nat) : u64 (u64 a) = u64 a := Nat.mod_mod ..

namespace EvictionManager

/-! ### The scan -/

/-- The sizes of the candidates. -/
def sizes (blobs : List Candidate) : Nat := (blobs.map (·.size)).sum

/-- The candidates found so far have different digests, their sizes are summed up, and all of them
are as `P` says. -/
structure Scanned (P : Candidate → Prop) (found : List Candidate × Nat) : Prop where
  total : found.2 = u64 (sizes found.1)
  distinct : found.1.Pairwise fun a b => a.digest ≠ b.digest
  sound : ∀ b ∈ found.1, P b

variable {P : Candidate → Prop} {found : List Candidate × Nat} {b : Candidate} {e : DirEntry}

theorem scanned_nil : Scanned P ([], 0) := ⟨rfl, .nil, nofun⟩

theorem Scanned.push (hs : Scanned P found) (hb : P b) (hnew : ∀ a ∈ found.1, a.digest ≠ b.digest) :
    Scanned P (found.1 ++ [b], u64 (found.2 + b.size)) where
  total := by
    rw [hs.total, u64_add]
    simp [sizes]
  distinct := by
    rw [List.pairwise_append]
    refine ⟨hs.distinct, List.pairwise_singleton .., fun a ha c hc => ?_⟩
    rw [List.mem_singleton.1 hc]
    exact hnew a ha
  sound a ha := by
    rcases List.mem_append.1 ha with ha | ha
    · exact hs.sound a ha
    · rw [List.mem_singleton.1 ha]
      exact hb

/-- What an entry of a directory is as a candidate for a digest. -/
def candidate (d : String) (e : DirEntry) : Candidate := ⟨d, e.metadata.len, e.metadata.modified⟩

theorem scanBlob_file (hfile : e.metadata.isFile = true) (found : List Candidate × Nat) :
    scanBlob found e = (found.1 ++ [candidate e.name.text e],
      u64 (found.2 + (candidate e.name.text e).size)) := by
  rw [scanBlob, if_pos hfile]
  rfl

theorem scanBlob_other (hfile : e.metadata.isFile = false) (found : List Candidate × Nat) :
    scanBlob found e = found := by
  rw [scanBlob, hfile]
  rfl

/-- The walk through the blobs directory. -/
theorem scanned_blobs (l : List DirEntry) (found : List Candidate × Nat)
    (hl : l.Pairwise fun a b => a.name ≠ b.name) (hs : Scanned P found)
    (hP : ∀ e ∈ l, e.metadata.isFile = true → P (candidate e.name.text e))
    (hnew : ∀ a ∈ found.1, ∀ e ∈ l, a.digest ≠ e.name.text) :
    Scanned P (l.foldl scanBlob found) ∧
      (∀ b, b ∈ (l.foldl scanBlob found).1 ↔ b ∈ found.1 ∨
        ∃ e ∈ l, e.metadata.isFile = true ∧ b = candidate e.name.text e) := by
  induction l generalizing found with
  | nil => exact ⟨hs, fun b => by simp⟩
  | cons e l ih =>
    obtain ⟨he, hl⟩ := List.pairwise_cons.1 hl
    have hP' := fun x hx => hP x (List.mem_cons_of_mem _ hx)
    rw [List.foldl_cons]
    cases hfile : e.metadata.isFile with
    | false =>
      rw [scanBlob_other hfile]
      obtain ⟨hscanned, hmem⟩ := ih found hl hs hP' fun a ha x hx =>
        hnew a ha x (List.mem_cons_of_mem _ hx)
      refine ⟨hscanned, fun b => (hmem b).trans ?_⟩
      simp [hfile]
    | true =>
      rw [scanBlob_file hfile]
      have hpush := hs.push (hP e (List.mem_cons_self ..) hfile) fun a ha =>
        hnew a ha e (List.mem_cons_self ..)
      obtain ⟨hscanned, hmem⟩ := ih _ hl hpush hP' fun a ha x hx => by
        rcases List.mem_append.1 ha with ha | ha
        · exact hnew a ha x (List.mem_cons_of_mem _ hx)
        · rw [List.mem_singleton.1 ha]
          exact fun heq => he x hx (Name.ext heq)
      refine ⟨hscanned, fun b => (hmem b).trans ?_⟩
      simp [hfile, or_assoc]

/-- The walk through the flat files. -/
theorem scanned_flats (l : List DirEntry) (found : List Candidate × Nat) (hs : Scanned P found)
    (hP : ∀ e ∈ l, e.metadata.isFile = true → ∀ d, flatDigest e.name.text = some d →
      (∀ a ∈ found.1, a.digest ≠ d) → P (candidate d e)) :
    Scanned P (l.foldl scanFlat found) ∧ (∀ b ∈ found.1, b ∈ (l.foldl scanFlat found).1) ∧
      ∀ e ∈ l, e.metadata.isFile = true → ∀ d, flatDigest e.name.text = some d →
        ∃ b ∈ (l.foldl scanFlat found).1, b.digest = d := by
  induction l generalizing found with
  | nil => exact ⟨hs, fun _ => id, nofun⟩
  | cons e l ih =>
    rw [List.foldl_cons]
    -- One step keeps what was found, and finds the digest of the entry.
    have hstep : Scanned P (scanFlat found e) ∧ (∀ b ∈ found.1, b ∈ (scanFlat found e).1) ∧
        (e.metadata.isFile = true → ∀ d, flatDigest e.name.text = some d →
          ∃ b ∈ (scanFlat found e).1, b.digest = d) := by
      unfold scanFlat
      split
      · rename_i d hfile hd
        split
        · rename_i hany
          refine ⟨hs, fun _ => id, fun _ d' hd' => ?_⟩
          obtain rfl : d = d' := Option.some.inj (hd.symm.trans hd')
          simpa using hany
        · rename_i hany
          have hnone : ∀ a ∈ found.1, a.digest ≠ d := by simpa using hany
          have hpush := hs.push (hP e (List.mem_cons_self ..) hfile d hd hnone) hnone
          refine ⟨hpush, fun b hb => List.mem_append_left _ hb, fun _ d' hd' => ?_⟩
          obtain rfl : d = d' := Option.some.inj (hd.symm.trans hd')
          exact ⟨candidate d e, List.mem_append_right _ (List.mem_singleton_self _), rfl⟩
      · rename_i hno
        exact ⟨hs, fun _ => id, fun hfile d hd => absurd hd (hno d hfile)⟩
    obtain ⟨hs₁, hmem, hfound⟩ := hstep
    obtain ⟨hscanned, hkeep, hall⟩ := ih _ hs₁ fun x hx hfile d hd hnone =>
      hP x (List.mem_cons_of_mem _ hx) hfile d hd fun a ha => hnone a (hmem a ha)
    refine ⟨hscanned, fun b hb => hkeep b (hmem b hb), fun x hx hfile d hd => ?_⟩
    rcases List.mem_cons.1 hx with rfl | hx
    · obtain ⟨b, hb, hbd⟩ := hfound hfile d hd
      exact ⟨b, hkeep b hb, hbd⟩
    · exact hall x hx hfile d hd

variable {root : Path} {h : Fs} {d : String} {i : Ino}

/-- The digest in the name of a flat GGUF file. -/
theorem flatDigest_eq_some {name : String} :
    flatDigest name = some d ↔ name = "sha256-" ++ d ++ ".gguf" := by
  rw [flatDigest, Option.bind_eq_some_iff]
  constructor
  · rintro ⟨rest, hrest, hext⟩
    rw [Text.stripPrefix_eq_some.1 hrest, Text.stripSuffix_eq_some.1 hext, String.append_assoc]
  · rintro rfl
    exact ⟨d ++ ".gguf", Text.stripPrefix_eq_some.2 (String.append_assoc ..), Text.stripSuffix_eq_some.2 rfl⟩

end EvictionManager

/-- Where `prune` finds the blob of a digest. -/
def CasStore.prunedPath (s : CasStore) (h : Fs) (d : String) : Path :=
  if h.isFile (s.blobsDir.join d) then s.blobsDir.join d else s.flatGguf d

namespace EvictionManager

/-- The candidate is what `prune` finds of a digest. -/
structure Found (root : Path) (h : Fs) (b : Candidate) : Prop where
  digest : IsDigest b.digest
  file : ∃ i, h.lookup ((CasStore.mk root).prunedPath h b.digest) = some (.file i) ∧
    b.size = (h.data i).length ∧ b.modified = (h.inodes i).mtime

/-- A file in the blobs directory is that of the digest that it is named after. -/
theorem found_of_blob {e : DirEntry} (hw : WellFormed root h) (hs : Shelved root h)
    (he : h.lookup ((CasStore.mk root).blobsDir ++ [e.name]) = some (.file i))
    (hmeta : e.metadata = h.stat (.file i)) : Found root h (candidate e.name.text e) := by
  have hshelf : OnShelf root ((CasStore.mk root).blobsDir ++ [e.name]) := by
    rw [CasStore.blobsDir_eq]
    exact ⟨by simp, by simp⟩
  obtain ⟨d, hd, hnames⟩ := hs _ i hshelf he
  have hname : (CasStore.mk root).blobsDir ++ [e.name] = (CasStore.mk root).blobsDir.join d ∧
      e.name.text = d := by
    rw [CasStore.blobsDir_join hd.plain]
    rw [CasStore.blobsDir_eq] at hnames ⊢
    rcases (CasStore.names_iff hd).1 hnames with heq | heq | heq
    · simp only [List.append_assoc, List.append_cancel_left_eq, List.cons_append, List.nil_append,
        List.cons.injEq, and_true, true_and] at heq
      exact ⟨by simp [heq], by rw [heq]⟩
    · simp at heq
    · simp at heq
  obtain ⟨hpath, rfl⟩ := hname
  have hfile : h.isFile ((CasStore.mk root).blobsDir.join e.name.text) = true := by
    rw [CasStore.isFile_iff hw hd (.inl rfl)]
    exact ⟨i, hpath ▸ he⟩
  refine ⟨hd, i, ?_, by rw [candidate, hmeta]; rfl, by rw [candidate, hmeta]; rfl⟩
  change h.lookup ((CasStore.mk root).prunedPath h e.name.text) = _
  rw [CasStore.prunedPath, if_pos hfile, ← hpath]
  exact he

/-- A flat GGUF file of a digest that has no file in the blobs directory. -/
theorem found_of_flat {e : DirEntry} (hs : Shelved root h)
    (he : h.lookup ((CasStore.mk root).casDir ++ [e.name]) = some (.file i))
    (hmeta : e.metadata = h.stat (.file i)) (hflat : flatDigest e.name.text = some d)
    (hno : IsDigest d → h.isFile ((CasStore.mk root).blobsDir.join d) = false) :
    Found root h (candidate d e) := by
  have hname := flatDigest_eq_some.1 hflat
  have hshelf : OnShelf root ((CasStore.mk root).casDir ++ [e.name]) := by
    rw [CasStore.casDir_eq]
    refine ⟨by simp, ?_⟩
    simp only [List.append_assoc, List.prefix_append_right_inj, List.cons_append, List.nil_append]
    intro hpre
    have hincoming := List.cons_prefix_cons.1 (List.cons_prefix_cons.1 hpre).2
    have := congrArg Name.text hincoming.1
    rw [hname] at this
    simp [← String.toList_inj] at this
  obtain ⟨x, hx, hnames⟩ := hs _ i hshelf he
  rw [CasStore.casDir_eq] at hnames
  have hgguf : ¬ "sha256-" ++ d ++ ".gguf" = "sha256-" ++ x ++ ".safetensors" := by
    rw [← String.toList_inj]
    intro heq
    have := congrArg List.reverse heq
    simp at this
  have hdx : d = x := by
    rcases (CasStore.names_iff hx).1 hnames with heq | heq | heq
    · simp at heq
    · have htext := congrArg (fun p => (p.getLast?.map Name.text)) heq
      simp only [List.append_assoc, List.getLast?_append, List.getLast?_cons_cons,
        List.cons_append, List.nil_append, List.getLast?_singleton, Option.some_or, Option.map_some,
        Option.some.injEq, hname] at htext
      simpa using htext
    · have htext := congrArg (fun p => (p.getLast?.map Name.text)) heq
      simp only [List.append_assoc, List.getLast?_append, List.getLast?_cons_cons,
        List.cons_append, List.nil_append, List.getLast?_singleton, Option.some_or, Option.map_some,
        Option.some.injEq, hname] at htext
      exact absurd htext hgguf
  subst hdx
  refine ⟨hx, i, ?_, by rw [candidate, hmeta]; rfl, by rw [candidate, hmeta]; rfl⟩
  change h.lookup ((CasStore.mk root).prunedPath h d) = _
  rw [CasStore.prunedPath, if_neg (by simp [hno hx]), CasStore.flatGguf_eq hx.plain.2.2.2]
  rw [CasStore.casDir_eq] at he
  rw [← he]
  simp [← hname]

/-- The two walks find every digest with a file at either of its first two names. -/
theorem run_scan (hw : WellFormed root h) (hs : Shelved root h) :
    ∃ found, (scan ⟨root⟩).run Fs.exec h = (.ok found, h) ∧ Scanned (Found root h) found ∧
      ∀ d i, IsDigest d → h.lookup ((CasStore.mk root).prunedPath h d) = some (.file i) →
        ∃ b ∈ found.1, b.digest = d := by
  have hblobs : h.lookup (CasStore.mk root).blobsDir = some .dir := by
    rw [CasStore.blobsDir_eq]
    exact hw.base _ (.inr (by simp [baseDirs]))
  have hcas : h.lookup (CasStore.mk root).casDir = some .dir := by
    rw [CasStore.casDir_eq]
    exact hw.base _ (.inr (by simp [baseDirs]))
  have hisDir : ∀ p, h.lookup p = some .dir → h.isDir p = true := by
    intro p hp
    rw [Fs.isDir, Fs.final_eq_self (by simp [hp]), hp]
    rfl
  obtain ⟨l, hl⟩ := Fs.exists_readDir hblobs
  obtain ⟨l', hl'⟩ := Fs.exists_readDir hcas
  have hrun : (scan ⟨root⟩).run Fs.exec h = (.ok (l'.foldl scanFlat (l.foldl scanBlob ([], 0))), h) := by
    unfold scan listBlobs
    have hread : ∀ p, (readDir p).run Fs.exec h = (h.readDir p, h) := fun _ => rfl
    rw [run_bind, Fs.run_isDir, hisDir _ hblobs, if_pos rfl, hread, hl]
    dsimp only
    rw [Fs.run_isDir, hisDir _ hcas, if_pos rfl, Fs.run_readDir, hl']
    rfl
  have hfile : ∀ e ∈ l, e.metadata.isFile = true → ∃ i,
      h.lookup ((CasStore.mk root).blobsDir ++ [e.name]) = some (.file i) ∧
        e.metadata = h.stat (.file i) := by
    intro e he hfile
    obtain ⟨x, hx, hmeta⟩ := (Fs.mem_readDir hl).1 he
    rw [hmeta] at hfile
    obtain ⟨i, rfl⟩ := Fs.stat_isFile.1 hfile
    exact ⟨i, hx, hmeta⟩
  have hfile' : ∀ e ∈ l', e.metadata.isFile = true → ∃ i,
      h.lookup ((CasStore.mk root).casDir ++ [e.name]) = some (.file i) ∧
        e.metadata = h.stat (.file i) := by
    intro e he hfile
    obtain ⟨x, hx, hmeta⟩ := (Fs.mem_readDir hl').1 he
    rw [hmeta] at hfile
    obtain ⟨i, rfl⟩ := Fs.stat_isFile.1 hfile
    exact ⟨i, hx, hmeta⟩
  obtain ⟨hs₁, hmem₁⟩ := scanned_blobs (P := Found root h) l ([], 0) (Fs.pairwise_readDir hl)
    scanned_nil (fun e he hf => by
      obtain ⟨i, hi, hmeta⟩ := hfile e he hf
      exact found_of_blob hw hs hi hmeta) (by rintro _ ⟨⟩)
  -- A digest with a file in the blobs directory is found in the first walk.
  have hfirst : ∀ d, IsDigest d → h.isFile ((CasStore.mk root).blobsDir.join d) = true →
      ∃ b ∈ (l.foldl scanBlob ([], 0)).1, b.digest = d := by
    intro d hd hblob
    obtain ⟨i, hi⟩ := (CasStore.isFile_iff hw hd (.inl rfl)).1 hblob
    have he : (⟨⟨d, hd.plain⟩, h.stat (.file i)⟩ : DirEntry) ∈ l := by
      rw [Fs.mem_readDir hl]
      refine ⟨.file i, ?_, rfl⟩
      rw [CasStore.blobsDir_join hd.plain] at hi
      rw [CasStore.blobsDir_eq, ← hi]
      simp
    exact ⟨_, (hmem₁ _).2 (.inr ⟨_, he, rfl, rfl⟩), rfl⟩
  obtain ⟨hs₂, hkeep, hflats⟩ := scanned_flats (P := Found root h) l' _ hs₁
    fun e he hf d hflat hnone => by
      obtain ⟨i, hi, hmeta⟩ := hfile' e he hf
      apply found_of_flat hs hi hmeta hflat
      intro hd
      rw [← Bool.not_eq_true]
      intro hblob
      obtain ⟨b, hb, hbd⟩ := hfirst d hd hblob
      exact hnone b hb hbd
  refine ⟨_, hrun, hs₂, fun d i hd hi => ?_⟩
  unfold CasStore.prunedPath at hi
  split at hi
  · rename_i hblob
    obtain ⟨b, hb, hbd⟩ := hfirst d hd hblob
    exact ⟨b, hkeep b hb, hbd⟩
  · have he : (⟨⟨"sha256-" ++ d ++ ".gguf", plain_flat hd.plain.2.2.2 (by decide)⟩,
        h.stat (.file i)⟩ : DirEntry) ∈ l' := by
      rw [Fs.mem_readDir hl']
      refine ⟨.file i, ?_, rfl⟩
      rw [CasStore.flatGguf_eq hd.plain.2.2.2] at hi
      rw [CasStore.casDir_eq, ← hi]
      simp
    exact hflats _ he rfl d (flatDigest_eq_some.2 rfl)

/-! ### The removals -/

/-- The file of the pin is there. -/
def pinnedAt (root : Path) (h : Fs) (d : String) : Bool := h.isFile ((ofRoot root).pinnedDir.join d)

theorem run_isPinned (hd : IsDigest d) :
    ((ofRoot root).isPinned d).run Fs.exec h = (pinnedAt root h d, h) := by
  rw [isPinned, hd.trim_eq, if_pos (isDigestFormat_eq_true.2 hd)]
  rfl

theorem pinnedAt_eq_true (hw : WellFormed root h) (hd : IsDigest d) :
    pinnedAt root h d = true ↔ Pinned root h d := by
  have hpin : root ++ [Dir.pinned] <+: (ofRoot root).pinnedDir.join d := by
    rw [pinFile_eq hd]
    simp
  rw [pinnedAt, Fs.isFile, Option.isSome_iff_exists]
  apply exists_congr
  intro i
  rw [hw.fileAt_eq_some (under_root hpin) (not_linkPlace_of_area hpin (by decide) (by decide))]

end EvictionManager

/-- The path is one of the two that `prune` removes for a digest. -/
def CasStore.PrunedName (s : CasStore) (d : String) (p : Path) : Prop :=
  p = s.blobsDir.join d ∨ p = s.flatGguf d

theorem CasStore.PrunedName.names {s : CasStore} {d : String} {p : Path} (hp : s.PrunedName d p) :
    s.Names d p := by
  rcases hp with hp | hp
  · exact .inl hp
  · exact .inr (.inl hp)

/-- The two paths of some digests were removed, and nothing else. -/
structure Removes (root : Path) (gone : String → Prop) (h h' : Fs) : Prop where
  digest : ∀ d, gone d → IsDigest d
  removed : ∀ d p, gone d → (CasStore.mk root).PrunedName d p → h'.lookup p = none
  kept : ∀ p, (∀ d, gone d → ¬ (CasStore.mk root).PrunedName d p) → h'.lookup p = h.lookup p
  rest : ∃ entries, h' = { h with entries := entries }

namespace Removes

variable {root : Path} {gone gone' : String → Prop} {h h' h'' : Fs} {p : Path}

theorem of_none (hno : ∀ d, ¬ gone d) : Removes root gone h h :=
  ⟨fun d hd => absurd hd (hno d), fun d _ hd => absurd hd (hno d), fun _ _ => rfl, h.entries, rfl⟩

theorem lookup_cases (hs : Removes root gone h h') (p : Path) :
    h'.lookup p = h.lookup p ∨ h'.lookup p = none := by
  by_cases hp : ∀ d, gone d → ¬ (CasStore.mk root).PrunedName d p
  · exact .inl (hs.kept p hp)
  · push Not at hp
    obtain ⟨d, hd, hdp⟩ := hp
    exact .inr (hs.removed d p hd hdp)

theorem trans (hs : Removes root gone h h') (hs' : Removes root gone' h' h'') :
    Removes root (fun d => gone d ∨ gone' d) h h'' where
  digest d hd := hd.elim (hs.digest d) (hs'.digest d)
  removed d p hd hp := by
    rcases hd with hd | hd
    · rcases hs'.lookup_cases p with heq | heq
      · rw [heq, hs.removed d p hd hp]
      · exact heq
    · exact hs'.removed d p hd hp
  kept p hp :=
    (hs'.kept p fun d hd => hp d (.inr hd)).trans (hs.kept p fun d hd => hp d (.inl hd))
  rest := by
    obtain ⟨entries, rfl⟩ := hs.rest
    obtain ⟨entries', rfl⟩ := hs'.rest
    exact ⟨entries', rfl⟩

theorem inodes (hs : Removes root gone h h') : h'.inodes = h.inodes := by
  obtain ⟨entries, rfl⟩ := hs.rest
  rfl

/-- Nothing outside the store differs. -/
theorem lookup_of_not_cas (hs : Removes root gone h h') (hp : ¬ root ++ [Dir.cas] <+: p) :
    h'.lookup p = h.lookup p := by
  apply hs.kept
  intro d hd hpd
  exact hp (hpd.names.in_cas (hs.digest d hd))

theorem wellFormed (hs : Removes root gone h h') (hw : WellFormed root h) : WellFormed root h' := by
  have hfile : ∀ q e, h'.lookup q = some e → h.lookup q = some e := by
    intro q e hq
    rcases hs.lookup_cases q with heq | heq
    · exact heq ▸ hq
    · rw [heq] at hq
      cases hq
  have hnext : h'.nextIno = h.nextIno := by
    obtain ⟨entries, rfl⟩ := hs.rest
    rfl
  refine ⟨fun q hq => ?_, fun q t hq ht => hw.links q t hq (hfile _ _ ht),
    fun q r i hq hr hqi hri => hw.shared q r i hq hr (hfile _ _ hqi) (hfile _ _ hri),
    fun q i hq hqi => hnext ▸ hw.fresh q i hq (hfile _ _ hqi),
    fun d q hd hq hdir => hw.notDir d q hd hq (hfile _ _ hdir)⟩
  rw [hs.kept, hw.base q hq]
  intro d hd hpd
  exact hw.notDir d q (hs.digest d hd) hpd.names (hw.base q hq)

theorem pinnedAt_eq (hs : Removes root gone h h') (hw : WellFormed root h) {d : String}
    (hd : IsDigest d) : EvictionManager.pinnedAt root h' d = EvictionManager.pinnedAt root h d := by
  rw [Bool.eq_iff_iff, EvictionManager.pinnedAt_eq_true hw hd,
    EvictionManager.pinnedAt_eq_true (hs.wellFormed hw) hd]
  unfold Pinned
  rw [hs.lookup_of_not_cas]
  rw [EvictionManager.pinFile_eq hd]
  simp

theorem shelved (hs : Removes root gone h h') (hsh : Shelved root h) : Shelved root h' := by
  intro q i hq hqi
  rcases hs.lookup_cases q with heq | heq
  · exact hsh q i hq (heq ▸ hqi)
  · rw [heq] at hqi
    cases hqi

end Removes

namespace EvictionManager

variable {root : Path} {h h' : Fs} {d : String} {max : Nat}

/-- Removing one of the two names of a digest. -/
private theorem run_remove (hw : WellFormed root h) (hd : IsDigest d) {p : Path}
    (hp : (CasStore.mk root).PrunedName d p) :
    (∀ q, (h.removeFile p).2.lookup q = if q = p then none else h.lookup q) ∧
      (∃ entries, (h.removeFile p).2 = { h with entries := entries }) ∧
      ((h.removeFile p).1.isOk = true ↔ ∃ i, h.lookup p = some (.file i)) := by
  have hdir := hw.notDir d p hd hp.names
  have hpne : p ≠ [] := Fs.ne_nil_of_lookup_ne_dir hdir
  rcases Fs.removeFile_cases h p with ⟨e, he, hne, hr⟩ | ⟨hnone | hdir', e, hr⟩
  · rw [hr]
    refine ⟨Fs.lookup_unlink hpne, ⟨_, rfl⟩, iff_of_true rfl ?_⟩
    obtain ⟨i, rfl⟩ := hw.isFile_of_lookup (hp.names.under hd) (hp.names.not_linkPlace hd) he hne
    exact ⟨i, he⟩
  · rw [hr]
    refine ⟨fun q => ?_, ⟨_, rfl⟩, iff_of_false nofun ?_⟩
    · split
      · rename_i hq
        rw [hq, hnone]
      · rfl
    · rintro ⟨i, hi⟩
      rw [hnone] at hi
      cases hi
  · exact absurd hdir' hdir

/-- Removing both names of a digest. -/
private theorem removes_both (hw : WellFormed root h) (hd : IsDigest d) :
    let s := CasStore.mk root
    let r1 := h.removeFile (s.blobsDir.join d)
    let r2 := r1.2.removeFile (s.flatGguf d)
    Removes root (· = d) h r2.2 ∧
      ((r1.1.isOk || r2.1.isOk) = true ↔ ∃ p i, s.PrunedName d p ∧ h.lookup p = some (.file i)) := by
  intro s r1 r2
  obtain ⟨hl₁, ⟨entries₁, hr₁⟩, hok₁⟩ := run_remove hw hd (.inl rfl : s.PrunedName d _)
  have hw₁ : WellFormed root r1.2 :=
    hw.answers (o := .removeFile (s.blobsDir.join d)) trivial (.inl rfl)
  obtain ⟨hl₂, ⟨entries₂, hr₂⟩, hok₂⟩ := run_remove hw₁ hd (.inr rfl : s.PrunedName d _)
  have hne : s.flatGguf d ≠ s.blobsDir.join d := by
    rw [CasStore.flatGguf_eq hd.plain.2.2.2, CasStore.blobsDir_join hd.plain]
    simp
  constructor
  · refine ⟨?_, ?_, fun p hp => ?_, entries₂, ?_⟩
    · rintro _ rfl
      exact hd
    · rintro _ p rfl (rfl | rfl)
      · exact (hl₂ _).trans ((if_neg hne.symm).trans ((hl₁ _).trans (if_pos rfl)))
      · exact (hl₂ _).trans (if_pos rfl)
    · have hpne : ¬ p = s.flatGguf d := fun heq => hp d rfl (.inr heq)
      have hpne' : ¬ p = s.blobsDir.join d := fun heq => hp d rfl (.inl heq)
      exact (hl₂ _).trans ((if_neg hpne).trans ((hl₁ _).trans (if_neg hpne')))
    · rw [hr₂, hr₁]
  · rw [Bool.or_eq_true, hok₁, hok₂, hl₁, if_neg hne]
    constructor
    · rintro (⟨i, hi⟩ | ⟨i, hi⟩)
      · exact ⟨_, i, .inl rfl, hi⟩
      · exact ⟨_, i, .inr rfl, hi⟩
    · rintro ⟨p, i, rfl | rfl, hi⟩
      · exact .inl ⟨i, hi⟩
      · exact .inr ⟨i, hi⟩

/-- The candidates that are not pinned. -/
def evictions (root : Path) (h : Fs) (blobs : List Candidate) : List Candidate :=
  blobs.filter fun b => !pinnedAt root h b.digest

/-- The loop removes what is not pinned for a stretch of the candidates, and stops within the quota. -/
theorem run_evict (hw : WellFormed root h) (blobs : List Candidate) (total reclaimed : Nat)
    (hdigest : ∀ b ∈ blobs, IsDigest b.digest)
    (hdistinct : blobs.Pairwise fun a b => a.digest ≠ b.digest)
    (hpresent : ∀ b ∈ blobs, ∃ p i, (CasStore.mk root).PrunedName b.digest p ∧
      h.lookup p = some (.file i)) (hreclaimed : u64 reclaimed = reclaimed) :
    let r := ((ofRoot root).evict ⟨root⟩ max blobs total reclaimed).run Fs.exec h
    ∃ pre suf, blobs = pre ++ suf ∧
      Removes root (fun d => ∃ b ∈ evictions root h pre, b.digest = d) h r.2 ∧
      r.1 = u64 (reclaimed + sizes (evictions root h pre)) ∧
      (suf = [] ∨ total - sizes (evictions root h pre) ≤ max) := by
  induction blobs generalizing h total reclaimed with
  | nil =>
    exact ⟨[], [], rfl, .of_none (by simp [evictions]), hreclaimed.symm, .inl rfl⟩
  | cons b rest ih =>
    obtain ⟨hb, hrest⟩ := List.pairwise_cons.1 hdistinct
    have hbd := hdigest b (List.mem_cons_self ..)
    have hdigest' := fun c hc => hdigest c (List.mem_cons_of_mem b hc)
    by_cases hle : total ≤ max
    · refine ⟨[], b :: rest, rfl, ?_, ?_, .inr hle⟩
      · rw [evict, if_pos hle]
        exact .of_none (by simp [evictions])
      · rw [evict, if_pos hle]
        exact hreclaimed.symm
    rw [evict, if_neg hle, run_bind, run_isPinned hbd]
    dsimp only
    cases hpin : pinnedAt root h b.digest with
    | true =>
      obtain ⟨pre, suf, rfl, hremoves, hresult, hend⟩ := ih hw total reclaimed hdigest' hrest
        (fun c hc => hpresent c (List.mem_cons_of_mem b hc)) hreclaimed
      have hpre : evictions root h (b :: pre) = evictions root h pre := by
        simp [evictions, hpin]
      rw [if_pos rfl]
      refine ⟨b :: pre, suf, rfl, ?_, ?_, ?_⟩
      · rw [hpre]
        exact hremoves
      · rw [hpre]
        exact hresult
      · rw [hpre]
        exact hend
    | false =>
      obtain ⟨hboth, hok⟩ := removes_both hw hbd
      rw [if_neg (by simp), Fs.run_removeFile, Fs.run_removeFile,
        if_pos (hok.2 (hpresent b (List.mem_cons_self ..)))]
      generalize hh₁ : ((h.removeFile ((CasStore.mk root).blobsDir.join b.digest)).2.removeFile
        ((CasStore.mk root).flatGguf b.digest)).2 = h₁ at *
      have hw₁ := hboth.wellFormed hw
      have hpresent' : ∀ c ∈ rest, ∃ p i, (CasStore.mk root).PrunedName c.digest p ∧
          h₁.lookup p = some (.file i) := by
        intro c hc
        obtain ⟨p, i, hp, hi⟩ := hpresent c (List.mem_cons_of_mem b hc)
        refine ⟨p, i, hp, ?_⟩
        rw [hboth.kept, hi]
        rintro d rfl hpd
        exact hb c hc (hpd.names.digest_eq hbd (hdigest' c hc) hp.names)
      obtain ⟨pre, suf, rfl, hremoves, hresult, hend⟩ := ih hw₁ (total - b.size)
        (u64 (reclaimed + b.size)) hdigest' hrest hpresent' (u64_u64 _)
      have hevict : evictions root h₁ pre = evictions root h pre := by
        apply List.filter_congr
        intro c hc
        rw [hboth.pinnedAt_eq hw (hdigest' c (List.mem_append_left _ hc))]
      have hpre : evictions root h (b :: pre) = b :: evictions root h pre := by
        simp [evictions, hpin]
      have hsizes : sizes (evictions root h (b :: pre)) = b.size + sizes (evictions root h pre) := by
        rw [hpre]
        simp [sizes]
      rw [hevict] at hremoves hresult hend
      refine ⟨b :: pre, suf, rfl, ?_, ?_, ?_⟩
      · have htrans := hboth.trans hremoves
        have hgone : (fun d => d = b.digest ∨ ∃ c ∈ evictions root h pre, c.digest = d) =
            fun d => ∃ c ∈ evictions root h (b :: pre), c.digest = d := by
          funext d
          rw [hpre]
          simp [eq_comm]
        rwa [hgone] at htrans
      · rw [hresult, u64_add, hsizes, Nat.add_assoc]
      · rw [hsizes, ← Nat.sub_sub]
        exact hend

/-- What `prune` does in a state whose shelf holds names of digests only. -/
theorem run_prune (hw : WellFormed root h) (hs : Shelved root h) (max : Nat) :
    let r := ((ofRoot root).prune ⟨root⟩ max).run Fs.exec h
    ∃ blobs, Scanned (Found root h) (blobs, u64 (sizes blobs)) ∧
      (∀ d i, IsDigest d → h.lookup ((CasStore.mk root).prunedPath h d) = some (.file i) →
        ∃ b ∈ blobs, b.digest = d) ∧
      (u64 (sizes blobs) ≤ max → r = (.ok 0, h)) ∧
      (max < u64 (sizes blobs) → ∃ pre suf, byAge blobs = pre ++ suf ∧
        Removes root (fun d => ∃ b ∈ evictions root h pre, b.digest = d) h r.2 ∧
        r.1 = .ok (u64 (sizes (evictions root h pre))) ∧
        (suf = [] ∨ u64 (sizes blobs) - sizes (evictions root h pre) ≤ max)) := by
  intro r
  obtain ⟨⟨blobs, total⟩, hrun, hscanned, hall⟩ := run_scan hw hs
  obtain rfl : total = u64 (sizes blobs) := hscanned.total
  have hr : r = (do
      if u64 (sizes blobs) ≤ max then return .ok 0
      return .ok (← (ofRoot root).evict ⟨root⟩ max (byAge blobs) (u64 (sizes blobs)) 0) :
      Io (Except ModeldError Nat)).run Fs.exec h := by
    change ((ofRoot root).prune ⟨root⟩ max).run Fs.exec h = _
    unfold prune
    rw [run_bind, hrun]
  refine ⟨blobs, hscanned, hall, fun hle => ?_, fun hlt => ?_⟩
  · rw [hr, if_pos hle]
    rfl
  · have hperm : (byAge blobs).Perm blobs := List.perm_insertionSort ..
    have hdistinct : (byAge blobs).Pairwise fun a b => a.digest ≠ b.digest :=
      (hperm.pairwise_iff fun hab => hab.symm).2 hscanned.distinct
    have hfound : ∀ b ∈ byAge blobs, Found root h b := fun b hb =>
      hscanned.sound b (hperm.mem_iff.1 hb)
    have hpresent : ∀ b ∈ byAge blobs, ∃ p i, (CasStore.mk root).PrunedName b.digest p ∧
        h.lookup p = some (.file i) := by
      intro b hb
      obtain ⟨i, hi, -⟩ := (hfound b hb).file
      refine ⟨_, i, ?_, hi⟩
      unfold CasStore.prunedPath
      split
      · exact .inl rfl
      · exact .inr rfl
    obtain ⟨pre, suf, hsplit, hremoves, hresult, hend⟩ := @run_evict root h max hw (byAge blobs)
      (u64 (sizes blobs)) 0 (fun b hb => (hfound b hb).digest) hdistinct hpresent rfl
    rw [hr, if_neg hlt.not_ge, run_bind]
    refine ⟨pre, suf, hsplit, hremoves, ?_, hend⟩
    rw [← Nat.zero_add (sizes (evictions root h pre)), ← hresult]
    rfl

end EvictionManager

end Modeld
