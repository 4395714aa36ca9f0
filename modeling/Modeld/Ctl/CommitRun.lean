import Mathlib
import Modeld.Core.StoreRun
import Modeld.Ctl.CommitCalls

/-!
# What a commit does to the store

Run alone, a commit of a staged file puts the file under its flat name, and under the name in the
blobs directory a hard link to it, or a copy on a file system without hard links. What follows,
whether it fails or not, leaves the store as it is.
-/

namespace Modeld

open Host Program

variable {h : Fs} {c : ArtifactCommit} {i : Ino}

namespace ArtifactCommit

theorem casDest_ne_blobPath (hd : IsDigest c.digest) : c.casDest ≠ c.blobPath := by
  intro heq
  have hblob := CasStore.blobsDir_join (s := c.cas) hd.plain
  rw [blobPath_eq, hblob] at heq
  rcases casDest_eq (c := c) with hdest | hdest
  · rw [hdest, CasStore.flatGguf_eq hd.plain.2.2.2] at heq
    simp at heq
  · rw [hdest, CasStore.flatSt_eq hd.plain.2.2.2] at heq
    simp at heq

/-- The second name: a link to the committed file, or a copy of it. -/
theorem run_linkBlob (hd : IsDigest c.digest) (hw : WellFormed c.storageRoot h)
    (hi : h.lookup c.casDest = some (.file i)) :
    let h' := (c.linkBlob.run Fs.exec h).2
    ∃ j, (∀ q, h'.lookup q = if q = c.blobPath then some (.file j) else h.lookup q) ∧
      (h.hardLinks = true → j = i ∧ h'.inodes = h.inodes ∧ h'.ticks = h.ticks) ∧
      (h.hardLinks = false → j = h.nextIno ∧ h'.data j = h.data i ∧ Fs.WrittenSince j h h' ∧
        ∀ k, k ≠ j → h'.inodes k = h.inodes k) ∧
      h'.hardLinks = h.hardLinks ∧ h'.clock = h.clock := by
  intro h'
  have hne := casDest_ne_blobPath hd
  have hnames : c.cas.Names c.digest c.blobPath := names_blobPath
  have hblobne : c.blobPath ≠ [] := by
    intro hnil
    have hcas := hnames.in_cas hd
    rw [hnil] at hcas
    exact absurd (List.prefix_nil.1 hcas) (by simp)
  -- The second name is free once the old one is removed.
  obtain ⟨h₁, hremove, hl, hrest⟩ : ∃ h₁, (h.removeFile c.blobPath).2 = h₁ ∧
      (∀ q, h₁.lookup q = if q = c.blobPath then none else h.lookup q) ∧
      ∃ entries, h₁ = { h with entries := entries } := by
    rcases Fs.removeFile_cases h c.blobPath with ⟨e, he, -, hr⟩ | ⟨hnone | hdir, e, hr⟩
    · rw [hr]
      exact ⟨_, rfl, Fs.lookup_unlink hblobne, _, rfl⟩
    · rw [hr]
      refine ⟨_, rfl, fun q => ?_, h.entries, rfl⟩
      split
      · rename_i hq
        rw [hq, hnone]
      · rfl
    · exact absurd hdir (hw.notDir _ _ hd hnames)
  have hi₁ : h₁.lookup c.casDest = some (.file i) := by
    rw [hl, if_neg hne, hi]
  have hnone : h₁.lookup c.blobPath = none := by
    rw [hl, if_pos rfl]
  have hparent : h₁.lookup c.blobPath.dropLast = some .dir := by
    have hdir := hw.parent_of_names hd hnames
    rw [hl, if_neg, hdir]
    intro heq
    exact hw.notDir _ _ hd hnames (heq ▸ hdir)
  obtain ⟨entries, hentries⟩ := hrest
  have hdirs : h.createDirAll c.blobDir = (.ok (), h) := hw.createDirAll_blobsDir
  have hlinks : h₁.hardLinks = h.hardLinks := by rw [hentries]
  rcases Bool.eq_false_or_eq_true h.hardLinks with hcan | hcan
  · -- A file system with hard links.
    have hlink : h₁.hardLink c.casDest c.blobPath = (.ok (), h₁.setEntry c.blobPath (.file i)) := by
      simp [Fs.hardLink, hi₁, hnone, hlinks, hcan, Fs.hasParent, hparent]
    have hend : h' = h₁.setEntry c.blobPath (.file i) := by
      change (c.linkBlob.run Fs.exec h).2 = _
      rw [linkBlob, Fs.run_createDirAll, hdirs]
      change ((removeFile c.blobPath >>= _).run Fs.exec h).2 = _
      rw [Fs.run_removeFile, hremove, Fs.run_hardLink, hlink]
      rfl
    refine ⟨i, fun q => ?_, fun _ => ⟨rfl, ?_, ?_⟩, fun hno => Bool.noConfusion (hcan.symm.trans hno),
      ?_, ?_⟩
    · rw [hend, Fs.lookup_setEntry hblobne, hl]
      split <;> rfl
    all_goals
      rw [hend, hentries]
      rfl
  · -- A file system without.
    have hlink : h₁.hardLink c.casDest c.blobPath = (.error .unsupported, h₁) := by
      simp [Fs.hardLink, hi₁, hnone, hlinks, hcan]
    have hcreate : h₁.create c.blobPath = (.ok h₁.nextIno, h₁.newFile c.blobPath) := by
      rw [Fs.create, Fs.final_eq_self (by simp [hnone]), hnone]
      simp [Fs.hasParent, hparent]
    have hfile : h₁.fileAt c.casDest = some i := Fs.fileAt_of_lookup hi₁
    have hcopy : h₁.copy c.casDest c.blobPath = (.ok (),
        (h₁.newFile c.blobPath).setData h₁.nextIno ((h₁.newFile c.blobPath).data i)) := by
      rw [Fs.copy, hfile]
      dsimp only
      rw [hcreate]
    have hend : h' = (h₁.newFile c.blobPath).setData h₁.nextIno ((h₁.newFile c.blobPath).data i) := by
      change (c.linkBlob.run Fs.exec h).2 = _
      rw [linkBlob, Fs.run_createDirAll, hdirs]
      change ((removeFile c.blobPath >>= _).run Fs.exec h).2 = _
      rw [Fs.run_removeFile, hremove, Fs.run_hardLink, hlink]
      change ((copy c.casDest c.blobPath >>= _).run Fs.exec h₁).2 = _
      rw [Fs.run_copy, hcopy]
      rfl
    have hnext : h₁.nextIno = h.nextIno := by rw [hentries]
    have hold : i < h.nextIno := hw.fresh _ i (names_casDest.under hd) hi
    rw [hnext] at hend
    refine ⟨h.nextIno, fun q => ?_, fun hyes => Bool.noConfusion (hcan.symm.trans hyes),
      fun _ => ⟨rfl, ?_, ?_, fun k hk => ?_⟩, ?_, ?_⟩
    · have hnew := Fs.lookup_setEntry (h := h₁) (e := .file h₁.nextIno) hblobne q
      rw [hl, hnext] at hnew
      rw [hend, Fs.lookup_setData, Fs.newFile, hnext]
      refine hnew.trans ?_
      split <;> rfl
    · rw [hend, Fs.data_setData_self, Fs.data_newFile_of_ne (hnext ▸ hold.ne), hentries]
      rfl
    · rw [hend, hentries]
      exact Fs.writtenSince_setData rfl (Nat.le_succ _)
    · rw [hend, hentries]
      exact (Function.update_of_ne hk ..).trans (Function.update_of_ne hk ..)
    · rw [hend, hentries]
      rfl
    · rw [hend, hentries]
      rfl

/-- The names that a commit gives, and their files. -/
def newNames (c : ArtifactCommit) (i j : Ino) (q : Path) : Option Ino :=
  if q = c.casDest then some i else if q = c.blobPath then some j else none

/-- The second name after the first. -/
theorem shelves_linkBlob {h₀ h₁ : Fs} {bytes : Bytes} (hd : IsDigest c.digest)
    (hw₀ : WellFormed c.storageRoot h₀) (hw₁ : WellFormed c.storageRoot h₁)
    (hle : h₀.nextIno ≤ h₁.nextIno) (hs : Shelves c.storageRoot c.digest bytes
      (fun q => if q = c.casDest then some i else none) h₀ h₁) :
    ∃ j, (h₀.hardLinks = true → j = i) ∧ (h₀.hardLinks = false → j ≠ i) ∧
      Shelves c.storageRoot c.digest bytes (c.newNames i j) h₀ (c.linkBlob.run Fs.exec h₁).2 := by
  have hne := casDest_ne_blobPath hd
  have hshelf : OnShelf c.storageRoot c.casDest := names_casDest.onShelf hd
  have hself : h₁.lookup c.casDest = some (.file i) := by
    rw [hs.lookup _ hshelf, if_pos rfl]
    rfl
  have hnewi : (fun q => if q = c.casDest then some i else none) c.casDest = some i := if_pos rfl
  have hold : i < h₁.nextIno := hw₁.fresh _ i (names_casDest.under hd) hself
  obtain ⟨j, hl, hlinks, hcopies, hflag, hclock⟩ := run_linkBlob hd hw₁ hself
  generalize (c.linkBlob.run Fs.exec h₁).2 = h₂ at *
  rw [hs.hardLinks] at hlinks hcopies hflag
  -- Whichever way the second name was made, it holds the content and was written since.
  have hcases : (j = i ∧ h₂.inodes = h₁.inodes ∧ h₂.ticks = h₁.ticks) ∨
      (j = h₁.nextIno ∧ h₂.data j = h₁.data i ∧ Fs.WrittenSince j h₁ h₂ ∧
        ∀ k, k ≠ j → h₂.inodes k = h₁.inodes k) := by
    rcases Bool.eq_false_or_eq_true h₀.hardLinks with hcan | hcan
    · exact .inl (hlinks hcan)
    · exact .inr (hcopies hcan)
  have hkept : ∀ k, k < h₁.nextIno → h₂.inodes k = h₁.inodes k := by
    intro k hk
    rcases hcases with ⟨-, hsame, -⟩ | ⟨rfl, -, -, hsame⟩
    · rw [hsame]
    · exact hsame k hk.ne
  have hticks : h₁.ticks ≤ h₂.ticks := by
    rcases hcases with ⟨-, -, hsame⟩ | ⟨-, -, ⟨k, hk, hk', -⟩, -⟩
    · exact hsame.ge
    · exact hk.trans hk'.le
  have hi : h₂.inodes i = h₁.inodes i := hkept i hold
  have hcommitted : h₂.data i = bytes := by
    rw [Fs.data, hi]
    exact hs.data _ i hnewi
  have hcommitTime : Fs.WrittenSince i h₀ h₂ := by
    obtain ⟨k, hk, hk', htime⟩ := hs.time _ i hnewi
    exact ⟨k, hk, hk'.trans_le hticks, by rw [hi, htime]⟩
  refine ⟨j, fun hcan => (hlinks hcan).1, fun hcan => (hcopies hcan).1.trans_ne hold.ne', ?_⟩
  have hnew : ∀ q k, c.newNames i j q = some k → k = i ∨ k = j := by
    intro q k hq
    unfold newNames at hq
    split_ifs at hq
    · exact .inl (Option.some.inj hq).symm
    · exact .inr (Option.some.inj hq).symm
  refine ⟨fun q k hq => ?_, fun q hq => ?_, fun q k hq => ?_, fun q k hq => ?_, fun q k hq => ?_,
    fun q k hq hqnew hqk => ?_, hflag, hclock.trans hs.clock, hs.ticks.trans hticks⟩
  · unfold newNames at hq
    split_ifs at hq with h1 h2
    · rw [h1]
      exact names_casDest
    · rw [h2]
      exact names_blobPath
  · rw [hl, hs.lookup q hq, newNames]
    split_ifs with h1 h2 h2
    · exact absurd (h2.symm.trans h1) hne
    · rfl
    · rfl
    · rfl
  · rcases hnew q k hq with rfl | rfl
    · exact hs.fresh _ k hnewi
    · rcases hcases with ⟨rfl, -, -⟩ | ⟨rfl, -, -, -⟩
      · exact hs.fresh _ k hnewi
      · intro r hr hrk
        exact absurd (hw₀.fresh r _ (under_root hr.1) hrk) hle.not_gt
  · rcases hnew q k hq with rfl | rfl
    · exact hcommitted
    · rcases hcases with ⟨rfl, -, -⟩ | ⟨-, hdata, -, -⟩
      · exact hcommitted
      · rw [hdata]
        exact hs.data _ i hnewi
  · rcases hnew q k hq with rfl | rfl
    · exact hcommitTime
    · rcases hcases with ⟨rfl, -, -⟩ | ⟨-, -, ⟨l, hk, hk', htime⟩, -⟩
      · exact hcommitTime
      · exact ⟨l, hs.ticks.trans hk, hk', by rw [htime, hs.clock]⟩
  · have hqdest : ¬ q = c.casDest := by
      intro heq
      rw [newNames, if_pos heq] at hqnew
      cases hqnew
    have hqblob : ¬ q = c.blobPath := by
      intro heq
      rw [newNames, if_neg hqdest, if_pos heq] at hqnew
      cases hqnew
    have hqk₁ : h₁.lookup q = some (.file k) := by
      rw [hs.lookup q hq, if_neg hqdest, hqk]
      rfl
    rw [hkept k (hw₁.fresh q k (under_root hq.1) hqk₁)]
    exact hs.kept q k hq (if_neg hqdest) hqk

/-! ### The whole commit -/

variable {staged : Bytes}

/-- A file with the content was staged since `h₀`, and the shelf is as it was. -/
structure StagedSince (root p : Path) (i : Ino) (bytes : Bytes) (h₀ h : Fs) : Prop where
  wellFormed : WellFormed root h
  lookup : h.lookup p = some (.file i)
  nextIno : h₀.nextIno ≤ h.nextIno
  sameShelf : SameShelf root h₀ h
  fresh : ∀ q, OnShelf root q → h₀.lookup q ≠ some (.file i)
  time : Fs.WrittenSince i h₀ h
  data : h.data i = bytes

/-- Staging the file of a commit. -/
theorem Valid.write_stage (hc : c.Valid) (hw : WellFormed c.storageRoot h)
    (hdir : h.lookup c.stagePath ≠ some .dir) (staged : Bytes) :
    ∃ i h₁, h.write c.stagePath staged = (.ok (), h₁) ∧
      StagedSince c.storageRoot c.stagePath i staged h h₁ := by
  obtain ⟨n, hn⟩ := hc.stage
  have hincoming : c.storageRoot ++ [Dir.cas, Dir.incoming] <+: c.stagePath := by
    rw [hn]
    simp
  have hcas : c.storageRoot ++ [Dir.cas] <+: c.stagePath := List.IsPrefix.trans (by simp) hincoming
  have hlink : ¬ LinkPlace c.storageRoot c.stagePath := not_linkPlace_of_area hcas (by decide) (by decide)
  have hnone : ∀ d, IsDigest d → ¬ c.cas.Names d c.stagePath := by
    intro d hd
    rw [hn]
    exact CasStore.not_names_incoming hd n
  have hparent : h.lookup c.stagePath.dropLast = some .dir := by
    rw [hn]
    exact hw.base _ (.inr (by simp [baseDirs]))
  obtain ⟨i, h₀, hcreate⟩ := Fs.create_ok (fun t ht => hlink (hw.links _ t (under_root hcas) ht)) hdir
    hparent
  have hwrite : h.write c.stagePath staged = (.ok (), h₀.setData i staged) := by
    rw [Fs.write, hcreate]
  have hle : h.nextIno ≤ h₀.nextIno := (Fs.create_frame hcreate).1
  obtain ⟨hw₁, hself, hsame, hfresh, htime⟩ :=
    CasStore.staged_spec hw hincoming hnone hcreate (.setData (x := staged))
  exact ⟨i, _, hwrite, hw₁, hself, hle, hsame, hfresh, htime, Fs.data_setData_self⟩

theorem Valid.offShelf_afterStore (hc : c.Valid) : Only (OffShelf c.storageRoot) c.afterStore :=
  hc.outside_afterStore.mono fun _ ho => ⟨ho.1, ho.2.1 _ (.inl rfl), ho.2.2⟩

/-- Committing a file that was staged puts it on the shelf under the two names of the commit, and the
rest of the commit is run from there. -/
theorem Valid.run_staged {h₀ : Fs} (hc : c.Valid) (hw₀ : WellFormed c.storageRoot h₀)
    (hs : StagedSince c.storageRoot c.stagePath i staged h₀ h) :
    ∃ j h₁, (commitArtifact c).run Fs.exec h = c.afterStore.run Fs.exec h₁ ∧
      WellFormed c.storageRoot h₁ ∧ (h₀.hardLinks = true → j = i) ∧
      (h₀.hardLinks = false → j ≠ i) ∧
      Shelves c.storageRoot c.digest staged (c.newNames i j) h₀ h₁ := by
  have hw := hs.wellFormed
  obtain ⟨n, hn⟩ := hc.stage
  have hincoming : c.storageRoot ++ [Dir.cas, Dir.incoming] <+: c.stagePath := by
    rw [hn]
    simp
  have hshelf : OnShelf c.storageRoot c.casDest := names_casDest.onShelf hc.digest
  have hrename : h.rename c.stagePath c.casDest =
      (.ok (), (h.unlink c.stagePath).setEntry c.casDest (.file i)) := by
    apply Fs.rename_ok hs.lookup (hw.notDir _ _ hc.digest names_casDest) _
      (hw.parent_of_names hc.digest names_casDest)
    rw [hs.sameShelf.lookup _ hshelf]
    exact hs.fresh _ hshelf
  have hplaced := CasStore.shelves_of_rename hs.sameShelf hc.digest (names_casDest (c := c)) hincoming
    hs.fresh hs.data hs.time
  have hw₂ : WellFormed c.storageRoot ((h.unlink c.stagePath).setEntry c.casDest (.file i)) :=
    hw.answers (o := .rename c.stagePath c.casDest) hc.inArea_rename.1 (.inl hrename)
  obtain ⟨j, hlinks, hcopies, hshelves⟩ := shelves_linkBlob hc.digest hw₀ hw₂ hs.nextIno hplaced
  refine ⟨j, _, ?_, ?_, hlinks, hcopies, hshelves⟩
  · unfold commitArtifact
    rw [Fs.run_rename, hrename, run_bind]
  · exact Only.run (I := WellFormed c.storageRoot) Fs.exec
      (fun _ _ ho hs => hs.answers ho.1 (.inl rfl)) hc.inArea_linkBlob hw₂

/-- The same, together with the staging of the file. -/
theorem Valid.run_commit (hc : c.Valid) (hw : WellFormed c.storageRoot h)
    (hdir : h.lookup c.stagePath ≠ some .dir) (staged : Bytes) :
    ∃ i j h₁, (write c.stagePath staged >>= fun _ => commitArtifact c).run Fs.exec h =
        c.afterStore.run Fs.exec h₁ ∧ WellFormed c.storageRoot h₁ ∧
      (h.hardLinks = true → j = i) ∧ (h.hardLinks = false → j ≠ i) ∧
      Shelves c.storageRoot c.digest staged (c.newNames i j) h h₁ := by
  obtain ⟨i, h₁, hwrite, hstaged⟩ := hc.write_stage hw hdir staged
  obtain ⟨j, h₂, hrun, hw₂, hlinks, hcopies, hshelves⟩ := hc.run_staged hw hstaged
  refine ⟨i, j, h₂, ?_, hw₂, hlinks, hcopies, hshelves⟩
  rw [Fs.run_write, hwrite]
  exact hrun

/-- A commit makes no directory in the store. -/
theorem Valid.makesNoDir_commit (hc : c.Valid) (staged : Bytes) :
    Only (MakesNoDir c.storageRoot) (write c.stagePath staged >>= fun _ => commitArtifact c) := by
  have hstage : c.storageRoot ++ [Dir.cas] <+: c.stagePath := by
    obtain ⟨n, hn⟩ := hc.stage
    rw [hn]
    simp
  have hblob := (names_blobPath (c := c)).in_cas hc.digest
  refine Only.perform ⟨⟨under_root hstage, not_linkPlace_of_area hstage (by decide) (by decide)⟩,
    nofun⟩ fun _ => ?_
  refine Only.perform ⟨hc.inArea_rename.1, nofun⟩ fun r => ?_
  rcases r with e | u
  · exact only_done _
  refine Only.bind ?_ fun _ => hc.offShelf_afterStore.mono fun _ ho => ho.makesNoDir
  refine only_linkBlob ⟨fun q hq d hd hnames => CasStore.not_prefix_blobsDir hd hnames hq, ?_⟩
    ⟨trivial, nofun⟩ ⟨⟨c.digest, hc.digest, names_casDest, names_blobPath⟩, nofun⟩
    ⟨⟨under_root hblob, names_blobPath.not_linkPlace hc.digest⟩, nofun⟩
  rintro p ⟨⟩
  left
  rw [blobDir_eq, CasStore.blobsDir_eq]
  simp [baseDirs]

/-- What a commit leaves on the shelf, whether what follows its steps in the store fails or not. -/
theorem Valid.shelves_commit (hc : c.Valid) (hw : WellFormed c.storageRoot h)
    (hdir : h.lookup c.stagePath ≠ some .dir) (staged : Bytes) :
    ∃ i j, (h.hardLinks = true → j = i) ∧ (h.hardLinks = false → j ≠ i) ∧
      Shelves c.storageRoot c.digest staged (c.newNames i j) h
        ((write c.stagePath staged >>= fun _ => commitArtifact c).run Fs.exec h).2 := by
  obtain ⟨i, j, h₁, hrun, hw₁, hlinks, hcopies, hshelves⟩ := hc.run_commit hw hdir staged
  refine ⟨i, j, hlinks, hcopies, ?_⟩
  rw [hrun]
  exact hshelves.trans_sameShelf hc.digest (sameShelf_run hc.offShelf_afterStore hw₁).2

end ArtifactCommit

end Modeld
