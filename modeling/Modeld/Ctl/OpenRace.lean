import Modeld.Core.Blobs
import Modeld.Ctl.CommitRun
import Modeld.Host.Pool

/-!
# Opening a blob during a commit of it

A commit of a digest that is stored removes the name in the blobs directory and then links it anew.
A reader that found the name before it went, and comes back for it, finds nothing, although the flat
name was there all the time. A digest that has no name in the blobs directory when the two calls
start is opened in every order of steps.
-/

namespace Modeld

open Host Program

variable {root : Path} {d : String} {p : Path} {i : Ino} {c : ArtifactCommit} {h : Fs}

/-- A call that removes no name of the digest leaves each name that is a file a file. -/
theorem CasStore.Names.file_stays {s s' : Fs} {o : Call} {r : Reply o}
    (hp : (CasStore.mk root).Names d p) (hd : IsDigest d) (hw : WellFormed root s)
    (ho : Tidy root o) (hkeep : o ≠ .removeFile p) (hs : Fs.Answers o s r s')
    (hi : s.lookup p = some (.file i)) : ∃ j, s'.lookup p = some (.file j) := by
  have hsome : s.lookup p ≠ none := by simp [hi]
  cases hs.effect with
  | keep _ hl => exact ⟨i, by rw [hl, hi]⟩
  | newFile _ q _ hnone hl _ =>
    rw [hl]
    split
    · exact ⟨_, rfl⟩
    · exact ⟨i, hi⟩
  | newDirs q hl =>
    rcases hl p with hsame | ⟨hnone, -, -⟩
    · exact ⟨i, by rw [hsame, hi]⟩
    · exact absurd hnone hsome
  | link a b e ha he hb hl =>
    have hpb : p ≠ b := fun heq => hsome (heq ▸ hb)
    exact ⟨i, by rw [hl, if_neg hpb, hi]⟩
  | symlink t q hq hl =>
    have hpq : p ≠ q := fun heq => hsome (heq ▸ hq)
    exact ⟨i, by rw [hl, if_neg hpq, hi]⟩
  | remove q e hq he hl =>
    have hpq : p ≠ q := by
      rintro rfl
      exact hkeep rfl
    exact ⟨i, by rw [hl, if_neg hpq, hi]⟩
  | rename a b e ha he hb hl =>
    obtain ⟨hroot, hlink, -, hnone⟩ := ho
    obtain ⟨j, rfl⟩ := hw.isFile_of_lookup hroot hlink ha he
    have hpa : p ≠ a := by
      rintro rfl
      exact hnone d hd hp
    rw [hl, if_neg hpa]
    split
    · exact ⟨j, rfl⟩
    · exact ⟨i, hi⟩

/-- What a commit and a reader return. -/
abbrev OpenResult := Except String Unit ⊕ Except ModeldError Ino

/-- A commit, and a reader that opens the blob of the same digest. -/
def openRace (c : ArtifactCommit) (h : Fs) : Pool Bool Fs Reply OpenResult where
  state := h
  threads
    | false => commitArtifact c >>= fun r => .done (.inl r)
    | true => c.cas.openBlob c.digest >>= fun r => .done (.inr r)

namespace OpenRace

/-- How far the two have come: the commit before and after it removes a name, the reader before and
after it chooses one. -/
inductive Stage
  | early
  | late
  | looking
  | chose (p : Path)

open Stage

/-- What holds in every order of steps: `x` is a name that was there at the start. -/
structure Inv (c : ArtifactCommit) (x : Path) (γ : Bool → Stage) (s : Fs) : Prop where
  wf : WellFormed c.storageRoot s
  flat : ∃ i, s.lookup x = some (.file i)
  writer : γ false = late ∨ γ false = early ∧ s.lookup c.blobPath = none
  reader : ∀ p, γ true = chose p → c.cas.Names c.digest p ∧ (∃ i, s.lookup p = some (.file i)) ∧
    (p = c.blobPath → γ false = late)

variable {x : Path} {γ : Bool → Stage} {s s' : Fs} {o : Call} {r : Reply o}

/-- A call of the commit that removes no name of the digest. Before the commit has removed one, the
call leaves the name in the blobs directory alone. -/
theorem Inv.commit (hInv : Inv c x γ s) (hd : IsDigest c.digest) (hx : c.cas.Names c.digest x)
    (ho : Tidy c.storageRoot o) (hkeep : ∀ p, c.cas.Names c.digest p → o ≠ .removeFile p)
    (hs : Fs.Answers o s r s')
    (hblob : γ false = late ∨ s'.lookup c.blobPath = s.lookup c.blobPath) : Inv c x γ s' := by
  obtain ⟨i, hi⟩ := hInv.flat
  refine ⟨hInv.wf.answers ho hs, hx.file_stays hd hInv.wf ho (hkeep x hx) hs hi, ?_, ?_⟩
  · rcases hblob with hlate | hsame
    · exact .inl hlate
    · rw [hsame]
      exact hInv.writer
  · intro p hp
    obtain ⟨hnames, ⟨j, hj⟩, hlate⟩ := hInv.reader p hp
    exact ⟨hnames, hnames.file_stays hd hInv.wf ho (hkeep p hnames) hs hj, hlate⟩

theorem Inv.blob_none (hInv : Inv c x γ s) (hearly : γ false = Stage.early) :
    s.lookup c.blobPath = none := by
  rcases hInv.writer with hlate | ⟨-, hnone⟩
  · exact absurd (hearly.symm.trans hlate) nofun
  · exact hnone

/-- The commit goes on to its second part. -/
theorem Inv.to_late (hInv : Inv c x γ s) :
    Inv c x (Function.update γ false Stage.late) s := by
  refine ⟨hInv.wf, hInv.flat, .inl (Function.update_self ..), fun p hp => ?_⟩
  rw [Function.update_of_ne (by decide)] at hp
  obtain ⟨hnames, hfile, -⟩ := hInv.reader p hp
  exact ⟨hnames, hfile, fun _ => Function.update_self ..⟩

/-- The reader chooses a name that is a file. -/
theorem Inv.choose (hInv : Inv c x γ s) (hp : c.cas.Names c.digest p)
    (hi : s.lookup p = some (.file i)) : Inv c x (Function.update γ true (chose p)) s := by
  refine ⟨hInv.wf, hInv.flat, ?_, fun q hq => ?_⟩
  · rw [Function.update_of_ne (by decide)]
    exact hInv.writer
  · rw [Function.update_self] at hq
    injection hq with hq
    subst hq
    rw [Function.update_of_ne (by decide)]
    refine ⟨hp, ⟨i, hi⟩, fun heq => ?_⟩
    rcases hInv.writer with hlate | ⟨-, hnone⟩
    · exact hlate
    · rw [← heq, hi] at hnone
      cases hnone

/-- The reader chooses a name. The one that was there at the start is flat, so it is the second or
the third that the reader asks for. -/
theorem outline_blobPath (hd : IsDigest c.digest)
    (hx : x = c.cas.flatGguf c.digest ∨ x = c.cas.flatSt c.digest) :
    Pool.Outline Fs.reliable (fun _ _ _ _ => True) (fun γ s _ => Inv c x γ s) (fun _ _ _ _ => True)
      true (c.cas.blobPath c.digest) (fun p g => g = chose p ∧ c.cas.Names c.digest p) looking := by
  have hanswer : ∀ {γ : Bool → Stage} {s s' : Fs} {p : Path} {r : Bool}, Inv c x γ s →
      c.cas.Names c.digest p → Fs.exec (.isFile p) s = (r, s') →
      s' = s ∧ (r = true → Inv c x (Function.update γ true (chose p)) s) ∧
        (r = false → p ≠ x) := by
    intro γ s s' p r hInv hp hs
    obtain ⟨rfl, rfl⟩ := Prod.mk.inj (show (s.isFile p, s) = (r, s') from hs)
    refine ⟨rfl, fun hr => ?_, fun hr => ?_⟩
    · obtain ⟨i, hi⟩ := (CasStore.isFile_iff hInv.wf hd hp).1 hr
      exact hInv.choose hp hi
    · rintro rfl
      rw [(CasStore.isFile_iff hInv.wf hd hp).2 hInv.flat] at hr
      cases hr
  unfold CasStore.blobPath
  refine Pool.Outline.perform fun γ s hist hγ hInv => ⟨trivial, fun r s' _ hs => ?_⟩
  obtain ⟨rfl, hyes, -⟩ := hanswer hInv (.inl rfl) hs
  cases r with
  | true =>
    rw [if_pos rfl]
    exact ⟨_, hyes rfl, (Pool.outline_done _).2 ⟨rfl, .inl rfl⟩⟩
  | false =>
    refine ⟨looking, by rwa [← hγ, Function.update_eq_self], ?_⟩
    rw [if_neg (by decide)]
    refine Pool.Outline.perform fun γ s hist hγ hInv => ⟨trivial, fun r s' _ hs => ?_⟩
    obtain ⟨rfl, hyes, hno⟩ := hanswer hInv (.inr (.inl rfl)) hs
    cases r with
    | true =>
      rw [if_pos rfl]
      exact ⟨_, hyes rfl, (Pool.outline_done _).2 ⟨rfl, .inr (.inl rfl)⟩⟩
    | false =>
      refine ⟨looking, by rwa [← hγ, Function.update_eq_self], ?_⟩
      rw [if_neg (by decide)]
      refine Pool.Outline.perform fun γ s hist hγ hInv => ⟨trivial, fun r s' _ hs => ?_⟩
      obtain ⟨rfl, hyes, hno'⟩ := hanswer hInv (.inr (.inr rfl)) hs
      cases r with
      | true =>
        rw [if_pos rfl]
        exact ⟨_, hyes rfl, (Pool.outline_done _).2 ⟨rfl, .inr (.inr rfl)⟩⟩
      | false =>
        rcases hx with rfl | rfl
        · exact absurd rfl (hno rfl)
        · exact absurd rfl (hno' rfl)

/-- The reader opens the name that it chose. -/
theorem outline_open (hd : IsDigest c.digest)
    (hx : x = c.cas.flatGguf c.digest ∨ x = c.cas.flatSt c.digest) :
    Pool.Outline Fs.reliable (fun _ _ _ _ => True) (fun γ s _ => Inv c x γ s) (fun _ _ _ _ => True)
      true (c.cas.openBlob c.digest) (fun r _ => ∃ ino, r = .ok ino) looking := by
  refine (outline_blobPath hd hx).bind ?_
  rintro p g ⟨rfl, hp⟩
  refine Pool.Outline.perform fun γ s hist hγ hInv => ⟨trivial, fun r s' _ hs => ?_⟩
  obtain ⟨hr, rfl⟩ := Prod.mk.inj (show (s.isFile p, s) = (r, s') from hs)
  obtain ⟨-, hfile, -⟩ := hInv.reader p hγ
  rw [(CasStore.isFile_iff hInv.wf hd hp).2 hfile] at hr
  subst hr
  refine ⟨chose p, by rwa [← hγ, Function.update_eq_self], ?_⟩
  rw [if_neg (by decide)]
  refine Pool.Outline.perform fun γ s hist hγ hInv => ⟨trivial, fun r s' _ hs => ?_⟩
  obtain ⟨hr, rfl⟩ := Prod.mk.inj (show (s.openFile p, s) = (r, s') from hs)
  obtain ⟨-, ⟨i, hi⟩, -⟩ := hInv.reader p hγ
  rw [CasStore.openFile_of_fileAt (Fs.fileAt_of_lookup hi)] at hr
  subst hr
  exact ⟨chose p, by rwa [← hγ, Function.update_eq_self], (Pool.outline_done _).2 ⟨i, rfl⟩⟩

/-- The commit. The name that it removes is not there. -/
theorem outline_commit (hc : c.Valid) (hx : c.cas.Names c.digest x) :
    Pool.Outline Fs.reliable (fun _ _ _ _ => True) (fun γ s _ => Inv c x γ s) (fun _ _ _ _ => True)
      false (commitArtifact c) (fun _ _ => True) early := by
  have hd := hc.digest
  have hblobNames : c.cas.Names c.digest c.blobPath := ArtifactCommit.names_blobPath
  have hdestNames : c.cas.Names c.digest c.casDest := ArtifactCommit.names_casDest
  -- What follows the step that removes the name.
  have hlate : ∀ {o : Call} {γ : Bool → Stage} {s s' : Fs} {r : Reply o}, γ false = late →
      Inv c x γ s → Tidy c.storageRoot o → (∀ p, c.cas.Names c.digest p → o ≠ .removeFile p) →
      Fs.exec o s = (r, s') → Inv c x (Function.update γ false late) s' := by
    intro o γ s s' r hγ hInv ho hkeep hs
    rw [← hγ, Function.update_eq_self]
    exact hInv.commit hd hx ho hkeep (.inl hs) (.inl hγ)
  have hafter : Pool.Outline Fs.reliable (fun _ _ _ _ => True) (fun γ s _ => Inv c x γ s)
      (fun _ _ _ _ => True) false c.afterStore (fun _ _ => True) late := by
    refine (Pool.outline_of_keeps hc.outside_afterStore fun o γ s hist ho hγ hInv =>
      ⟨trivial, fun r s' _ hs => ⟨trivial, ?_⟩⟩).mono fun _ _ _ => trivial
    refine hInv.commit hd hx ho.1 ?_ (.inl hs) (.inl hγ)
    rintro p hp rfl
    exact ho.2.1 Dir.cas (.inl rfl) (hp.in_cas hd)
  unfold commitArtifact
  refine Pool.Outline.perform fun γ s hist hγ hInv => ⟨trivial, fun r s' _ hs => ?_⟩
  have hblob : s'.lookup c.blobPath = s.lookup c.blobPath := by
    have heffect : Fs.Effect s s' (.rename c.stagePath c.casDest) :=
      Fs.Answers.effect (.inl hs)
    cases heffect with
    | keep _ hl => exact hl _
    | newFile _ q ho => simp at ho
    | rename a b e ha he hb hl =>
      have hstage : c.blobPath ≠ c.stagePath := by
        rintro heq
        obtain ⟨n, hn⟩ := hc.stage
        rw [heq, hn] at hblobNames
        exact CasStore.not_names_incoming hd n hblobNames
      rw [hl, if_neg (ArtifactCommit.casDest_ne_blobPath hd).symm, if_neg hstage]
  refine ⟨early, ?_, ?_⟩
  · rw [← hγ, Function.update_eq_self]
    exact hInv.commit hd hx hc.inArea_rename.1 (by rintro _ _ ⟨⟩) (.inl hs) (.inr hblob)
  cases r with
  | error e => exact (Pool.outline_done _).2 trivial
  | ok u =>
    refine Pool.Outline.bind (Q := fun _ g => g = late) ?_ fun _ g hg => hg ▸ hafter
    unfold ArtifactCommit.linkBlob
    refine Pool.Outline.perform fun γ s hist hγ hInv => ⟨trivial, fun r s' _ hs => ?_⟩
    have hdirs : Fs.exec (.createDirAll c.blobDir) s = (.ok (), s) := hInv.wf.createDirAll_blobsDir
    obtain ⟨rfl, rfl⟩ := Prod.mk.inj (hs.symm.trans hdirs)
    refine ⟨early, by rwa [← hγ, Function.update_eq_self], ?_⟩
    refine Pool.Outline.perform fun γ s hist hγ hInv => ⟨trivial, fun r s' _ hs => ?_⟩
    have hremove : Fs.exec (.removeFile c.blobPath) s = (.error .notFound, s) := by
      simp [Fs.exec, Fs.removeFile, hInv.blob_none hγ]
    obtain ⟨rfl, rfl⟩ := Prod.mk.inj (hs.symm.trans hremove)
    refine ⟨late, hInv.to_late, ?_⟩
    refine Pool.Outline.perform fun γ s hist hγ hInv => ⟨trivial, fun r s' _ hs => ?_⟩
    have htidy : Tidy c.storageRoot (.hardLink c.casDest c.blobPath) :=
      ⟨c.digest, hd, hdestNames, hblobNames⟩
    refine ⟨late, hlate hγ hInv htidy (by rintro _ _ ⟨⟩) hs, ?_⟩
    split
    · refine Pool.Outline.perform fun γ s hist hγ hInv => ⟨trivial, fun r s' _ hs => ?_⟩
      have htidy : Tidy c.storageRoot (.copy c.casDest c.blobPath) :=
        ⟨hblobNames.under hd, hblobNames.not_linkPlace hd⟩
      exact ⟨late, hlate hγ hInv htidy (by rintro _ _ ⟨⟩) hs, (Pool.outline_done _).2 rfl⟩
    · exact (Pool.outline_done _).2 rfl

end OpenRace

/-- Unless the digest has a name in the blobs directory, a reader that opens it during a commit of
it succeeds in every order of steps. -/
theorem opens_of_flat (hc : c.Valid) (hw : WellFormed c.storageRoot h)
    (hstored : c.cas.Stored h c.digest) (hnone : h.lookup c.blobPath = none)
    {pool : Pool Bool Fs Reply OpenResult}
    (hrun : Pool.Steps Fs.reliable (fun _ _ _ _ => True) (openRace c h) pool)
    {r : Except ModeldError Ino} (hdone : pool.threads true = .done (.inr r)) :
    ∃ ino, r = .ok ino := by
  obtain ⟨x, i, hx, hi⟩ := hstored
  have hflat : x = c.cas.flatGguf c.digest ∨ x = c.cas.flatSt c.digest := by
    rcases hx with rfl | hflat
    · rw [show c.cas.blobsDir.join c.digest = c.blobPath from rfl, hnone] at hi
      cases hi
    · exact hflat
  have hstart : Pool.Outlined Fs.reliable (fun _ _ _ _ => True)
      (fun γ s _ => OpenRace.Inv c x γ s) (fun _ _ _ _ => True)
      (fun i (r : OpenResult) _ => ∀ e, i = true → r = .inr e → ∃ ino, e = .ok ino)
      (openRace c h) := by
    refine ⟨fun i => if i then .looking else .early, ⟨hw, ⟨i, hi⟩, .inr ⟨rfl, hnone⟩, nofun⟩, ?_⟩
    rintro (_ | _)
    · refine (OpenRace.outline_commit hc (.inr hflat)).bind fun r g _ => ?_
      exact (Pool.outline_done _).2 nofun
    · refine (OpenRace.outline_open hc.digest hflat).bind fun r g hr => (Pool.outline_done _).2 ?_
      intro e _ heq
      rwa [← Sum.inr.inj heq]
  obtain ⟨γ, -, hthreads⟩ := hrun.outlined hstart
  have hreader := hthreads true
  rw [hdone, Pool.outline_done] at hreader
  exact hreader r rfl rfl

/-- A reader that has found the name in the blobs directory comes back for it when the commit has
removed it. -/
theorem exists_not_found (hc : c.Valid) (hw : WellFormed c.storageRoot h)
    (hstage : ∃ i, h.lookup c.stagePath = some (.file i))
    (hblob : ∃ i, h.lookup c.blobPath = some (.file i)) :
    ∃ pool, Pool.Steps Fs.reliable (fun _ _ _ _ => True) (openRace c h) pool ∧
      pool.threads true = .done (.inr (.error (.notFound c.digest))) := by
  have hd := hc.digest
  have hblobNames : c.cas.Names c.digest c.blobPath := ArtifactCommit.names_blobPath
  have hdestNames : c.cas.Names c.digest c.casDest := ArtifactCommit.names_casDest
  have hstageNames : ∀ e, IsDigest e → ¬ c.cas.Names e c.stagePath := by
    intro e he hnames
    obtain ⟨n, hn⟩ := hc.stage
    rw [hn] at hnames
    exact CasStore.not_names_incoming he n hnames
  obtain ⟨i, hi⟩ := hstage
  obtain ⟨j, hj⟩ := hblob
  have hfound : Fs.exec (.isFile c.blobPath) h = (true, h) :=
    Prod.ext ((CasStore.isFile_iff hw hd hblobNames).2 ⟨j, hj⟩) rfl
  -- The commit moves its file to the flat name.
  have hne : h.lookup c.casDest ≠ some (.file i) := by
    intro heq
    have hroot : c.storageRoot <+: c.stagePath := by
      obtain ⟨n, hn⟩ := hc.stage
      rw [hn]
      exact List.prefix_append _ _
    have hsame := hw.eq_of_shared hroot (hdestNames.under hd) hi heq hstageNames
    exact hstageNames _ hd (hsame ▸ hdestNames)
  have hrename := Fs.rename_ok hi (hw.notDir _ _ hd hdestNames) hne
    (hw.parent_of_names hd hdestNames)
  have hw₁ : WellFormed c.storageRoot ((h.unlink c.stagePath).setEntry c.casDest (.file i)) :=
    hw.answers (o := .rename c.stagePath c.casDest) hc.inArea_rename.1 (.inl hrename)
  have hblob₁ : ((h.unlink c.stagePath).setEntry c.casDest (.file i)).lookup c.blobPath =
      some (.file j) := by
    have hstage : c.blobPath ≠ c.stagePath := fun heq => hstageNames _ hd (heq ▸ hblobNames)
    rw [Fs.lookup_setEntry_of_ne (ArtifactCommit.casDest_ne_blobPath hd).symm,
      Fs.lookup_unlink_of_ne hstage, hj]
  generalize (h.unlink c.stagePath).setEntry c.casDest (.file i) = s₁ at *
  have hdirs : Fs.exec (.createDirAll c.blobDir) s₁ = (.ok (), s₁) := hw₁.createDirAll_blobsDir
  -- It removes the name that the reader has found.
  have hremove : Fs.exec (.removeFile c.blobPath) s₁ = (.ok (), s₁.unlink c.blobPath) := by
    simp [Fs.exec, Fs.removeFile, hblob₁]
  have hnone : (s₁.unlink c.blobPath).lookup c.blobPath = none :=
    Fs.lookup_unlink_self (Fs.ne_nil_of_lookup_ne_dir (h := s₁) (by simp [hblob₁]))
  have hgone : Fs.exec (.isFile c.blobPath) (s₁.unlink c.blobPath) =
      (false, s₁.unlink c.blobPath) := by
    refine Prod.ext ?_ rfl
    change ((s₁.unlink c.blobPath).fileAt c.blobPath).isSome = false
    rw [Fs.fileAt_of_lookup_none hnone]
    rfl
  exact ⟨_, (Pool.Steps.call (i := true) rfl hfound trivial).trans <|
    (Pool.Steps.call (i := false) rfl hrename trivial).trans <|
    (Pool.Steps.call (i := false) rfl hdirs trivial).trans <|
    (Pool.Steps.call (i := false) rfl hremove trivial).trans <|
    Pool.Steps.call (i := true) rfl hgone trivial, rfl⟩

/-- A reader that opens a stored blob during a commit of it succeeds in every order of steps, if and
only if the digest has no name in the blobs directory when the two start. -/
theorem opens_iff_flat (c : ArtifactCommit) (hc : c.Valid) (h : Fs)
    (hw : WellFormed c.storageRoot h) (hstage : ∃ i, h.lookup c.stagePath = some (.file i))
    (hstored : c.cas.Stored h c.digest) :
    (∀ pool, Pool.Steps Fs.reliable (fun _ _ _ _ => True) (openRace c h) pool →
      ∀ r, pool.threads true = .done (.inr r) → ∃ ino, r = .ok ino) ↔
    h.lookup c.blobPath = none := by
  constructor
  · intro hopens
    by_contra hsome
    have hblobNames : c.cas.Names c.digest c.blobPath := ArtifactCommit.names_blobPath
    obtain ⟨e, he⟩ := Option.ne_none_iff_exists'.1 hsome
    have hdir : e ≠ .dir := fun hdir => hw.notDir _ _ hc.digest hblobNames (hdir ▸ he)
    obtain ⟨i, rfl⟩ := hw.isFile_of_lookup (hblobNames.under hc.digest)
      (hblobNames.not_linkPlace hc.digest) he hdir
    have hblob : ∃ i, h.lookup c.blobPath = some (.file i) := ⟨i, he⟩
    obtain ⟨pool, hrun, hdone⟩ := exists_not_found hc hw hstage hblob
    obtain ⟨ino, hino⟩ := hopens pool hrun _ hdone
    cases hino
  · intro hnone pool hrun r hdone
    exact opens_of_flat hc hw hstored hnone hrun hdone

/-! ### Sample stores -/

/-- The sample commit, staged. -/
def sampleOpening : ArtifactCommit := sampleCommit stageA

/-- A store with a file under one of the names of the digest, and the staged file of the commit. -/
def sampleNamedAt (p : Path) : Fs :=
  (((sampleFs true).write p [1]).2.write sampleOpening.stagePath [1]).2

private theorem wellFormed_sampleNamedAt (hp : sampleOpening.cas.Names sampleOpening.digest p) :
    WellFormed sampleOpening.storageRoot (sampleNamedAt p) := by
  have hd := isDigest_digestOne
  have hstage : sampleRoot ++ [Dir.cas] <+: sampleOpening.stagePath := ⟨[Dir.incoming, stageA], rfl⟩
  have hw := (wellFormed_openedFs sampleRoot true id).answers (o := .write p [1]) (r := _)
    ⟨hp.under hd, hp.not_linkPlace hd⟩ (.inl rfl)
  exact hw.answers (o := .write sampleOpening.stagePath [1]) (r := _)
    ⟨under_root hstage, not_linkPlace_of_area hstage (by decide) (by decide)⟩ (.inl rfl)

/-- A digest that has only its flat name is opened in every order of steps. -/
theorem sample_flat_opened :
    (sampleNamedAt sampleOpening.casDest).lookup sampleOpening.blobPath = none ∧
    ∀ pool, Pool.Steps Fs.reliable (fun _ _ _ _ => True)
      (openRace sampleOpening (sampleNamedAt sampleOpening.casDest)) pool →
    ∀ r, pool.threads true = .done (.inr r) → ∃ ino, r = .ok ino := by
  have hnone : (sampleNamedAt sampleOpening.casDest).lookup sampleOpening.blobPath = none := by
    decide +kernel
  exact ⟨hnone, (opens_iff_flat sampleOpening (valid_sampleCommit stageA)
    (sampleNamedAt sampleOpening.casDest) (wellFormed_sampleNamedAt ArtifactCommit.names_casDest)
    ⟨1, by decide +kernel⟩ ⟨_, 0, ArtifactCommit.names_casDest, by decide +kernel⟩).2 hnone⟩

/-- A digest that has the name in the blobs directory is not found in one of them. -/
theorem sample_stored_not_found :
    sampleOpening.cas.Stored (sampleNamedAt sampleOpening.blobPath) sampleOpening.digest ∧
    ∃ pool, Pool.Steps Fs.reliable (fun _ _ _ _ => True)
        (openRace sampleOpening (sampleNamedAt sampleOpening.blobPath)) pool ∧
      pool.threads true = .done (.inr (.error (.notFound sampleOpening.digest))) :=
  ⟨⟨_, 0, ArtifactCommit.names_blobPath, by decide +kernel⟩,
    exists_not_found (valid_sampleCommit stageA)
      (wellFormed_sampleNamedAt ArtifactCommit.names_blobPath) ⟨1, by decide +kernel⟩
      ⟨0, by decide +kernel⟩⟩

end Modeld
