import Modeld.Ctl.CommitCalls
import Modeld.Host.Pool

/-!
# Commits of one digest at the same time

Any number of `commitArtifact` calls for the same digest and format, each from its own staged file,
interleaved in any way. Each of them moves its file over `cas/sha256-<d>.<ext>`, removes
`blobs/sha256/<d>`, and links it anew; when the link is there already, made by another commit, it
copies instead. The invariant below says what both names hold at every phase of every commit. It
breaks in one case: a copy onto a name that shares its file with the source truncates both.
-/

namespace Modeld

open Host Program

/-- The path leads to a file whose content hashes to the digest. -/
def HoldsDigest (sha : Sha256) (d : String) (h : Fs) (p : Path) : Prop :=
  ∃ i, h.lookup p = some (.file i) ∧ sha.hash (h.data i) = d

theorem HoldsDigest.congr {sha : Sha256} {d : String} {s s' : Fs} {p : Path} (h : HoldsDigest sha d s p)
    (hl : s'.lookup p = s.lookup p) (hdata : ∀ i, s.lookup p = some (.file i) → s'.data i = s.data i) :
    HoldsDigest sha d s' p := by
  obtain ⟨i, hi, hhash⟩ := h
  exact ⟨i, hl.trans hi, by rw [hdata i hi, hhash]⟩

/-- No copy is made onto a name of its own source. -/
def CopiesApart {ι : Type} : Condition ι Fs Reply := fun s _ _ o =>
  ∀ a b, o = .copy a b → ∀ i, s.fileAt a = some i → s.fileAt b ≠ some i

/-- Commits of one digest in one format to one store, each of a staged file of its own. -/
structure Race (ι : Type) where
  root : Path
  digest : String
  ext : String
  commit : ι → ArtifactCommit
  valid : ∀ i, (commit i).Valid
  root_eq : ∀ i, (commit i).storageRoot = root
  digest_eq : ∀ i, (commit i).digest = digest
  ext_eq : ∀ i, (commit i).ext = ext
  stage_inj : ∀ i j, (commit i).stagePath = (commit j).stagePath → i = j

namespace Race

variable {ι : Type} (race : Race ι)

/-- The flat name of the blob. -/
def flat : Path := (race.root.join "cas").join ("sha256-" ++ race.digest ++ "." ++ race.ext)

/-- The name of the blob in the blobs directory. -/
def blob : Path := (CasStore.mk race.root).blobsDir.join race.digest

/-- How far a commit has come. -/
inductive Phase
  | staged
  | placed
  | removed
  | linked
deriving DecidableEq

open Phase

variable {race} {i j : ι}

theorem casDest_eq (i : ι) : (race.commit i).casDest = race.flat := by
  rw [ArtifactCommit.casDest, race.root_eq, race.digest_eq, race.ext_eq, flat]

theorem blobPath_eq (i : ι) : (race.commit i).blobPath = race.blob := by
  rw [ArtifactCommit.blobPath_eq, ArtifactCommit.cas, race.root_eq, race.digest_eq, blob]

theorem names_flat (i : ι) : (CasStore.mk race.root).Names race.digest race.flat := by
  have h := ArtifactCommit.names_casDest (c := race.commit i)
  rwa [ArtifactCommit.cas, race.root_eq, race.digest_eq, casDest_eq] at h

theorem names_blob : (CasStore.mk race.root).Names race.digest race.blob := .inl rfl

theorem isDigest (i : ι) : IsDigest race.digest := race.digest_eq i ▸ (race.valid i).digest

theorem flat_ne_blob (i : ι) : race.flat ≠ race.blob := by
  have hd := @isDigest _ race i
  intro h
  rw [blob, CasStore.blobsDir_join hd.plain] at h
  have hflat := (race.commit i).casDest_eq
  rw [casDest_eq, ArtifactCommit.cas, race.root_eq, race.digest_eq, h,
    CasStore.flatGguf_eq hd.plain.2.2.2, CasStore.flatSt_eq hd.plain.2.2.2] at hflat
  simp at hflat

theorem stage_eq (i : ι) : ∃ n : Name,
    (race.commit i).stagePath = race.root ++ [Dir.cas, Dir.incoming, n] := by
  obtain ⟨n, hn⟩ := (race.valid i).stage
  exact ⟨n, by rw [hn, race.root_eq]⟩

theorem stage_not_names (i : ι) {d : String} (hd : IsDigest d) :
    ¬ (CasStore.mk race.root).Names d (race.commit i).stagePath := by
  obtain ⟨n, hn⟩ := @stage_eq _ race i
  rw [hn]
  exact CasStore.not_names_incoming hd n

theorem stage_ne (i j : ι) {p : Path} (hp : (CasStore.mk race.root).Names race.digest p) :
    (race.commit j).stagePath ≠ p := by
  rintro rfl
  exact stage_not_names j (isDigest i) hp

theorem stage_in_cas (i : ι) : race.root ++ [Dir.cas] <+: (race.commit i).stagePath := by
  obtain ⟨n, hn⟩ := @stage_eq _ race i
  rw [hn]
  simp

/-! ### The invariant -/

variable (race) (sha : Sha256)

/-- What the names hold while the commits are at their phases. -/
structure Inv (γ : ι → Phase) (s : Fs) : Prop where
  wf : WellFormed race.root s
  staged : ∀ i, γ i = staged → HoldsDigest sha race.digest s (race.commit i).stagePath
  flat : (∃ i, γ i ≠ .staged) → HoldsDigest sha race.digest s race.flat
  content : (∃ i, γ i = removed ∨ γ i = linked) → ∀ ino,
    s.lookup race.blob = some (.file ino) → sha.hash (s.data ino) = race.digest
  present : (∃ i, γ i = linked) → (∃ j, γ j = removed) ∨ ∃ ino, s.lookup race.blob = some (.file ino)

variable {race sha} {γ : ι → Phase} {s s' : Fs}

/-- A call that touches nothing of the store keeps the invariant. -/
theorem Inv.outside (hInv : race.Inv sha γ s) (i : ι) {o : Call} {r : Reply o}
    (ho : Outside race.root o) (hs : Fs.Answers o s r s') : race.Inv sha γ s' := by
  have hsame := ho.sameStore hInv.wf hs
  have hflat := (@names_flat _ race i).in_cas (isDigest i)
  have hblob := (@names_blob _ race).in_cas (isDigest i)
  refine ⟨hInv.wf.answers ho.1 hs, fun j hj => ?_, fun hj => ?_, fun hj ino hino => ?_, fun hj => ?_⟩
  · exact (hInv.staged j hj).congr (hsame.lookup _ (stage_in_cas j))
      fun k => hsame.data _ k (stage_in_cas j)
  · exact (hInv.flat hj).congr (hsame.lookup _ hflat) fun k => hsame.data _ k hflat
  · rw [hsame.lookup _ hblob] at hino
    rw [hsame.data _ ino hblob hino]
    exact hInv.content hj ino hino
  · rw [hsame.lookup _ hblob]
    exact hInv.present hj

/-- What moving a staged file to the flat name does. -/
theorem exec_rename (hw : WellFormed race.root s) {ino : Ino}
    (hino : s.lookup (race.commit i).stagePath = some (.file ino)) :
    ∃ s', Fs.exec (.rename (race.commit i).stagePath race.flat) s = (.ok (), s') ∧
      WellFormed race.root s' ∧
      (∀ q, s'.lookup q = if q = race.flat then some (.file ino)
        else if q = (race.commit i).stagePath then none else s.lookup q) ∧
      s'.data = s.data ∧ s'.hardLinks = s.hardLinks := by
  have hd := @isDigest _ race i
  have hnames := @names_flat _ race i
  have hroot : race.root <+: (race.commit i).stagePath := under_root (stage_in_cas i)
  have hne : s.lookup race.flat ≠ some (.file ino) := fun h =>
    stage_ne i i hnames (hw.eq_of_shared hroot (hnames.under hd) hino h
      fun d hd => stage_not_names i hd)
  have hren := Fs.rename_ok hino (hw.notDir _ _ hd hnames) hne (hw.parent_of_names hd hnames)
  have htidy := (race.valid i).inArea_rename.1
  rw [race.root_eq, casDest_eq] at htidy
  have hstage : (race.commit i).stagePath ≠ [] := by
    obtain ⟨n, hn⟩ := @stage_eq _ race i
    simp [hn]
  refine ⟨_, hren, hw.answers htidy (.inl hren), fun q => ?_, rfl, rfl⟩
  rw [Fs.lookup_setEntry (Fs.ne_nil_of_lookup_ne_dir (hw.notDir _ _ hd hnames)),
    Fs.lookup_unlink hstage]

variable [DecidableEq ι]

theorem update_eq_iff {a b : Phase} (hab : a ≠ b) :
    Function.update γ i a j = b ↔ j ≠ i ∧ γ j = b := by
  rcases eq_or_ne j i with rfl | hji
  · simp [hab]
  · simp [hji]

/-- The staged file is moved to the flat name. -/
theorem Inv.rename (hInv : race.Inv sha γ s) (hi : γ i = .staged) {r : Except IoError Unit}
    (hs : Fs.exec (.rename (race.commit i).stagePath race.flat) s = (r, s')) :
    r = .ok () ∧ race.Inv sha (Function.update γ i .placed) s' := by
  have hnames := @names_flat _ race i
  obtain ⟨ino, hino, hhash⟩ := hInv.staged i hi
  obtain ⟨s₁, hexec, hw, hl, hdata, -⟩ := exec_rename hInv.wf hino
  obtain ⟨rfl, rfl⟩ := Prod.mk.inj (hs.symm.trans hexec)
  have hother : ∀ j, j ≠ i → (race.commit j).stagePath ≠ (race.commit i).stagePath :=
    fun j hj h => hj (race.stage_inj j i h)
  have hblob : race.blob ≠ (race.commit i).stagePath := (stage_ne i i names_blob).symm
  refine ⟨rfl, hw, fun j hj => ?_, fun _ => ?_, fun hj k hk => ?_, fun hj => ?_⟩
  · obtain ⟨hji, hj⟩ := (update_eq_iff (by decide)).1 hj
    refine (hInv.staged j hj).congr ?_ fun k _ => congrFun hdata k
    rw [hl, if_neg (stage_ne i j hnames), if_neg (hother j hji)]
  · exact ⟨ino, by rw [hl, if_pos rfl], by rw [hdata, hhash]⟩
  · rw [hdata]
    rw [hl, if_neg (flat_ne_blob i).symm, if_neg hblob] at hk
    refine hInv.content ?_ k hk
    obtain ⟨j, hj⟩ := hj
    rw [update_eq_iff (by decide), update_eq_iff (by decide)] at hj
    exact ⟨j, hj.imp And.right And.right⟩
  · obtain ⟨j, hj⟩ := hj
    obtain ⟨-, hj⟩ := (update_eq_iff (by decide)).1 hj
    rcases hInv.present ⟨j, hj⟩ with ⟨k, hk⟩ | hfile
    · have hki : k ≠ i := by
        rintro rfl
        simp [hi] at hk
      exact .inl ⟨k, (update_eq_iff (by decide)).2 ⟨hki, hk⟩⟩
    · right
      rwa [hl, if_neg (flat_ne_blob i).symm, if_neg hblob]

/-- The old second name is removed. -/
theorem Inv.remove (hInv : race.Inv sha γ s) (hi : γ i = .placed) {r : Except IoError Unit}
    (hs : Fs.exec (.removeFile race.blob) s = (r, s')) :
    race.Inv sha (Function.update γ i .removed) s' := by
  have hd := @isDigest _ race i
  have hdir := hInv.wf.notDir _ _ hd names_blob
  have hstate : (∀ q, s'.lookup q = if q = race.blob then none else s.lookup q) ∧
      ∀ k, s'.data k = s.data k := by
    rcases Fs.removeFile_cases s race.blob with ⟨e, -, -, h⟩ | ⟨hnone, e, h⟩
    · have hexec : (r, s') = (.ok (), s.unlink race.blob) := hs.symm.trans h
      obtain ⟨-, rfl⟩ := Prod.mk.inj hexec
      exact ⟨Fs.lookup_unlink (Fs.ne_nil_of_lookup_ne_dir hdir), fun _ => rfl⟩
    · have hexec : (r, s') = (.error e, s) := hs.symm.trans h
      obtain ⟨-, rfl⟩ := Prod.mk.inj hexec
      refine ⟨fun q => ?_, fun _ => rfl⟩
      split
      · rename_i hq
        rw [hq]
        exact hnone.resolve_right hdir
      · rfl
  obtain ⟨hl, hdata⟩ := hstate
  refine ⟨hInv.wf.answers (o := .removeFile race.blob) trivial (.inl hs), fun j hj => ?_,
    fun _ => ?_, fun _ k hk => ?_, fun _ => .inl ⟨i, Function.update_self ..⟩⟩
  · obtain ⟨-, hj⟩ := (update_eq_iff (by decide)).1 hj
    refine (hInv.staged j hj).congr ?_ fun k _ => hdata k
    rw [hl, if_neg (stage_ne i j names_blob)]
  · refine (hInv.flat ⟨i, by simp [hi]⟩).congr ?_ fun k _ => hdata k
    rw [hl, if_neg (flat_ne_blob i)]
  · simp [hl] at hk

/-- The invariant once the second name leads to a file with the content of the digest. -/
private theorem Inv.linked (hInv : race.Inv sha γ s) (hi : γ i = .removed)
    (hw : WellFormed race.root s') {ino : Ino} (hblob : s'.lookup race.blob = some (.file ino))
    (hhash : sha.hash (s'.data ino) = race.digest)
    (hl : ∀ q, q ≠ race.blob → s'.lookup q = s.lookup q)
    (hdata : ∀ j k, s.lookup (race.commit j).stagePath = some (.file k) → s'.data k = s.data k)
    (hflat : ∀ k, s.lookup race.flat = some (.file k) → s'.data k = s.data k) :
    race.Inv sha (Function.update γ i .linked) s' := by
  refine ⟨hw, fun j hj => ?_, fun _ => ?_, fun _ k hk => ?_, fun _ => .inr ⟨ino, hblob⟩⟩
  · obtain ⟨-, hj⟩ := (update_eq_iff (by decide)).1 hj
    exact (hInv.staged j hj).congr (hl _ (stage_ne i j names_blob)) (hdata j)
  · exact (hInv.flat ⟨i, by simp [hi]⟩).congr (hl _ (flat_ne_blob i)) hflat
  · obtain rfl : ino = k := by simpa [hblob] using hk
    exact hhash

/-- The flat name gets a second name, unless another commit has made it already. -/
theorem Inv.hardLink (hInv : race.Inv sha γ s) (hi : γ i = .removed) {r : Except IoError Unit}
    (hs : Fs.exec (.hardLink race.flat race.blob) s = (r, s')) :
    (r = .ok () ∧ race.Inv sha (Function.update γ i .linked) s') ∨
      (r.isOk = false ∧ race.Inv sha γ s') := by
  have hd := @isDigest _ race i
  obtain ⟨ino, hino, hhash⟩ := hInv.flat ⟨i, by simp [hi]⟩
  rcases Fs.hardLink_cases s race.flat race.blob with ⟨e, he, -, hnone, -, -, h⟩ | ⟨e, h⟩
  · obtain rfl : Entry.file ino = e := Option.some.inj (hino.symm.trans he)
    have hexec : (r, s') = (.ok (), s.setEntry race.blob (.file ino)) := hs.symm.trans h
    obtain ⟨rfl, rfl⟩ := Prod.mk.inj hexec
    have hw := hInv.wf.answers (o := .hardLink race.flat race.blob)
      ⟨race.digest, hd, names_flat i, names_blob⟩ (.inl hs)
    exact .inl ⟨rfl, hInv.linked hi hw (Fs.lookup_setEntry_self (Fs.ne_nil_of_lookup_none hnone))
      hhash (fun q hq => Fs.lookup_setEntry_of_ne hq) (fun _ _ _ => rfl) fun _ _ => rfl⟩
  · have hexec : (r, s') = (.error e, s) := hs.symm.trans h
    obtain ⟨rfl, rfl⟩ := Prod.mk.inj hexec
    exact .inr ⟨rfl, hInv⟩

/-- The flat name is copied over a second name that leads to another file. -/
theorem Inv.copy (hInv : race.Inv sha γ s) (hi : γ i = .removed) {r : Except IoError Unit}
    (hs : Fs.exec (.copy race.flat race.blob) s = (r, s'))
    (hapart : ∀ k, s.fileAt race.flat = some k → s.fileAt race.blob ≠ some k) :
    race.Inv sha (Function.update γ i .linked) s' := by
  have hd := @isDigest _ race i
  have hw := hInv.wf
  have hrootBlob := (@names_blob _ race).under hd
  have hlinkBlob := (@names_blob _ race).not_linkPlace hd
  have hfinal := hw.final_eq hrootBlob hlinkBlob
  obtain ⟨ino, hino, hhash⟩ := hInv.flat ⟨i, by simp [hi]⟩
  have hfileFlat : s.fileAt race.flat = some ino := Fs.fileAt_of_lookup hino
  obtain ⟨k, s₁, hcreate⟩ := Fs.create_ok (fun t ht => hlinkBlob (hw.links _ t hrootBlob ht))
    (hw.notDir _ _ hd names_blob) (hw.parent_of_names hd names_blob)
  have hexec : (r, s') = (.ok (), s₁.setData k (s₁.data ino)) := by
    rw [← hs]
    change s.copy race.flat race.blob = _
    simp only [Fs.copy, hfileFlat, hcreate]
  obtain ⟨rfl, rfl⟩ := Prod.mk.inj hexec
  have hwf := hw.answers (o := .copy race.flat race.blob) ⟨hrootBlob, hlinkBlob⟩ (.inl hs)
  have hframe := (Fs.create_frame hcreate).2.2.2
  obtain ⟨hinok, hsrc⟩ := hframe ino (hw.fresh _ _ ((names_flat i).under hd) hino)
    (hapart ino hfileFlat)
  obtain ⟨hblob, hother⟩ := Fs.create_lookup hcreate hfinal
  refine hInv.linked hi hwf hblob ?_ hother (fun j m hm => ?_) fun m hm => ?_
  · rw [Fs.data_setData_self, hsrc, hhash]
  · have hstage := under_root (@stage_in_cas _ race j)
    obtain ⟨hmk, hdata⟩ := hframe m (hw.fresh _ _ hstage hm) fun h => by
      rw [hw.fileAt_eq_some hrootBlob hlinkBlob] at h
      exact stage_ne i j names_blob
        (hw.eq_of_shared hstage hrootBlob hm h fun d hd => stage_not_names j hd)
    exact (Fs.data_setData_of_ne hmk).trans hdata
  · obtain rfl : ino = m := by simpa [hino] using hm
    exact (Fs.data_setData_of_ne hinok).trans hsrc

/-! ### Every order of steps -/

/-- One commit, in any company. -/
theorem outline_commit (i : ι) :
    Pool.Outline Fs.reliable CopiesApart (fun γ s _ => race.Inv sha γ s) (fun _ _ _ _ => True) i
      (commitArtifact (race.commit i)) (fun _ g => g = .linked) .staged := by
  have hafter : Pool.Outline Fs.reliable CopiesApart (fun γ s _ => race.Inv sha γ s)
      (fun _ _ _ _ => True) i (race.commit i).afterStore (fun _ g => g = .linked) .linked := by
    have hkeeps := (race.valid i).outside_afterStore
    rw [race.root_eq] at hkeeps
    refine (Pool.outline_of_keeps hkeeps fun o γ s hist ho hγ hInv => ⟨trivial, ?_⟩).mono
      fun _ _ h => h.2
    exact fun r s' _ hs => ⟨trivial, hInv.outside i ho (.inl hs)⟩
  refine Pool.Outline.perform fun γ s hist hγ hInv => ⟨trivial, fun r s' _ hs => ?_⟩
  rw [casDest_eq] at hs
  obtain ⟨rfl, hInv⟩ := hInv.rename hγ hs
  refine ⟨.placed, hInv, ?_⟩
  refine Pool.Outline.bind (Q := fun _ g => g = .linked) ?_ fun _ g hg => ?_
  swap
  · rw [hg]
    exact hafter
  refine Pool.Outline.perform fun γ s hist hγ hInv => ⟨trivial, fun r s' _ hs => ?_⟩
  have hdirs : Fs.exec (.createDirAll (race.commit i).blobDir) s = (.ok (), s) := by
    rw [ArtifactCommit.blobDir_eq, ArtifactCommit.cas, race.root_eq]
    exact hInv.wf.createDirAll_blobsDir
  obtain ⟨rfl, rfl⟩ := Prod.mk.inj (hs.symm.trans hdirs)
  refine ⟨.placed, by rwa [← hγ, Function.update_eq_self], ?_⟩
  rw [blobPath_eq, casDest_eq]
  refine Pool.Outline.perform fun γ s hist hγ hInv => ⟨trivial, fun r s' _ hs => ?_⟩
  refine ⟨.removed, hInv.remove hγ hs, ?_⟩
  refine Pool.Outline.perform fun γ s hist hγ hInv => ⟨trivial, fun r s' _ hs => ?_⟩
  rcases hInv.hardLink hγ hs with ⟨rfl, hInv⟩ | ⟨hr, hInv⟩
  · exact ⟨.linked, hInv, (Pool.outline_done _).2 rfl⟩
  · refine ⟨.removed, by rwa [← hγ, Function.update_eq_self], ?_⟩
    simp only [hr]
    refine Pool.Outline.perform fun γ s hist hγ hInv => ⟨trivial, fun r s' hallowed hs => ?_⟩
    exact ⟨.linked, hInv.copy hγ hs (hallowed _ _ rfl), (Pool.outline_done _).2 rfl⟩

/-- The pool of the commits before any of them has started. -/
def pool (race : Race ι) (h : Fs) : Pool ι Fs Reply (Except String Unit) :=
  ⟨h, fun i => commitArtifact (race.commit i), []⟩

/-- Each commit's staged file holds the content of the digest. -/
def Ready (race : Race ι) (sha : Sha256) (h : Fs) : Prop :=
  WellFormed race.root h ∧ ∀ i, HoldsDigest sha race.digest h (race.commit i).stagePath

end Race

end Modeld
