import Modeld.Daemon.StorageCount
import Modeld.Runs.BlobRuns

/-!
# Every content is counted once

The statistics count each stored content once as long as all names of a digest are names of one file.
A store replaces the name that it finds first and a commit its own two names, so either gives a digest
a second file when another of its names is there already; and a commit always does on a file system
without hard links.
-/

namespace Modeld

open Host Program

variable {root : Path} {h h' : Fs} {d : String} {i : Ino}

/-! ### One step -/

theorem SameShelf.holding_iff (hs : SameShelf root h h') : Holding root h' d i ↔ Holding root h d i := by
  unfold Holding
  refine and_congr_right fun hd => exists_congr fun p => and_congr_right fun hp => ?_
  rw [hs.lookup p (hp.onShelf hd)]

theorem SameShelf.oneInode_iff (hs : SameShelf root h h') : OneInode root h' ↔ OneInode root h := by
  unfold OneInode
  simp only [hs.holding_iff]

/-- Files of one digest do not make another digest have two. -/
theorem Shelves.holding_iff {bytes : Bytes} {new : Path → Option Ino} {e : String} (hd : IsDigest d)
    (hs : Shelves root d bytes new h h') (hne : e ≠ d) : Holding root h' e i ↔ Holding root h e i := by
  unfold Holding
  refine and_congr_right fun he => exists_congr fun p => and_congr_right fun hp => ?_
  rw [hs.lookup p (hp.onShelf he)]
  cases hnew : new p with
  | none => rfl
  | some j => exact absurd (hp.digest_eq he hd (hs.names p j hnew)) hne

/-- The digest has one file exactly if the new names share theirs and no old name is left. -/
theorem Shelves.oneInode_iff {bytes : Bytes} {new : Path → Option Ino} (hd : IsDigest d)
    (hs : Shelves root d bytes new h h') (hone : OneInode root h) (hsome : ∃ p i, new p = some i) :
    OneInode root h' ↔ (∀ p q i j, new p = some i → new q = some j → i = j) ∧
      ∀ p i, (CasStore.mk root).Names d p → h.lookup p = some (.file i) → (new p).isSome = true := by
  have hnew : ∀ p i, new p = some i → Holding root h' d i := by
    intro p i hp
    have hnames := hs.names p i hp
    refine ⟨hd, p, hnames, ?_⟩
    rw [hs.lookup p (hnames.onShelf hd), hp]
    rfl
  constructor
  · intro hone'
    refine ⟨fun p q i j hp hq => hone' d i j (hnew p i hp) (hnew q j hq), fun p i hp hi => ?_⟩
    rw [Option.isSome_iff_ne_none]
    intro hnone
    obtain ⟨q, j, hq⟩ := hsome
    have hold : Holding root h' d i := by
      refine ⟨hd, p, hp, ?_⟩
      rw [hs.lookup p (hp.onShelf hd), hnone, hi]
      rfl
    have heq := hone' d i j hold (hnew q j hq)
    exact hs.fresh q j hq p (hp.onShelf hd) (heq ▸ hi)
  · rintro ⟨hsame, hleft⟩ e i j hi hj
    by_cases hed : e = d
    · subst hed
      have hcases : ∀ k, Holding root h' e k → ∃ p, new p = some k := by
        rintro k ⟨-, p, hp, hk⟩
        rw [hs.lookup p (hp.onShelf hd)] at hk
        cases hnewp : new p with
        | some l =>
          rw [hnewp] at hk
          obtain rfl : l = k := by simpa using hk
          exact ⟨p, hnewp⟩
        | none =>
          rw [hnewp] at hk
          have hp' := hleft p k hp hk
          rw [hnewp] at hp'
          cases hp'
      obtain ⟨p, hp⟩ := hcases i hi
      obtain ⟨q, hq⟩ := hcases j hj
      exact hsame p q i j hp hq
    · exact hone e i j ((hs.holding_iff hd hed).1 hi) ((hs.holding_iff hd hed).1 hj)

theorem Removes.oneInode {gone : String → Prop} (hs : Removes root gone h h')
    (hone : OneInode root h) : OneInode root h' := by
  have hold : ∀ d k, Holding root h' d k → Holding root h d k := by
    rintro d k ⟨hd, p, hp, hk⟩
    refine ⟨hd, p, hp, ?_⟩
    rcases hs.lookup_cases p with heq | heq
    · rwa [heq] at hk
    · rw [heq] at hk
      cases hk
  exact fun d i j hi hj => hone d i j (hold d i hi) (hold d j hj)

namespace BlobEvent

/-- The event gives no digest a second file: a store finds no name of its digest besides the one that it
replaces, and a commit, which needs hard links, none besides its own two. -/
def KeepsOne (inst : Installation) (h : Fs) : BlobEvent → Prop
  | store pid reader expected => ∀ bytes, inst.cas.Accepts inst.sha pid reader expected h bytes →
      ∀ p i, inst.cas.Names (inst.sha.hash bytes) p → h.lookup p = some (.file i) →
        p = inst.cas.blobPathAt h (inst.sha.hash bytes)
  | commit _ c => h.lookup c.stagePath ≠ some .dir → h.hardLinks = true ∧
      ∀ p i, inst.cas.Names c.digest p → h.lookup p = some (.file i) →
        p = c.casDest ∨ p = c.blobPath
  | _ => True

variable {inst : Installation} {e : BlobEvent}

theorem newNames_isSome {c : ArtifactCommit} {i j : Ino} {p : Path} :
    (c.newNames i j p).isSome = true ↔ p = c.casDest ∨ p = c.blobPath := by
  unfold ArtifactCommit.newNames
  by_cases hdest : p = c.casDest
  · simp [hdest]
  rw [if_neg hdest]
  by_cases hblob : p = c.blobPath
  · simp [hblob]
  · simp [hdest, hblob]

/-- The new names of a commit are names of one file exactly if the second is a link to the first. -/
theorem newNames_same {c : ArtifactCommit} {i j : Ino} (hd : IsDigest c.digest) :
    (∀ p q k l, c.newNames i j p = some k → c.newNames i j q = some l → k = l) ↔ j = i := by
  have hdest : c.newNames i j c.casDest = some i := if_pos rfl
  have hblob : c.newNames i j c.blobPath = some j := by
    rw [ArtifactCommit.newNames, if_neg (ArtifactCommit.casDest_ne_blobPath hd).symm, if_pos rfl]
  constructor
  · intro hsame
    exact hsame _ _ _ _ hblob hdest
  · rintro rfl p q k l hk hl
    have hself : ∀ p k, c.newNames j j p = some k → k = j := by
      intro p k hk
      unfold ArtifactCommit.newNames at hk
      split at hk
      · exact (Option.some.inj hk).symm
      · split at hk
        · exact (Option.some.inj hk).symm
        · cases hk
    rw [hself p k hk, hself q l hl]

/-- What an event does to the property that no digest has two files. -/
theorem oneInode_after_iff (he : e.Valid inst.root) (hw : WellFormed inst.root h)
    (hs : Shelved inst.root h) (hone : OneInode inst.root h) :
    OneInode inst.root (e.after inst h) ↔ e.KeepsOne inst h := by
  cases e with
  | store pid reader expected =>
    obtain ⟨hok, herr⟩ := @after_store inst h pid reader expected hw
    by_cases hacc : ∃ bytes, inst.cas.Accepts inst.sha pid reader expected h bytes
    · obtain ⟨bytes, hbytes⟩ := hacc
      obtain ⟨i, hi⟩ := hok bytes hbytes
      rw [hi.oneInode_iff (inst.sha.isDigest_hash bytes) hone ⟨_, i, if_pos rfl⟩]
      constructor
      · rintro ⟨-, hleft⟩ bytes' hbytes' p k hp hk
        obtain rfl : bytes' = bytes := Except.ok.inj (hbytes'.1.symm.trans hbytes.1)
        have hsome := hleft p k hp hk
        by_contra hne
        rw [if_neg hne] at hsome
        cases hsome
      · intro hkeeps
        refine ⟨fun p q k l hk hl => ?_, fun p k hp hk => ?_⟩
        · split at hk
          · split at hl
            · exact Option.some.inj (hk.symm.trans hl)
            · cases hl
          · cases hk
        · rw [if_pos (hkeeps bytes hbytes p k hp hk)]
          rfl
    · rw [(herr hacc).oneInode_iff]
      exact iff_of_true hone fun bytes hbytes => absurd ⟨bytes, hbytes⟩ hacc
  | commit staged c =>
    obtain ⟨hok, herr⟩ := after_commit hw he
    by_cases hdir : h.lookup c.stagePath = some .dir
    · rw [herr hdir]
      exact iff_of_true hone fun hne => absurd hdir hne
    · obtain ⟨i, j, hlinks, hcopies, hij⟩ := hok hdir
      have hd := he.2.digest
      rw [hij.oneInode_iff hd hone ⟨_, i, if_pos rfl⟩, newNames_same hd]
      simp only [newNames_isSome]
      constructor
      · rintro ⟨hsame, hleft⟩ -
        refine ⟨?_, hleft⟩
        by_contra hno
        exact hcopies (by simpa using hno) hsame
      · intro hkeeps
        obtain ⟨hcan, hleft⟩ := hkeeps hdir
        exact ⟨hlinks hcan, hleft⟩
  | handoff request =>
    rw [after_handoff]
    exact iff_of_true hone trivial
  | pin digest => exact (after_pin hw).oneInode_iff.trans (iff_of_true hone trivial)
  | unpin digest => exact (after_unpin hw).oneInode_iff.trans (iff_of_true hone trivial)
  | prune max =>
    obtain ⟨gone, hremoves⟩ := @after_prune inst h max hw hs
    exact iff_of_true (hremoves.oneInode hone) trivial

/-! ### Content that is there already -/

/-- The digest and the content that an event stores, if it succeeds. -/
def stored (inst : Installation) : BlobEvent → Option (String × Bytes)
  | store _ reader _ => reader.content.toOption.map fun bytes => (inst.sha.hash bytes, bytes)
  | commit staged c => some (c.digest, staged)
  | _ => none

/-- Storing what is there already changes neither number. -/
def NeutralWhenStored (inst : Installation) (h : Fs) (e : BlobEvent) : Prop :=
  ∀ d bytes, e.stored inst = some (d, bytes) → inst.cas.content h d = some bytes →
    reportedStat inst.ctx (e.after inst h) "model_count" = reportedStat inst.ctx h "model_count" ∧
    reportedStat inst.ctx (e.after inst h) "total_bytes" = reportedStat inst.ctx h "total_bytes"

/-- What the statistics say depends on what a reader finds. -/
theorem reportedStat_congr {ctx : ModelServiceContext} (hctx : ctx = .ofRoot root)
    (hcount : CountsOnce root h) (hcount' : CountsOnce root h')
    (hw : WellFormed root h) (hw' : WellFormed root h')
    (hcontent : ∀ d, IsDigest d → (CasStore.mk root).content h' d = (CasStore.mk root).content h d) :
    reportedStat ctx h' "model_count" = reportedStat ctx h "model_count" ∧
      reportedStat ctx h' "total_bytes" = reportedStat ctx h "total_bytes" := by
  obtain ⟨ds, hds, hmodels, htotal⟩ := hcount
  obtain ⟨ds', hds', hmodels', htotal'⟩ := hcount'
  have hblob : ∀ {s : Fs}, WellFormed root s → ∀ d, IsDigest d →
      ((((CasStore.mk root).hasBlob d).run Fs.exec s).1 = true ↔
        ((CasStore.mk root).content s d).isSome = true) := by
    intro s hs d hd
    rw [run_hasBlob hs hd, ← CasStore.stored_iff_content hs hd]
    constructor
    · rintro ⟨i, -, p, hp, hi⟩
      exact ⟨p, i, hp, hi⟩
    · rintro ⟨p, i, hp, hi⟩
      exact ⟨i, hd, p, hp, hi⟩
  have heq : ds' = ds := by
    ext d
    rw [hds, hds']
    refine and_congr_right fun hd => ?_
    rw [hblob hw d hd, hblob hw' d hd, hcontent d hd]
  subst heq
  subst hctx
  refine ⟨hmodels'.trans hmodels.symm, htotal'.trans ?_⟩
  rw [htotal]
  have hsum : ∀ d ∈ ds', (((CasStore.mk root).content h' d).getD []).length =
      (((CasStore.mk root).content h d).getD []).length := by
    intro d hd
    rw [hcontent d ((hds d).1 hd).1]
  rw [Finset.sum_congr rfl hsum]

/-- Files that hold what a digest holds already change nothing that a reader finds. -/
theorem content_of_shelves {bytes : Bytes} {new : Path → Option Ino} (hw : WellFormed root h)
    (hw' : WellFormed root h') (hd : IsDigest d) (hs : Shelves root d bytes new h h')
    (hone' : OneInode root h') (hsome : ∃ p i, new p = some i)
    (hcontent : (CasStore.mk root).content h d = some bytes) {e : String} (he : IsDigest e) :
    (CasStore.mk root).content h' e = (CasStore.mk root).content h e := by
  by_cases hed : e = d
  · subst hed
    obtain ⟨p, i, hp⟩ := hsome
    have hnames := hs.names p i hp
    have hi : Holding root h' e i := by
      refine ⟨hd, p, hnames, ?_⟩
      rw [hs.lookup p (hnames.onShelf hd), hp]
      rfl
    rw [hone'.content_eq hw' hi, hcontent, hs.data p i hp]
  · have hnone : ∀ p, (CasStore.mk root).Names e p → new p = none := by
      intro p hp
      rw [← Option.not_isSome_iff_eq_none, Option.isSome_iff_exists]
      rintro ⟨i, hi⟩
      exact hed (hp.digest_eq he hd (hs.names p i hi))
    apply CasStore.content_congr hw hw' he
    · intro p hp
      rw [hs.lookup p (hp.onShelf he), hnone p hp]
      rfl
    · intro p i hp hi
      rw [Fs.data, hs.kept p i (hp.onShelf he) (hnone p hp) hi]
      rfl

theorem content_of_sameShelf (hw : WellFormed root h) (hw' : WellFormed root h')
    (hs : SameShelf root h h') {e : String} (he : IsDigest e) :
    (CasStore.mk root).content h' e = (CasStore.mk root).content h e := by
  apply CasStore.content_congr hw hw' he
  · exact fun p hp => hs.lookup p (hp.onShelf he)
  · intro p i hp hi
    rw [Fs.data, hs.kept p i (hp.onShelf he) hi]
    rfl

theorem neutralWhenStored (he : e.Valid inst.root) (hw : WellFormed inst.root h)
    (hs : Shelved inst.root h) (hone : OneInode inst.root h)
    (hone' : OneInode inst.root (e.after inst h)) : e.NeutralWhenStored inst h := by
  intro d bytes hstored hcontent
  have hw' := he.wellFormed_after hw
  have hs' := he.shelved_after hw hs
  apply reportedStat_congr rfl ((countsOnce_iff hw hs).2 hone) ((countsOnce_iff hw' hs').2 hone') hw hw'
  intro x hx
  cases e with
  | store pid reader expected =>
    obtain ⟨hok, herr⟩ := @after_store inst h pid reader expected hw
    by_cases hacc : ∃ bytes, inst.cas.Accepts inst.sha pid reader expected h bytes
    · obtain ⟨bytes', hbytes⟩ := hacc
      obtain ⟨i, hi⟩ := hok bytes' hbytes
      have hpair : (inst.sha.hash bytes', bytes') = (d, bytes) := by
        rw [stored, hbytes.1] at hstored
        exact Option.some.inj hstored
      obtain ⟨rfl, rfl⟩ := Prod.mk.inj hpair
      exact content_of_shelves hw hw' (inst.sha.isDigest_hash _) hi hone' ⟨_, i, if_pos rfl⟩ hcontent hx
    · exact content_of_sameShelf hw hw' (herr hacc) hx
  | commit staged c =>
    obtain ⟨hok, herr⟩ := after_commit hw he
    by_cases hdir : h.lookup c.stagePath = some .dir
    · rw [herr hdir]
    · obtain ⟨i, j, -, -, hij⟩ := hok hdir
      obtain ⟨rfl, rfl⟩ := Prod.mk.inj (Option.some.inj hstored)
      exact content_of_shelves hw hw' he.2.digest hij hone' ⟨_, i, if_pos rfl⟩ hcontent hx
  | _ => cases hstored

/-! ### Whole runs -/

/-- Every event of a run is as `P` says, in the state that it happens in. -/
def EveryEvent (inst : Installation) (P : Fs → BlobEvent → Prop) : List BlobEvent → Fs → Prop
  | [], _ => True
  | e :: events, h => P h e ∧ EveryEvent inst P events (e.after inst h)

/-- Every state of a run is as `P` says, the first and the last included. -/
def EveryState (inst : Installation) (P : Fs → Prop) : List BlobEvent → Fs → Prop
  | [], h => P h
  | e :: events, h => P h ∧ EveryState inst P events (e.after inst h)

/-- A run from any state with one file a digest. -/
theorem everyState_countsOnce_iff (events : List BlobEvent) (hvalid : ∀ e ∈ events, e.Valid inst.root)
    (hw : WellFormed inst.root h) (hs : Shelved inst.root h) (hone : OneInode inst.root h) :
    (EveryState inst (CountsOnce inst.root) events h ∧
        EveryEvent inst (fun h e => e.NeutralWhenStored inst h) events h) ↔
      EveryEvent inst (fun h e => e.KeepsOne inst h) events h := by
  induction events generalizing h with
  | nil => exact iff_of_true ⟨(countsOnce_iff hw hs).2 hone, trivial⟩ trivial
  | cons e events ih =>
    have he := hvalid e (List.mem_cons_self ..)
    have hw' := he.wellFormed_after hw
    have hs' := he.shelved_after hw hs
    have hvalid' := fun x hx => hvalid x (List.mem_cons_of_mem e hx)
    constructor
    · rintro ⟨⟨-, hstates⟩, -, hneutral⟩
      have hcount' : CountsOnce inst.root (e.after inst h) := by
        cases events with
        | nil => exact hstates
        | cons e' events => exact hstates.1
      have hone' := (countsOnce_iff hw' hs').1 hcount'
      exact ⟨(oneInode_after_iff he hw hs hone).1 hone',
        (ih hvalid' hw' hs' hone').1 ⟨hstates, hneutral⟩⟩
    · rintro ⟨hkeeps, hevents⟩
      have hone' := (oneInode_after_iff he hw hs hone).2 hkeeps
      obtain ⟨hstates, hneutral⟩ := (ih hvalid' hw' hs' hone').2 hevents
      exact ⟨⟨(countsOnce_iff hw hs).2 hone, hstates⟩, neutralWhenStored he hw hs hone hone', hneutral⟩

end BlobEvent

/-- From an open storage root on, every state counts each content once, and storing what is there
already changes neither number, exactly if no event gives a digest a second file. -/
theorem counted_once_iff (inst : Installation) (hardLinks : Bool) (clock : Nat → Nat)
    (events : List BlobEvent) (hvalid : ∀ e ∈ events, e.Valid inst.root) :
    (BlobEvent.EveryState inst (CountsOnce inst.root) events (openedFs inst.root hardLinks clock) ∧
        BlobEvent.EveryEvent inst (fun h e => e.NeutralWhenStored inst h) events
          (openedFs inst.root hardLinks clock)) ↔
      BlobEvent.EveryEvent inst (fun h e => e.KeepsOne inst h) events
        (openedFs inst.root hardLinks clock) := by
  apply BlobEvent.everyState_countsOnce_iff events hvalid (wellFormed_openedFs ..)
    (BlobEvent.shelved_openedFs _ _ _)
  rintro d i j ⟨-, p, -, hi⟩
  exact absurd hi (lookup_openedFs_ne_file inst.root hardLinks clock p i)

/-- A store of what was just committed gives the digest a second file. -/
theorem BlobEvent.counted_twice {inst : Installation} {staged bytes : Bytes} {c : ArtifactCommit}
    {pid : Pid} {reader : Reader} (he : (commit staged c).Valid inst.root)
    (hw : WellFormed inst.root h) (hs : Shelved inst.root h)
    (hdirs : ∀ n : Name, h.lookup (inst.root ++ [Dir.cas, Dir.incoming, n]) ≠ some .dir)
    (hcontent : reader.content = .ok bytes) (hdigest : inst.sha.hash bytes = c.digest)
    (hcount : CountsOnce inst.root ((commit staged c).after inst h)) :
    ¬ CountsOnce inst.root ((store pid reader none).after inst ((commit staged c).after inst h)) := by
  have hw₁ := he.wellFormed_after hw
  have hs₁ := he.shelved_after hw hs
  have hd := he.2.digest
  obtain ⟨n, hn⟩ := he.2.stage
  have hstage : h.lookup c.stagePath ≠ some .dir := by
    rw [hn, he.1]
    exact hdirs n
  have hfree : ∀ q, inst.root ++ [Dir.cas] <+: q → h.lookup q ≠ some .dir →
      ((commit staged c).after inst h).lookup q ≠ some .dir := fun q hq hne hdir =>
    hne (dir_of_commit hw he hq hdir)
  obtain ⟨i, j, -, -, hij⟩ := (after_commit hw he).1 hstage
  generalize (commit staged c).after inst h = h₁ at *
  intro hcount'
  have hkeeps := (oneInode_after_iff (e := .store pid reader none) trivial hw₁ hs₁
    ((countsOnce_iff hw₁ hs₁).1 hcount)).1 ((countsOnce_iff
      (Valid.wellFormed_after (e := .store pid reader none) trivial hw₁)
      (Valid.shelved_after (e := .store pid reader none) trivial hw₁ hs₁)).1 hcount')
  have haccepts : inst.cas.Accepts inst.sha pid reader none h₁ bytes := by
    refine ⟨hcontent, rfl, ?_⟩
    rw [CasStore.nextStage, CasStore.stagePath_eq]
    exact hfree _ (List.prefix_append_right_inj _ |>.2 (by simp)) (hdirs _)
  have hnames : inst.cas.Names c.digest c.casDest := by
    have := ArtifactCommit.names_casDest (c := c)
    rwa [ArtifactCommit.cas, he.1] at this
  have hblobNames : inst.cas.Names c.digest c.blobPath := by
    have := ArtifactCommit.names_blobPath (c := c)
    rwa [ArtifactCommit.cas, he.1] at this
  have hdest : h₁.lookup c.casDest = some (.file i) := by
    rw [hij.lookup _ (hnames.onShelf hd), ArtifactCommit.newNames, if_pos rfl]
    rfl
  have hblob : h₁.lookup c.blobPath = some (.file j) := by
    rw [hij.lookup _ (hblobNames.onShelf hd), ArtifactCommit.newNames,
      if_neg (ArtifactCommit.casDest_ne_blobPath hd).symm, if_pos rfl]
    rfl
  have hpath : c.casDest = inst.cas.blobPathAt h₁ c.digest := by
    rw [← hdigest] at hnames ⊢
    exact hkeeps bytes haccepts c.casDest i hnames hdest
  have hfile : h₁.isFile (inst.cas.blobsDir.join c.digest) = true := by
    rw [CasStore.isFile_iff hw₁ hd (.inl rfl)]
    refine ⟨j, ?_⟩
    rw [ArtifactCommit.blobPath_eq, ArtifactCommit.cas, he.1] at hblob
    exact hblob
  rw [CasStore.blobPathAt, if_pos hfile] at hpath
  apply ArtifactCommit.casDest_ne_blobPath hd
  rw [hpath, ArtifactCommit.blobPath_eq, ArtifactCommit.cas, he.1]

/-! ### Samples -/

/-- A store of a one-byte model, and a prune. -/
def sampleBlobs : List BlobEvent := [.store 0 [.ok [1]] none, .prune 1]

/-- Storing and pruning keep the count. -/
theorem sample_counted_once :
    BlobEvent.EveryState sampleInstallation (CountsOnce sampleRoot) sampleBlobs (sampleFs true) := by
  refine ((counted_once_iff sampleInstallation true id sampleBlobs ?_).2 ⟨?_, trivial, trivial⟩).1
  · intro e he
    simp only [sampleBlobs, List.mem_cons, List.not_mem_nil, or_false] at he
    rcases he with rfl | rfl
    · exact trivial
    · exact trivial
  · intro bytes _ p i _ hi
    exact absurd hi (lookup_openedFs_ne_file sampleRoot true id p i)

/-- A commit of a one-byte model and a store of the same byte, on a file system with hard links. -/
def sampleRestored : List BlobEvent := [.commit [1] (sampleCommit stageA), .store 0 [.ok [1]] none]

/-- The store replaces one of the two names, and the model is counted twice. -/
theorem sample_counted_twice :
    ¬ BlobEvent.EveryState sampleInstallation (CountsOnce sampleRoot) sampleRestored (sampleFs true) := by
  rintro ⟨-, hcount₁, hcount₂⟩
  have hdirs : ∀ n : Name,
      (sampleFs true).lookup (sampleRoot ++ [Dir.cas, Dir.incoming, n]) ≠ some .dir := by
    intro n
    rw [show (sampleFs true).lookup _ = none from lookup_openedFs _ _ _ (by simp [openedDirs, sampleRoot])]
    rintro ⟨⟩
  have he : (BlobEvent.commit [1] (sampleCommit stageA)).Valid sampleInstallation.root :=
    ⟨rfl, valid_sampleCommit _⟩
  exact BlobEvent.counted_twice he (wellFormed_openedFs sampleRoot true id)
    (BlobEvent.shelved_openedFs sampleRoot true id) hdirs rfl rfl hcount₁ hcount₂

end Modeld
