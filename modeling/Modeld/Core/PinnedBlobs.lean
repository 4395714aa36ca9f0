import Modeld.Core.Blobs

/-!
# Pinned blobs

A digest is pinned when the file of its pin is there. `prune` asks for that file before it removes
anything under a name of the digest, whatever else lies in the two directories that it lists.
-/

namespace Modeld

open Host Program

/-- The file of the pin is there. -/
def Pinned (root : Path) (h : Fs) (d : String) : Prop :=
  ∃ i, h.lookup ((EvictionManager.ofRoot root).pinnedDir.join d) = some (.file i)

variable {root : Path} {h h' : Fs} {d : String}

theorem Pinned.isFile (hp : Pinned root h d) :
    h.isFile ((EvictionManager.ofRoot root).pinnedDir.join d) = true := by
  obtain ⟨i, hi⟩ := hp
  simp [Fs.isFile, Fs.fileAt_of_lookup hi]

/-- What leaves the pins alone leaves a digest pinned. -/
theorem Pinned.of_keepsPins {o : Call} {r : Reply o} (hp : Pinned root h d) (hd : IsDigest d)
    (ho : KeepsPins root o) (hw : WellFormed root h) (hs : Fs.Answers o h r h') :
    Pinned root h' d := by
  obtain ⟨i, hi⟩ := hp
  refine ⟨i, (ho.2.lookup_eq ho.1 hw hs ?_).trans hi⟩
  rw [EvictionManager.pinFile_eq hd]
  simp

/-! ### `prune` under a pin -/

/-- The call reads, or it removes something in the store that is no name of the digest. -/
def Spares (root : Path) (d : String) (o : Call) : Prop :=
  Reads o ∨ ∃ p, o = .removeFile p ∧ root ++ [Dir.cas] <+: p ∧ ¬ (CasStore.mk root).Names d p

/-- Whoever asks for the pin is told that it is there. -/
def SaysPinned (root : Path) (d : String) : (o : Call) → Reply o → Prop
  | .isFile p, r => p = (EvictionManager.ofRoot root).pinnedDir.join d → r = true
  | _, _ => True

theorem Spares.keepsPins {o : Call} (ho : Spares root d o) : KeepsPins root o := by
  rcases ho with hreads | ⟨p, rfl, hcas, -⟩
  · exact hreads.inArea.keepsPins (x := Dir.cas) (by decide)
  · exact ⟨trivial, not_under hcas (by decide)⟩

/-- No name of one digest is among the paths that are removed for another candidate. -/
theorem not_names_candidate (root : Path) {x : String} (hd : IsDigest d) (hx : '/' ∉ x.toList)
    (hne : x ≠ d) :
    ¬ (CasStore.mk root).Names d ((CasStore.mk root).blobsDir.join x) ∧
      ¬ (CasStore.mk root).Names d ((CasStore.mk root).flatGguf x) := by
  constructor
  · by_cases hplain : PlainName x
    · rw [CasStore.blobsDir_join hplain, CasStore.names_iff hd]
      simpa using hne
    · intro hnames
      refine CasStore.not_prefix_blobsDir hd hnames ?_
      rcases Path.join_of_not_plain (CasStore.mk root).blobsDir hx hplain with h | h
      · simp [h]
      · rw [h]
        exact List.dropLast_prefix _
  · rw [CasStore.flatGguf_eq hx, CasStore.names_iff hd]
    have hext : ¬ "sha256-" ++ x ++ ".gguf" = "sha256-" ++ d ++ ".safetensors" := by
      rw [← String.toList_inj]
      intro h
      have := congrArg List.reverse h
      simp at this
    simpa [hext] using hne

/-- A pinned digest, and what its names were in an earlier state. -/
structure Spared (root : Path) (d : String) (h₀ h : Fs) : Prop where
  wellFormed : WellFormed root h
  pinned : Pinned root h d
  lookup : ∀ p, (CasStore.mk root).Names d p → h.lookup p = h₀.lookup p
  data : ∀ p i, (CasStore.mk root).Names d p → h₀.lookup p = some (.file i) → h.data i = h₀.data i

/-- A call that spares the digest, on a system whose calls may fail. -/
theorem Spared.answers {h₀ : Fs} {o : Call} {r : Reply o} (hd : IsDigest d) (hs : Spared root d h₀ h)
    (ho : Spares root d o) (ha : Fs.Answers o h r h') : Spared root d h₀ h' := by
  have hkeep := ho.keepsPins
  refine ⟨hs.wellFormed.answers hkeep.1 ha, hs.pinned.of_keepsPins hd hkeep hs.wellFormed ha,
    fun p hp => ?_, fun p i hp hi => ?_⟩
  · rcases ho with hreads | ⟨q, rfl, -, hq⟩
    · rw [hreads.answers ha]
      exact hs.lookup p hp
    · rw [← hs.lookup p hp]
      cases ha.effect with
      | keep _ hl => exact hl p
      | remove _ e he hne hl =>
        rw [hl, if_neg]
        rintro rfl
        exact hq hp
      | newFile _ q' hq' => simp at hq'
  · rw [← hs.data p i hp hi]
    rw [← hs.lookup p hp] at hi
    refine ha.frame.2 i (hs.wellFormed.fresh p i (hp.under hd) hi) ?_
    rcases ho with hreads | ⟨q, rfl, -, -⟩
    · cases o <;> first | exact hreads.elim | exact id
    · exact id

end Modeld
