import Modeld.Core.PruneOrder
import Modeld.Runs.CountedOnce

/-!
# The order of eviction

`prune` takes blobs in the order of the times of their files. A store and a commit write the file that
it counts for their digest, and nothing else writes one, so over a whole run this is the order in which
the blobs were last stored.
-/

namespace Modeld

open Host Program

variable {root : Path} {h h' : Fs} {d e : String} {i : Ino}

/-- The file that `prune` counts for a digest. -/
def PrunedFile (root : Path) (h : Fs) (d : String) (i : Ino) : Prop :=
  IsDigest d ∧ h.lookup ((CasStore.mk root).prunedPath h d) = some (.file i)

namespace BlobEvent

end BlobEvent

/-! ### The file of a digest -/

theorem prunedName_prunedPath : (CasStore.mk root).PrunedName d ((CasStore.mk root).prunedPath h d) := by
  unfold CasStore.prunedPath
  split
  · exact .inl rfl
  · exact .inr rfl

/-- A file under either name makes one that `prune` counts. -/
theorem exists_prunedFile {p : Path} (hw : WellFormed root h) (hd : IsDigest d)
    (hp : (CasStore.mk root).PrunedName d p) (hi : h.lookup p = some (.file i)) :
    ∃ j, PrunedFile root h d j := by
  by_cases hblob : h.isFile ((CasStore.mk root).blobsDir.join d) = true
  · obtain ⟨j, hj⟩ := (CasStore.isFile_iff hw hd (.inl rfl)).1 hblob
    refine ⟨j, hd, ?_⟩
    rw [CasStore.prunedPath, if_pos hblob, hj]
  · refine ⟨i, hd, ?_⟩
    rw [CasStore.prunedPath, if_neg hblob, ← hi]
    rcases hp with rfl | rfl
    · exact absurd ((CasStore.isFile_iff hw hd (.inl rfl)).2 ⟨i, hi⟩) hblob
    · rfl

/-- The times of the files stand as the numbers of the events that stored them. -/
structure Aged (root : Path) (h : Fs) (k : Nat) (last : String → Nat) : Prop where
  past : ∀ d i, PrunedFile root h d i → ∃ t < h.ticks, (h.inodes i).mtime = h.clock t
  order : ∀ d e i j, PrunedFile root h d i → PrunedFile root h e j → last d < last e →
    (h.inodes i).mtime < (h.inodes j).mtime
  bound : ∀ d, last d < k
  advances : StrictMono h.clock

/-- One event, which writes the files of what it stores and keeps the others. -/
theorem Aged.step {k : Nat} {last : String → Nat} {what : Option String} (ha : Aged root h k last)
    (hclock : h'.clock = h.clock) (hticks : h.ticks ≤ h'.ticks)
    (hkept : ∀ d i, what ≠ some d → PrunedFile root h' d i →
      PrunedFile root h d i ∧ h'.inodes i = h.inodes i)
    (hnew : ∀ d i, what = some d → PrunedFile root h' d i → Fs.WrittenSince i h h') :
    Aged root h' (k + 1) fun d => if what = some d then k else last d where
  past d i hi := by
    by_cases hd : what = some d
    · obtain ⟨t, -, ht, htime⟩ := hnew d i hd hi
      exact ⟨t, ht, by rw [hclock, htime]⟩
    · obtain ⟨hold, hsame⟩ := hkept d i hd hi
      obtain ⟨t, ht, htime⟩ := ha.past d i hold
      exact ⟨t, ht.trans_le hticks, by rw [hclock, hsame, htime]⟩
  order d e i j hi hj hlt := by
    by_cases hd : what = some d
    · rw [if_pos hd] at hlt
      split at hlt
      · exact absurd hlt (lt_irrefl k)
      · exact absurd (hlt.trans (ha.bound e)) (lt_irrefl k)
    · obtain ⟨hold, hsame⟩ := hkept d i hd hi
      rw [hsame]
      by_cases he : what = some e
      · obtain ⟨t, ht, htime⟩ := ha.past d i hold
        obtain ⟨t', ht', -, htime'⟩ := hnew e j he hj
        rw [htime, htime']
        exact ha.advances (ht.trans_le ht')
      · obtain ⟨hold', hsame'⟩ := hkept e j he hj
        rw [if_neg hd, if_neg he] at hlt
        rw [hsame']
        exact ha.order d e i j hold hold' hlt
  bound d := by
    have := ha.bound d
    split <;> omega
  advances := hclock ▸ ha.advances

namespace BlobEvent

variable {inst : Installation} {event : BlobEvent}

end BlobEvent

end Modeld
