import Modeld.Core.Footprint

/-!
# What a reader of the store sees

`content` is what opening a digest yields. In well-formed storage it is the content of the first of
the three names that is a file, so whoever shows that every name of a digest holds some content, and
that one of them exists, knows what a reader gets.
-/

namespace Modeld

open Host Program

namespace CasStore

variable {s : CasStore} {root : Path} {h h' : Fs} {d : String} {p : Path} {i : Ino} {x : Bytes}

/-- The path that `blob_path` chooses. -/
def blobPathAt (s : CasStore) (h : Fs) (d : String) : Path :=
  if h.isFile (s.blobsDir.join d) then s.blobsDir.join d
  else if h.isFile (s.flatGguf d) then s.flatGguf d
  else if h.isFile (s.flatSt d) then s.flatSt d
  else s.blobsDir.join d

theorem run_blobPath : (s.blobPath d).run Fs.exec h = (s.blobPathAt h d, h) := by
  unfold blobPath blobPathAt
  rw [Fs.run_isFile]
  split
  · rfl
  rw [Fs.run_isFile]
  split
  · rfl
  rw [Fs.run_isFile]
  split <;> rfl

/-- The bytes that `open_blob` gives access to. -/
def content (s : CasStore) (h : Fs) (d : String) : Option Bytes :=
  match ((s.openBlob d).run Fs.exec h).1 with
  | .ok i => some (h.data i)
  | .error _ => none

/-- The digest has a file under one of its names. -/
def Stored (s : CasStore) (h : Fs) (d : String) : Prop :=
  ∃ p i, s.Names d p ∧ h.lookup p = some (.file i)

theorem openFile_of_fileAt (hp : h.fileAt p = some i) : h.openFile p = .ok i := by
  rw [Fs.openFile, Fs.fileAt_eq_some.1 hp]

/-- What `open_blob` returns, from the file that the chosen path leads to. -/
theorem run_openBlob : (s.openBlob d).run Fs.exec h =
    (match h.fileAt (s.blobPathAt h d) with
      | some i => .ok i
      | none => .error (.notFound d), h) := by
  unfold openBlob
  rw [run_bind, run_blobPath, Fs.run_isFile]
  cases hfile : h.fileAt (s.blobPathAt h d) with
  | none => simp [Fs.isFile, hfile]
  | some i =>
    simp only [Fs.isFile, hfile, Option.isSome_some, Bool.not_true, Bool.false_eq_true, if_false,
      Fs.run_openFile, openFile_of_fileAt hfile]
    rfl

theorem content_eq : s.content h d = (h.fileAt (s.blobPathAt h d)).map h.data := by
  rw [content, run_openBlob]
  cases h.fileAt (s.blobPathAt h d) <;> rfl

section WellFormed

variable (hw : WellFormed root h) (hd : IsDigest d)

include hw hd

theorem isFile_iff (hp : (CasStore.mk root).Names d p) :
    h.isFile p = true ↔ ∃ i, h.lookup p = some (.file i) := by
  simp only [Fs.isFile, Option.isSome_iff_exists,
    hw.fileAt_eq_some (hp.under hd) (hp.not_linkPlace hd)]

/-- A reader gets the content of a name that is a file, or there is no such name. -/
theorem content_cases :
    (∃ p i, (CasStore.mk root).Names d p ∧ h.lookup p = some (.file i) ∧
      (CasStore.mk root).content h d = some (h.data i)) ∨
    (¬ (CasStore.mk root).Stored h d ∧ (CasStore.mk root).content h d = none) := by
  rw [content_eq]
  have hsome : ∀ p, (CasStore.mk root).Names d p → h.isFile p = true →
      (CasStore.mk root).blobPathAt h d = p →
      ∃ p i, (CasStore.mk root).Names d p ∧ h.lookup p = some (.file i) ∧
        (h.fileAt ((CasStore.mk root).blobPathAt h d)).map h.data = some (h.data i) := by
    intro p hp hfile heq
    obtain ⟨i, hi⟩ := (isFile_iff hw hd hp).1 hfile
    exact ⟨p, i, hp, hi, by rw [heq, Fs.fileAt_of_lookup hi]; rfl⟩
  by_cases h1 : h.isFile ((CasStore.mk root).blobsDir.join d) = true
  · exact .inl (hsome _ (.inl rfl) h1 (by rw [blobPathAt, if_pos h1]))
  by_cases h2 : h.isFile ((CasStore.mk root).flatGguf d) = true
  · exact .inl (hsome _ (.inr (.inl rfl)) h2 (by rw [blobPathAt, if_neg h1, if_pos h2]))
  by_cases h3 : h.isFile ((CasStore.mk root).flatSt d) = true
  · exact .inl (hsome _ (.inr (.inr rfl)) h3 (by rw [blobPathAt, if_neg h1, if_neg h2, if_pos h3]))
  refine .inr ⟨?_, ?_⟩
  · rintro ⟨p, i, hp, hi⟩
    have hfile := (isFile_iff hw hd hp).2 ⟨i, hi⟩
    rcases hp with rfl | rfl | rfl
    · exact h1 hfile
    · exact h2 hfile
    · exact h3 hfile
  · have hpath : (CasStore.mk root).blobPathAt h d = (CasStore.mk root).blobsDir.join d := by
      rw [blobPathAt, if_neg h1, if_neg h2, if_neg h3]
    rw [hpath]
    cases hfile : h.fileAt ((CasStore.mk root).blobsDir.join d) with
    | none => rfl
    | some i => exact absurd (by simp [Fs.isFile, hfile]) h1

theorem stored_iff_content :
    (CasStore.mk root).Stored h d ↔ ((CasStore.mk root).content h d).isSome = true := by
  rcases content_cases hw hd with ⟨p, i, hp, hi, hc⟩ | ⟨hns, hc⟩
  · simpa [hc] using ⟨p, i, hp, hi⟩
  · simpa [hc] using hns

/-- When every name of a stored digest holds `x`, a reader gets `x`. -/
theorem content_of_forall (hs : (CasStore.mk root).Stored h d)
    (hx : ∀ p i, (CasStore.mk root).Names d p → h.lookup p = some (.file i) → h.data i = x) :
    (CasStore.mk root).content h d = some x := by
  rcases content_cases hw hd with ⟨p, i, hp, hi, hc⟩ | ⟨hns, -⟩
  · rw [hc, hx p i hp hi]
  · exact absurd hs hns

end WellFormed

/-- Opening a digest depends on its names and their files only. -/
theorem content_congr (hw : WellFormed root h) (hw' : WellFormed root h') (hd : IsDigest d)
    (hl : ∀ p, (CasStore.mk root).Names d p → h'.lookup p = h.lookup p)
    (hdata : ∀ p i, (CasStore.mk root).Names d p → h.lookup p = some (.file i) →
      h'.data i = h.data i) :
    (CasStore.mk root).content h' d = (CasStore.mk root).content h d := by
  have hfileAt : ∀ p, (CasStore.mk root).Names d p → h'.fileAt p = h.fileAt p := by
    intro p hp
    ext i
    rw [hw.fileAt_eq_some (hp.under hd) (hp.not_linkPlace hd),
      hw'.fileAt_eq_some (hp.under hd) (hp.not_linkPlace hd), hl p hp]
  have hisFile : ∀ p, (CasStore.mk root).Names d p → h'.isFile p = h.isFile p := fun p hp => by
    rw [Fs.isFile, Fs.isFile, hfileAt p hp]
  have hpath : (CasStore.mk root).blobPathAt h' d = (CasStore.mk root).blobPathAt h d := by
    unfold blobPathAt
    rw [hisFile _ (.inl rfl), hisFile _ (.inr (.inl rfl)), hisFile _ (.inr (.inr rfl))]
  have hnames : (CasStore.mk root).Names d ((CasStore.mk root).blobPathAt h d) := by
    unfold blobPathAt
    split_ifs
    · exact .inl rfl
    · exact .inr (.inl rfl)
    · exact .inr (.inr rfl)
    · exact .inl rfl
  rw [content_eq, content_eq, hpath, hfileAt _ hnames]
  cases hfile : h.fileAt ((CasStore.mk root).blobPathAt h d) with
  | none => rfl
  | some i =>
    rw [hw.fileAt_eq_some (hnames.under hd) (hnames.not_linkPlace hd)] at hfile
    simp [hdata _ i hnames hfile]

/-- Opening a digest yields the same in two states that agree on the store. -/
theorem content_of_sameStore (hw : WellFormed root h) (hw' : WellFormed root h') (hd : IsDigest d)
    (hsame : SameStore root h h') : (CasStore.mk root).content h' d = (CasStore.mk root).content h d :=
  content_congr hw hw' hd (fun p hp => hsame.lookup p (hp.in_cas hd))
    fun p i hp => hsame.data p i (hp.in_cas hd)

end CasStore

/-- The content under every name of a digest hashes to that digest. -/
def Integral (sha : Sha256) (root : Path) (h : Fs) : Prop :=
  ∀ d p i, IsDigest d → (CasStore.mk root).Names d p → h.lookup p = some (.file i) →
    sha.hash (h.data i) = d

end Modeld
