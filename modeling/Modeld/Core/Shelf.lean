import Modeld.Core.Footprint
import Modeld.Host.Clock

/-!
# The shelf

The store without its staging directory. A writer either puts files of its own under names of one
digest (`Shelves`), or leaves the shelf as it was (`SameShelf`), as every program does that touches
nothing in the store.
-/

namespace Modeld

open Host Program

/-- A path in the store that is not a staging file. -/
def OnShelf (root q : Path) : Prop :=
  root ++ [Dir.cas] <+: q ∧ ¬ root ++ [Dir.cas, Dir.incoming] <+: q

/-- Files of their own, with the given content, were put under names of a digest, and nothing else
on the shelf differs. -/
structure Shelves (root : Path) (d : String) (bytes : Bytes) (new : Path → Option Ino) (h h' : Fs) :
    Prop where
  names : ∀ p i, new p = some i → (CasStore.mk root).Names d p
  lookup : ∀ q, OnShelf root q → h'.lookup q = ((new q).map Entry.file).or (h.lookup q)
  fresh : ∀ p i, new p = some i → ∀ q, OnShelf root q → h.lookup q ≠ some (.file i)
  data : ∀ p i, new p = some i → h'.data i = bytes
  time : ∀ p i, new p = some i → Fs.WrittenSince i h h'
  kept : ∀ q j, OnShelf root q → new q = none → h.lookup q = some (.file j) →
    h'.inodes j = h.inodes j
  hardLinks : h'.hardLinks = h.hardLinks
  clock : h'.clock = h.clock
  ticks : h.ticks ≤ h'.ticks

/-- Nothing on the shelf differs. -/
structure SameShelf (root : Path) (h h' : Fs) : Prop where
  lookup : ∀ q, OnShelf root q → h'.lookup q = h.lookup q
  kept : ∀ q j, OnShelf root q → h.lookup q = some (.file j) → h'.inodes j = h.inodes j
  hardLinks : h'.hardLinks = h.hardLinks
  clock : h'.clock = h.clock
  ticks : h.ticks ≤ h'.ticks

/-- Whatever is on the shelf is under a name of a digest. -/
def Shelved (root : Path) (h : Fs) : Prop :=
  ∀ q i, OnShelf root q → h.lookup q = some (.file i) →
    ∃ d, IsDigest d ∧ (CasStore.mk root).Names d q

variable {root : Path} {h h' h'' : Fs} {d : String} {p q : Path} {i : Ino}

theorem Shelved.of_sameShelf (hs : Shelved root h) (hsame : SameShelf root h h') :
    Shelved root h' :=
  fun q i hq hqi => hs q i hq ((hsame.lookup q hq).symm.trans hqi)

theorem Shelved.of_shelves {bytes : Bytes} {new : Path → Option Ino} (hs : Shelved root h)
    (hd : IsDigest d) (hnew : Shelves root d bytes new h h') : Shelved root h' := by
  intro q i hq hqi
  rw [hnew.lookup q hq] at hqi
  cases hqnew : new q with
  | none =>
    rw [hqnew] at hqi
    exact hs q i hq hqi
  | some j => exact ⟨d, hd, hnew.names q j hqnew⟩

theorem SameShelf.refl : SameShelf root h h :=
  ⟨fun _ _ => rfl, fun _ _ _ _ => rfl, rfl, rfl, le_rfl⟩

theorem SameShelf.trans (hs : SameShelf root h h') (hs' : SameShelf root h' h'') :
    SameShelf root h h'' where
  lookup q hq := (hs'.lookup q hq).trans (hs.lookup q hq)
  kept q j hq hqj := (hs'.kept q j hq ((hs.lookup q hq).trans hqj)).trans (hs.kept q j hq hqj)
  hardLinks := hs'.hardLinks.trans hs.hardLinks
  clock := hs'.clock.trans hs.clock
  ticks := hs.ticks.trans hs'.ticks

theorem CasStore.Names.onShelf (hd : IsDigest d) (hp : (CasStore.mk root).Names d p) :
    OnShelf root p := by
  refine ⟨hp.in_cas hd, ?_⟩
  rcases (CasStore.names_iff hd).1 hp with rfl | rfl | rfl
  · simp
  · simp [← String.toList_inj]
  · simp [← String.toList_inj]

/-- What is on the shelf stays when the shelf does. -/
theorem Shelves.trans_sameShelf {bytes : Bytes} {new : Path → Option Ino} (hd : IsDigest d)
    (hs : Shelves root d bytes new h h') (hs' : SameShelf root h' h'') :
    Shelves root d bytes new h h'' := by
  have hnew : ∀ p i, new p = some i → h''.inodes i = h'.inodes i := by
    intro p i hp
    have hshelf := (hs.names p i hp).onShelf hd
    apply hs'.kept p i hshelf
    rw [hs.lookup p hshelf, hp]
    rfl
  refine ⟨hs.names, fun q hq => (hs'.lookup q hq).trans (hs.lookup q hq), hs.fresh, fun p i hp => ?_,
    fun p i hp => ?_, fun q j hq hqnew hqj => ?_, hs'.hardLinks.trans hs.hardLinks,
    hs'.clock.trans hs.clock, hs.ticks.trans hs'.ticks⟩
  · rw [Fs.data, hnew p i hp]
    exact hs.data p i hp
  · obtain ⟨k, hk, hk', htime⟩ := hs.time p i hp
    exact ⟨k, hk, hk'.trans_le hs'.ticks, by rw [hnew p i hp, htime]⟩
  · have hq' : h'.lookup q = some (.file j) := by
      rw [hs.lookup q hq, hqnew, hqj]
      rfl
    rw [hs'.kept q j hq hq', hs.kept q j hq hqnew hqj]

/-- The call keeps to the layout and touches nothing in the store. -/
def OffShelf (root : Path) (o : Call) : Prop :=
  Tidy root o ∧ Avoids (root ++ [Dir.cas]) o ∧ ∀ i off b, o ≠ .writeAt i off b

theorem OffShelf.sameShelf {o : Call} (ho : OffShelf root o) (hw : WellFormed root h) :
    SameShelf root h (Fs.exec o h).2 where
  lookup q hq := ho.2.1.lookup_eq ho.1 hw (.inl rfl) hq.1
  kept q j hq hqj := by
    apply Fs.inodes_exec o h (hw.fresh q j (under_root hq.1) hqj)
    exact ho.2.1.not_writes ho.1 hw hq.1 hqj (ho.2.2 j)
  hardLinks := (Fs.constants_exec o h).1
  clock := (Fs.constants_exec o h).2
  ticks := Fs.ticks_exec o h

/-- A program that touches nothing in the store. -/
theorem sameShelf_run {α : Type} {p : Io α} (hp : Only (OffShelf root) p) (hw : WellFormed root h) :
    WellFormed root (p.run Fs.exec h).2 ∧ SameShelf root h (p.run Fs.exec h).2 := by
  apply Only.run (I := fun s => WellFormed root s ∧ SameShelf root h s) Fs.exec _ hp ⟨hw, .refl⟩
  intro o s ho hs
  exact ⟨hs.1.answers ho.1 (.inl rfl), hs.2.trans (ho.sameShelf hs.1)⟩

/-- The call makes no directory in the store that is not there. -/
def MakesNoDir (root : Path) (o : Call) : Prop :=
  Tidy root o ∧ ∀ p, o = .createDirAll p → p ∈ baseDirs root ∨ ¬ root ++ [Dir.cas] <+: p

theorem MakesNoDir.dir_of_exec {o : Call} (ho : MakesNoDir root o) (hw : WellFormed root h)
    (hq : root ++ [Dir.cas] <+: q) (hdir : (Fs.exec o h).2.lookup q = some .dir) :
    h.lookup q = some .dir := by
  have heffect := Fs.effect_exec o h
  generalize (Fs.exec o h).2 = h' at *
  cases heffect with
  | keep o hl => exact (hl q).symm.trans hdir
  | newFile o p _ hnone hl hnext =>
    rw [hl] at hdir
    split at hdir
    · cases hdir
    · exact hdir
  | newDirs p hl =>
    rcases hl q with hsame | ⟨-, -, hqp⟩
    · exact hsame.symm.trans hdir
    · rcases ho.2 p rfl with hbase | hout
      · exact hw.dir_of_prefix hbase hqp
      · exact absurd (hq.trans hqp) hout
  | link a b e ha he hb hl =>
    rw [hl] at hdir
    split at hdir
    · exact absurd (Option.some.inj hdir) he
    · exact hdir
  | symlink t p hp hl =>
    rw [hl] at hdir
    split at hdir
    · cases hdir
    · exact hdir
  | remove p e hp he hl =>
    rw [hl] at hdir
    split at hdir
    · cases hdir
    · exact hdir
  | rename a b e ha he hb hl =>
    rw [hl] at hdir
    split at hdir
    · exact absurd (Option.some.inj hdir) he
    · split at hdir
      · cases hdir
      · exact hdir

/-- A program that makes no directory in the store. -/
theorem dir_of_run {α : Type} {p : Io α} (hp : Only (MakesNoDir root) p) (hw : WellFormed root h)
    (hq : root ++ [Dir.cas] <+: q) (hdir : (p.run Fs.exec h).2.lookup q = some .dir) :
    h.lookup q = some .dir := by
  have hrun := Only.run (I := fun s => WellFormed root s ∧
      (s.lookup q = some .dir → h.lookup q = some .dir)) Fs.exec
    (fun o s ho hs => ⟨hs.1.answers ho.1 (.inl rfl), fun hd => hs.2 (ho.dir_of_exec hs.1 hq hd)⟩)
    hp ⟨hw, id⟩
  exact hrun.2 hdir

theorem OffShelf.makesNoDir {o : Call} (ho : OffShelf root o) : MakesNoDir root o := by
  refine ⟨ho.1, ?_⟩
  rintro p rfl
  exact .inr ho.2.1

namespace EvictionManager

theorem offShelf_pin : Only (OffShelf root) ((ofRoot root).pin d) := by
  apply only_pin
  intro hd
  have hpin : root ++ [Dir.pinned] <+: (ofRoot root).pinnedDir.join (Text.trim d) := by
    rw [pinFile_eq hd]
    simp
  exact ⟨⟨under_root hpin, not_linkPlace_of_area hpin (by decide) (by decide)⟩,
    not_under hpin (by decide), by rintro _ _ _ ⟨⟩⟩

theorem offShelf_unpin : Only (OffShelf root) ((ofRoot root).unpin d) := by
  apply only_unpin
  · intro o ho
    have harea : InArea root Dir.pinned o := ho.reads.inArea
    refine ⟨harea.1, harea.2 _ (by decide), ?_⟩
    rintro i off b rfl
    exact ho
  · intro hd
    refine ⟨trivial, not_under (x := Dir.pinned) ?_ (by decide), nofun⟩
    rw [pinFile_eq hd]
    simp

end EvictionManager

end Modeld
