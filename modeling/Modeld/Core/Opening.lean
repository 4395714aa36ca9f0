import Modeld.Core.Footprint

/-!
# Opening a storage root

A daemon or a client opens the store, the tags and the pins of one root before it uses them. On a
file system with nothing on it this yields a well-formed storage root without blobs, tags or pins,
from which all runs start.
-/

namespace Modeld

open Host Program

/-- A file system with nothing on it. -/
def blankFs (hardLinks : Bool) (clock : Nat → Nat) : Fs where
  entries := ∅
  inodes _ := ⟨[], 0⟩
  nextIno := 0
  clock := clock
  ticks := 0
  hardLinks := hardLinks
  dirLen := 4096
  counters _ := 0

/-- Open the store, the tags and the pins of a root. -/
def openStorage (root : Path) : Io (Except ModeldError Unit) := do
  match ← CasStore.new root with
  | .error e => return .error e
  | .ok _ =>
    match ← TagRegistry.new root with
    | .error e => return .error e
    | .ok _ =>
      match ← EvictionManager.new root with
      | .error e => return .error e
      | .ok _ => return .ok ()

/-- The directories that opening a root makes, with those above them. -/
def openedDirs (root : Path) : List Path :=
  [root ++ [Dir.cas, Dir.blobs, Dir.sha256], root ++ [Dir.cas, Dir.incoming], root ++ [Dir.tags],
    root ++ [Dir.pinned]]

/-- The storage root on a file system with nothing else on it, just opened. -/
def openedFs (root : Path) (hardLinks : Bool) (clock : Nat → Nat) : Fs :=
  ((openStorage root).run Fs.exec (blankFs hardLinks clock)).2

/-- There are directories, those above some of the given paths, and nothing else. -/
private def OnlyDirs (ps : List Path) (h : Fs) : Prop :=
  ∀ q, (h.lookup q = some .dir ∧ (q = [] ∨ ∃ p ∈ ps, q <+: p)) ∨
    (h.lookup q = none ∧ ∀ p ∈ ps, ¬ q <+: p)

private theorem OnlyDirs.createDirAll {ps : List Path} {h : Fs} (hh : OnlyDirs ps h) (p : Path) :
    (h.createDirAll p).1 = .ok () ∧ OnlyDirs (p :: ps) (h.createDirAll p).2 := by
  have hfree : ∀ q, q <+: p → h.lookup q = none ∨ h.lookup q = some .dir := fun q _ => by
    rcases hh q with ⟨h1, -⟩ | ⟨h1, -⟩
    · exact .inr h1
    · exact .inl h1
  obtain ⟨hok, hdirs⟩ := Fs.createDirAll_ok hfree
  refine ⟨hok, fun q => ?_⟩
  by_cases hq : q <+: p
  · exact .inl ⟨hdirs q hq, .inr ⟨p, by simp, hq⟩⟩
  rw [Fs.lookup_createDirAll_of_not_prefix hq]
  rcases hh q with ⟨h1, hnil | ⟨p', hp', hq'⟩⟩ | ⟨h1, h2⟩
  · exact .inl ⟨h1, .inl hnil⟩
  · exact .inl ⟨h1, .inr ⟨p', List.mem_cons_of_mem _ hp', hq'⟩⟩
  · exact .inr ⟨h1, fun p' hp' => by
      rcases List.mem_cons.1 hp' with rfl | hp'
      · exact hq
      · exact h2 p' hp'⟩

private theorem onlyDirs_blank (hardLinks : Bool) (clock : Nat → Nat) :
    OnlyDirs [] (blankFs hardLinks clock) := fun q => by
  rcases eq_or_ne q [] with rfl | hq
  · exact .inl ⟨Fs.lookup_nil, .inl rfl⟩
  · exact .inr ⟨by simp [Fs.lookup, blankFs, hq], by simp⟩

variable (root : Path) (hardLinks : Bool) (clock : Nat → Nat)

private theorem opened_spec :
    OnlyDirs (openedDirs root).reverse (openedFs root hardLinks clock) ∧
      (openedFs root hardLinks clock).hardLinks = hardLinks := by
  have h0 := onlyDirs_blank hardLinks clock
  obtain ⟨hok1, h1⟩ := h0.createDirAll (CasStore.mk root).blobsDir
  obtain ⟨hok2, h2⟩ := h1.createDirAll (CasStore.mk root).incomingDir
  obtain ⟨hok3, h3⟩ := h2.createDirAll (root.join "tags")
  obtain ⟨hok4, h4⟩ := h3.createDirAll (root.join "pinned")
  have hrun : openedFs root hardLinks clock = (((((blankFs hardLinks clock).createDirAll
      (CasStore.mk root).blobsDir).2.createDirAll (CasStore.mk root).incomingDir).2.createDirAll
      (root.join "tags")).2.createDirAll (root.join "pinned")).2 := by
    simp only [openedFs, openStorage, CasStore.new, TagRegistry.new, EvictionManager.new,
      createDirAll, perform_bind, call_bind, run_call, Fs.exec, hok1, hok2, pure_eq, done_bind,
      hok3, hok4, run_done]
  rw [hrun]
  rw [Path.join_name _ Dir.tags, Path.join_name _ Dir.pinned, CasStore.blobsDir_eq,
    CasStore.incomingDir_eq] at h4
  rw [Path.join_name _ Dir.tags, Path.join_name _ Dir.pinned, CasStore.blobsDir_eq,
    CasStore.incomingDir_eq]
  refine ⟨h4, ?_⟩
  simp only [Fs.createDirAll, Fs.hardLinks_makeDirs, blankFs]

private theorem onlyDirs_opened :
    OnlyDirs (openedDirs root).reverse (openedFs root hardLinks clock) :=
  (opened_spec root hardLinks clock).1

/-- A storage root that was just opened is well formed. -/
theorem wellFormed_openedFs : WellFormed root (openedFs root hardLinks clock) := by
  have hdirs := onlyDirs_opened root hardLinks clock
  have hfile : ∀ q e, (openedFs root hardLinks clock).lookup q = some e → e = .dir := by
    intro q e he
    rcases hdirs q with ⟨h1, -⟩ | ⟨h1, -⟩
    · exact Option.some.inj (he.symm.trans h1)
    · simp [h1] at he
  refine ⟨fun q hq => ?_, fun q t _ ht => ?_, fun q r i _ _ hqi _ => ?_, fun q i _ hqi => ?_,
    fun d q hd hq hdir => ?_⟩
  · rcases hdirs q with ⟨h1, -⟩ | ⟨-, h2⟩
    · exact h1
    · simp only [openedDirs, List.reverse_cons, List.reverse_nil, List.nil_append, List.cons_append,
        List.mem_cons, List.not_mem_nil, or_false, forall_eq_or_imp, forall_eq] at h2
      rcases hq with hq | hq
      · exact absurd (hq.trans (List.prefix_append _ _)) h2.1
      · simp only [baseDirs, List.mem_cons, List.not_mem_nil, or_false] at hq
        rcases hq with rfl | rfl | rfl | rfl | rfl | rfl <;>
          simp [List.cons_prefix_cons] at h2
  · cases hfile q _ ht
  · cases hfile q _ hqi
  · cases hfile q _ hqi
  · rcases hdirs q with ⟨-, h2⟩ | ⟨h1, -⟩
    · have hcas := CasStore.Names.in_cas hd hq
      rcases h2 with rfl | ⟨p, hp, hqp⟩
      · simp at hcas
      simp only [openedDirs, List.reverse_cons, List.reverse_nil, List.nil_append, List.cons_append,
        List.mem_cons, List.not_mem_nil, or_false] at hp
      rcases hp with rfl | rfl | rfl | rfl
      · exact not_under (x := Dir.pinned) (by simp) (by decide) (hcas.trans hqp)
      · exact not_under (x := Dir.tags) (by simp) (by decide) (hcas.trans hqp)
      · rcases (CasStore.names_iff hd).1 hq with rfl | rfl | rfl <;>
          have h' := (List.prefix_append_right_inj _).1 hqp <;>
          simp [List.cons_prefix_cons, ← String.toList_inj] at h'
      · rw [← CasStore.blobsDir_eq (CasStore.mk root)] at hqp
        exact CasStore.not_prefix_blobsDir hd hq hqp
    · simp [h1] at hdir

/-- A path in a storage root that was just opened is a directory or free. -/
theorem lookup_openedFs {p : Path} (hp : ∀ q ∈ openedDirs root, ¬ p <+: q) :
    (openedFs root hardLinks clock).lookup p = none := by
  rcases onlyDirs_opened root hardLinks clock p with ⟨-, rfl | ⟨q, hq, hpq⟩⟩ | ⟨h1, -⟩
  · exact absurd List.nil_prefix (hp _ (List.mem_cons_self ..))
  · exact absurd hpq (hp q (List.mem_reverse.1 hq))
  · exact h1

/-- There is no file in a storage root that was just opened. -/
theorem lookup_openedFs_ne_file (p : Path) (i : Ino) :
    (openedFs root hardLinks clock).lookup p ≠ some (.file i) := by
  rcases onlyDirs_opened root hardLinks clock p with ⟨h1, -⟩ | ⟨h1, -⟩ <;> simp [h1]

def digestEmpty : String := "e3b0c44298fc1c149afbf4c8996fb92427ae41e4649b934ca495991b7852b855"

def digestOne : String := "4bf5122f344554c53bde2ebb8cd2b7e3d1600ad631c385a5d7cce23c7785459a"

def digestTwo : String := "dbc1b4c900ffe48d575b5da5c638040125f65db0fe3e24494b76ea986457d986"

theorem isDigest_digestEmpty : IsDigest digestEmpty := by decide

theorem isDigest_digestOne : IsDigest digestOne := by decide

theorem isDigest_digestTwo : IsDigest digestTwo := by decide

/-- SHA-256 on the contents of the examples. -/
def sampleSha : Sha256 where
  hash b := if b = [1] then digestOne else if b = [2] then digestTwo else digestEmpty
  isDigest_hash b := by
    split
    · exact isDigest_digestOne
    split
    · exact isDigest_digestTwo
    · exact isDigest_digestEmpty

def sampleRoot : Path := [⟨"srv", by decide⟩]

/-- The sample root, just opened, with a clock that moves on at every write. -/
def sampleFs (hardLinks : Bool) : Fs := openedFs sampleRoot hardLinks id

end Modeld
