import Modeld.Core.Opening
import Modeld.Host.Listing

/-!
# The pins are a set

Run on their own, the calls of the eviction manager that concern pins return what the same calls on a
finite set of digests return.
-/

namespace Modeld

open Host Program

/-! ### The set -/

/-- A call on the pins. -/
inductive PinRequest
  | pin (digest : String)
  | unpin (digest : String)
  | isPinned (digest : String)
  | list

/-- What a call returns. -/
inductive PinReply
  | done
  | unpinned (was : Bool)
  | pinned (is : Bool)
  | listed (digests : List String)
  /-- The argument is refused. -/
  | refused
  /-- The file system failed. -/
  | failed
deriving DecidableEq

/-- A finite set of digests. -/
abbrev PinSet := Finset String

namespace PinSet

/-- One call on the set. -/
def step (s : PinSet) : PinRequest → PinReply × PinSet
  | .pin digest =>
    if IsDigest (Text.trim digest) then (.done, insert (Text.trim digest) s) else (.refused, s)
  | .unpin digest =>
    if IsDigest (Text.trim digest) then
      (.unpinned (decide (Text.trim digest ∈ s)), s.erase (Text.trim digest))
    else (.refused, s)
  | .isPinned digest => (.pinned (decide (Text.trim digest ∈ s)), s)
  | .list => (.listed s.sort, s)

/-- A run of calls on the set. -/
def stepAll (s : PinSet) : List PinRequest → List PinReply × PinSet
  | [] => ([], s)
  | c :: calls => ((s.step c).1 :: ((s.step c).2.stepAll calls).1, ((s.step c).2.stepAll calls).2)

end PinSet

/-! ### The directory -/

/-- The reply for a result. -/
def PinReply.of {α : Type} (reply : α → PinReply) : Except ModeldError α → PinReply
  | .ok a => reply a
  | .error (.invalidFormat _) => .refused
  | .error _ => .failed

namespace EvictionManager

/-- One call. -/
def performPin (m : EvictionManager) : PinRequest → Io PinReply
  | .pin digest => do return .of (fun _ => .done) (← m.pin digest)
  | .unpin digest => do return .of .unpinned (← m.unpin digest)
  | .isPinned digest => do return .pinned (← m.isPinned digest)
  | .list => do return .of .listed (← m.listPinned)

/-- A run of calls. -/
def performPins (m : EvictionManager) (h : Fs) : List PinRequest → List PinReply × Fs
  | [] => ([], h)
  | c :: calls =>
    (((m.performPin c).run Fs.exec h).1 :: (m.performPins ((m.performPin c).run Fs.exec h).2 calls).1,
      (m.performPins ((m.performPin c).run Fs.exec h).2 calls).2)

/-- The directory of the pins has a file for each digest of the set, and nothing else. -/
structure HoldsPins (m : EvictionManager) (h : Fs) (s : PinSet) : Prop where
  base : ∀ q, q <+: m.pinnedDir → h.lookup q = some .dir
  digest : ∀ d ∈ s, IsDigest d
  present : ∀ n : Name, n.text ∈ s → ∃ i, h.lookup (m.pinnedDir ++ [n]) = some (.file i)
  absent : ∀ n : Name, n.text ∉ s → h.lookup (m.pinnedDir ++ [n]) = none

variable {m : EvictionManager} {h h' : Fs} {s : PinSet} {d : String}

namespace HoldsPins

/-- A pin is a file or nothing. -/
theorem final_eq (hs : HoldsPins m h s) (n : Name) :
    h.final (m.pinnedDir ++ [n]) = m.pinnedDir ++ [n] := by
  refine Fs.final_eq_self fun t ht => ?_
  by_cases hn : n.text ∈ s
  · obtain ⟨i, hi⟩ := hs.present n hn
    rw [hi] at ht
    cases ht
  · rw [hs.absent n hn] at ht
    cases ht

theorem isFile_eq (hs : HoldsPins m h s) (n : Name) :
    h.isFile (m.pinnedDir ++ [n]) = decide (n.text ∈ s) := by
  rw [Bool.eq_iff_iff, decide_eq_true_iff, Fs.isFile, Option.isSome_iff_exists]
  simp only [Fs.fileAt_eq_some, hs.final_eq n]
  constructor
  · rintro ⟨i, hi⟩
    by_contra hn
    rw [hs.absent n hn] at hi
    cases hi
  · exact hs.present n

/-- One name of the directory has changed. -/
theorem of_change (hs : HoldsPins m h s) {s' : PinSet} (n : Name)
    (hsame : ∀ q, q ≠ m.pinnedDir ++ [n] → h'.lookup q = h.lookup q)
    (hdigest : ∀ d ∈ s', d ∈ s ∨ IsDigest d) (hrest : ∀ d, d ≠ n.text → (d ∈ s' ↔ d ∈ s))
    (hpresent : n.text ∈ s' → ∃ i, h'.lookup (m.pinnedDir ++ [n]) = some (.file i))
    (habsent : n.text ∉ s' → h'.lookup (m.pinnedDir ++ [n]) = none) : HoldsPins m h' s' where
  base q hq := by
    rw [hsame q]
    · exact hs.base q hq
    · rintro rfl
      simpa using hq.length_le
  digest d hd := (hdigest d hd).elim (hs.digest d) id
  present k hk := by
    by_cases hkn : k = n
    · rw [hkn] at hk ⊢
      exact hpresent hk
    · obtain ⟨i, hi⟩ := hs.present k ((hrest _ fun heq => hkn (Name.ext heq)).1 hk)
      refine ⟨i, ?_⟩
      rw [hsame _ (by simpa using hkn), hi]
  absent k hk := by
    by_cases hkn : k = n
    · rw [hkn] at hk ⊢
      exact habsent hk
    · rw [hsame _ (by simpa using hkn)]
      exact hs.absent k fun hmem => hk ((hrest _ fun heq => hkn (Name.ext heq)).2 hmem)

end HoldsPins

/-! ### The calls -/

theorem HoldsPins.run_pin (hs : HoldsPins m h s) (hd : IsDigest (Text.trim d)) :
    ((m.pin d).run Fs.exec h).1 = .ok () ∧
      HoldsPins m ((m.pin d).run Fs.exec h).2 (insert (Text.trim d) s) := by
  rw [pin, validateDigestFormat_of_isDigest hd]
  obtain ⟨n, hn⟩ : ∃ n : Name, n.text = Text.trim d := ⟨⟨_, hd.plain⟩, rfl⟩
  rw [← hn] at hd ⊢
  dsimp only
  rw [Path.join_name, Fs.run_create]
  have hparent : h.lookup (List.dropLast (m.pinnedDir ++ [n])) = some .dir := by
    rw [List.dropLast_concat]
    exact hs.base _ List.prefix_rfl
  have hfile : ∀ e, h.lookup (m.pinnedDir ++ [n]) = some e → ∃ i, e = .file i := by
    intro e he
    by_cases hmem : n.text ∈ s
    · obtain ⟨i, hi⟩ := hs.present n hmem
      exact ⟨i, Option.some.inj (he.symm.trans hi)⟩
    · rw [hs.absent n hmem] at he
      cases he
  have hlink : ∀ t, h.lookup (m.pinnedDir ++ [n]) ≠ some (.symlink t) := by
    intro t ht
    obtain ⟨i, hi⟩ := hfile _ ht
    cases hi
  have hdir : h.lookup (m.pinnedDir ++ [n]) ≠ some .dir := by
    intro hdir
    obtain ⟨i, hi⟩ := hfile _ hdir
    cases hi
  obtain ⟨i, h₁, hcreate⟩ := Fs.create_ok hlink hdir hparent
  obtain ⟨hself, hother⟩ := Fs.create_lookup hcreate (hs.final_eq n)
  rw [hcreate]
  refine ⟨rfl, hs.of_change n (fun q hq => hother q hq) (fun e he => ?_)
    (fun e he => by simp [he]) (fun _ => ⟨i, hself⟩) fun hno => absurd (Finset.mem_insert_self ..) hno⟩
  rcases Finset.mem_insert.1 he with rfl | he
  · exact .inr hd
  · exact .inl he

theorem HoldsPins.run_unpin (hs : HoldsPins m h s) (hd : IsDigest (Text.trim d)) :
    ((m.unpin d).run Fs.exec h).1 = .ok (decide (Text.trim d ∈ s)) ∧
      HoldsPins m ((m.unpin d).run Fs.exec h).2 (s.erase (Text.trim d)) := by
  rw [unpin, validateDigestFormat_of_isDigest hd]
  obtain ⟨n, hn⟩ : ∃ n : Name, n.text = Text.trim d := ⟨⟨_, hd.plain⟩, rfl⟩
  rw [← hn] at hd ⊢
  dsimp only
  rw [Path.join_name, Fs.run_isFile, hs.isFile_eq]
  by_cases hmem : n.text ∈ s
  · obtain ⟨i, hi⟩ := hs.present n hmem
    have hremove : h.removeFile (m.pinnedDir ++ [n]) = (.ok (), h.unlink (m.pinnedDir ++ [n])) := by
      rw [Fs.removeFile, hi]
    have hne : m.pinnedDir ++ [n] ≠ [] := by simp
    rw [if_pos (decide_eq_true hmem), Fs.run_removeFile, hremove, decide_eq_true hmem]
    exact ⟨rfl, hs.of_change n (fun q hq => Fs.lookup_unlink_of_ne hq)
      (fun e he => .inl (Finset.mem_of_mem_erase he)) (fun e he => by simp [he])
      (fun hmem => absurd rfl (Finset.ne_of_mem_erase hmem)) fun _ => Fs.lookup_unlink_self hne⟩
  · rw [if_neg (by simpa using hmem), decide_eq_false hmem, Finset.erase_eq_of_notMem hmem]
    exact ⟨rfl, hs⟩

theorem HoldsPins.run_isPinned (hs : HoldsPins m h s) (d : String) :
    (m.isPinned d).run Fs.exec h = (decide (Text.trim d ∈ s), h) := by
  rw [isPinned]
  generalize Text.trim d = d
  by_cases hd : IsDigest d
  · obtain ⟨n, rfl⟩ : ∃ n : Name, n.text = d := ⟨⟨d, hd.plain⟩, rfl⟩
    rw [if_pos (isDigestFormat_eq_true.2 hd), Path.join_name]
    exact congrArg (fun b => (b, h)) (hs.isFile_eq n)
  · have hmem : d ∉ s := fun hmem => hd (hs.digest d hmem)
    rw [if_neg fun hformat => hd (isDigestFormat_eq_true.1 hformat), decide_eq_false hmem]
    rfl

/-- Text that is no digest is refused. -/
theorem run_pin_refused (hd : ¬ IsDigest (Text.trim d)) (m : EvictionManager) (h : Fs) :
    ∃ msg, (m.pin d).run Fs.exec h = (.error (.invalidFormat msg), h) ∧
      (m.unpin d).run Fs.exec h = (.error (.invalidFormat msg), h) := by
  obtain ⟨msg, he⟩ := validateDigestFormat_of_not_isDigest hd
  rw [pin, unpin]
  generalize Text.trim d = d at *
  rw [he]
  exact ⟨msg, rfl, rfl⟩

/-- The list is that of the set. -/
theorem HoldsPins.run_listPinned (hs : HoldsPins m h s) :
    (m.listPinned).run Fs.exec h = (.ok s.sort, h) := by
  have hdir := hs.base _ List.prefix_rfl
  have hisDir : h.isDir m.pinnedDir = true := by
    rw [Fs.isDir, Fs.final_eq_self fun t ht => by rw [hdir] at ht; cases ht]
    simpa using hdir
  obtain ⟨entries, hentries⟩ := Fs.exists_readDir hdir
  rw [listPinned, Fs.run_isDir, hisDir, if_neg (by simp), Fs.run_readDir, hentries]
  refine congrArg (fun l => ((Except.ok l : Except ModeldError (List String)), h)) ?_
  have hmem : ∀ d, d ∈ (entries.filter (·.metadata.isFile)).map (·.name.text) ↔ d ∈ s.sort := by
    intro d
    rw [Finset.mem_sort]
    constructor
    · intro hd
      obtain ⟨e, he, rfl⟩ := List.mem_map.1 hd
      obtain ⟨he, hfile⟩ := List.mem_filter.1 he
      obtain ⟨x, hx, -⟩ := (Fs.mem_readDir hentries).1 he
      by_contra hno
      rw [hs.absent _ hno] at hx
      cases hx
    · intro hd
      obtain ⟨i, hi⟩ := hs.present ⟨d, (hs.digest d hd).plain⟩ hd
      refine List.mem_map.2 ⟨⟨⟨d, (hs.digest d hd).plain⟩, h.stat (.file i)⟩, ?_, rfl⟩
      refine List.mem_filter.2 ⟨(Fs.mem_readDir hentries).2 ⟨_, hi, rfl⟩, Fs.stat_isFile.2 ⟨i, rfl⟩⟩
  have hnodup : ((entries.filter (·.metadata.isFile)).map (·.name.text)).Nodup := by
    rw [List.Nodup, List.pairwise_map]
    exact ((Fs.pairwise_readDir hentries).filter _).imp fun hne heq => hne (Name.ext heq)
  have hperm := (List.perm_ext_iff_of_nodup hnodup (Finset.sort_nodup s _)).2 hmem
  exact List.Perm.eq_of_pairwise (fun a b _ _ hab hba => le_antisymm hab hba)
    (List.pairwise_insertionSort _ _) (Finset.pairwise_sort s _)
    ((List.perm_insertionSort _ _).trans hperm)

/-- One call. -/
theorem HoldsPins.step (hs : HoldsPins m h s) (c : PinRequest) :
    ((m.performPin c).run Fs.exec h).1 = (s.step c).1 ∧
      HoldsPins m ((m.performPin c).run Fs.exec h).2 (s.step c).2 := by
  cases c with
  | pin d =>
    rw [performPin, PinSet.step, run_bind]
    by_cases hd : IsDigest (Text.trim d)
    · obtain ⟨hok, hs'⟩ := hs.run_pin hd
      rw [if_pos hd, pure_eq, run_done, hok]
      dsimp only
      exact ⟨rfl, hs'⟩
    · obtain ⟨msg, hrun, -⟩ := run_pin_refused hd m h
      rw [if_neg hd, pure_eq, run_done, hrun]
      exact ⟨rfl, hs⟩
  | unpin d =>
    rw [performPin, PinSet.step, run_bind]
    by_cases hd : IsDigest (Text.trim d)
    · obtain ⟨hok, hs'⟩ := hs.run_unpin hd
      rw [if_pos hd, pure_eq, run_done, hok]
      dsimp only
      exact ⟨rfl, hs'⟩
    · obtain ⟨msg, -, hrun⟩ := run_pin_refused hd m h
      rw [if_neg hd, pure_eq, run_done, hrun]
      exact ⟨rfl, hs⟩
  | isPinned d =>
    rw [performPin, PinSet.step, run_bind, hs.run_isPinned]
    exact ⟨rfl, hs⟩
  | list =>
    rw [performPin, PinSet.step, run_bind, hs.run_listPinned]
    exact ⟨rfl, hs⟩

/-- A run of calls. -/
theorem HoldsPins.steps (hs : HoldsPins m h s) (calls : List PinRequest) :
    (m.performPins h calls).1 = (s.stepAll calls).1 ∧
      HoldsPins m (m.performPins h calls).2 (s.stepAll calls).2 := by
  induction calls generalizing h s with
  | nil => exact ⟨rfl, hs⟩
  | cons c calls ih =>
    obtain ⟨hreply, hs₁⟩ := hs.step c
    obtain ⟨hreplies, hs₂⟩ := ih hs₁
    rw [performPins, PinSet.stepAll, hreply, hreplies]
    exact ⟨rfl, hs₂⟩

/-- A directory that was opened with nothing in it stands for the empty set. -/
theorem holdsPins_new {root : Path} {h₀ : Fs} (hnew : ((new root).run Fs.exec h₀).1 = .ok m)
    (hempty : ∀ q, root.join "pinned" <+: q → q ≠ root.join "pinned" → h₀.lookup q = none) :
    HoldsPins m ((new root).run Fs.exec h₀).2 ∅ := by
  unfold new at hnew ⊢
  generalize root.join "pinned" = dir at *
  dsimp only at hnew ⊢
  rw [Fs.run_createDirAll] at hnew ⊢
  cases hok : (h₀.createDirAll dir).1 with
  | error e =>
    rw [hok] at hnew
    cases hnew
  | ok u =>
    rw [hok] at hnew
    cases hnew
    dsimp only
    rw [pure_eq, run_done]
    refine ⟨fun q hq => Fs.createDirAll_dirs hok hq, by simp, by simp, fun n _ => ?_⟩
    rw [Fs.lookup_createDirAll_of_not_prefix]
    · exact hempty _ (List.prefix_append _ _) (by simp)
    · intro hpre
      simpa using hpre.length_le

end EvictionManager

/-- From an empty directory on, every run of calls on the pins returns what the same calls on a finite
set return, whatever text the calls are given. -/
theorem pins_refine_set (root : Path) (h₀ : Fs) (m : EvictionManager)
    (hnew : ((EvictionManager.new root).run Fs.exec h₀).1 = .ok m)
    (hempty : ∀ q, root.join "pinned" <+: q → q ≠ root.join "pinned" → h₀.lookup q = none)
    (calls : List PinRequest) :
    (m.performPins ((EvictionManager.new root).run Fs.exec h₀).2 calls).1 =
      (PinSet.stepAll ∅ calls).1 :=
  ((EvictionManager.holdsPins_new hnew hempty).steps calls).1

/-- Some calls on the pins. -/
def samplePinCalls : List PinRequest :=
  [.pin digestTwo, .pin (" " ++ digestOne), .pin "..", .isPinned digestTwo, .unpin digestTwo,
    .unpin digestTwo, .isPinned digestOne, .isPinned digestTwo]

theorem samplePinCalls_replies :
    ((EvictionManager.mk (sampleRoot.join "pinned")).performPins
      ((EvictionManager.new sampleRoot).run Fs.exec (blankFs true id)).2 samplePinCalls).1 =
      [.done, .done, .refused, .pinned true, .unpinned true, .unpinned false, .pinned true,
        .pinned false] := by
  refine (pins_refine_set sampleRoot (blankFs true id) _ rfl (fun q hq _ => ?_)
    samplePinCalls).trans (by decide +kernel)
  have hq' : q ≠ [] := by
    rintro rfl
    exact absurd (List.prefix_nil.1 hq) (by decide +kernel)
  simp [Fs.lookup, blankFs, hq']

end Modeld
