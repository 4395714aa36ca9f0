import Modeld.Core.ConcurrentStores
import Modeld.Core.Integrity
import Modeld.Core.Shelf

/-!
# What tasks hold while they share a storage root

A task holds the number of a staging file, a staging file, the file of a tag or an open blob. Each
call of another task spares it, so that a task can go on from where it stands.
-/

namespace Modeld

open Host Program

/-- A storage root where every name of a digest holds content with that digest, every file of the
store has such a name, and what a tag says has no separator in it. -/
structure Intact (sha : Sha256) (root : Path) (h : Fs) : Prop where
  sound : Sound sha root h
  shelved : Shelved root h
  tags : ∀ p i, root ++ [Dir.tags] <+: p → h.lookup p = some (.file i) → 0x2f ∉ h.data i

variable {sha : Sha256} {root : Path} {h h' : Fs} {d : String} {p q : Path} {i j : Ino} {o : Call}
  {r : Reply o} {x : Bytes}

private theorem slash_mem_utf8EncodeChar {c : Char} :
    0x2f ∈ String.utf8EncodeChar c ↔ c = '/' := by
  constructor
  · intro h
    have hval : c.val.toNat = c.toNat := rfl
    suffices hnat : c.toNat = 47 from Char.ext (UInt32.toNat_inj.1 (hval.trans hnat))
    unfold String.utf8EncodeChar at h
    simp only at h
    split_ifs at h <;>
      simp only [List.mem_cons, List.not_mem_nil, or_false, ← UInt8.toNat_inj] at h <;>
      simp at h <;> omega
  · rintro rfl
    decide

/-- A separator in a text is one among its bytes. -/
theorem slash_mem_toBytes {s : String} : 0x2f ∈ Text.toBytes s ↔ '/' ∈ s.toList := by
  rw [Text.toBytes_eq_flatMap, List.mem_flatMap]
  constructor
  · rintro ⟨c, hc, hslash⟩
    exact slash_mem_utf8EncodeChar.1 hslash ▸ hc
  · exact fun h => ⟨'/', h, slash_mem_utf8EncodeChar.2 rfl⟩

/-! ### What one call does to a file -/

/-- The call may give the path up. -/
def Moves (p : Path) : Call → Prop
  | .removeFile q => q = p
  | .rename a b => a = p ∨ b = p
  | _ => False

/-- A file stays where it is, unless its path is given up. -/
theorem lookup_of_not_moves (ha : Fs.Answers o h r h') (hp : h.lookup p = some (.file i))
    (hmove : ¬ Moves p o) : h'.lookup p = some (.file i) := by
  cases ha.effect with
  | keep o hl => rw [hl, hp]
  | newFile o q hq hnone hl hnext =>
    rw [hl, if_neg, hp]
    rintro rfl
    rw [hp] at hnone
    cases hnone
  | newDirs q hl =>
    rcases hl p with hsame | ⟨hnone, -, -⟩
    · rw [hsame, hp]
    · rw [hp] at hnone
      cases hnone
  | link a b e he hdir hnone hl =>
    rw [hl, if_neg, hp]
    rintro rfl
    rw [hp] at hnone
    cases hnone
  | symlink t q hnone hl =>
    rw [hl, if_neg, hp]
    rintro rfl
    rw [hp] at hnone
    cases hnone
  | remove q e he hdir hl => rw [hl, if_neg fun heq => hmove heq.symm, hp]
  | rename a b e he hdir hnot hl =>
    rw [hl, if_neg fun heq => hmove (.inr heq.symm), if_neg fun heq => hmove (.inl heq.symm), hp]

/-- Where a file comes from. -/
theorem lookup_file_cases (ha : Fs.Answers o h r h') (hp : h'.lookup p = some (.file i)) :
    h.lookup p = some (.file i) ∨
      (i = h.nextIno ∧ ∃ q, p = h.final q ∧
        (o = .create q ∨ (∃ y, o = .write q y) ∨ ∃ a, o = .copy a q)) ∨
      ∃ a, h.lookup a = some (.file i) ∧ (o = .rename a p ∨ o = .hardLink a p) := by
  cases ha.effect with
  | keep o hl => exact .inl (hl p ▸ hp)
  | newFile o q hq hnone hl hnext =>
    rw [hl] at hp
    split at hp
    · rename_i heq
      cases hp
      exact .inr (.inl ⟨rfl, q, heq, hq⟩)
    · exact .inl hp
  | newDirs q hl =>
    rcases hl p with hsame | ⟨-, hdir, -⟩
    · exact .inl (hsame ▸ hp)
    · rw [hdir] at hp
      cases hp
  | link a b e he hdir hnone hl =>
    rw [hl] at hp
    split at hp
    · rename_i heq
      cases hp
      exact .inr (.inr ⟨a, he, .inr (heq ▸ rfl)⟩)
    · exact .inl hp
  | symlink t q hnone hl =>
    rw [hl] at hp
    split at hp
    · cases hp
    · exact .inl hp
  | remove q e he hdir hl =>
    rw [hl] at hp
    split at hp
    · cases hp
    · exact .inl hp
  | rename a b e he hdir hnot hl =>
    rw [hl] at hp
    split at hp
    · rename_i heq
      cases hp
      exact .inr (.inr ⟨a, he, .inl (heq ▸ rfl)⟩)
    · split at hp
      · cases hp
      · exact .inl hp

/-- The call may make a path lead to a file. -/
def MakesFile : Call → Prop
  | .create _ | .write .. | .copy .. | .rename .. | .hardLink .. => True
  | _ => False

theorem lookup_file_of_not_makes (ha : Fs.Answers o h r h') (ho : ¬ MakesFile o)
    (hp : h'.lookup p = some (.file i)) : h.lookup p = some (.file i) := by
  rcases lookup_file_cases ha hp with hold | ⟨-, q, -, rfl | ⟨y, rfl⟩ | ⟨a, rfl⟩⟩ |
    ⟨a, -, rfl | rfl⟩
  · exact hold
  all_goals exact absurd trivial ho

/-- No counter goes back. -/
theorem counters_le (ha : Fs.Answers o h r h') (c : Nat) : h.counters c ≤ h'.counters c := by
  have hcreate : ∀ p, (h.create p).2.counters = h.counters := by
    intro p
    rcases Fs.create_cases h p with ⟨j, -, hcr⟩ | ⟨-, -, hcr⟩ | ⟨-, e, hcr⟩ <;> rw [hcr] <;> rfl
  have hwrite : ∀ p y, (h.write p y).2.counters = h.counters := by
    intro p y
    rcases Fs.write_cases h p y with ⟨j, h₁, hc, hw⟩ | ⟨e, -, hw⟩
    · rw [hw, ← hcreate p, hc]
      rfl
    · rw [hw]
  have hdirs : ∀ cs base, ∀ h : Fs, (h.makeDirs base cs).2.counters = h.counters := by
    intro cs
    induction cs with
    | nil => exact fun _ _ => rfl
    | cons c cs ih =>
      intro base h
      unfold Fs.makeDirs
      split
      · exact ih _ _
      · exact ih _ _
      · rfl
  rcases ha with hexec | hfault
  · have hh : h' = (Fs.exec o h).2 := (congrArg Prod.snd hexec).symm
    rw [hh]
    cases o with
    | fetchAdd cell =>
      change _ ≤ Function.update h.counters cell (h.counters cell + 1) c
      rcases eq_or_ne c cell with rfl | hc
      · rw [Function.update_self]
        exact Nat.le_succ _
      · rw [Function.update_of_ne hc]
    | create p => exact (congrFun (hcreate p) c).ge
    | write p y => exact (congrFun (hwrite p y) c).ge
    | rename a b =>
      change _ ≤ (h.rename a b).2.counters c
      rcases Fs.rename_cases h a b with ⟨e, -, -, -, -, hr⟩ | ⟨i, -, -, hr⟩ | ⟨e, hr⟩ <;>
        exact (congrArg (fun x => x.2.counters c) hr).ge
    | removeFile p =>
      change _ ≤ (h.removeFile p).2.counters c
      rcases Fs.removeFile_cases h p with ⟨e, -, -, hr⟩ | ⟨-, e, hr⟩ <;>
        exact (congrArg (fun x => x.2.counters c) hr).ge
    | hardLink a b =>
      change _ ≤ (h.hardLink a b).2.counters c
      rcases Fs.hardLink_cases h a b with ⟨e, -, -, -, -, -, hr⟩ | ⟨e, hr⟩ <;>
        exact (congrArg (fun x => x.2.counters c) hr).ge
    | copy a b =>
      change _ ≤ (h.copy a b).2.counters c
      rcases Fs.copy_cases h a b with ⟨i, j, h₁, -, hc, hr⟩ | ⟨e, hr⟩
      · rw [hr, ← hcreate b, hc]
        exact le_rfl
      · rw [hr]
    | symlink t p =>
      change _ ≤ (h.symlink t p).2.counters c
      rcases Fs.symlink_cases h t p with ⟨-, -, hr⟩ | ⟨e, hr⟩ <;>
        exact (congrArg (fun x => x.2.counters c) hr).ge
    | createDirAll p => exact (congrFun (hdirs p [] h) c).ge
    | _ => exact le_rfl
  · cases hfault with
    | writePart _ p y n e => exact (congrFun (hwrite p _) c).ge
    | createDirAll _ p n e => exact (congrFun (hdirs _ [] h) c).ge
    | copyPart _ h₁ a b i j n e hsrc hdst =>
      rw [← hcreate b, hdst]
      exact le_rfl
    | _ => exact le_rfl

/-! ### Grips -/

/-- An open blob: whatever happens to its names, it is never written, and has no other names. -/
structure Reading (sha : Sha256) (root : Path) (d : String) (i : Ino) (h : Fs) : Prop where
  digest : IsDigest d
  fresh : i < h.nextIno
  data : sha.hash (h.data i) = d
  names : ∀ p, root <+: p → h.lookup p = some (.file i) → (CasStore.mk root).Names d p

/-- What a task holds. -/
inductive Grip
  | nothing
  | number (pid : Pid) (n : Nat)
  | staging (pid : Pid) (n : Nat) (file : Ino) (written : Bytes)
  | tag (path : Path) (file : Ino)
  | blob (digest : String) (file : Ino)

/-- The staging path of a number. -/
abbrev stageOf (root : Path) (pid : Pid) (n : Nat) : Path :=
  (CasStore.mk root).stagePath (CasStore.nonceOf pid n)

namespace Grip

/-- The number that nobody else may use. -/
def claim : Grip → Option (Pid × Nat)
  | number pid n => some (pid, n)
  | staging pid n _ _ => some (pid, n)
  | _ => none

/-- What the task may rely on. -/
def Holds (sha : Sha256) (root : Path) (h : Fs) : Grip → Prop
  | nothing | number .. => True
  | staging pid n i x => Staged (stageOf root pid n) i x h
  | tag p i => root ++ [Dir.tags] <+: p ∧ h.lookup p = some (.file i)
  | blob d i => Reading sha root d i h

/-- A call takes nothing of it away. -/
def Spared (root : Path) (h : Fs) (o : Call) : Grip → Prop
  | nothing | number .. => True
  | staging pid n i _ => ¬ Moves (stageOf root pid n) o ∧ ¬ Fs.Writes h i o
  | tag p _ => ¬ Moves p o
  | blob _ i => ¬ Fs.Writes h i o ∧
      ∀ a b, o = .rename a b ∨ o = .hardLink a b → h.lookup a ≠ some (.file i)

end Grip

variable {g : Grip} {pid : Pid} {n : Nat}

theorem stagePlace_stageOf (root : Path) (pid : Pid) (n : Nat) :
    StagePlace root (stageOf root pid n) := ⟨_, CasStore.stagePath_eq ..⟩

theorem Grip.Holds.answers (hg : g.Holds sha root h) (hw : WellFormed root h)
    (ha : Fs.Answers o h r h') (hspared : g.Spared root h o) : g.Holds sha root h' := by
  obtain ⟨hnext, hdata⟩ := ha.frame
  cases g with
  | nothing => exact trivial
  | number pid n => exact trivial
  | staging pid n i x =>
    have hfresh := hw.fresh _ i (stagePlace_stageOf root pid n).under hg.lookup
    exact ⟨lookup_of_not_moves ha hg.lookup hspared.1, (hdata i hfresh hspared.2).trans hg.data⟩
  | tag p i => exact ⟨hg.1, lookup_of_not_moves ha hg.2 hspared⟩
  | blob d i =>
    have hsame := hdata i hg.fresh hspared.1
    refine ⟨hg.digest, hg.fresh.trans_le hnext, hsame ▸ hg.data, fun p hp hpi => ?_⟩
    rcases lookup_file_cases ha hpi with hold | ⟨heq, -⟩ | ⟨a, hai, hmove⟩
    · exact hg.names p hp hold
    · exact absurd hg.fresh (heq ▸ lt_irrefl _)
    · exact absurd hai (hspared.2 a p hmove)

/-! ### Calls beside the store -/

/-- Calls that touch no staging file, put nothing into the store and take no tag away. -/
def Quiet (root : Path) : Call → Prop
  | .create p => root ++ [Dir.tags] <+: p ∨ root ++ [Dir.pinned] <+: p
  | .removeFile p => ¬ StagePlace root p ∧ ¬ root ++ [Dir.tags] <+: p
  | .createDirAll p => Tidy root (.createDirAll p)
  | o => Reads o

theorem Reads.quiet (ho : Reads o) : Quiet root o := by
  cases o <;> first | exact ho.elim | exact trivial

/-- A path in another area is no name of a digest. -/
theorem unnamed_of_area {a : Name} (hp : root ++ [a] <+: p) (ha : a ≠ Dir.cas) : Unnamed root p :=
  fun _ hd hnames => ha (area_unique hp (hnames.in_cas hd))

/-- Where a quiet call creates a file. -/
theorem Quiet.create (ho : Quiet root (.create p)) :
    root <+: p ∧ ¬ LinkPlace root p ∧ Unnamed root p ∧ ¬ root ++ [Dir.cas] <+: p := by
  rcases ho with htags | hpinned
  · exact ⟨under_root htags, not_linkPlace_of_area htags (by decide) (by decide),
      unnamed_of_area htags (by decide), not_under htags (by decide)⟩
  · exact ⟨under_root hpinned, not_linkPlace_of_area hpinned (by decide) (by decide),
      unnamed_of_area hpinned (by decide), not_under hpinned (by decide)⟩

theorem Quiet.putsNoBlob (ho : Quiet root o) : PutsNoBlob root o := by
  cases o with
  | create p =>
    obtain ⟨hroot, hlink, hun, -⟩ := ho.create
    exact ⟨⟨hroot, hlink⟩, hun⟩
  | removeFile p => exact ⟨trivial, trivial⟩
  | createDirAll p => exact ⟨ho, trivial⟩
  | _ => first | exact ho.elim | exact ⟨trivial, trivial⟩

/-- The file that a quiet call may write. -/
theorem Quiet.writes (ho : Quiet root o) (hw : WellFormed root h) (hwrites : Fs.Writes h i o) :
    ∃ p, o = .create p ∧ h.lookup p = some (.file i) := by
  cases o with
  | create p =>
    obtain ⟨hroot, hlink, -, -⟩ := ho.create
    exact ⟨p, rfl, (hw.fileAt_eq_some hroot hlink).1 hwrites⟩
  | _ => first | exact ho.elim | exact hwrites.elim

theorem Quiet.spared (ho : Quiet root o) (hw : WellFormed root h) (hg : g.Holds sha root h) :
    g.Spared root h o := by
  cases g with
  | nothing => exact trivial
  | number pid n => exact trivial
  | staging pid n i x =>
    have hstage := stagePlace_stageOf root pid n
    constructor
    · cases o with
      | removeFile p =>
        rintro rfl
        exact ho.1 hstage
      | rename a b => exact ho.elim
      | _ => exact id
    · intro hwrites
      obtain ⟨p, rfl, hp⟩ := ho.writes hw hwrites
      obtain ⟨hroot, -, -, hcas⟩ := ho.create
      have heq := hw.eq_of_shared hstage.under hroot hg.lookup hp hstage.unnamed
      exact hcas (heq ▸ hstage.in_cas)
  | tag p i =>
    cases o with
    | removeFile q =>
      rintro rfl
      exact ho.2 hg.1
    | rename a b => exact ho.elim
    | _ => exact id
  | blob d i =>
    constructor
    · intro hwrites
      obtain ⟨p, rfl, hp⟩ := ho.writes hw hwrites
      obtain ⟨hroot, -, hun, -⟩ := ho.create
      exact hun d hg.digest (hg.names p hroot hp)
    · rintro a b (rfl | rfl)
      · exact ho.elim
      · exact ho.elim

/-- What a file may hold once a path was created. -/
private theorem no_slash_create {r : Except IoError Ino} (hi : Intact sha root h)
    (ha : Fs.Answers (.create q) h r h') (hp : root ++ [Dir.tags] <+: p)
    (hpi : h'.lookup p = some (.file i)) : 0x2f ∉ h'.data i := by
  rcases ha with hexec | hfault
  swap
  · cases hfault
    exact hi.tags p i hp hpi
  have hh : h' = (h.create q).2 := (congrArg Prod.snd hexec).symm
  rw [hh] at hpi ⊢
  rcases Fs.create_cases h q with ⟨j, -, hcr⟩ | ⟨hnone, -, hcr⟩ | ⟨-, e, hcr⟩
  · rw [hcr] at hpi ⊢
    rcases eq_or_ne i j with rfl | hne
    · rw [Fs.data_setData_self]
      exact List.not_mem_nil
    · rw [Fs.data_setData_of_ne hne]
      exact hi.tags p i hp hpi
  · rw [hcr] at hpi ⊢
    rcases eq_or_ne i h.nextIno with rfl | hne
    · rw [Fs.data_newFile_self]
      exact List.not_mem_nil
    · rw [Fs.data_newFile_of_ne hne]
      rcases eq_or_ne p (h.final q) with rfl | hpq
      · rw [Fs.lookup_newFile_self (Fs.ne_nil_of_lookup_none hnone)] at hpi
        exact absurd (Entry.file.inj (Option.some.inj hpi)).symm hne
      · rw [Fs.lookup_newFile_of_ne hpq] at hpi
        exact hi.tags p i hp hpi
  · rw [hcr] at hpi ⊢
    exact hi.tags p i hp hpi

/-- Creating a file outside the shelf. -/
theorem Intact.create {r : Except IoError Ino} (hi : Intact sha root h)
    (hputs : PutsNoBlob root (.create p)) (hp : ¬ OnShelf root p)
    (ha : Fs.Answers (.create p) h r h') : Intact sha root h' := by
  refine ⟨hi.sound.of_putsNoBlob hputs ha, fun q i hq hqi => ?_,
    fun q i hq hqi => no_slash_create hi ha hq hqi⟩
  rcases lookup_file_cases ha hqi with hold | ⟨-, q', rfl, hq'⟩ | ⟨a, -, hmove⟩
  · exact hi.shelved q i hq hold
  · obtain rfl : p = q' := by
      rcases hq' with heq | ⟨y, heq⟩ | ⟨a, heq⟩ <;> cases heq
      rfl
    rw [hi.sound.wellFormed.final_eq hputs.1.1 hputs.1.2] at hq
    exact absurd hq hp
  · rcases hmove with heq | heq <;> cases heq

/-- A call that makes and writes no file. -/
theorem Intact.of_not_makes (hi : Intact sha root h) (hputs : PutsNoBlob root o)
    (ha : Fs.Answers o h r h') (hmakes : ¬ MakesFile o) (hwrites : ∀ i, ¬ Fs.Writes h i o) :
    Intact sha root h' := by
  refine ⟨hi.sound.of_putsNoBlob hputs ha, fun q i hq hqi =>
    hi.shelved q i hq (lookup_file_of_not_makes ha hmakes hqi), fun q i hq hqi => ?_⟩
  have hold := lookup_file_of_not_makes ha hmakes hqi
  rw [ha.frame.2 i (hi.sound.wellFormed.fresh q i (under_root hq) hold) (hwrites i)]
  exact hi.tags q i hq hold

theorem Quiet.intact (ho : Quiet root o) (hi : Intact sha root h) (ha : Fs.Answers o h r h') :
    Intact sha root h' := by
  cases o with
  | create p => exact hi.create ho.putsNoBlob (fun hshelf => ho.create.2.2.2 hshelf.1) ha
  | _ =>
    first
    | exact ho.elim
    | exact hi.of_not_makes ho.putsNoBlob ha id fun _ => id

/-! ### Tags -/

/-- What is written over a text is made of both. -/
private theorem mem_patch_zero {old b : Bytes} {y : UInt8} (hy : y ∈ Fs.patch old 0 b) :
    y ∈ old ∨ y ∈ b := by
  rw [Fs.patch, List.take_zero, Nat.zero_sub, List.replicate_zero, List.nil_append, List.nil_append,
    List.mem_append] at hy
  exact hy.symm.imp_left List.mem_of_mem_drop

private theorem Intact.setTagData {b : Bytes} (hi : Intact sha root h)
    (hp : root ++ [Dir.tags] <+: p) (hpi : h.lookup p = some (.file i)) (hb : 0x2f ∉ b) :
    Intact sha root (h.writeAt i 0 b) := by
  refine ⟨hi.sound.setData (under_root hp) (unnamed_of_area hp (by decide)) hpi, hi.shelved,
    fun q j hq hqj => ?_⟩
  rcases eq_or_ne j i with rfl | hne
  · rw [Fs.writeAt, Fs.data_setData_self]
    intro hmem
    rcases mem_patch_zero hmem with hold | hnew
    · exact hi.tags q j hq hqj hold
    · exact hb hnew
  · rw [Fs.writeAt, Fs.data_setData_of_ne hne]
    exact hi.tags q j hq hqj

/-- The file of a tag is written, perhaps not all of it. -/
theorem Intact.writeTag {b : Bytes} {r : Except IoError Unit} (hi : Intact sha root h)
    (hp : root ++ [Dir.tags] <+: p) (hpi : h.lookup p = some (.file i)) (hb : 0x2f ∉ b)
    (ha : Fs.Answers (.writeAt i 0 b) h r h') : Intact sha root h' := by
  rcases ha with hexec | hfault
  · cases hexec
    exact hi.setTagData hp hpi hb
  · cases hfault
    exact hi.setTagData hp hpi fun hmem => hb (List.mem_of_mem_take hmem)

/-- Who writes to the file of a tag writes to no other file that is held. -/
theorem Grip.Holds.spared_writeTag {b : Bytes} {off : Nat} (hg : g.Holds sha root h)
    (hw : WellFormed root h) (hp : root ++ [Dir.tags] <+: p) (hpi : h.lookup p = some (.file i)) :
    g.Spared root h (.writeAt i off b) := by
  cases g with
  | nothing => exact trivial
  | number pid n => exact trivial
  | staging pid n k x =>
    have hstage := stagePlace_stageOf root pid n
    refine ⟨id, ?_⟩
    rintro rfl
    have heq := hw.eq_of_shared hstage.under (under_root hp) hg.lookup hpi hstage.unnamed
    exact absurd (area_unique hp (heq ▸ hstage.in_cas)) (by decide)
  | tag q k => exact id
  | blob d k =>
    refine ⟨?_, ?_⟩
    · rintro rfl
      exact unnamed_of_area hp (by decide) d hg.digest (hg.names p (under_root hp) hpi)
    · rintro a b (heq | heq) <;> cases heq

/-! ### Staging files -/

/-- Staging paths tell processes and numbers apart. -/
theorem stageOf_inj {pid' : Pid} {n' : Nat} (h : stageOf root pid n = stageOf root pid' n') :
    pid = pid' ∧ n = n' := by
  rw [stageOf, stageOf, CasStore.stagePath_eq, CasStore.stagePath_eq] at h
  simp only [List.append_cancel_left_eq, List.cons.injEq, Name.mk.injEq, Text.toList_append_inj,
    and_true, true_and] at h
  exact Stores.hex_append_inj h

/-- What a task does with the staging file of its number. -/
def Stages (root : Path) (h : Fs) (pid : Pid) (n : Nat) : Call → Prop
  | .create p | .removeFile p => p = stageOf root pid n
  | .writeAt i _ _ => h.lookup (stageOf root pid n) = some (.file i)
  | .rename a b => a = stageOf root pid n ∧ ∃ d, IsDigest d ∧ (CasStore.mk root).Names d b
  | _ => False

/-- The file of a staging path that the call writes. -/
private theorem Stages.writes (ho : Stages root h pid n o) (hw : WellFormed root h)
    (hwrites : Fs.Writes h i o) : h.lookup (stageOf root pid n) = some (.file i) := by
  have hstage := stagePlace_stageOf root pid n
  cases o with
  | create p =>
    obtain rfl : p = stageOf root pid n := ho
    exact (hw.fileAt_eq_some hstage.under hstage.not_linkPlace).1 hwrites
  | writeAt k off b =>
    obtain rfl : k = i := hwrites
    exact ho
  | _ => first | exact ho.elim | exact hwrites.elim

/-- Nobody else's grip is touched. -/
theorem Stages.spared (ho : Stages root h pid n o) (hw : WellFormed root h)
    (hg : g.Holds sha root h) (hclaim : g.claim ≠ some (pid, n)) : g.Spared root h o := by
  have hstage := stagePlace_stageOf root pid n
  cases g with
  | nothing => exact trivial
  | number pid' n' => exact trivial
  | staging pid' n' i x =>
    have hplace := stagePlace_stageOf root pid' n'
    have hne : stageOf root pid n ≠ stageOf root pid' n' := by
      intro heq
      obtain ⟨rfl, rfl⟩ := stageOf_inj heq
      exact hclaim rfl
    refine ⟨?_, fun hwrites => hne ?_⟩
    · cases o with
      | removeFile p => exact fun heq => hne (ho ▸ heq)
      | rename a b =>
        obtain ⟨rfl, d, hd, hb⟩ := ho
        rintro (heq | heq)
        · exact hne heq
        · exact hplace.unnamed d hd (heq ▸ hb)
      | _ => exact id
    · exact hw.eq_of_shared hstage.under hplace.under (ho.writes hw hwrites) hg.lookup hstage.unnamed
  | tag p i =>
    have hcas : ∀ q, root ++ [Dir.cas] <+: q → q ≠ p := by
      rintro q hq rfl
      exact absurd (area_unique hq hg.1) (by decide)
    cases o with
    | removeFile q => exact hcas q (ho ▸ hstage.in_cas)
    | rename a b =>
      obtain ⟨rfl, d, hd, hb⟩ := ho
      rintro (heq | heq)
      · exact hcas _ hstage.in_cas heq
      · exact hcas b (hb.in_cas hd) heq
    | _ => exact id
  | blob d i =>
    refine ⟨fun hwrites => ?_, ?_⟩
    · exact hstage.unnamed d hg.digest (hg.names _ hstage.under (ho.writes hw hwrites))
    · rintro a b (rfl | rfl)
      · obtain ⟨rfl, -⟩ := ho
        exact fun hi => hstage.unnamed d hg.digest (hg.names _ hstage.under hi)
      · exact ho.elim

/-- A staging file is no file of a tag. -/
private theorem Staged.ne_tag (hst : Staged (stageOf root pid n) i x h) (hw : WellFormed root h)
    (hp : root ++ [Dir.tags] <+: p) (hpj : h.lookup p = some (.file j)) : j ≠ i := by
  rintro rfl
  have hstage := stagePlace_stageOf root pid n
  have heq := hw.eq_of_shared hstage.under (under_root hp) hst.lookup hpj hstage.unnamed
  exact absurd (area_unique hp (heq ▸ hstage.in_cas)) (by decide)

theorem StagePlace.not_onShelf (hp : StagePlace root p) : ¬ OnShelf root p := by
  obtain ⟨n, rfl⟩ := hp
  exact fun hshelf => hshelf.2 (by simp)

/-- A chunk is appended to a staging file. -/
theorem Intact.appendStage {chunk : Bytes} {r : Except IoError Unit} (hi : Intact sha root h)
    (hst : Staged (stageOf root pid n) i x h)
    (ha : Fs.Answers (.writeAt i x.length chunk) h r h') :
    Intact sha root h' ∧ (r = .ok () → Staged (stageOf root pid n) i (x ++ chunk) h') := by
  have hw := hi.sound.wellFormed
  obtain ⟨hsound, hok⟩ := hi.sound.writeAt (stagePlace_stageOf root pid n) hst ha
  refine ⟨⟨hsound, fun q j hq hqj => hi.shelved q j hq (lookup_file_of_not_makes ha id hqj),
    fun q j hq hqj => ?_⟩, hok⟩
  have hold := lookup_file_of_not_makes ha id hqj
  rw [ha.frame.2 j (hw.fresh q j (under_root hq) hold) (hst.ne_tag hw hq hold).symm]
  exact hi.tags q j hq hold

/-- A staging file gets a name of its digest. -/
theorem Intact.store {b : Path} {r : Except IoError Unit} (hi : Intact sha root h)
    (hst : Staged (stageOf root pid n) i x h) (hd : IsDigest d) (hx : sha.hash x = d)
    (hb : (CasStore.mk root).Names d b) (ha : Fs.Answers (.rename (stageOf root pid n) b) h r h') :
    Intact sha root h' := by
  have hstage := stagePlace_stageOf root pid n
  have hold : ∀ q j, h'.lookup q = some (.file j) → q ≠ b → h.lookup q = some (.file j) := by
    intro q j hqj hne
    rcases lookup_file_cases ha hqj with hold | ⟨-, q', -, hq'⟩ | ⟨a, -, hmove⟩
    · exact hold
    · rcases hq' with heq | ⟨y, heq⟩ | ⟨a, heq⟩ <;> cases heq
    · rcases hmove with heq | heq <;> cases heq
      exact absurd rfl hne
  refine ⟨hi.sound.rename hstage hst hd hx hb ha, fun q j hq hqj => ?_, fun q j hq hqj => ?_⟩
  · rcases eq_or_ne q b with rfl | hne
    · exact ⟨d, hd, hb⟩
    · exact hi.shelved q j hq (hold q j hqj hne)
  · have hne : q ≠ b := by
      rintro rfl
      exact absurd (area_unique hq (hb.in_cas hd)) (by decide)
    have hqj' := hold q j hqj hne
    rw [ha.frame.2 j (hi.sound.wellFormed.fresh q j (under_root hq) hqj') id]
    exact hi.tags q j hq hqj'

/-! ### Opening a blob -/

/-- Whatever text is taken for a digest, only a digest has a file. -/
theorem Intact.isDigest_of_file (hi : Intact sha root h) (hslash : '/' ∉ d.toList)
    (hp : (CasStore.mk root).Names d p) (hfile : h.lookup (h.final p) = some (.file i)) :
    IsDigest d := by
  have hw := hi.sound.wellFormed
  -- A path on the shelf that leads to a file is a name of a digest.
  have hnames : root ++ [Dir.cas] <+: p → ¬ root ++ [Dir.cas, Dir.incoming] <+: p →
      ∃ e, IsDigest e ∧ (CasStore.mk root).Names e p := by
    intro hcas hincoming
    rw [hw.final_eq (under_root hcas) (not_linkPlace_of_area hcas (by decide) (by decide))] at hfile
    exact hi.shelved p i ⟨hcas, hincoming⟩ hfile
  have hincoming : ∀ a b : String, ¬ "incoming" = "sha256-" ++ a ++ b := by
    intro a b heq
    have hhead := congrArg List.head? (String.toList_inj.2 heq)
    simp at hhead
  have hgguf : ∀ {a b : String}, ¬ "sha256-" ++ a ++ ".gguf" = "sha256-" ++ b ++ ".safetensors" := by
    intro a b heq
    have hrev := congrArg List.reverse (String.toList_inj.2 heq)
    simp at hrev
  rcases hp with rfl | rfl | rfl
  · by_cases hplain : PlainName d
    · rw [CasStore.blobsDir_join hplain] at hnames
      obtain ⟨e, he, hepath⟩ := hnames (by simp) (by simp)
      rcases (CasStore.names_iff he).1 hepath with heq | heq | heq <;> simp at heq
      exact heq ▸ he
    · have hdir : h.lookup ((CasStore.mk root).blobsDir.join d) = some .dir := by
        apply hw.base
        have hnot := Path.join_of_not_plain (CasStore.mk root).blobsDir hslash hplain
        rcases hnot with hjoin | hjoin <;> rw [hjoin, CasStore.blobsDir_eq] <;>
          simp [baseDirs, List.dropLast_append_of_ne_nil]
      rw [Fs.final_eq_self (by simp [hdir]), hdir] at hfile
      cases hfile
  · rw [CasStore.flatGguf_eq hslash] at hnames
    obtain ⟨e, he, hepath⟩ := hnames (by simp) (by simpa using hincoming d ".gguf")
    rcases (CasStore.names_iff he).1 hepath with heq | heq | heq <;> simp [hgguf] at heq
    exact heq ▸ he
  · rw [CasStore.flatSt_eq hslash] at hnames
    obtain ⟨e, he, hepath⟩ := hnames (by simp) (by simpa using hincoming d ".safetensors")
    rcases (CasStore.names_iff he).1 hepath with heq | heq | heq <;> simp at heq
    · exact absurd heq.symm hgguf
    · exact heq ▸ he

/-- A blob that is opened can be read at leisure. -/
theorem Intact.reading (hi : Intact sha root h) (hd : IsDigest d) (hp : (CasStore.mk root).Names d p)
    (hfile : h.lookup (h.final p) = some (.file i)) : Reading sha root d i h := by
  have hw := hi.sound.wellFormed
  rw [hw.final_eq (hp.under hd) (hp.not_linkPlace hd)] at hfile
  exact ⟨hd, hw.fresh p i (hp.under hd) hfile, hi.sound.integral d p i hd hp hfile,
    fun q hq hqi => hw.names_of_shared hd hp hq hfile hqi⟩

end Modeld
