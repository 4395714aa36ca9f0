import Modeld.Core.Opening

/-!
# Cloning a file

`reflink_or_copy` opens the source, truncates the destination, asks the kernel to let both share
their extents and, where it does not, copies byte by byte. The two names may lead to one inode: then
truncating the destination empties the source. And whatever fails after the truncation leaves a
destination that is not what it was.
-/

namespace Modeld

open Host Program

/-! ### The code -/

/-- The calls of `reflink_or_copy`. An open file has its inode, an open directory has none. -/
inductive CloneCall
  | openEntry (p : Path)
  | create (p : Path)
  | ficlone (dest : Ino) (src : Option Ino)
  | copy (a b : Path)

/-- What each call replies; `ioctl` returns a number. -/
@[reducible] def CloneReply : CloneCall → Type
  | .openEntry _ => Except IoError (Option Ino)
  | .create _ => Except IoError Ino
  | .ficlone .. => Int
  | .copy .. => Except IoError Unit

/-- `reflink_or_copy`. -/
def reflinkOrCopy (src dest : Path) : Program CloneReply (Except ModeldError Bool) := do
  match ← perform (CloneCall.openEntry src) with
  | .error e => return .error (.io e)
  | .ok srcFile =>
    match ← perform (CloneCall.create dest) with
    | .error e => return .error (.io e)
    | .ok destFile =>
      let res ← perform (CloneCall.ficlone destFile srcFile)
      if res = 0 then return .ok true
      else
        match ← perform (CloneCall.copy src dest) with
        | .error e => return .error (.io e)
        | .ok () => return .ok false

/-! ### The host -/

/-- How a copy fails: before it touches its destination, or after a number of bytes. -/
inductive CopyFault
  | atOnce (e : IoError)
  | after (n : Nat) (e : IoError)

/-- What becomes of the calls for reasons other than the files they are about. -/
structure CloneHost where
  openFault : Option IoError
  createFault : Option IoError
  /-- The file system lets files share extents. -/
  shares : Bool
  copyFault : Option CopyFault

/-- `File::open`, which opens directories too. -/
def openEntry (h : Fs) (p : Path) : Except IoError (Option Ino) :=
  match h.lookup (h.final p) with
  | some (.file i) => .ok (some i)
  | some .dir => .ok none
  | some (.symlink _) => .error .tooManyLinks
  | none => .error .notFound

namespace CloneHost

variable (host : CloneHost)

/-- `FICLONE`: the destination gets what the source holds now, or nothing happens. -/
def ficlone (h : Fs) (dest : Ino) : Option Ino → Int × Fs
  | some src => if host.shares then (0, h.setData dest (h.data src)) else (-1, h)
  | none => (-1, h)

/-- `fs::copy`, which refuses a directory before it creates its destination. -/
def copy (h : Fs) (a b : Path) : Except IoError Unit × Fs :=
  match h.fileAt a with
  | none => (.error .invalidInput, h)
  | some i =>
    match host.copyFault with
    | none => h.copy a b
    | some (.atOnce e) => (.error e, h)
    | some (.after n e) =>
      match h.create b with
      | (.ok j, h') => (.error e, h'.setData j ((h'.data i).take n))
      | (.error e', h') => (.error e', h')

/-- The answers of the host. -/
def exec : (o : CloneCall) → Fs → CloneReply o × Fs
  | .openEntry p, h =>
    match host.openFault with
    | some e => (.error e, h)
    | none => (openEntry h p, h)
  | .create p, h =>
    match host.createFault with
    | some e => (.error e, h)
    | none => h.create p
  | .ficlone dest src, h => host.ficlone h dest src
  | .copy a b, h => host.copy h a b

end CloneHost

/-- A file system all of whose files have an inode that was given out. -/
structure Volume where
  fs : Fs
  fresh : ∀ p i, fs.lookup p = some (.file i) → i < fs.nextIno

/-- A volume with nothing on it. -/
def Volume.blank (hardLinks : Bool) (clock : Nat → Nat) : Volume where
  fs := blankFs hardLinks clock
  fresh p i hp := by
    unfold Fs.lookup at hp
    split at hp
    · cases hp
    · cases hp

/-- Calls keep to the inodes that were given out. -/
def Volume.after (v : Volume) (o : Call) : Volume where
  fs := (Fs.exec o v.fs).2
  fresh q i hq := by
    have hnext : v.fs.nextIno ≤ (Fs.exec o v.fs).2.nextIno := Fs.nextIno_exec o v.fs
    have hold : ∀ p, v.fs.lookup p = some (.file i) → i < (Fs.exec o v.fs).2.nextIno :=
      fun p hp => (v.fresh p i hp).trans_le hnext
    have heffect := Fs.effect_exec o v.fs
    cases heffect with
    | keep _ hl => exact hold q ((hl q).symm.trans hq)
    | newFile _ p _ _ hl hnext' =>
      rw [hl] at hq
      split at hq
      · cases hq
        rw [hnext']
        exact Nat.lt_succ_self _
      · exact hold q hq
    | newDirs p hl =>
      rcases hl q with hsame | ⟨-, hdir, -⟩
      · exact hold q (hsame.symm.trans hq)
      · rw [hdir] at hq
        cases hq
    | link a b e ha _ _ hl =>
      rw [hl] at hq
      split at hq
      · cases hq
        exact hold a ha
      · exact hold q hq
    | symlink t p _ hl =>
      rw [hl] at hq
      split at hq
      · cases hq
      · exact hold q hq
    | remove p e _ _ hl =>
      rw [hl] at hq
      split at hq
      · cases hq
      · exact hold q hq
    | rename a b e ha _ _ hl =>
      rw [hl] at hq
      split at hq
      · cases hq
        exact hold a ha
      · split at hq
        · cases hq
        · exact hold q hq

/-! ### What is expected of the call, and when it is met -/

/-- What a caller relies on: after `Ok` both names lead to what the source held, after an error the
destination is what it was. -/
def Cloned (h h' : Fs) (src dest : Path) : Except ModeldError Bool → Prop
  | .ok _ => ∃ x, h.contents src = some x ∧ h'.contents src = some x ∧ h'.contents dest = some x
  | .error _ => h'.lookup dest = h.lookup dest ∧ h'.contents dest = h.contents dest

/-- The path leads to a file, or to a free name in a directory. -/
def Creatable (h : Fs) (p : Path) : Prop :=
  h.isFile p ∨ (h.lookup (h.final p) = none ∧ h.hasParent (h.final p))

namespace CloneHost

variable (host : CloneHost) (h : Fs) (src dest : Path)

/-- Both files are opened. -/
def Opens : Prop :=
  host.openFault = none ∧ h.pathExists src ∧ host.createFault = none ∧ Creatable h dest

/-- The clone or the copy goes through. -/
def Transfers : Prop := h.isFile src ∧ (host.shares ∨ host.copyFault = none)

/-- The two paths lead to one file. -/
def Aliased : Prop := h.isFile src ∧ h.fileAt src = h.fileAt dest

instance : Decidable (Aliased h src dest) := inferInstanceAs (Decidable (_ ∧ _))

/-- The bytes that a failed copy leaves in the destination, which was truncated before. -/
def leftBehind : Bytes :=
  match host.copyFault with
  | some (.after n _) => if Aliased h src dest then [] else ((h.contents src).getD []).take n
  | _ => []

/-- Either nothing is touched; or the source gets across and is not emptied; or it does not, and the
destination held what is left there. -/
def Spares : Prop :=
  ¬ host.Opens h src dest ∨
    (host.Transfers h src ∧ (¬ Aliased h src dest ∨ h.contents src = some [])) ∨
    (¬ host.Transfers h src ∧ h.contents dest = some (host.leftBehind h src dest))

end CloneHost

/-! ### Where paths lead -/

section Names

variable {h h' : Fs} {p d : Path} {i : Ino}

private theorem walk_congr (hl : ∀ q, h'.lookup q = h.lookup q) (n : Nat) (p : Path) :
    h'.walk n p = h.walk n p := by
  induction n generalizing p with
  | zero => rfl
  | succ n ih =>
    rw [Fs.walk, Fs.walk, hl p]
    split
    · exact ih _
    · rfl

private theorem fileAt_congr (hl : ∀ q, h'.lookup q = h.lookup q) (p : Path) :
    h'.fileAt p = h.fileAt p := by
  have hfinal : h'.final p = h.final p := walk_congr hl 40 p
  rw [Fs.fileAt, Fs.fileAt, hfinal, hl]

/-- A link that leads to a free name leads to the file made there. -/
private theorem walk_newFile (hd : h.lookup d = none) (n : Nat) (p : Path) :
    (h.newFile d).walk n p = h.walk n p := by
  induction n generalizing p with
  | zero => rfl
  | succ n ih =>
    by_cases hp : p = d
    · have hself := Fs.lookup_newFile_self (h := h) (Fs.ne_nil_of_lookup_none hd)
      rw [hp, Fs.walk_of_not_symlink (by simp [hself]), Fs.walk_of_not_symlink (by simp [hd])]
    · rw [Fs.walk, Fs.walk, Fs.lookup_newFile_of_ne hp]
      split
      · exact ih _
      · rfl

private theorem fileAt_newFile_self (hd : h.lookup (h.final p) = none) :
    (h.newFile (h.final p)).fileAt p = some h.nextIno := by
  rw [Fs.fileAt_eq_some, show (h.newFile (h.final p)).final p = h.final p from walk_newFile hd 40 p]
  exact Fs.lookup_newFile_self (Fs.ne_nil_of_lookup_none hd)

private theorem fileAt_newFile_of_some (hd : h.lookup d = none) (hp : h.fileAt p = some i) :
    (h.newFile d).fileAt p = some i := by
  rw [Fs.fileAt_eq_some] at hp ⊢
  rw [show (h.newFile d).final p = h.final p from walk_newFile hd 40 p, Fs.lookup_newFile_of_ne]
  · exact hp
  · intro heq
    rw [heq, hd] at hp
    cases hp

private theorem fileAt_newFile_of_exists (hd : h.lookup d = none) (hp : h.fileAt p = none)
    (hexists : h.pathExists p) : (h.newFile d).fileAt p = none := by
  have hne : h.final p ≠ d := by
    intro heq
    rw [Fs.pathExists, heq, hd] at hexists
    cases hexists
  rw [Fs.fileAt, show (h.newFile d).final p = h.final p from walk_newFile hd 40 p,
    Fs.lookup_newFile_of_ne hne]
  exact hp

theorem isFile_iff : h.isFile p ↔ ∃ i, h.fileAt p = some i := by
  rw [Fs.isFile, Option.isSome_iff_exists]

end Names

/-! ### What creating the destination does -/

/-- The destination was created, or truncated, as inode `j`. -/
structure Created (h h₁ : Fs) (dest : Path) (j : Ino) : Prop where
  leads : h₁.fileAt dest = some j
  kept : ∀ p i, h.fileAt p = some i → h₁.fileAt p = some i
  notFile : ∀ p, h.pathExists p → h.fileAt p = none → h₁.fileAt p = none
  self : h₁.data j = []
  other : ∀ p i, h.fileAt p = some i → i ≠ j → h₁.data i = h.data i
  same : ∀ p i, h.fileAt p = some i → (i = j ↔ h.fileAt p = h.fileAt dest)
  lookup : h.isFile dest → ∀ q, h₁.lookup q = h.lookup q

/-- On a volume a new file has an inode of its own. -/
theorem Volume.created (v : Volume) {dest : Path} (hc : Creatable v.fs dest) :
    ∃ j h₁, v.fs.create dest = (.ok j, h₁) ∧ Created v.fs h₁ dest j := by
  rcases Fs.create_cases v.fs dest with ⟨j, hj, hcr⟩ | ⟨hn, -, hcr⟩ | ⟨hnone, e, hcr⟩
  · refine ⟨j, _, hcr, hj, fun _ _ hp => hp, fun _ _ hp => hp, Fs.data_setData_self, ?_, ?_,
      fun _ _ => rfl⟩
    · intro p i _ hne
      exact Fs.data_setData_of_ne hne
    · intro p i hp
      rw [hp, hj, Option.some.injEq]
  · have hfresh : ∀ p i, v.fs.fileAt p = some i → i ≠ v.fs.nextIno := by
      intro p i hp
      exact (v.fresh _ i (Fs.fileAt_eq_some.1 hp)).ne
    have hnone : v.fs.fileAt dest = none := by
      rw [Fs.fileAt, hn]
    refine ⟨_, _, hcr, fileAt_newFile_self hn, fun _ _ hp => fileAt_newFile_of_some hn hp,
      fun _ hx hp => fileAt_newFile_of_exists hn hp hx, Fs.data_newFile_self, ?_, ?_, ?_⟩
    · intro p i _ hne
      exact Fs.data_newFile_of_ne hne
    · intro p i hp
      rw [hp, hnone]
      simpa using hfresh p i hp
    · intro hfile
      rw [Fs.isFile, hnone] at hfile
      cases hfile
  · rcases hc with hfile | ⟨hn, hpar⟩
    · rw [Fs.isFile, hnone] at hfile
      cases hfile
    · rw [Fs.create, hn] at hcr
      simp only [hpar, if_true] at hcr
      cases hcr

/-- A destination that cannot be created. -/
theorem create_of_not_creatable {h : Fs} {dest : Path} (hc : ¬ Creatable h dest) :
    ∃ e, h.create dest = (.error e, h) := by
  rcases Fs.create_cases h dest with ⟨j, hj, -⟩ | ⟨hn, hpar, -⟩ | ⟨-, e, hcr⟩
  · exact absurd (.inl (isFile_iff.2 ⟨j, hj⟩)) hc
  · exact absurd (.inr ⟨hn, hpar⟩) hc
  · exact ⟨e, hcr⟩

/-! ### The bytes that arrive -/

/-- Inode `j` has the bytes `x`, and nothing else differs. -/
structure Given (h₁ h' : Fs) (j : Ino) (x : Bytes) : Prop where
  lookup : ∀ q, h'.lookup q = h₁.lookup q
  self : h'.data j = x
  other : ∀ k, k ≠ j → h'.data k = h₁.data k

section Given

variable {h h₁ h' : Fs} {src dest : Path} {i j : Ino} {x y : Bytes} {host : CloneHost}

theorem Given.setData (hg : Given h₁ h' j y) (x : Bytes) : Given h₁ (h'.setData j x) j x where
  lookup := hg.lookup
  self := Fs.data_setData_self
  other k hk := (Fs.data_setData_of_ne hk).trans (hg.other k hk)

namespace Created

variable (hc : Created h h₁ dest j)

include hc

theorem given : Given h₁ h₁ j [] := ⟨fun _ => rfl, hc.self, fun _ _ => rfl⟩

/-- What can be read of the source once the destination is truncated. -/
theorem data_src (hi : h.fileAt src = some i) : h₁.data i = if i = j then [] else h.data i := by
  split
  · rename_i hij
    rw [hij, hc.self]
  · rename_i hij
    exact hc.other src i hi hij

/-- Truncating the destination once more changes nothing. -/
theorem data_truncated (k : Ino) : (h₁.setData j []).data k = h₁.data k := by
  by_cases hk : k = j
  · rw [hk, Fs.data_setData_self, hc.self]
  · exact Fs.data_setData_of_ne hk

theorem create_again : h₁.create dest = (.ok j, h₁.setData j []) := by
  rw [Fs.create, Fs.fileAt_eq_some.1 hc.leads]

theorem contents_dest (hg : Given h₁ h' j x) : h'.contents dest = some x := by
  rw [Fs.contents, fileAt_congr hg.lookup, hc.leads, Option.map_some, hg.self]

theorem contents_src (hg : Given h₁ h' j x) (hi : h.fileAt src = some i) :
    h'.contents src = some (if i = j then x else h.data i) := by
  rw [Fs.contents, fileAt_congr hg.lookup, hc.kept src i hi, Option.map_some]
  split
  · rename_i hij
    rw [hij, hg.self]
  · rename_i hij
    rw [hg.other i hij, hc.other src i hi hij]

theorem aliased_iff (hi : h.fileAt src = some i) : CloneHost.Aliased h src dest ↔ i = j := by
  rw [CloneHost.Aliased, hc.same src i hi]
  exact and_iff_right (isFile_iff.2 ⟨i, hi⟩)

/-- The clone brings what the source holds then. -/
theorem ficlone_shares (hs : host.shares) :
    ∃ h', host.ficlone h₁ j (some i) = (0, h') ∧ Given h₁ h' j (h₁.data i) := by
  refine ⟨_, ?_, hc.given.setData _⟩
  rw [CloneHost.ficlone, if_pos hs]

/-- So does the copy. -/
theorem copy_ok (hf : host.copyFault = none) (hi : h.fileAt src = some i) :
    ∃ h', host.copy h₁ src dest = (.ok (), h') ∧ Given h₁ h' j (h₁.data i) := by
  have hkept := hc.kept src i hi
  refine ⟨_, ?_, (hc.given.setData []).setData _⟩
  simp only [CloneHost.copy, hkept, hf, Fs.copy, hc.create_again, hc.data_truncated]

/-- A copy that fails leaves a part of it. -/
theorem copy_error (hx : h.pathExists src) (hf : h.isFile src → host.copyFault ≠ none) :
    ∃ e h', host.copy h₁ src dest = (.error e, h') ∧
      Given h₁ h' j (host.leftBehind h src dest) := by
  cases hi : h.fileAt src with
  | none =>
    have hleft : host.leftBehind h src dest = [] := by
      rw [CloneHost.leftBehind]
      split
      · simp [Fs.contents, hi]
      · rfl
    refine ⟨.invalidInput, h₁, ?_, hleft ▸ hc.given⟩
    rw [CloneHost.copy, hc.notFile src hx hi]
  | some i =>
    have hkept := hc.kept src i hi
    cases hfault : host.copyFault with
    | none => exact absurd hfault (hf (isFile_iff.2 ⟨i, hi⟩))
    | some fault =>
      cases fault with
      | atOnce e =>
        have hleft : host.leftBehind h src dest = [] := by
          rw [CloneHost.leftBehind, hfault]
        refine ⟨e, h₁, ?_, hleft ▸ hc.given⟩
        simp only [CloneHost.copy, hkept, hfault]
      | after n e =>
        have hleft : host.leftBehind h src dest = (h₁.data i).take n := by
          rw [CloneHost.leftBehind, hfault, hc.data_src hi]
          simp only [hc.aliased_iff hi]
          split
          · exact List.take_nil.symm
          · rw [Fs.contents, hi]
            rfl
        rw [hleft]
        refine ⟨e, _, ?_, (hc.given.setData []).setData _⟩
        simp only [CloneHost.copy, hkept, hfault, hc.create_again, hc.data_truncated]

end Created

end Given

/-! ### The whole call -/

section Run

variable (host : CloneHost) {h h₁ : Fs} {src dest : Path} {j : Ino} {file : Option Ino}

/-- What is made of the reply of the copy. -/
private def copyResult : Except IoError Unit → Except ModeldError Bool
  | .ok () => .ok false
  | .error e => .error (.io e)

/-- Once both files are open, the clone and then the copy decide. -/
private theorem run_opened (hopen : host.exec (.openEntry src) h = (.ok file, h))
    (hcreate : host.exec (.create dest) h = (.ok j, h₁)) :
    (reflinkOrCopy src dest).run host.exec h =
      if (host.ficlone h₁ j file).1 = 0 then (.ok true, (host.ficlone h₁ j file).2)
      else (host.copy (host.ficlone h₁ j file).2 src dest).map copyResult id := by
  unfold reflinkOrCopy
  rw [perform_bind, run_call, hopen]
  dsimp only
  rw [perform_bind, run_call, hcreate]
  dsimp only
  rw [perform_bind, run_call]
  change (if (host.ficlone h₁ j file).1 = 0 then _ else _ : Program _ _).run _ _ = _
  split
  · rfl
  · have hexec : host.exec (.copy src dest) (host.exec (.ficlone j file) h₁).2 =
        host.copy (host.ficlone h₁ j file).2 src dest := rfl
    rw [perform_bind, run_call, hexec]
    obtain ⟨r, h'⟩ := host.copy (host.ficlone h₁ j file).2 src dest
    cases r <;> rfl

theorem openEntry_of_exists {p : Path} (hp : h.pathExists p) :
    openEntry h p = .ok (h.fileAt p) := by
  unfold openEntry Fs.fileAt
  unfold Fs.pathExists at hp
  cases hl : h.lookup (h.final p) with
  | none => simp [hl] at hp
  | some entry =>
    cases entry with
    | symlink t => simp [hl] at hp
    | dir => rfl
    | file i => rfl

theorem openEntry_of_not_exists {p : Path} (hp : ¬ h.pathExists p) :
    ∃ e, openEntry h p = .error e := by
  unfold openEntry
  unfold Fs.pathExists at hp
  cases hl : h.lookup (h.final p) with
  | none => exact ⟨_, rfl⟩
  | some entry =>
    cases entry with
    | symlink t => exact ⟨_, rfl⟩
    | dir => simp [hl] at hp
    | file i => simp [hl] at hp

private theorem exec_openEntry (host : CloneHost) (h : Fs) (p : Path) :
    (host.openFault = none ∧ h.pathExists p ∧
      host.exec (.openEntry p) h = (.ok (h.fileAt p), h)) ∨
    (¬ (host.openFault = none ∧ h.pathExists p) ∧
      ∃ e, host.exec (.openEntry p) h = (.error e, h)) := by
  unfold CloneHost.exec
  cases hfault : host.openFault with
  | some e => exact .inr ⟨nofun, e, rfl⟩
  | none =>
    by_cases hp : h.pathExists p
    · exact .inl ⟨rfl, hp, congrArg (·, h) (openEntry_of_exists hp)⟩
    · obtain ⟨e, hopen⟩ := openEntry_of_not_exists hp
      exact .inr ⟨fun hboth => hp hboth.2, e, congrArg (·, h) hopen⟩

private theorem exec_create (host : CloneHost) (h : Fs) (p : Path) :
    (host.createFault = none ∧ Creatable h p ∧ host.exec (.create p) h = h.create p) ∨
    (¬ (host.createFault = none ∧ Creatable h p) ∧
      ∃ e, host.exec (.create p) h = (.error e, h)) := by
  unfold CloneHost.exec
  cases hfault : host.createFault with
  | some e => exact .inr ⟨nofun, e, rfl⟩
  | none =>
    by_cases hc : Creatable h p
    · exact .inl ⟨rfl, hc, rfl⟩
    · exact .inr ⟨fun hboth => hc hboth.2, create_of_not_creatable hc⟩

/-- A call that fails to open one of its files changes nothing. -/
theorem run_of_not_opens (hopens : ¬ host.Opens h src dest) :
    ∃ e, (reflinkOrCopy src dest).run host.exec h = (.error (.io e), h) := by
  unfold reflinkOrCopy
  rcases exec_openEntry host h src with ⟨hopenFault, hexists, hopen⟩ | ⟨-, e, hopen⟩
  · rcases exec_create host h dest with ⟨hcreateFault, hc, -⟩ | ⟨-, e, hcreate⟩
    · exact absurd ⟨hopenFault, hexists, hcreateFault, hc⟩ hopens
    · refine ⟨e, ?_⟩
      rw [perform_bind, run_call, hopen]
      dsimp only
      rw [perform_bind, run_call, hcreate]
      rfl
  · refine ⟨e, ?_⟩
    rw [perform_bind, run_call, hopen]
    rfl

/-- Otherwise the destination is created, and holds what the clone or the copy brought, or what was
left behind. -/
theorem run_of_opens (v : Volume) (hopens : host.Opens v.fs src dest) :
    ∃ j h₁ h', Created v.fs h₁ dest j ∧
      ((∃ b i, v.fs.fileAt src = some i ∧ host.Transfers v.fs src ∧
          (reflinkOrCopy src dest).run host.exec v.fs = (.ok b, h') ∧
          Given h₁ h' j (h₁.data i)) ∨
        ∃ e, ¬ host.Transfers v.fs src ∧
          (reflinkOrCopy src dest).run host.exec v.fs = (.error (.io e), h') ∧
          Given h₁ h' j (host.leftBehind v.fs src dest)) := by
  obtain ⟨hopenFault, hexists, hcreateFault, hcreatable⟩ := hopens
  obtain ⟨j, h₁, hcr, hc⟩ := v.created hcreatable
  have hopen : host.exec (.openEntry src) v.fs = (.ok (v.fs.fileAt src), v.fs) := by
    rcases exec_openEntry host v.fs src with ⟨-, -, hopen⟩ | ⟨hnot, -⟩
    · exact hopen
    · exact absurd ⟨hopenFault, hexists⟩ hnot
  have hcreate : host.exec (.create dest) v.fs = (.ok j, h₁) := by
    rcases exec_create host v.fs dest with ⟨-, -, hcreate⟩ | ⟨hnot, -⟩
    · exact hcreate.trans hcr
    · exact absurd ⟨hcreateFault, hcreatable⟩ hnot
  have hrun := run_opened host hopen hcreate
  by_cases hfile : ∃ i, v.fs.fileAt src = some i ∧ host.shares
  · -- The clone goes through.
    obtain ⟨i, hi, hshares⟩ := hfile
    obtain ⟨h', hclone, hgiven⟩ := hc.ficlone_shares (i := i) hshares
    rw [hi, hclone] at hrun
    exact ⟨j, h₁, h', hc, .inl ⟨true, i, hi, ⟨isFile_iff.2 ⟨i, hi⟩, .inl hshares⟩, hrun, hgiven⟩⟩
  -- The clone fails, and the copy decides.
  have hclone : host.ficlone h₁ j (v.fs.fileAt src) = (-1, h₁) := by
    cases hi : v.fs.fileAt src with
    | none => rfl
    | some i => exact if_neg fun hshares => hfile ⟨i, hi, hshares⟩
  rw [hclone, if_neg (show ¬ (-1 : Int) = 0 by decide)] at hrun
  by_cases hcopy : v.fs.isFile src ∧ host.copyFault = none
  · obtain ⟨i, hi⟩ := isFile_iff.1 hcopy.1
    obtain ⟨h', hcopied, hgiven⟩ := hc.copy_ok hcopy.2 hi
    rw [hcopied] at hrun
    exact ⟨j, h₁, h', hc, .inl ⟨false, i, hi, ⟨hcopy.1, .inr hcopy.2⟩, hrun, hgiven⟩⟩
  · obtain ⟨e, h', hcopied, hgiven⟩ := hc.copy_error hexists fun hsrc hf => hcopy ⟨hsrc, hf⟩
    rw [hcopied] at hrun
    refine ⟨j, h₁, h', hc, .inr ⟨e, ?_, hrun, hgiven⟩⟩
    intro htransfers
    rcases htransfers.2 with hshares | hf
    · obtain ⟨i, hi⟩ := isFile_iff.1 htransfers.1
      exact hfile ⟨i, hi, hshares⟩
    · exact hcopy ⟨htransfers.1, hf⟩

/-- The source arrives and is kept exactly where truncating the destination did not empty it. -/
private theorem cloned_ok_iff {i : Ino} {h' : Fs} {b : Bool} (hc : Created h h₁ dest j)
    (hi : h.fileAt src = some i) (hg : Given h₁ h' j (h₁.data i)) :
    Cloned h h' src dest (.ok b) ↔ ¬ CloneHost.Aliased h src dest ∨ h.contents src = some [] := by
  have hsrc : h.contents src = some (h.data i) := by
    rw [Fs.contents, hi]
    rfl
  rw [Cloned, hc.contents_src hg hi, hc.contents_dest hg, hsrc, hc.aliased_iff hi,
    hc.data_src hi]
  by_cases hij : i = j
  · rw [if_pos hij, if_pos hij]
    constructor
    · rintro ⟨x, hx, hempty, -⟩
      exact .inr (hx.trans hempty.symm)
    · rintro (hne | hempty)
      · exact absurd hij hne
      · exact ⟨[], hempty, rfl, rfl⟩
  · rw [if_neg hij, if_neg hij]
    exact iff_of_true ⟨_, rfl, rfl, rfl⟩ (.inl hij)

/-- After a failure the destination is what it was exactly where it held what the failure left. -/
private theorem cloned_error_iff {h' : Fs} {x : Bytes} {e : ModeldError}
    (hc : Created h h₁ dest j) (hg : Given h₁ h' j x) :
    Cloned h h' src dest (.error e) ↔ h.contents dest = some x := by
  rw [Cloned, hc.contents_dest hg]
  constructor
  · intro hsame
    exact hsame.2.symm
  · intro hdest
    have hfile : h.isFile dest := by
      rw [Fs.contents, Option.map_eq_some_iff] at hdest
      obtain ⟨i, hi, -⟩ := hdest
      exact isFile_iff.2 ⟨i, hi⟩
    exact ⟨(hg.lookup dest).trans (hc.lookup hfile dest), hdest.symm⟩

/-- A call keeps its promise exactly when it opens nothing, when the source gets across and was not
emptied on the way, or when it fails and the destination already held what is left there. -/
theorem cloned_iff_spares (v : Volume) (host : CloneHost) (src dest : Path) :
    Cloned v.fs ((reflinkOrCopy src dest).run host.exec v.fs).2 src dest
        ((reflinkOrCopy src dest).run host.exec v.fs).1 ↔
      host.Spares v.fs src dest := by
  unfold CloneHost.Spares
  by_cases hopens : host.Opens v.fs src dest
  · obtain ⟨j, h₁, h', hc, ⟨b, i, hi, htransfers, hrun, hg⟩ | ⟨e, htransfers, hrun, hg⟩⟩ :=
      run_of_opens host v hopens
    · rw [hrun, cloned_ok_iff hc hi hg]
      simp only [hopens, htransfers, not_true_eq_false, false_or, true_and, false_and, or_false]
    · rw [hrun, cloned_error_iff hc hg]
      simp only [hopens, htransfers, not_true_eq_false, false_or, not_false_eq_true, true_and,
        false_and]
  · obtain ⟨e, hrun⟩ := run_of_not_opens host hopens
    rw [hrun]
    exact iff_of_true ⟨rfl, rfl⟩ (.inl hopens)

end Run

/-! ### One file under two names -/

/-- A name, and a hard link to it. -/
def samplePath : Path := [⟨"model.gguf", by decide⟩]

/-- The other name. -/
def samplePath2 : Path := [⟨"other.gguf", by decide⟩]

/-- A file under two names. -/
def twoNames : Volume :=
  ((Volume.blank true id).after (.write samplePath [1])).after (.hardLink samplePath samplePath2)

/-- A host that shares extents, and on which nothing fails. -/
def sharingHost : CloneHost := ⟨none, none, true, none⟩

/-- A host that shares nothing, and on which copies fail in the middle. -/
def failingHost : CloneHost := ⟨none, none, false, some (.after 0 .storageFull)⟩

/-- The call on the two names. -/
def sampleClone (host : CloneHost) : Except ModeldError Bool × Fs :=
  (reflinkOrCopy samplePath samplePath2).run host.exec twoNames.fs

/-- The call on two names of one file reports success and empties the file; and a copy that fails
leaves the destination empty. -/
theorem sampleClone_not_cloned :
    ((sampleClone sharingHost).1 = .ok true ∧
      ¬ Cloned twoNames.fs (sampleClone sharingHost).2 samplePath samplePath2
        (sampleClone sharingHost).1) ∧
    ((sampleClone failingHost).1 = .error (.io .storageFull) ∧
      ¬ Cloned twoNames.fs (sampleClone failingHost).2 samplePath samplePath2
        (sampleClone failingHost).1) := by
  have hok : (sampleClone sharingHost).1 = .ok true := by decide +kernel
  have herror : (sampleClone failingHost).1 = .error (.io .storageFull) := by decide +kernel
  refine ⟨⟨hok, ?_⟩, herror, ?_⟩
  · have hbefore : twoNames.fs.contents samplePath = some [1] := by decide +kernel
    have hafter : (sampleClone sharingHost).2.contents samplePath = some [] := by decide +kernel
    rw [hok]
    rintro ⟨x, hx, hx', -⟩
    exact absurd (hbefore.symm.trans (hx.trans (hx'.symm.trans hafter))) (by decide)
  · have hbefore : twoNames.fs.contents samplePath2 = some [1] := by decide +kernel
    have hafter : (sampleClone failingHost).2.contents samplePath2 = some [] := by decide +kernel
    rw [herror]
    rintro ⟨-, hsame⟩
    exact absurd (hbefore.symm.trans (hsame.symm.trans hafter)) (by decide)

end Modeld
