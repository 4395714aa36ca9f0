import Modeld.Host.Frame

/-!
# The count of writes

Every write reads the clock once, so the number of readings says whether anything was written, and
the time of a file is one of the readings since it was made.
-/

namespace Host

namespace Fs

variable {h h' : Fs} {p : Path}

theorem ticks_makeDirs (base : Path) (cs : List Name) (h : Fs) :
    (h.makeDirs base cs).2.ticks = h.ticks := by
  induction cs generalizing base h with
  | nil => rfl
  | cons c cs ih =>
    unfold makeDirs
    split
    · exact ih _ _
    · exact ih _ _
    · rfl

theorem clock_makeDirs (base : Path) (cs : List Name) (h : Fs) :
    (h.makeDirs base cs).2.clock = h.clock := by
  induction cs generalizing base h with
  | nil => rfl
  | cons c cs ih =>
    unfold makeDirs
    split
    · exact ih _ _
    · exact ih _ _
    · rfl

/-- A file that is created or truncated is written. -/
theorem ticks_create {i : Ino} (hc : h.create p = (.ok i, h')) : h'.ticks = h.ticks + 1 := by
  rcases create_cases h p with ⟨j, -, hcr⟩ | ⟨-, -, hcr⟩ | ⟨-, e, hcr⟩
  · rw [hcr] at hc
    cases hc
    rfl
  · rw [hcr] at hc
    cases hc
    rfl
  · rw [hcr] at hc
    cases hc

theorem ticks_write (h : Fs) (p : Path) (x : Bytes) : h.ticks ≤ (h.write p x).2.ticks := by
  rcases write_cases h p x with ⟨i, h', hc, hw⟩ | ⟨e, -, hw⟩
  · rw [hw]
    have := ticks_create hc
    change _ ≤ h'.ticks + 1
    omega
  · rw [hw]

theorem ticks_exec (o : Call) (h : Fs) : h.ticks ≤ (exec o h).2.ticks := by
  cases o with
  | create p =>
    change _ ≤ (h.create p).2.ticks
    rcases create_cases h p with ⟨j, -, hcr⟩ | ⟨-, -, hcr⟩ | ⟨-, e, hcr⟩
    · rw [hcr]
      exact Nat.le_succ _
    · rw [hcr]
      exact Nat.le_succ _
    · rw [hcr]
  | writeAt i off b => exact Nat.le_succ _
  | write p b => exact ticks_write h p b
  | rename a b =>
    change _ ≤ (h.rename a b).2.ticks
    rcases rename_cases h a b with ⟨e, -, -, -, -, hr⟩ | ⟨i, -, -, hr⟩ | ⟨e, hr⟩ <;>
      exact (congrArg (fun x => x.2.ticks) hr).ge
  | removeFile p =>
    change _ ≤ (h.removeFile p).2.ticks
    rcases removeFile_cases h p with ⟨e, -, -, hr⟩ | ⟨-, e, hr⟩ <;>
      exact (congrArg (fun x => x.2.ticks) hr).ge
  | hardLink a b =>
    change _ ≤ (h.hardLink a b).2.ticks
    rcases hardLink_cases h a b with ⟨e, -, -, -, -, -, hr⟩ | ⟨e, hr⟩ <;>
      exact (congrArg (fun x => x.2.ticks) hr).ge
  | copy a b =>
    change _ ≤ (h.copy a b).2.ticks
    rcases copy_cases h a b with ⟨i, j, h', -, hc, hr⟩ | ⟨e, hr⟩
    · rw [hr]
      have := ticks_create hc
      change _ ≤ h'.ticks + 1
      omega
    · rw [hr]
  | symlink t p =>
    change _ ≤ (h.symlink t p).2.ticks
    rcases symlink_cases h t p with ⟨-, -, hr⟩ | ⟨e, hr⟩ <;>
      exact (congrArg (fun x => x.2.ticks) hr).ge
  | createDirAll p => exact (ticks_makeDirs [] p h).ge
  | _ => exact le_rfl

/-- Whether links can be made and what the clock shows is not for a call to change. -/
theorem constants_exec (o : Call) (h : Fs) :
    (exec o h).2.hardLinks = h.hardLinks ∧ (exec o h).2.clock = h.clock := by
  have hcreate : ∀ p, (h.create p).2.hardLinks = h.hardLinks ∧ (h.create p).2.clock = h.clock := by
    intro p
    rcases create_cases h p with ⟨j, -, hcr⟩ | ⟨-, -, hcr⟩ | ⟨-, e, hcr⟩ <;> rw [hcr] <;>
      exact ⟨rfl, rfl⟩
  cases o with
  | create p => exact hcreate p
  | write p b =>
    change (h.write p b).2.hardLinks = _ ∧ (h.write p b).2.clock = _
    rcases write_cases h p b with ⟨i, h', hc, hw⟩ | ⟨e, -, hw⟩
    · rw [hw]
      have := hcreate p
      rwa [hc] at this
    · rw [hw]
      exact ⟨rfl, rfl⟩
  | rename a b =>
    change (h.rename a b).2.hardLinks = _ ∧ (h.rename a b).2.clock = _
    rcases rename_cases h a b with ⟨e, -, -, -, -, hr⟩ | ⟨i, -, -, hr⟩ | ⟨e, hr⟩ <;> rw [hr] <;>
      exact ⟨rfl, rfl⟩
  | removeFile p =>
    change (h.removeFile p).2.hardLinks = _ ∧ (h.removeFile p).2.clock = _
    rcases removeFile_cases h p with ⟨e, -, -, hr⟩ | ⟨-, e, hr⟩ <;> rw [hr] <;> exact ⟨rfl, rfl⟩
  | hardLink a b =>
    change (h.hardLink a b).2.hardLinks = _ ∧ (h.hardLink a b).2.clock = _
    rcases hardLink_cases h a b with ⟨e, -, -, -, -, -, hr⟩ | ⟨e, hr⟩ <;> rw [hr] <;>
      exact ⟨rfl, rfl⟩
  | copy a b =>
    change (h.copy a b).2.hardLinks = _ ∧ (h.copy a b).2.clock = _
    rcases copy_cases h a b with ⟨i, j, h', -, hc, hr⟩ | ⟨e, hr⟩
    · rw [hr]
      have := hcreate b
      rwa [hc] at this
    · rw [hr]
      exact ⟨rfl, rfl⟩
  | symlink t p =>
    change (h.symlink t p).2.hardLinks = _ ∧ (h.symlink t p).2.clock = _
    rcases symlink_cases h t p with ⟨-, -, hr⟩ | ⟨e, hr⟩ <;> rw [hr] <;> exact ⟨rfl, rfl⟩
  | createDirAll p => exact ⟨hardLinks_makeDirs [] p h, clock_makeDirs [] p h⟩
  | _ => exact ⟨rfl, rfl⟩

/-- The file was last written at a reading of the clock between the two states. -/
def WrittenSince (i : Ino) (h h' : Fs) : Prop :=
  ∃ k, h.ticks ≤ k ∧ k < h'.ticks ∧ (h'.inodes i).mtime = h.clock k

theorem writtenSince_setData {i : Ino} {x : Bytes} (hclock : h'.clock = h.clock)
    (hticks : h.ticks ≤ h'.ticks) : WrittenSince i h (h'.setData i x) := by
  refine ⟨h'.ticks, hticks, Nat.lt_succ_self _, ?_⟩
  change (Function.update h'.inodes i _ i).mtime = _
  rw [Function.update_self, hclock]

/-- Nothing but one file was written. -/
structure OnlyWrites (i : Ino) (h h' : Fs) : Prop where
  rest : ∃ inodes ticks, h' = { h with inodes := inodes, ticks := ticks }
  inodes : ∀ j, j ≠ i → h'.inodes j = h.inodes j
  ticks : h.ticks ≤ h'.ticks
  time : h'.inodes i = h.inodes i ∨ WrittenSince i h h'

namespace OnlyWrites

variable {i : Ino} {x : Bytes}

theorem lookup (hs : OnlyWrites i h h') (q : Path) : h'.lookup q = h.lookup q := by
  obtain ⟨inodes, ticks, rfl⟩ := hs.rest
  rfl

theorem nextIno (hs : OnlyWrites i h h') : h'.nextIno = h.nextIno := by
  obtain ⟨inodes, ticks, rfl⟩ := hs.rest
  rfl

theorem clock (hs : OnlyWrites i h h') : h'.clock = h.clock := by
  obtain ⟨inodes, ticks, rfl⟩ := hs.rest
  rfl

theorem hardLinks (hs : OnlyWrites i h h') : h'.hardLinks = h.hardLinks := by
  obtain ⟨inodes, ticks, rfl⟩ := hs.rest
  rfl

theorem refl : OnlyWrites i h h := ⟨⟨h.inodes, h.ticks, rfl⟩, fun _ _ => rfl, le_rfl, .inl rfl⟩

theorem setData : OnlyWrites i h (h.setData i x) := by
  refine ⟨⟨_, _, rfl⟩, fun j hj => ?_, Nat.le_succ _, .inr ⟨h.ticks, le_rfl, Nat.lt_succ_self _, ?_⟩⟩
  · exact Function.update_of_ne hj ..
  · change (Function.update h.inodes i _ i).mtime = _
    rw [Function.update_self]

theorem trans {h'' : Fs} (hs : OnlyWrites i h h') (hs' : OnlyWrites i h' h'') :
    OnlyWrites i h h'' := by
  refine ⟨?_, fun j hj => (hs'.inodes j hj).trans (hs.inodes j hj), hs.ticks.trans hs'.ticks, ?_⟩
  · obtain ⟨inodes, ticks, rfl⟩ := hs.rest
    obtain ⟨inodes', ticks', rfl⟩ := hs'.rest
    exact ⟨inodes', ticks', rfl⟩
  · rcases hs'.time with hsame | ⟨k, hk, hk', htime⟩
    · rcases hs.time with hsame' | ⟨k, hk, hk', htime⟩
      · exact .inl (hsame.trans hsame')
      · exact .inr ⟨k, hk, hk'.trans_le hs'.ticks, by rw [hsame, htime]⟩
    · exact .inr ⟨k, hs.ticks.trans hk, hk', by rw [htime, hs.clock]⟩

end OnlyWrites

/-- What creating a file does: the path leads to it, it is empty, and nothing else differs. -/
theorem create_spec {i : Ino} (hc : h.create p = (.ok i, h')) :
    h'.data i = [] ∧ (∀ j, j ≠ i → h'.inodes j = h.inodes j) ∧ WrittenSince i h h' ∧
      h'.clock = h.clock ∧ h'.hardLinks = h.hardLinks ∧ h.nextIno ≤ h'.nextIno := by
  rcases create_cases h p with ⟨j, -, hcr⟩ | ⟨-, -, hcr⟩ | ⟨-, e, hcr⟩
  · rw [hcr] at hc
    cases hc
    exact ⟨data_setData_self, fun j hj => Function.update_of_ne hj ..,
      writtenSince_setData rfl le_rfl, rfl, rfl, le_rfl⟩
  · rw [hcr] at hc
    cases hc
    exact ⟨data_newFile_self, fun j hj => Function.update_of_ne hj ..,
      @writtenSince_setData h (h.setEntry _ _) _ _ rfl le_rfl, rfl, rfl, Nat.le_succ _⟩
  · rw [hcr] at hc
    cases hc

end Fs

end Host
