import Modeld.Host.Frame

/-!
# Directory listings

A listing names every entry of the directory once, with the metadata of the entry itself.
-/

namespace Host

namespace Fs

variable {h : Fs} {p : Path} {l : List DirEntry} {e : DirEntry}

private theorem mem_entries {q : Path} {x : Entry} (hq : q ≠ []) :
    ⟨q, x⟩ ∈ h.entries.entries ↔ h.lookup q = some x := by
  rw [lookup, if_neg hq]
  exact AList.mem_lookup_iff.symm

theorem readDir_eq (hp : h.lookup p = some .dir) :
    h.readDir p = .ok (h.entries.entries.filterMap fun e =>
      (Path.childName p e.1).map fun n => ⟨n, h.stat e.2⟩) := by
  rw [readDir, hp]

/-- A directory can be listed. -/
theorem exists_readDir (hp : h.lookup p = some .dir) : ∃ l, h.readDir p = .ok l :=
  ⟨_, readDir_eq hp⟩

theorem lookup_of_readDir (hl : h.readDir p = .ok l) : h.lookup p = some .dir := by
  unfold readDir at hl
  split at hl
  · assumption
  · cases hl
  · cases hl

/-- What is listed is in the directory. -/
theorem mem_readDir (hl : h.readDir p = .ok l) :
    e ∈ l ↔ ∃ x, h.lookup (p ++ [e.name]) = some x ∧ e.metadata = h.stat x := by
  rw [readDir_eq (lookup_of_readDir hl)] at hl
  obtain rfl := Except.ok.inj hl
  simp only [List.mem_filterMap, Option.map_eq_some_iff, Path.childName_eq_some]
  constructor
  · rintro ⟨⟨q, x⟩, hmem, n, hq, rfl⟩
    dsimp only at hq
    subst hq
    exact ⟨x, (mem_entries (by simp)).1 hmem, rfl⟩
  · rintro ⟨x, hx, hmeta⟩
    refine ⟨⟨p ++ [e.name], x⟩, (mem_entries (by simp)).2 hx, e.name, rfl, ?_⟩
    rw [← hmeta]

/-- Nothing is listed twice. -/
theorem pairwise_readDir (hl : h.readDir p = .ok l) : l.Pairwise fun a b => a.name ≠ b.name := by
  rw [readDir_eq (lookup_of_readDir hl)] at hl
  obtain rfl := Except.ok.inj hl
  have hkeys : h.entries.entries.Pairwise fun a b => a.1 ≠ b.1 :=
    List.pairwise_map.1 h.entries.nodupKeys
  refine hkeys.filterMap _ fun a b hne x hx y hy heq => hne ?_
  simp only [Option.map_eq_some_iff, Path.childName_eq_some] at hx hy
  obtain ⟨n, hn, rfl⟩ := hx
  obtain ⟨k, hk, rfl⟩ := hy
  rw [hn, hk]
  exact congrArg (fun m => p ++ [m]) heq

/-! ### Metadata -/

theorem stat_isFile {x : Entry} : (h.stat x).isFile = true ↔ ∃ i, x = .file i := by
  cases x <;> simp [stat]

theorem stat_isDir {x : Entry} : (h.stat x).isDir = true ↔ x = .dir := by
  cases x <;> simp [stat]

end Fs

end Host
