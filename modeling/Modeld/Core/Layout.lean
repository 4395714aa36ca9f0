import Modeld.Core.Eviction
import Modeld.Core.Tags
import Modeld.Host.Frame

/-!
# The layout of the storage root

Which path belongs to what. A digest has three names in the store; pins, tags and format links have
directories of their own. `WellFormed` is what every call that keeps to this layout (`Tidy`)
preserves: no link is followed on the way to a blob, and two paths that lead to one file are names
of one digest.
-/

namespace Modeld

open Host

/-! ### Directories -/

namespace Dir

abbrev cas : Name := ⟨"cas", by decide⟩
abbrev blobs : Name := ⟨"blobs", by decide⟩
abbrev sha256 : Name := ⟨"sha256", by decide⟩
abbrev incoming : Name := ⟨"incoming", by decide⟩
abbrev pinned : Name := ⟨"pinned", by decide⟩
abbrev tags : Name := ⟨"tags", by decide⟩
abbrev gguf : Name := ⟨"gguf", by decide⟩
abbrev safetensors : Name := ⟨"safetensors", by decide⟩

end Dir

/-- The name of a flat place for text without a separator. -/
theorem plain_flat {d ext : String} (hd : '/' ∉ d.toList) (hext : '/' ∉ ext.toList) :
    PlainName ("sha256-" ++ d ++ ext) := by
  refine ⟨?_, ?_, ?_, ?_⟩
  · simp [← String.toList_inj]
  · simp [← String.toList_inj]
  · simp [← String.toList_inj]
  · simp [hd, hext]

namespace CasStore

variable (s : CasStore)

theorem casDir_eq : s.casDir = s.rootDir ++ [Dir.cas] := Path.join_name _ Dir.cas

theorem blobsDir_eq : s.blobsDir = s.rootDir ++ [Dir.cas, Dir.blobs, Dir.sha256] := by
  have h := Path.join_name ((s.rootDir.join "cas").join "blobs") Dir.sha256
  rw [blobsDir, h, Path.join_name _ Dir.blobs, Path.join_name _ Dir.cas]
  simp

theorem incomingDir_eq : s.incomingDir = s.rootDir ++ [Dir.cas, Dir.incoming] := by
  have h := Path.join_name (s.rootDir.join "cas") Dir.incoming
  rw [incomingDir, h, Path.join_name _ Dir.cas]
  simp

variable {s} {d e : String} {p q : Path}

theorem blobsDir_join (hd : PlainName d) :
    s.blobsDir.join d = s.rootDir ++ [Dir.cas, Dir.blobs, Dir.sha256, ⟨d, hd⟩] := by
  rw [blobsDir_eq, Path.join_of_plain _ hd]
  simp

theorem flatGguf_eq (hd : '/' ∉ d.toList) :
    s.flatGguf d = s.rootDir ++ [Dir.cas, ⟨"sha256-" ++ d ++ ".gguf", plain_flat hd (by decide)⟩] := by
  rw [flatGguf, casDir_eq, Path.join_of_plain _ (plain_flat hd (by decide))]
  simp

theorem flatSt_eq (hd : '/' ∉ d.toList) :
    s.flatSt d =
      s.rootDir ++ [Dir.cas, ⟨"sha256-" ++ d ++ ".safetensors", plain_flat hd (by decide)⟩] := by
  rw [flatSt, casDir_eq, Path.join_of_plain _ (plain_flat hd (by decide))]
  simp

/-- The path is one of the three names of the digest. -/
def Names (s : CasStore) (d : String) (p : Path) : Prop :=
  p = s.blobsDir.join d ∨ p = s.flatGguf d ∨ p = s.flatSt d

theorem names_iff (hd : IsDigest d) : s.Names d p ↔
    p = s.rootDir ++ [Dir.cas, Dir.blobs, Dir.sha256, ⟨d, hd.plain⟩] ∨
    p = s.rootDir ++ [Dir.cas, ⟨"sha256-" ++ d ++ ".gguf",
      plain_flat hd.plain.2.2.2 (by decide)⟩] ∨
    p = s.rootDir ++ [Dir.cas, ⟨"sha256-" ++ d ++ ".safetensors",
      plain_flat hd.plain.2.2.2 (by decide)⟩] := by
  rw [Names, blobsDir_join hd.plain, flatGguf_eq hd.plain.2.2.2, flatSt_eq hd.plain.2.2.2]

theorem Names.under (hd : IsDigest d) (h : s.Names d p) : s.rootDir <+: p := by
  rcases (names_iff hd).1 h with rfl | rfl | rfl <;> exact List.prefix_append _ _

private theorem gguf_ne_safetensors {a b : String} :
    ¬ "sha256-" ++ a ++ ".gguf" = "sha256-" ++ b ++ ".safetensors" := by
  rw [← String.toList_inj]
  intro h
  have := congrArg List.reverse h
  simp at this

/-- The names of different digests are different. -/
theorem Names.digest_eq (hd : IsDigest d) (he : IsDigest e) (h : s.Names d p) (h' : s.Names e p) :
    d = e := by
  rcases (names_iff hd).1 h with rfl | rfl | rfl <;>
    rcases (names_iff he).1 h' with h' | h' | h' <;>
      simp only [List.append_cancel_left_eq, List.cons.injEq, Name.mk.injEq, and_true, true_and,
        reduceCtorEq, and_false, Text.append_right_inj, Text.toList_append_inj] at h'
  · exact h'
  · exact h'
  · exact (gguf_ne_safetensors h').elim
  · exact (gguf_ne_safetensors h'.symm).elim
  · exact h'

end CasStore

/-! ### Well-formed storage -/

/-- A place for a link under `<root>/gguf/` or `<root>/safetensors/`. -/
def LinkPlace (root p : Path) : Prop :=
  ∃ n : Name, (p = root ++ [Dir.gguf, n] ∧ Text.endsWith n.text ".gguf" = true) ∨
    (p = root ++ [Dir.safetensors, n] ∧ Text.endsWith n.text ".safetensors" = true)

/-- The directories of an open storage root. -/
def baseDirs (root : Path) : List Path :=
  [root ++ [Dir.cas], root ++ [Dir.cas, Dir.blobs, Dir.sha256], root ++ [Dir.cas, Dir.incoming],
    root ++ [Dir.cas, Dir.blobs], root ++ [Dir.pinned], root ++ [Dir.tags]]

/-- The storage under `root` is laid out as its owners intend. -/
structure WellFormed (root : Path) (h : Fs) : Prop where
  base : ∀ p, p <+: root ∨ p ∈ baseDirs root → h.lookup p = some .dir
  links : ∀ p t, root <+: p → h.lookup p = some (.symlink t) → LinkPlace root p
  shared : ∀ p q i, root <+: p → root <+: q → h.lookup p = some (.file i) →
    h.lookup q = some (.file i) → p = q ∨
      ∃ d, IsDigest d ∧ (CasStore.mk root).Names d p ∧ (CasStore.mk root).Names d q
  fresh : ∀ p i, root <+: p → h.lookup p = some (.file i) → i < h.nextIno
  notDir : ∀ d p, IsDigest d → (CasStore.mk root).Names d p → h.lookup p ≠ some .dir

/-- Calls that keep to the layout. -/
def Tidy (root : Path) : Call → Prop
  | .create p | .write p _ | .copy _ p => root <+: p ∧ ¬ LinkPlace root p
  | .rename a b => root <+: a ∧ ¬ LinkPlace root a ∧ ¬ LinkPlace root b ∧
      ∀ d, IsDigest d → ¬ (CasStore.mk root).Names d a
  | .hardLink a b => ∃ d, IsDigest d ∧ (CasStore.mk root).Names d a ∧ (CasStore.mk root).Names d b
  | .symlink _ p => LinkPlace root p
  | .createDirAll p => ∀ q, q <+: p → ∀ d, IsDigest d → ¬ (CasStore.mk root).Names d q
  | _ => True

variable {root : Path} {h h' : Fs} {d : String} {p q : Path} {i : Ino}

theorem CasStore.Names.not_linkPlace (hd : IsDigest d) (hp : (CasStore.mk root).Names d p) :
    ¬ LinkPlace root p := by
  rintro ⟨n, ⟨rfl, -⟩ | ⟨rfl, -⟩⟩ <;>
    rcases (CasStore.names_iff hd).1 hp with h | h | h <;> simp at h

namespace WellFormed

/-- A path that is not a place for links leads to itself. -/
theorem final_eq (hw : WellFormed root h) (hroot : root <+: p) (hp : ¬ LinkPlace root p) :
    h.final p = p :=
  Fs.final_eq_self fun t ht => hp (hw.links p t hroot ht)

theorem fileAt_eq_some (hw : WellFormed root h) (hroot : root <+: p) (hp : ¬ LinkPlace root p) :
    h.fileAt p = some i ↔ h.lookup p = some (.file i) := by
  rw [Fs.fileAt_eq_some, hw.final_eq hroot hp]

/-- The directories of an open storage root exist, with everything above them. -/
theorem dir_of_prefix (hw : WellFormed root h) (hp : p ∈ baseDirs root) (hq : q <+: p) :
    h.lookup q = some .dir := by
  apply hw.base
  have hroot : root <+: p := by
    simp only [baseDirs, List.mem_cons, List.not_mem_nil, or_false] at hp
    rcases hp with rfl | rfl | rfl | rfl | rfl | rfl <;> exact List.prefix_append _ _
  rcases List.prefix_or_prefix_of_prefix hq hroot with hq' | ⟨k, rfl⟩
  · exact .inl hq'
  by_cases hk : k = []
  · exact .inl (by simp [hk])
  -- What is left of the path is a prefix of one of six short lists.
  right
  simp only [baseDirs, List.mem_cons, List.not_mem_nil, or_false, List.append_cancel_left_eq] at hp ⊢
  rcases hp with rfl | rfl | rfl | rfl | rfl | rfl
  all_goals
    rw [List.prefix_append_right_inj] at hq
    simp only [List.prefix_cons_iff, List.prefix_nil] at hq
    grind

/-- Making a directory that exists changes nothing. -/
theorem createDirAll_of_base (hw : WellFormed root h) (hp : p ∈ baseDirs root) :
    h.createDirAll p = (.ok (), h) :=
  Fs.createDirAll_of_dirs fun _ hq => hw.dir_of_prefix hp hq

/-- The blobs directory and everything above it exist. -/
theorem createDirAll_blobsDir (hw : WellFormed root h) :
    h.createDirAll (CasStore.mk root).blobsDir = (.ok (), h) := by
  apply hw.createDirAll_of_base
  rw [CasStore.blobsDir_eq]
  simp [baseDirs]

/-- A name of a digest can be made: its directory exists. -/
theorem parent_of_names (hw : WellFormed root h) (hd : IsDigest d)
    (hp : (CasStore.mk root).Names d p) : h.lookup p.dropLast = some .dir := by
  refine hw.base _ (.inr ?_)
  rcases (CasStore.names_iff hd).1 hp with rfl | rfl | rfl <;> simp [baseDirs]

/-- Nothing but a link stands at a place for links, so what a tidy call moves is a file. -/
theorem isFile_of_lookup {e : Entry} (hw : WellFormed root h) (hroot : root <+: p)
    (hp : ¬ LinkPlace root p) (he : h.lookup p = some e) (hdir : e ≠ .dir) : ∃ i, e = .file i := by
  cases e with
  | dir => exact absurd rfl hdir
  | file i => exact ⟨i, rfl⟩
  | symlink t => exact absurd (hw.links p t hroot he) hp

/-- The paths that lead to one file, seen from a path that has no digest. -/
theorem eq_of_shared (hw : WellFormed root h) (hp : root <+: p) (hq : root <+: q)
    (hpi : h.lookup p = some (.file i)) (hqi : h.lookup q = some (.file i))
    (hnone : ∀ d, IsDigest d → ¬ (CasStore.mk root).Names d p) : p = q := by
  rcases hw.shared p q i hp hq hpi hqi with heq | ⟨d, hd, hdp, -⟩
  · exact heq
  · exact absurd hdp (hnone d hd)

/-- The paths that lead to one file, seen from a name of a digest. -/
theorem names_of_shared (hw : WellFormed root h) (hd : IsDigest d)
    (hp : (CasStore.mk root).Names d p) (hq : root <+: q) (hpi : h.lookup p = some (.file i))
    (hqi : h.lookup q = some (.file i)) : (CasStore.mk root).Names d q := by
  rcases hw.shared p q i (hp.under hd) hq hpi hqi with heq | ⟨e, he, hep, heq⟩
  · exact heq ▸ hp
  · rwa [hp.digest_eq hd he hep]

/-- Well-formedness is about the names and the numbers in use. -/
theorem of_lookup_eq (hw : WellFormed root h) (hl : ∀ q, h'.lookup q = h.lookup q)
    (hle : h.nextIno ≤ h'.nextIno) : WellFormed root h' where
  base p hp := (hl p).trans (hw.base p hp)
  links p t hp ht := hw.links p t hp ((hl p).symm.trans ht)
  shared p q i hp hq hpi hqi :=
    hw.shared p q i hp hq ((hl p).symm.trans hpi) ((hl q).symm.trans hqi)
  fresh p i hp hpi := (hw.fresh p i hp ((hl p).symm.trans hpi)).trans_le hle
  notDir d p hd hp hdir := hw.notDir d p hd hp ((hl p).symm.trans hdir)

private theorem of_newFile (hw : WellFormed root h) (hnone : h.lookup p = none)
    (hl : ∀ q, h'.lookup q = if q = p then some (.file h.nextIno) else h.lookup q)
    (hnext : h'.nextIno = h.nextIno + 1) : WellFormed root h' where
  base q hq := by
    have hdir := hw.base q hq
    rw [hl, if_neg (by rintro rfl; simp [hnone] at hdir), hdir]
  links q t hq ht := by
    rw [hl] at ht
    split at ht
    · cases ht
    · exact hw.links q t hq ht
  shared q r i hq hr hqi hri := by
    rw [hl] at hqi hri
    split at hqi <;> split at hri
    · rename_i h1 h2
      exact .inl (h1.trans h2.symm)
    · cases hqi
      exact absurd (hw.fresh r _ hr hri) (lt_irrefl _)
    · cases hri
      exact absurd (hw.fresh q _ hq hqi) (lt_irrefl _)
    · exact hw.shared q r i hq hr hqi hri
  fresh q i hq hqi := by
    rw [hl] at hqi
    rw [hnext]
    split at hqi
    · cases hqi
      exact Nat.lt_succ_self _
    · exact (hw.fresh q i hq hqi).trans (Nat.lt_succ_self _)
  notDir d q hd hq hdir := by
    rw [hl] at hdir
    split at hdir
    · cases hdir
    · exact hw.notDir d q hd hq hdir

private theorem of_newDirs (hw : WellFormed root h)
    (ht : ∀ q, q <+: p → ∀ d, IsDigest d → ¬ (CasStore.mk root).Names d q)
    (hl : ∀ q, h'.lookup q = h.lookup q ∨
      (h.lookup q = none ∧ h'.lookup q = some .dir ∧ q <+: p))
    (hle : h.nextIno ≤ h'.nextIno) : WellFormed root h' := by
  have hfile : ∀ q i, h'.lookup q = some (.file i) → h.lookup q = some (.file i) := by
    intro q i hq
    rcases hl q with h1 | ⟨-, h2, -⟩
    · exact h1.symm.trans hq
    · simp [h2] at hq
  refine ⟨fun q hq => ?_, fun q t hq hqt => ?_, fun q r i hq hr hqi hri => ?_,
    fun q i hq hqi => (hw.fresh q i hq (hfile q i hqi)).trans_le hle, fun d q hd hq hdir => ?_⟩
  · have hdir := hw.base q hq
    rcases hl q with h1 | ⟨h1, -, -⟩
    · exact h1.trans hdir
    · simp [h1] at hdir
  · rcases hl q with h1 | ⟨-, h2, -⟩
    · exact hw.links q t hq (h1.symm.trans hqt)
    · simp [h2] at hqt
  · exact hw.shared q r i hq hr (hfile q i hqi) (hfile r i hri)
  · rcases hl q with h1 | ⟨-, -, h3⟩
    · exact hw.notDir d q hd hq (h1.symm.trans hdir)
    · exact ht q h3 d hd hq

private theorem of_link {a b : Path} (hw : WellFormed root h) (hd : IsDigest d)
    (ha : (CasStore.mk root).Names d a) (hb : (CasStore.mk root).Names d b)
    (hai : h.lookup a = some (.file i)) (hbnone : h.lookup b = none)
    (hl : ∀ q, h'.lookup q = if q = b then some (.file i) else h.lookup q)
    (hle : h.nextIno ≤ h'.nextIno) : WellFormed root h' where
  base q hq := by
    have hdir := hw.base q hq
    rw [hl, if_neg (by rintro rfl; simp [hbnone] at hdir), hdir]
  links q t hq ht := by
    rw [hl] at ht
    split at ht
    · cases ht
    · exact hw.links q t hq ht
  shared q r j hq hr hqj hrj := by
    rw [hl] at hqj hrj
    split at hqj <;> split at hrj
    · rename_i h1 h2
      exact .inl (h1.trans h2.symm)
    · rename_i h1 h2
      cases hqj
      exact .inr ⟨d, hd, h1 ▸ hb, hw.names_of_shared hd ha hr hai hrj⟩
    · rename_i h1 h2
      cases hrj
      exact .inr ⟨d, hd, hw.names_of_shared hd ha hq hai hqj, h2 ▸ hb⟩
    · exact hw.shared q r j hq hr hqj hrj
  fresh q j hq hqj := by
    rw [hl] at hqj
    split at hqj
    · cases hqj
      exact (hw.fresh a i (ha.under hd) hai).trans_le hle
    · exact (hw.fresh q j hq hqj).trans_le hle
  notDir e q he hq hdir := by
    rw [hl] at hdir
    split at hdir
    · cases hdir
    · exact hw.notDir e q he hq hdir

private theorem of_symlink {t : Path} (hw : WellFormed root h) (hp : LinkPlace root p)
    (hnone : h.lookup p = none)
    (hl : ∀ q, h'.lookup q = if q = p then some (.symlink t) else h.lookup q)
    (hle : h.nextIno ≤ h'.nextIno) : WellFormed root h' where
  base q hq := by
    have hdir := hw.base q hq
    rw [hl, if_neg (by rintro rfl; simp [hnone] at hdir), hdir]
  links q u hq hu := by
    rw [hl] at hu
    split at hu
    · rename_i heq
      exact heq ▸ hp
    · exact hw.links q u hq hu
  shared q r i hq hr hqi hri := by
    rw [hl] at hqi hri
    split at hqi
    · cases hqi
    · split at hri
      · cases hri
      · exact hw.shared q r i hq hr hqi hri
  fresh q i hq hqi := by
    rw [hl] at hqi
    split at hqi
    · cases hqi
    · exact (hw.fresh q i hq hqi).trans_le hle
  notDir d q hd hq hdir := by
    rw [hl] at hdir
    split at hdir
    · cases hdir
    · exact hw.notDir d q hd hq hdir

private theorem of_remove {e : Entry} (hw : WellFormed root h) (hp : h.lookup p = some e)
    (he : e ≠ .dir) (hl : ∀ q, h'.lookup q = if q = p then none else h.lookup q)
    (hle : h.nextIno ≤ h'.nextIno) : WellFormed root h' where
  base q hq := by
    have hdir := hw.base q hq
    rw [hl, if_neg, hdir]
    rintro rfl
    exact he (Option.some.inj (hp.symm.trans hdir))
  links q t hq ht := by
    rw [hl] at ht
    split at ht
    · cases ht
    · exact hw.links q t hq ht
  shared q r i hq hr hqi hri := by
    rw [hl] at hqi hri
    split at hqi
    · cases hqi
    · split at hri
      · cases hri
      · exact hw.shared q r i hq hr hqi hri
  fresh q i hq hqi := by
    rw [hl] at hqi
    split at hqi
    · cases hqi
    · exact (hw.fresh q i hq hqi).trans_le hle
  notDir d q hd hq hdir := by
    rw [hl] at hdir
    split at hdir
    · cases hdir
    · exact hw.notDir d q hd hq hdir

private theorem of_rename {a b : Path} (hw : WellFormed root h) (hroot : root <+: a)
    (ha : ∀ d, IsDigest d → ¬ (CasStore.mk root).Names d a) (hai : h.lookup a = some (.file i))
    (hb : h.lookup b ≠ some .dir)
    (hl : ∀ q, h'.lookup q = if q = b then some (.file i) else if q = a then none else h.lookup q)
    (hle : h.nextIno ≤ h'.nextIno) : WellFormed root h' where
  base q hq := by
    have hdir := hw.base q hq
    rw [hl, if_neg (by rintro rfl; exact hb hdir), if_neg (by rintro rfl; simp [hai] at hdir), hdir]
  links q t hq ht := by
    rw [hl] at ht
    split_ifs at ht
    · cases ht
    · exact hw.links q t hq ht
  shared q r j hq hr hqj hrj := by
    rw [hl] at hqj hrj
    split_ifs at hqj hrj with h1 h2 h3 h4 h5
    · exact .inl (h1.trans h2.symm)
    · cases hqj
      exact absurd (hw.eq_of_shared hroot hr hai hrj ha).symm h3
    · cases hrj
      exact absurd (hw.eq_of_shared hroot hq hai hqj ha).symm h4
    · exact hw.shared q r j hq hr hqj hrj
  fresh q j hq hqj := by
    rw [hl] at hqj
    split_ifs at hqj
    · cases hqj
      exact (hw.fresh a i hroot hai).trans_le hle
    · exact (hw.fresh q j hq hqj).trans_le hle
  notDir d q hd hq hdir := by
    rw [hl] at hdir
    split_ifs at hdir
    · cases hdir
    · exact hw.notDir d q hd hq hdir

/-- Tidy calls keep the storage well formed, whether they fail or not. -/
theorem answers {o : Call} {r : Reply o} (hw : WellFormed root h) (ht : Tidy root o)
    (hs : Fs.Answers o h r h') : WellFormed root h' := by
  have hle := hs.frame.1
  cases hs.effect with
  | keep o hl => exact hw.of_lookup_eq hl hle
  | newFile o p ho hnone hl hnext =>
    have hp : root <+: p ∧ ¬ LinkPlace root p := by
      rcases ho with rfl | ⟨x, rfl⟩ | ⟨a, rfl⟩ <;> exact ht
    rw [hw.final_eq hp.1 hp.2] at hnone hl
    exact hw.of_newFile hnone hl hnext
  | newDirs p hl => exact hw.of_newDirs ht hl hle
  | link a b e ha he hb hl =>
    obtain ⟨d, hd, hda, hdb⟩ := ht
    obtain ⟨i, rfl⟩ := hw.isFile_of_lookup (hda.under hd) (hda.not_linkPlace hd) ha he
    exact hw.of_link hd hda hdb ha hb hl hle
  | symlink t p hp hl => exact hw.of_symlink ht hp hl hle
  | remove p e hp he hl => exact hw.of_remove hp he hl hle
  | rename a b e ha he hb hl =>
    obtain ⟨hroot, hlink, -, hnone⟩ := ht
    obtain ⟨i, rfl⟩ := hw.isFile_of_lookup hroot hlink ha he
    exact hw.of_rename hroot hnone ha hb hl hle

end WellFormed

/-! ### Areas

The directories directly under the root share no file with each other, so a call that names no path
under one of them leaves it as it is. -/

/-- The call names no path under `base` as one that it makes, replaces or removes. -/
def Avoids (base : Path) : Call → Prop
  | .create p | .write p _ | .copy _ p | .hardLink _ p | .symlink _ p | .removeFile p
  | .createDirAll p => ¬ base <+: p
  | .rename a b => ¬ base <+: a ∧ ¬ base <+: b
  | _ => True

theorem CasStore.Names.in_cas (hd : IsDigest d) (hp : (CasStore.mk root).Names d p) :
    root ++ [Dir.cas] <+: p := by
  rcases (CasStore.names_iff hd).1 hp with rfl | rfl | rfl <;> simp

theorem area_unique {x y : Name} (hx : root ++ [x] <+: p) (hy : root ++ [y] <+: p) : x = y := by
  obtain ⟨u, hu⟩ := hx
  obtain ⟨v, hv⟩ := hy
  rw [← hu] at hv
  simp only [List.append_assoc, List.append_cancel_left_eq, List.cons_append, List.nil_append,
    List.cons.injEq] at hv
  exact hv.1.symm

theorem LinkPlace.not_in_area {x : Name} (hp : LinkPlace root p) (hx : x ≠ Dir.gguf)
    (hx' : x ≠ Dir.safetensors) : ¬ root ++ [x] <+: p := by
  intro h
  obtain ⟨n, ⟨rfl, -⟩ | ⟨rfl, -⟩⟩ := hp
  · exact hx (area_unique h (by simp))
  · exact hx' (area_unique h (by simp))

theorem not_linkPlace_of_area {x : Name} (hp : root ++ [x] <+: p) (hx : x ≠ Dir.gguf)
    (hx' : x ≠ Dir.safetensors) : ¬ LinkPlace root p :=
  fun h => h.not_in_area hx hx' hp

theorem under_root {x : Name} (hx : root ++ [x] <+: p) : root <+: p :=
  (List.prefix_append _ _).trans hx

/-- The call keeps to the layout, and to one area. -/
def InArea (root : Path) (x : Name) (o : Call) : Prop :=
  Tidy root o ∧ ∀ y, y ≠ x → Avoids (root ++ [y]) o

namespace Avoids

variable {base : Path} {o : Call} {r : Reply o}

/-- Nothing under the directory is made, replaced or removed. -/
theorem lookup_eq (ho : Avoids base o) (ht : Tidy root o) (hw : WellFormed root h)
    (hs : Fs.Answers o h r h') (hq : base <+: q) : h'.lookup q = h.lookup q := by
  cases hs.effect with
  | keep o hl => exact hl q
  | newFile o p hp hnone hl hnext =>
    have htidy : root <+: p ∧ ¬ LinkPlace root p := by
      rcases hp with rfl | ⟨x, rfl⟩ | ⟨a, rfl⟩ <;> exact ht
    have hbase : ¬ base <+: p := by
      rcases hp with rfl | ⟨x, rfl⟩ | ⟨a, rfl⟩ <;> exact ho
    rw [hl, hw.final_eq htidy.1 htidy.2, if_neg]
    rintro rfl
    exact hbase hq
  | newDirs p hl =>
    rcases hl q with h1 | ⟨-, -, h3⟩
    · exact h1
    · exact absurd (hq.trans h3) ho
  | link a b e ha he hb hl =>
    rw [hl, if_neg]
    rintro rfl
    exact ho hq
  | symlink t p hp hl =>
    rw [hl, if_neg]
    rintro rfl
    exact ho hq
  | remove p e hp he hl =>
    rw [hl, if_neg]
    rintro rfl
    exact ho hq
  | rename a b e ha he hb hl =>
    rw [hl, if_neg, if_neg]
    · rintro rfl
      exact ho.1 hq
    · rintro rfl
      exact ho.2 hq

/-- No file in the area is one that the call may write, unless through a file that is open. -/
theorem not_writes {x : Name} (ho : Avoids (root ++ [x]) o) (ht : Tidy root o)
    (hw : WellFormed root h) (hq : root ++ [x] <+: q) (hqi : h.lookup q = some (.file i))
    (hopen : ∀ off b, o ≠ .writeAt i off b) : ¬ Fs.Writes h i o := by
  intro hwrites
  have hpath : ∀ p, root <+: p ∧ ¬ LinkPlace root p → ¬ root ++ [x] <+: p →
      h.fileAt p ≠ some i := by
    rintro p ⟨hroot, hlink⟩ hbase hp
    rw [hw.fileAt_eq_some hroot hlink] at hp
    rcases hw.shared p q i hroot (under_root hq) hp hqi with rfl | ⟨d, hd, hdp, hdq⟩
    · exact hbase hq
    · rw [area_unique hq (hdq.in_cas hd)] at hbase
      exact hbase (hdp.in_cas hd)
  cases o with
  | create p => exact hpath p ht ho hwrites
  | write p b => exact hpath p ht ho hwrites
  | copy a p => exact hpath p ht ho hwrites
  | writeAt j off b => exact hopen off b (by rw [show j = i from hwrites])
  | _ => exact hwrites

/-- No file in the area is written, unless through a file that is open. -/
theorem data_eq {x : Name} (ho : Avoids (root ++ [x]) o) (ht : Tidy root o)
    (hw : WellFormed root h) (hs : Fs.Answers o h r h') (hq : root ++ [x] <+: q)
    (hqi : h.lookup q = some (.file i)) (hopen : ∀ off b, o ≠ .writeAt i off b) :
    h'.data i = h.data i :=
  hs.frame.2 i (hw.fresh q i (under_root hq) hqi) (ho.not_writes ht hw hq hqi hopen)

end Avoids

/-- Nothing that belongs to the store differs. -/
structure SameStore (root : Path) (h h' : Fs) : Prop where
  lookup : ∀ q, root ++ [Dir.cas] <+: q → h'.lookup q = h.lookup q
  data : ∀ q i, root ++ [Dir.cas] <+: q → h.lookup q = some (.file i) → h'.data i = h.data i

theorem SameStore.refl : SameStore root h h := ⟨fun _ _ => rfl, fun _ _ _ _ => rfl⟩

theorem SameStore.trans {h₁ h₂ h₃ : Fs} (h₁₂ : SameStore root h₁ h₂) (h₂₃ : SameStore root h₂ h₃) :
    SameStore root h₁ h₃ where
  lookup q hq := (h₂₃.lookup q hq).trans (h₁₂.lookup q hq)
  data q i hq hqi :=
    (h₂₃.data q i hq ((h₁₂.lookup q hq).trans hqi)).trans (h₁₂.data q i hq hqi)

end Modeld
