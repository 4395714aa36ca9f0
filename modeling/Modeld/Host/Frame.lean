import Mathlib
import Modeld.Host.Call

/-!
# What one call can change

Each operation has one lemma that lists its outcomes. From these, two statements say once for all
calls, failing or not, what may become of the paths (`Answers.effect`) and of the bytes of a file
(`Answers.frame`); what a program preserves is proved from them.
-/

namespace Host

namespace Fs

variable {h h' : Fs} {p q a b : Path} {i j : Ino} {e : Entry}

/-! ### The primitives -/

@[simp] theorem lookup_nil : h.lookup [] = some .dir := by simp [lookup]

theorem lookup_setEntry_self (hp : p ≠ []) : (h.setEntry p e).lookup p = some e := by
  simp [lookup, setEntry, hp]

theorem lookup_setEntry_of_ne (hq : q ≠ p) : (h.setEntry p e).lookup q = h.lookup q := by
  unfold lookup setEntry
  split
  · rfl
  · exact AList.lookup_insert_ne hq

theorem lookup_unlink_self (hp : p ≠ []) : (h.unlink p).lookup p = none := by
  simp [lookup, unlink, hp]

theorem lookup_unlink_of_ne (hq : q ≠ p) : (h.unlink p).lookup q = h.lookup q := by
  unfold lookup unlink
  split
  · rfl
  · exact AList.lookup_erase_ne hq

@[simp] theorem lookup_setData {x : Bytes} : (h.setData i x).lookup q = h.lookup q := rfl

@[simp] theorem data_setEntry : (h.setEntry p e).data i = h.data i := rfl

@[simp] theorem data_unlink : (h.unlink p).data i = h.data i := rfl

@[simp] theorem data_setData_self {x : Bytes} : (h.setData i x).data i = x := by
  simp [data, setData]

theorem data_setData_of_ne {x : Bytes} (hj : j ≠ i) : (h.setData i x).data j = h.data j := by
  simp [data, setData, hj]

@[simp] theorem nextIno_setEntry : (h.setEntry p e).nextIno = h.nextIno := rfl

@[simp] theorem nextIno_unlink : (h.unlink p).nextIno = h.nextIno := rfl

@[simp] theorem nextIno_setData {x : Bytes} : (h.setData i x).nextIno = h.nextIno := rfl

@[simp] theorem nextIno_newFile : (h.newFile p).nextIno = h.nextIno + 1 := rfl

theorem lookup_newFile_self (hp : p ≠ []) : (h.newFile p).lookup p = some (.file h.nextIno) :=
  lookup_setEntry_self hp

theorem lookup_newFile_of_ne (hq : q ≠ p) : (h.newFile p).lookup q = h.lookup q :=
  lookup_setEntry_of_ne hq

@[simp] theorem data_newFile_self : (h.newFile p).data h.nextIno = [] :=
  data_setData_self (h := h.setEntry p _)

theorem data_newFile_of_ne (hi : i ≠ h.nextIno) : (h.newFile p).data i = h.data i :=
  data_setData_of_ne (h := h.setEntry p _) hi

theorem ne_nil_of_lookup_ne_dir (hp : h.lookup p ≠ some .dir) : p ≠ [] := by
  rintro rfl
  simp at hp

theorem ne_nil_of_lookup_none (hp : h.lookup p = none) : p ≠ [] :=
  ne_nil_of_lookup_ne_dir (h := h) (by simp [hp])

theorem walk_of_not_symlink (hp : ∀ t, h.lookup p ≠ some (.symlink t)) (n : Nat) :
    h.walk n p = p := by
  cases n with
  | zero => rfl
  | succ n =>
    rw [walk]
    split
    · rename_i t ht
      exact absurd ht (hp t)
    · rfl

/-- A path that is not a link leads to itself. -/
theorem final_eq_self (hp : ∀ t, h.lookup p ≠ some (.symlink t)) : h.final p = p :=
  walk_of_not_symlink hp 40

theorem fileAt_eq_some : h.fileAt p = some i ↔ h.lookup (h.final p) = some (.file i) := by
  unfold fileAt
  split <;> simp_all

theorem fileAt_of_lookup (hp : h.lookup p = some (.file i)) : h.fileAt p = some i := by
  rw [fileAt_eq_some, final_eq_self (by simp [hp]), hp]

theorem fileAt_of_lookup_none (hp : h.lookup p = none) : h.fileAt p = none := by
  unfold fileAt
  rw [final_eq_self (by simp [hp]), hp]

/-! ### The outcomes of each operation -/

theorem create_cases (h : Fs) (p : Path) :
    (∃ i, h.fileAt p = some i ∧ h.create p = (.ok i, h.setData i [])) ∨
    (h.lookup (h.final p) = none ∧ h.hasParent (h.final p) = true ∧
      h.create p = (.ok h.nextIno, h.newFile (h.final p))) ∨
    (h.fileAt p = none ∧ ∃ e, h.create p = (.error e, h)) := by
  unfold create
  split
  · rename_i i hi
    exact .inl ⟨i, fileAt_eq_some.2 hi, rfl⟩
  · rename_i hd
    exact .inr (.inr ⟨by simp [fileAt, hd], _, rfl⟩)
  · rename_i hd
    exact .inr (.inr ⟨by simp [fileAt, hd], _, rfl⟩)
  · rename_i hn
    split
    · rename_i hpar
      exact .inr (.inl ⟨hn, hpar, rfl⟩)
    · exact .inr (.inr ⟨by simp [fileAt, hn], _, rfl⟩)

/-- A file that cannot be created leaves everything as it is. -/
theorem create_error {h h' : Fs} {p : Path} {e : IoError} (hc : h.create p = (.error e, h')) : h' = h := by
  rcases create_cases h p with ⟨i, -, hcr⟩ | ⟨-, -, hcr⟩ | ⟨-, e', hcr⟩
  · exact absurd (congrArg Prod.fst (hc.symm.trans hcr)) nofun
  · exact absurd (congrArg Prod.fst (hc.symm.trans hcr)) nofun
  · exact congrArg Prod.snd (hc.symm.trans hcr)

theorem removeFile_cases (h : Fs) (p : Path) :
    (∃ e, h.lookup p = some e ∧ e ≠ .dir ∧ h.removeFile p = (.ok (), h.unlink p)) ∨
    ((h.lookup p = none ∨ h.lookup p = some .dir) ∧ ∃ e, h.removeFile p = (.error e, h)) := by
  unfold removeFile
  split
  · rename_i hn
    exact .inr ⟨.inl hn, _, rfl⟩
  · rename_i hd
    exact .inr ⟨.inr hd, _, rfl⟩
  · rename_i e hd he
    exact .inl ⟨e, he, fun hh => hd (hh ▸ rfl), rfl⟩

theorem rename_cases (h : Fs) (a b : Path) :
    (∃ e, h.lookup a = some e ∧ e ≠ .dir ∧ h.lookup b ≠ some .dir ∧
      h.hasParent b = true ∧ h.rename a b = (.ok (), (h.unlink a).setEntry b e)) ∨
    (∃ i, h.lookup a = some (.file i) ∧ h.lookup b = some (.file i) ∧
      h.rename a b = (.ok (), h)) ∨
    (∃ e, h.rename a b = (.error e, h)) := by
  unfold rename
  split
  · exact .inr (.inr ⟨_, rfl⟩)
  · exact .inr (.inr ⟨_, rfl⟩)
  · rename_i e hd he
    split
    · exact .inr (.inr ⟨_, rfl⟩)
    · rename_i hb
      split
      · rename_i hsame
        cases e with
        | file i => exact .inr (.inl ⟨i, he, hsame.1, rfl⟩)
        | dir => simp [Entry.isFile] at hsame
        | symlink t => simp [Entry.isFile] at hsame
      · split
        · rename_i hpar
          exact .inl ⟨e, he, fun hh => hd (hh ▸ rfl), hb, hpar, rfl⟩
        · exact .inr (.inr ⟨_, rfl⟩)

/-- A file is renamed onto anything but a directory or another name of itself. -/
theorem rename_ok (ha : h.lookup a = some (.file i)) (hb : h.lookup b ≠ some .dir)
    (hne : h.lookup b ≠ some (.file i)) (hpar : h.lookup b.dropLast = some .dir) :
    h.rename a b = (.ok (), (h.unlink a).setEntry b (.file i)) := by
  simp [rename, ha, hb, hne, hasParent, hpar]

theorem hardLink_cases (h : Fs) (a b : Path) :
    (∃ e, h.lookup a = some e ∧ e ≠ .dir ∧ h.lookup b = none ∧ h.hardLinks = true ∧
      h.hasParent b = true ∧ h.hardLink a b = (.ok (), h.setEntry b e)) ∨
    (∃ e, h.hardLink a b = (.error e, h)) := by
  unfold hardLink
  split
  · exact .inr ⟨_, rfl⟩
  · exact .inr ⟨_, rfl⟩
  · rename_i e hd he
    split
    · exact .inr ⟨_, rfl⟩
    · rename_i hb
      split
      · exact .inr ⟨_, rfl⟩
      · rename_i hlinks
        split
        · rename_i hpar
          exact .inl ⟨e, he, fun hh => hd (hh ▸ rfl), by simpa using hb, by simpa using hlinks,
            hpar, rfl⟩
        · exact .inr ⟨_, rfl⟩

theorem copy_cases (h : Fs) (a b : Path) :
    (∃ i j h', h.fileAt a = some i ∧ h.create b = (.ok j, h') ∧
      h.copy a b = (.ok (), h'.setData j (h'.data i))) ∨
    (∃ e, h.copy a b = (.error e, h)) := by
  unfold copy
  split
  · exact .inr ⟨_, rfl⟩
  · rename_i i hi
    split
    · rename_i j h' hc
      exact .inl ⟨i, j, h', hi, hc, rfl⟩
    · rename_i e h' hc
      rcases create_cases h b with ⟨j, -, hj⟩ | ⟨-, -, hj⟩ | ⟨-, e', he'⟩
      · simp [hj] at hc
      · simp [hj] at hc
      · rw [he'] at hc
        cases hc
        exact .inr ⟨_, rfl⟩

theorem write_cases (h : Fs) (p : Path) (x : Bytes) :
    (∃ i h', h.create p = (.ok i, h') ∧ h.write p x = (.ok (), h'.setData i x)) ∨
    (∃ e, h.create p = (.error e, h) ∧ h.write p x = (.error e, h)) := by
  unfold write
  rcases create_cases h p with ⟨i, -, hi⟩ | ⟨-, -, hi⟩ | ⟨-, e, he⟩
  · exact .inl ⟨i, _, hi, by simp [hi]⟩
  · exact .inl ⟨_, _, hi, by simp [hi]⟩
  · exact .inr ⟨e, he, by simp [he]⟩

theorem symlink_cases (h : Fs) (t p : Path) :
    (h.lookup p = none ∧ h.hasParent p = true ∧
      h.symlink t p = (.ok (), h.setEntry p (.symlink t))) ∨
    (∃ e, h.symlink t p = (.error e, h)) := by
  unfold symlink
  split
  · exact .inr ⟨_, rfl⟩
  · rename_i hn
    split
    · rename_i hpar
      exact .inl ⟨by simpa using hn, hpar, rfl⟩
    · exact .inr ⟨_, rfl⟩

theorem makeDirs_spec (base : Path) (cs : List Name) (h : Fs) :
    (∀ q, (h.makeDirs base cs).2.lookup q = h.lookup q ∨
      (h.lookup q = none ∧ (h.makeDirs base cs).2.lookup q = some .dir ∧
        ∃ ds, ds ≠ [] ∧ ds <+: cs ∧ q = base ++ ds)) ∧
    (h.makeDirs base cs).2.inodes = h.inodes ∧ (h.makeDirs base cs).2.nextIno = h.nextIno := by
  induction cs generalizing h base with
  | nil => exact ⟨fun q => .inl rfl, rfl, rfl⟩
  | cons c cs ih =>
    have hpre : ∀ q ds, ds <+: cs → q = base ++ [c] ++ ds →
        ∃ ds', ds' ≠ [] ∧ ds' <+: c :: cs ∧ q = base ++ ds' := fun q ds hds hq =>
      ⟨c :: ds, by simp, (List.cons_prefix_cons).2 ⟨rfl, hds⟩, by simpa using hq⟩
    unfold makeDirs
    split
    · obtain ⟨hl, hrest⟩ := ih (base ++ [c]) h
      refine ⟨fun q => ?_, hrest⟩
      rcases hl q with hq | ⟨hn, hd, ds, -, hds, hq⟩
      · exact .inl hq
      · exact .inr ⟨hn, hd, hpre q ds hds hq⟩
    · rename_i hnone
      obtain ⟨hl, hino, hnext⟩ := ih (base ++ [c]) (h.setEntry (base ++ [c]) .dir)
      refine ⟨fun q => ?_, hino, hnext⟩
      rcases eq_or_ne q (base ++ [c]) with rfl | hne
      · have hself : (h.setEntry (base ++ [c]) .dir).lookup (base ++ [c]) = some .dir :=
          lookup_setEntry_self (by simp)
        rcases hl (base ++ [c]) with hq | ⟨hn, -⟩
        · exact .inr ⟨hnone, hq.trans hself, [c], by simp, by simp, rfl⟩
        · rw [hself] at hn
          cases hn
      · rcases hl q with hq | ⟨hn, hd, ds, -, hds, hq⟩
        · exact .inl (hq.trans (lookup_setEntry_of_ne hne))
        · exact .inr ⟨by rwa [lookup_setEntry_of_ne hne] at hn, hd, hpre q ds hds hq⟩
    · exact ⟨fun q => .inl rfl, rfl, rfl⟩

/-- Where nothing but directories is in the way, all directories are made. -/
theorem makeDirs_ok (base : Path) (cs : List Name) (h : Fs)
    (hfree : ∀ ds, ds ≠ [] → ds <+: cs →
      h.lookup (base ++ ds) = none ∨ h.lookup (base ++ ds) = some .dir) :
    (h.makeDirs base cs).1 = .ok () ∧ ∀ ds, ds ≠ [] → ds <+: cs →
      (h.makeDirs base cs).2.lookup (base ++ ds) = some .dir := by
  induction cs generalizing h base with
  | nil =>
    refine ⟨rfl, fun ds hne hds => ?_⟩
    exact absurd (List.prefix_nil.1 hds) hne
  | cons c cs ih =>
    -- Once `base ++ [c]` is there, the rest is the induction hypothesis one level down.
    have hrest : ∀ h₁ : Fs, h₁.lookup (base ++ [c]) = some .dir →
        (∀ q, q ≠ base ++ [c] → h₁.lookup q = h.lookup q) →
        (h₁.makeDirs (base ++ [c]) cs).1 = .ok () ∧ ∀ ds, ds ≠ [] → ds <+: c :: cs →
          (h₁.makeDirs (base ++ [c]) cs).2.lookup (base ++ ds) = some .dir := by
      intro h₁ hself hsame
      obtain ⟨hok, hdirs⟩ := ih (base ++ [c]) h₁ fun ds hne hds => by
        rw [hsame _ (by simpa using hne)]
        simpa using hfree (c :: ds) (by simp) ((List.cons_prefix_cons).2 ⟨rfl, hds⟩)
      refine ⟨hok, fun ds hne hds => ?_⟩
      rcases ds with _ | ⟨c', ds⟩
      · exact absurd rfl hne
      obtain ⟨rfl, htail⟩ := (List.cons_prefix_cons).1 hds
      rcases eq_or_ne ds [] with rfl | hne'
      · rcases (makeDirs_spec (base ++ [c']) cs h₁).1 (base ++ [c']) with hq | ⟨-, hq, -⟩
        · exact hq.trans hself
        · exact hq
      · simpa using hdirs ds hne' htail
    unfold makeDirs
    split
    · rename_i hd
      exact hrest h hd fun _ _ => rfl
    · exact hrest _ (lookup_setEntry_self (by simp)) fun q hq => lookup_setEntry_of_ne hq
    · rename_i e hnd he
      have hnone := hfree [c] (by simp) (by simp)
      simp only [he, Option.some.injEq, reduceCtorEq, false_or] at hnone
      exact absurd hnone hnd

theorem createDirAll_ok (hfree : ∀ q, q <+: p → h.lookup q = none ∨ h.lookup q = some .dir) :
    (h.createDirAll p).1 = .ok () ∧ ∀ q, q <+: p → (h.createDirAll p).2.lookup q = some .dir := by
  obtain ⟨hok, hdirs⟩ := makeDirs_ok [] p h fun ds _ hds => hfree _ hds
  refine ⟨hok, fun q hq => ?_⟩
  rcases eq_or_ne q [] with rfl | hne
  · exact lookup_nil
  · exact hdirs q hne hq

/-- When directories were made, all of them are there. -/
theorem makeDirs_dirs (base : Path) (cs : List Name) (h : Fs) (hok : (h.makeDirs base cs).1 = .ok ())
    (ds : List Name) (hne : ds ≠ []) (hds : ds <+: cs) :
    (h.makeDirs base cs).2.lookup (base ++ ds) = some .dir := by
  induction cs generalizing base h ds with
  | nil => exact absurd (List.prefix_nil.1 hds) hne
  | cons c cs ih =>
    rcases ds with _ | ⟨c', ds⟩
    · exact absurd rfl hne
    obtain ⟨rfl, htail⟩ := (List.cons_prefix_cons).1 hds
    -- The directory `base ++ [c']` is there before the rest is made, and stays.
    have hrest : ∀ h₁ : Fs, h₁.lookup (base ++ [c']) = some .dir →
        (h₁.makeDirs (base ++ [c']) cs).1 = .ok () →
        (h₁.makeDirs (base ++ [c']) cs).2.lookup (base ++ c' :: ds) = some .dir := by
      intro h₁ hself hok
      rcases eq_or_ne ds [] with rfl | hne'
      · rcases (makeDirs_spec (base ++ [c']) cs h₁).1 (base ++ [c']) with hq | ⟨-, hq, -⟩
        · exact hq.trans hself
        · exact hq
      · simpa using ih (base ++ [c']) h₁ hok ds hne' htail
    unfold makeDirs at hok ⊢
    split at hok
    · rename_i hd
      exact hrest h hd hok
    · exact hrest _ (lookup_setEntry_self (by simp)) hok
    · cases hok

theorem createDirAll_dirs (hok : (h.createDirAll p).1 = .ok ()) {q : Path} (hq : q <+: p) :
    (h.createDirAll p).2.lookup q = some .dir := by
  rcases eq_or_ne q [] with rfl | hne
  · exact lookup_nil
  · exact makeDirs_dirs [] p h hok q hne hq

theorem hardLinks_makeDirs (base : Path) (cs : List Name) (h : Fs) :
    (h.makeDirs base cs).2.hardLinks = h.hardLinks := by
  induction cs generalizing base h with
  | nil => rfl
  | cons c cs ih =>
    unfold makeDirs
    split
    · exact ih _ _
    · exact ih _ _
    · rfl

/-- Only the directories asked for are new. -/
theorem lookup_createDirAll_of_not_prefix {q : Path} (hq : ¬ q <+: p) :
    (h.createDirAll p).2.lookup q = h.lookup q := by
  rcases (makeDirs_spec [] p h).1 q with h1 | ⟨-, -, ds, -, hds, rfl⟩
  · exact h1
  · exact absurd hds hq

/-- Making directories that exist is no change. -/
theorem makeDirs_of_dirs (base : Path) (cs : List Name) (h : Fs)
    (hdirs : ∀ ds, ds ≠ [] → ds <+: cs → h.lookup (base ++ ds) = some .dir) :
    h.makeDirs base cs = (.ok (), h) := by
  induction cs generalizing base with
  | nil => rfl
  | cons c cs ih =>
    rw [makeDirs, hdirs [c] (by simp) (by simp)]
    refine ih (base ++ [c]) fun ds hne hds => ?_
    have := hdirs (c :: ds) (by simp) ((List.cons_prefix_cons).2 ⟨rfl, hds⟩)
    simpa using this

theorem createDirAll_of_dirs (hdirs : ∀ q, q <+: p → h.lookup q = some .dir) :
    h.createDirAll p = (.ok (), h) :=
  makeDirs_of_dirs [] p h fun _ _ hds => hdirs _ hds

/-- Only a directory, a chain of links or a missing parent keeps a file from being created. -/
theorem create_ok (hlink : ∀ t, h.lookup p ≠ some (.symlink t)) (hdir : h.lookup p ≠ some .dir)
    (hpar : h.lookup p.dropLast = some .dir) : ∃ i h', h.create p = (.ok i, h') := by
  unfold create
  rw [final_eq_self hlink]
  split
  · exact ⟨_, _, rfl⟩
  · rename_i hd
    exact absurd hd hdir
  · rename_i t ht
    exact absurd ht (hlink t)
  · rw [if_pos (by simp [hasParent, hpar])]
    exact ⟨_, _, rfl⟩

/-- What a call may do to all paths together. -/
inductive Effect (h h' : Fs) : Call → Prop
  | keep (o : Call) (hl : ∀ q, h'.lookup q = h.lookup q) : Effect h h' o
  | newFile (o : Call) (p : Path)
      (ho : o = .create p ∨ (∃ x, o = .write p x) ∨ ∃ a, o = .copy a p)
      (hnone : h.lookup (h.final p) = none)
      (hl : ∀ q, h'.lookup q = if q = h.final p then some (.file h.nextIno) else h.lookup q)
      (hnext : h'.nextIno = h.nextIno + 1) : Effect h h' o
  | newDirs (p : Path)
      (hl : ∀ q, h'.lookup q = h.lookup q ∨
        (h.lookup q = none ∧ h'.lookup q = some .dir ∧ q <+: p)) : Effect h h' (.createDirAll p)
  | link (a b : Path) (e : Entry) (ha : h.lookup a = some e) (he : e ≠ .dir)
      (hb : h.lookup b = none) (hl : ∀ q, h'.lookup q = if q = b then some e else h.lookup q) :
      Effect h h' (.hardLink a b)
  | symlink (t p : Path) (hp : h.lookup p = none)
      (hl : ∀ q, h'.lookup q = if q = p then some (.symlink t) else h.lookup q) :
      Effect h h' (.symlink t p)
  | remove (p : Path) (e : Entry) (hp : h.lookup p = some e) (he : e ≠ .dir)
      (hl : ∀ q, h'.lookup q = if q = p then none else h.lookup q) : Effect h h' (.removeFile p)
  | rename (a b : Path) (e : Entry) (ha : h.lookup a = some e) (he : e ≠ .dir)
      (hb : h.lookup b ≠ some .dir)
      (hl : ∀ q, h'.lookup q = if q = b then some e else if q = a then none else h.lookup q) :
      Effect h h' (.rename a b)

theorem lookup_setEntry (hp : p ≠ []) (q : Path) :
    (h.setEntry p e).lookup q = if q = p then some e else h.lookup q := by
  split
  · rename_i hq
    rw [hq, lookup_setEntry_self hp]
  · rename_i hq
    exact lookup_setEntry_of_ne hq

theorem lookup_unlink (hp : p ≠ []) (q : Path) :
    (h.unlink p).lookup q = if q = p then none else h.lookup q := by
  split
  · rename_i hq
    rw [hq, lookup_unlink_self hp]
  · rename_i hq
    exact lookup_unlink_of_ne hq

/-- Creating the file that a path leads to. -/
theorem effect_of_create {x : Bytes} {o : Call}
    (ho : o = .create p ∨ (∃ x, o = .write p x) ∨ ∃ a, o = .copy a p)
    (hc : h.create p = (.ok j, h')) :
    Effect h h' o ∧ Effect h (h'.setData j x) o := by
  rcases create_cases h p with ⟨i, -, hi⟩ | ⟨hn, -, hi⟩ | ⟨-, e, he⟩
  · rw [hi] at hc
    cases hc
    exact ⟨.keep _ fun _ => rfl, .keep _ fun _ => rfl⟩
  · rw [hi] at hc
    cases hc
    have hl := lookup_setEntry (h := h) (e := .file h.nextIno) (ne_nil_of_lookup_none hn)
    exact ⟨.newFile _ p ho hn hl rfl, .newFile _ p ho hn hl rfl⟩
  · rw [he] at hc
    cases hc

theorem effect_write (h : Fs) (p : Path) (x y : Bytes) :
    Effect h (h.write p x).2 (.write p y) := by
  rcases write_cases h p x with ⟨i, h', hc, hw⟩ | ⟨e, -, hw⟩
  · rw [hw]
    exact (effect_of_create (.inr (.inl ⟨y, rfl⟩)) hc).2
  · rw [hw]
    exact .keep _ fun _ => rfl

theorem effect_makeDirs (h : Fs) {p p' : Path} (hp : p <+: p') :
    Effect h (h.createDirAll p).2 (.createDirAll p') := by
  refine .newDirs p' fun q => ?_
  rcases (makeDirs_spec [] p h).1 q with hq | ⟨hn, hd, ds, -, hds, hq⟩
  · exact .inl hq
  · exact .inr ⟨hn, hd, by simpa [hq] using hds.trans hp⟩

theorem effect_exec (o : Call) (h : Fs) : Effect h (exec o h).2 o := by
  cases o with
  | create p =>
    change Effect h (h.create p).2 _
    rcases hc : h.create p with ⟨r, h'⟩
    cases r with
    | ok j => exact (effect_of_create (x := []) (.inl rfl) hc).1
    | error e =>
      rcases create_cases h p with ⟨i, -, hi⟩ | ⟨-, -, hi⟩ | ⟨-, e', he⟩
      · simp [hi] at hc
      · simp [hi] at hc
      · rw [he] at hc
        cases hc
        exact .keep _ fun _ => rfl
  | write p x => exact effect_write h p x x
  | rename a b =>
    change Effect h (h.rename a b).2 _
    rcases rename_cases h a b with ⟨e, ha, he, hb, -, hr⟩ | ⟨i, -, -, hr⟩ | ⟨e, hr⟩
    · rw [hr]
      refine .rename a b e ha he hb fun q => ?_
      have hane : a ≠ [] := ne_nil_of_lookup_ne_dir (h := h) (by simpa [ha] using he)
      change ((h.unlink a).setEntry b e).lookup q = _
      rw [lookup_setEntry (ne_nil_of_lookup_ne_dir hb), lookup_unlink hane]
    · rw [hr]
      exact .keep _ fun _ => rfl
    · rw [hr]
      exact .keep _ fun _ => rfl
  | removeFile p =>
    change Effect h (h.removeFile p).2 _
    rcases removeFile_cases h p with ⟨e, hp, he, hr⟩ | ⟨-, e, hr⟩
    · rw [hr]
      exact .remove p e hp he
        (lookup_unlink (ne_nil_of_lookup_ne_dir (h := h) (by simpa [hp] using he)))
    · rw [hr]
      exact .keep _ fun _ => rfl
  | hardLink a b =>
    change Effect h (h.hardLink a b).2 _
    rcases hardLink_cases h a b with ⟨e, ha, he, hb, -, -, hr⟩ | ⟨e, hr⟩
    · rw [hr]
      exact .link a b e ha he hb
        (lookup_setEntry (ne_nil_of_lookup_none hb))
    · rw [hr]
      exact .keep _ fun _ => rfl
  | copy a b =>
    change Effect h (h.copy a b).2 _
    rcases copy_cases h a b with ⟨i, j, h', -, hc, hr⟩ | ⟨e, hr⟩
    · rw [hr]
      exact (effect_of_create (.inr (.inr ⟨a, rfl⟩)) hc).2
    · rw [hr]
      exact .keep _ fun _ => rfl
  | symlink t p =>
    change Effect h (h.symlink t p).2 _
    rcases symlink_cases h t p with ⟨hn, -, hr⟩ | ⟨e, hr⟩
    · rw [hr]
      exact .symlink t p hn (lookup_setEntry (ne_nil_of_lookup_none hn))
    · rw [hr]
      exact .keep _ fun _ => rfl
  | createDirAll p => exact effect_makeDirs h (List.prefix_refl p)
  | _ => exact .keep _ fun _ => rfl

/-- Whatever comes of a call, it changes the paths only as `Effect` says. -/
theorem Answers.effect {o : Call} {r : Reply o} (hs : Answers o h r h') : Effect h h' o := by
  rcases hs with hs | hf
  · have := effect_exec o h
    rwa [hs] at this
  · cases hf with
    | writePart _ p b n e => exact effect_write h p _ _
    | createDirAll _ p n e => exact effect_makeDirs h (List.take_prefix n p)
    | copyPart _ h₁ a b i j n e hsrc hdst =>
      exact (effect_of_create (.inr (.inr ⟨a, rfl⟩)) hdst).2
    | _ => exact .keep _ fun _ => rfl

/-! ### What may become of the bytes of a file -/

/-- The call may write the file `i`. -/
def Writes (h : Fs) (i : Ino) : Call → Prop
  | .create p | .write p _ | .copy _ p => h.fileAt p = some i
  | .writeAt j _ _ => j = i
  | _ => False

theorem inodes_create (hc : h.create p = (.ok j, h')) (hi : i < h.nextIno)
    (hp : h.fileAt p ≠ some i) : i ≠ j ∧ h'.inodes i = h.inodes i := by
  rcases create_cases h p with ⟨k, hk, hcr⟩ | ⟨-, -, hcr⟩ | ⟨-, e, hcr⟩
  · rw [hcr] at hc
    cases hc
    have hne : i ≠ j := by
      rintro rfl
      exact hp hk
    exact ⟨hne, Function.update_of_ne hne ..⟩
  · rw [hcr] at hc
    cases hc
    exact ⟨hi.ne, Function.update_of_ne hi.ne ..⟩
  · rw [hcr] at hc
    cases hc

theorem create_frame (hc : h.create p = (.ok j, h')) :
    h.nextIno ≤ h'.nextIno ∧ (h.fileAt p = some j ∨ j = h.nextIno) ∧ h'.data j = [] ∧
      ∀ i, i < h.nextIno → h.fileAt p ≠ some i → i ≠ j ∧ h'.data i = h.data i := by
  have hother : ∀ i, i < h.nextIno → h.fileAt p ≠ some i → i ≠ j ∧ h'.data i = h.data i :=
    fun i hi hp => (inodes_create hc hi hp).imp_right (congrArg Inode.data)
  rcases create_cases h p with ⟨i, hi, hcr⟩ | ⟨hn, -, hcr⟩ | ⟨-, e, he⟩
  · rw [hcr] at hc
    cases hc
    exact ⟨le_rfl, .inl hi, data_setData_self, hother⟩
  · rw [hcr] at hc
    cases hc
    exact ⟨Nat.le_succ _, .inr rfl, data_newFile_self, hother⟩
  · rw [he] at hc
    cases hc

theorem create_lookup (hc : h.create p = (.ok j, h')) (hfinal : h.final p = p) :
    h'.lookup p = some (.file j) ∧ ∀ q, q ≠ p → h'.lookup q = h.lookup q := by
  rcases create_cases h p with ⟨i, hi, hcr⟩ | ⟨hn, -, hcr⟩ | ⟨-, e, he⟩
  · rw [hcr] at hc
    cases hc
    rw [fileAt_eq_some, hfinal] at hi
    exact ⟨hi, fun _ _ => rfl⟩
  · rw [hcr] at hc
    cases hc
    rw [hfinal] at hn ⊢
    exact ⟨lookup_newFile_self (ne_nil_of_lookup_none hn), fun q hq => lookup_newFile_of_ne hq⟩
  · rw [he] at hc
    cases hc

/-- What a path names it still names when a file is created. -/
theorem lookup_create_of_some {q : Path} {e : Entry} (hq : h.lookup q = some e) :
    (h.create p).2.lookup q = some e := by
  rcases create_cases h p with ⟨i, -, hcr⟩ | ⟨hn, -, hcr⟩ | ⟨-, _, hcr⟩
  · rw [hcr]
    exact hq
  · have hne : q ≠ h.final p := by
      rintro rfl
      rw [hn] at hq
      cases hq
    rw [hcr]
    exact (lookup_newFile_of_ne hne).trans hq
  · rw [hcr]
    exact hq

theorem counters_create (hc : h.create p = (.ok j, h')) : h'.counters = h.counters := by
  rcases create_cases h p with ⟨i, -, hcr⟩ | ⟨-, -, hcr⟩ | ⟨-, e, he⟩
  · rw [hcr] at hc
    cases hc
    rfl
  · rw [hcr] at hc
    cases hc
    rfl
  · rw [he] at hc
    cases hc

/-- Writing at the end appends. -/
theorem patch_length (old b : Bytes) : patch old old.length b = old ++ b := by simp [patch]

theorem inodes_write (h : Fs) (p : Path) (x : Bytes) (hi : i < h.nextIno)
    (hp : h.fileAt p ≠ some i) : (h.write p x).2.inodes i = h.inodes i := by
  rcases write_cases h p x with ⟨j, h', hc, hw⟩ | ⟨e, -, hw⟩
  · obtain ⟨hne, hsame⟩ := inodes_create hc hi hp
    rw [hw]
    exact (Function.update_of_ne hne ..).trans hsame
  · rw [hw]

theorem write_frame (h : Fs) (p : Path) (x : Bytes) :
    h.nextIno ≤ (h.write p x).2.nextIno ∧
      ∀ i, i < h.nextIno → h.fileAt p ≠ some i → (h.write p x).2.data i = h.data i := by
  refine ⟨?_, fun i hi hp => congrArg Inode.data (inodes_write h p x hi hp)⟩
  rcases write_cases h p x with ⟨j, h', hc, hw⟩ | ⟨e, -, hw⟩
  · rw [hw]
    exact (create_frame hc).1
  · rw [hw]

theorem copy_frame (hdst : h.create b = (.ok j, h')) (x : Bytes) :
    h.nextIno ≤ (h'.setData j x).nextIno ∧
      ∀ i, i < h.nextIno → h.fileAt b ≠ some i → (h'.setData j x).data i = h.data i := by
  obtain ⟨hle, -, -, hdata⟩ := create_frame hdst
  refine ⟨hle, fun i hi hne => ?_⟩
  obtain ⟨hij, hd⟩ := hdata i hi hne
  exact (data_setData_of_ne hij).trans hd

theorem nextIno_exec (o : Call) (h : Fs) : h.nextIno ≤ (exec o h).2.nextIno := by
  cases o with
  | create p =>
    change _ ≤ (h.create p).2.nextIno
    rcases create_cases h p with ⟨i, -, hcr⟩ | ⟨-, -, hcr⟩ | ⟨-, e, hcr⟩
    · rw [hcr]
      exact le_rfl
    · rw [hcr]
      exact Nat.le_succ _
    · rw [hcr]
  | write p x => exact (write_frame h p x).1
  | rename a b =>
    change _ ≤ (h.rename a b).2.nextIno
    rcases rename_cases h a b with ⟨e, -, -, -, -, hr⟩ | ⟨i, -, -, hr⟩ | ⟨e, hr⟩ <;>
      exact (congrArg (fun x => x.2.nextIno) hr).ge
  | removeFile p =>
    change _ ≤ (h.removeFile p).2.nextIno
    rcases removeFile_cases h p with ⟨e, -, -, hr⟩ | ⟨-, e, hr⟩ <;>
      exact (congrArg (fun x => x.2.nextIno) hr).ge
  | hardLink a b =>
    change _ ≤ (h.hardLink a b).2.nextIno
    rcases hardLink_cases h a b with ⟨e, -, -, -, -, -, hr⟩ | ⟨e, hr⟩ <;>
      exact (congrArg (fun x => x.2.nextIno) hr).ge
  | copy a b =>
    change _ ≤ (h.copy a b).2.nextIno
    rcases copy_cases h a b with ⟨i, j, h', -, hc, hr⟩ | ⟨e, hr⟩
    · rw [hr]
      exact (copy_frame hc _).1
    · rw [hr]
  | symlink t p =>
    change _ ≤ (h.symlink t p).2.nextIno
    rcases symlink_cases h t p with ⟨-, -, hr⟩ | ⟨e, hr⟩ <;>
      exact (congrArg (fun x => x.2.nextIno) hr).ge
  | createDirAll p => exact (makeDirs_spec [] p h).2.2.ge
  | _ => exact le_rfl

/-- A call changes only the files that it may write, and new ones. -/
theorem inodes_exec (o : Call) (h : Fs) (hi : i < h.nextIno) (hw : ¬ Writes h i o) :
    (exec o h).2.inodes i = h.inodes i := by
  cases o with
  | create p =>
    change (h.create p).2.inodes i = _
    rcases hc : h.create p with ⟨r, h'⟩
    rcases create_cases h p with ⟨j, -, hcr⟩ | ⟨-, -, hcr⟩ | ⟨-, e, hcr⟩
    · exact (inodes_create hcr hi hw).2 ▸ congrArg (fun x => x.2.inodes i) (hc.symm.trans hcr)
    · exact (inodes_create hcr hi hw).2 ▸ congrArg (fun x => x.2.inodes i) (hc.symm.trans hcr)
    · exact congrArg (fun x => x.2.inodes i) (hc.symm.trans hcr)
  | write p x => exact inodes_write h p x hi hw
  | writeAt j off x => exact Function.update_of_ne (fun hij => hw hij.symm) ..
  | rename a b =>
    change (h.rename a b).2.inodes i = _
    rcases rename_cases h a b with ⟨e, -, -, -, -, hr⟩ | ⟨j, -, -, hr⟩ | ⟨e, hr⟩ <;>
      exact congrArg (fun x => x.2.inodes i) hr
  | removeFile p =>
    change (h.removeFile p).2.inodes i = _
    rcases removeFile_cases h p with ⟨e, -, -, hr⟩ | ⟨-, e, hr⟩ <;>
      exact congrArg (fun x => x.2.inodes i) hr
  | hardLink a b =>
    change (h.hardLink a b).2.inodes i = _
    rcases hardLink_cases h a b with ⟨e, -, -, -, -, -, hr⟩ | ⟨e, hr⟩ <;>
      exact congrArg (fun x => x.2.inodes i) hr
  | copy a b =>
    change (h.copy a b).2.inodes i = _
    rcases copy_cases h a b with ⟨k, j, h', -, hc, hr⟩ | ⟨e, hr⟩
    · obtain ⟨hne, hsame⟩ := inodes_create hc hi hw
      rw [hr]
      exact (Function.update_of_ne hne ..).trans hsame
    · rw [hr]
  | symlink t p =>
    change (h.symlink t p).2.inodes i = _
    rcases symlink_cases h t p with ⟨-, -, hr⟩ | ⟨e, hr⟩ <;>
      exact congrArg (fun x => x.2.inodes i) hr
  | createDirAll p => exact congrFun (makeDirs_spec [] p h).2.1 i
  | _ => rfl

theorem frame_exec (o : Call) (h : Fs) :
    h.nextIno ≤ (exec o h).2.nextIno ∧
      ∀ i, i < h.nextIno → ¬ Writes h i o → (exec o h).2.data i = h.data i :=
  ⟨nextIno_exec o h, fun _ hi hw => congrArg Inode.data (inodes_exec o h hi hw)⟩

theorem Answers.frame {o : Call} {r : Reply o} (hs : Answers o h r h') :
    h.nextIno ≤ h'.nextIno ∧ ∀ i, i < h.nextIno → ¬ Writes h i o → h'.data i = h.data i := by
  rcases hs with hs | hf
  · have := frame_exec o h
    rwa [hs] at this
  · cases hf with
    | writeAt _ j off b n e =>
      exact ⟨le_rfl, fun i _ hne => data_setData_of_ne (fun hij => hne hij.symm)⟩
    | writePart _ p b n e => exact write_frame h p _
    | createDirAll _ p n e =>
      obtain ⟨-, hino, hnext⟩ := makeDirs_spec [] (p.take n) h
      exact ⟨hnext.ge, fun i _ _ => congrArg (fun inodes => (inodes i).data) hino⟩
    | copyPart _ h₁ a b i j n e hsrc hdst => exact copy_frame hdst _
    | _ => exact ⟨le_rfl, fun _ _ _ => rfl⟩

end Fs

end Host
