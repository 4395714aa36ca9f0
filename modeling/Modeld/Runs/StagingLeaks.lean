import Modeld.Runs.FaultyRuns
import Modeld.Runs.PulledTags

/-!
# What a failed store or pull leaves behind

A call of `store_blob` or `run_pull` makes one staging file. When the call returns the file is gone,
and an error leaves every tag and every blob as it was, as long as the calls succeed that neither
function cleans up after.
-/

namespace Modeld

open Host Program

variable {sha : Sha256} {root : Path} {P : Path → Prop} {h₀ h h' : Fs} {o : Call} {r : Reply o}
  {p q : Path} {i : Ino} {d : String}

/-- The path is in the staging directory. -/
def Incoming (root q : Path) : Prop := root ++ [Dir.cas, Dir.incoming] <+: q

/-- The call puts a file at the path. -/
def PutsFile : Call → Path → Prop
  | .create p, q | .write p _, q | .copy _ p, q | .hardLink _ p, q | .rename _ p, q => q = p
  | _, _ => False

/-- Since `h₀` staging files were made at `P` only, and what was stored is stored. -/
structure Undisturbed (root : Path) (P : Path → Prop) (h₀ h : Fs) : Prop where
  wellFormed : WellFormed root h
  staged : ∀ q i, Incoming root q → h.lookup q = some (.file i) →
    P q ∨ h₀.lookup q = some (.file i)
  stored : ∀ d, IsDigest d → (CasStore.mk root).Stored h₀ d → (CasStore.mk root).Stored h d

/-- The call keeps to the layout, removes no name of a digest, and stages at `P` only. -/
structure Orderly (root : Path) (P : Path → Prop) (o : Call) : Prop where
  tidy : Tidy root o
  removes : ∀ q, o = .removeFile q → Unnamed root q
  puts : ∀ q, PutsFile o q → Incoming root q → P q

/-- The call touches no tag. -/
def KeepsTags (root : Path) (o : Call) : Prop :=
  Avoids (root ++ [Dir.tags]) o ∧ ∀ i off b, o ≠ .writeAt i off b

/-! ### One call -/

/-- A file is where it was, or was put there. -/
private theorem file_of_answers (hw : WellFormed root h) (ht : Tidy root o)
    (ha : Fs.Answers o h r h') (hi : h'.lookup q = some (.file i)) :
    h.lookup q = some (.file i) ∨ PutsFile o q := by
  cases ha.effect with
  | keep o hl => exact .inl ((hl q).symm.trans hi)
  | newFile o a ho hnone hl hnext =>
    have htidy : root <+: a ∧ ¬ LinkPlace root a := by
      rcases ho with rfl | ⟨y, rfl⟩ | ⟨c, rfl⟩ <;> exact ht
    rw [hw.final_eq htidy.1 htidy.2] at hl
    by_cases hq : q = a
    · right
      rcases ho with rfl | ⟨y, rfl⟩ | ⟨c, rfl⟩ <;> exact hq
    · rw [hl, if_neg hq] at hi
      exact .inl hi
  | newDirs a hl =>
    rcases hl q with hsame | ⟨-, hdir, -⟩
    · exact .inl (hsame.symm.trans hi)
    · rw [hdir] at hi
      cases hi
  | link a b e he hdir hnone hl =>
    by_cases hq : q = b
    · exact .inr hq
    · rw [hl, if_neg hq] at hi
      exact .inl hi
  | symlink t a hnone hl =>
    by_cases hq : q = a
    · rw [hl, if_pos hq] at hi
      cases hi
    · rw [hl, if_neg hq] at hi
      exact .inl hi
  | remove a e he hdir hl =>
    rw [hl] at hi
    split at hi
    · cases hi
    · exact .inl hi
  | rename a b e he hdir hnot hl =>
    by_cases hq : q = b
    · exact .inr hq
    · rw [hl, if_neg hq] at hi
      split at hi
      · cases hi
      · exact .inl hi

/-- A name of a digest stays, unless it is removed. -/
private theorem name_of_answers (hw : WellFormed root h) (ht : Tidy root o)
    (hremoves : ∀ q, o = .removeFile q → q ≠ p) (ha : Fs.Answers o h r h') (hd : IsDigest d)
    (hp : (CasStore.mk root).Names d p) (hi : h.lookup p = some (.file i)) :
    ∃ j, h'.lookup p = some (.file j) := by
  cases ha.effect with
  | keep o hl => exact ⟨i, (hl p).trans hi⟩
  | newFile o a ho hnone hl hnext =>
    have hne : p ≠ h.final a := by
      rintro rfl
      rw [hi] at hnone
      cases hnone
    exact ⟨i, by rw [hl, if_neg hne, hi]⟩
  | newDirs a hl =>
    rcases hl p with hsame | ⟨hnone, -, -⟩
    · exact ⟨i, hsame.trans hi⟩
    · rw [hi] at hnone
      cases hnone
  | link a b e he hdir hnone hl =>
    have hne : p ≠ b := by
      rintro rfl
      rw [hi] at hnone
      cases hnone
    exact ⟨i, by rw [hl, if_neg hne, hi]⟩
  | symlink t a hnone hl =>
    have hne : p ≠ a := by
      rintro rfl
      rw [hi] at hnone
      cases hnone
    exact ⟨i, by rw [hl, if_neg hne, hi]⟩
  | remove a e he hdir hl => exact ⟨i, by rw [hl, if_neg (hremoves a rfl).symm, hi]⟩
  | rename a b e he hdir hnot hl =>
    obtain ⟨hroot, hlink, -, hun⟩ := ht
    have hne : p ≠ a := by
      rintro rfl
      exact hun d hd hp
    obtain ⟨j, rfl⟩ := hw.isFile_of_lookup hroot hlink he hdir
    by_cases hb : p = b
    · exact ⟨j, by rw [hl, if_pos hb]⟩
    · exact ⟨i, by rw [hl, if_neg hb, if_neg hne, hi]⟩

/-- A call that removes a name leaves its digest another one. -/
theorem Undisturbed.answers_of_names (hu : Undisturbed root P h₀ h) (ht : Tidy root o)
    (hremoves : ∀ q, o = .removeFile q → ∀ d, IsDigest d → (CasStore.mk root).Names d q →
      ∃ p j, p ≠ q ∧ (CasStore.mk root).Names d p ∧ h.lookup p = some (.file j))
    (hputs : ∀ q, PutsFile o q → Incoming root q → P q) (ha : Fs.Answers o h r h') :
    Undisturbed root P h₀ h' := by
  refine ⟨hu.wellFormed.answers ht ha, fun q i hq hi => ?_, fun d hd hs => ?_⟩
  · rcases file_of_answers hu.wellFormed ht ha hi with hold | hput
    · exact hu.staged q i hq hold
    · exact .inl (hputs q hput hq)
  · obtain ⟨p, j, hp, hj⟩ := hu.stored d hd hs
    by_cases hremoved : o = .removeFile p
    · obtain ⟨p', j', hne, hp', hj'⟩ := hremoves p hremoved d hd hp
      have hother : ∀ q, o = .removeFile q → q ≠ p' := by
        intro q hq heq
        exact hne (heq.symm.trans (Call.removeFile.inj (hq.symm.trans hremoved)))
      obtain ⟨k, hk⟩ := name_of_answers hu.wellFormed ht hother ha hd hp' hj'
      exact ⟨p', k, hp', hk⟩
    · have hother : ∀ q, o = .removeFile q → q ≠ p := by
        intro q hq heq
        exact hremoved (heq ▸ hq)
      obtain ⟨k, hk⟩ := name_of_answers hu.wellFormed ht hother ha hd hp hj
      exact ⟨p, k, hp, hk⟩

theorem Undisturbed.answers (hu : Undisturbed root P h₀ h) (ho : Orderly root P o)
    (ha : Fs.Answers o h r h') : Undisturbed root P h₀ h' :=
  hu.answers_of_names ho.tidy (fun q hq d hd hp => absurd hp (ho.removes q hq d hd)) ho.puts ha

/-- Calls that touch no tag. -/
theorem SameTags.answers (hs : SameTags root h₀ h) (hw : WellFormed root h) (ht : Tidy root o)
    (ho : KeepsTags root o) (ha : Fs.Answers o h r h') : SameTags root h₀ h' := by
  have harea : SameArea root Dir.tags h h' :=
    ⟨fun q hq => ho.1.lookup_eq ht hw ha hq,
      fun q i hq hi => ho.1.data_eq ht hw ha hq hi (ho.2 i)⟩
  exact fun n t => (harea.sameTags n t).trans (hs n t)

theorem Undisturbed.refl (hw : WellFormed root h) : Undisturbed root (fun _ => False) h h :=
  ⟨hw, fun _ _ _ hi => .inr hi, fun _ _ hs => hs⟩

/-- The one staging file is gone. -/
theorem Undisturbed.drop (hu : Undisturbed root (· = p) h₀ h) (hp : h.lookup p = none) :
    Undisturbed root (fun _ => False) h₀ h := by
  refine ⟨hu.wellFormed, fun q i hq hi => ?_, hu.stored⟩
  rcases hu.staged q i hq hi with rfl | hold
  · rw [hp] at hi
    cases hi
  · exact .inr hold

theorem Undisturbed.mono (hu : Undisturbed root (fun _ => False) h₀ h) :
    Undisturbed root P h₀ h :=
  ⟨hu.wellFormed, fun q i hq hi => (hu.staged q i hq hi).imp_left False.elim, hu.stored⟩

/-! ### Staging files -/

theorem StagePlace.incoming (hp : StagePlace root p) : Incoming root p := by
  obtain ⟨n, rfl⟩ := hp
  exact ⟨[n], by simp⟩

theorem StagePlace.orderly_remove (hp : StagePlace root p) : Orderly root P (.removeFile p) := by
  refine ⟨trivial, fun q hq => ?_, fun _ hq => hq.elim⟩
  rw [← Call.removeFile.inj hq]
  exact hp.unnamed

theorem StagePlace.keepsTags_remove (hp : StagePlace root p) : KeepsTags root (.removeFile p) :=
  ⟨not_under hp.in_cas (by decide), nofun⟩

theorem StagePlace.orderly_rename (hp : StagePlace root p) (hd : IsDigest d)
    (hq : (CasStore.mk root).Names d q) : Orderly root P (.rename p q) :=
  ⟨⟨hp.under, hp.not_linkPlace, hq.not_linkPlace hd, hp.unnamed⟩, nofun,
    fun _ heq hin => absurd (heq ▸ hin) (hq.onShelf hd).2⟩

theorem StagePlace.keepsTags_rename (hp : StagePlace root p) (hd : IsDigest d)
    (hq : (CasStore.mk root).Names d q) : KeepsTags root (.rename p q) :=
  ⟨⟨not_under hp.in_cas (by decide), not_under (hq.in_cas hd) (by decide)⟩, nofun⟩

/-- What is removed is gone. -/
private theorem lookup_removed (ha : Fs.Answers (.removeFile p) h (.ok ()) h') :
    h'.lookup p = none := by
  rcases ha with hexec | hfault
  · rcases Fs.removeFile_cases h p with ⟨e, he, hdir, hr⟩ | ⟨-, e, hr⟩
    · have hnil : p ≠ [] := by
        rintro rfl
        rw [Fs.lookup_nil] at he
        exact hdir (Option.some.inj he).symm
      cases hexec.symm.trans hr
      exact Fs.lookup_unlink_self hnil
    · cases hexec.symm.trans hr
  · cases hfault

/-- A file that cannot be created is not there. -/
private theorem create_failed {e : IoError} (ha : Fs.Answers (.create p) h (.error e) h') :
    h' = h := by
  rcases ha with hexec | hfault
  · exact Fs.create_error hexec
  · cases hfault
    rfl

/-- The state of a call whose staging file is open. -/
structure Staging (root p : Path) (i : Ino) (h₀ h : Fs) : Prop where
  undisturbed : Undisturbed root (· = p) h₀ h
  tags : SameTags root h₀ h
  lookup : h.lookup p = some (.file i)

theorem Staging.created (hp : StagePlace root p) (hu : Undisturbed root (fun _ => False) h₀ h)
    (hs : SameTags root h₀ h) (ha : Fs.Answers (.create p) h (.ok i) h') :
    Staging root p i h₀ h' := by
  have horderly : Orderly root (· = p) (.create p) :=
    ⟨⟨hp.under, hp.not_linkPlace⟩, nofun, fun q hq _ => hq⟩
  have hkeeps : KeepsTags root (.create p) := ⟨not_under hp.in_cas (by decide), nofun⟩
  exact ⟨hu.mono.answers horderly ha, hs.answers hu.wellFormed horderly.tidy hkeeps ha,
    (hp.created hu.wellFormed ha).lookup⟩

/-- Writing to the staging file. -/
theorem Staging.writeAt {off : Nat} {b : Bytes} {r : Except IoError Unit}
    (hs : Staging root p i h₀ h) (hp : StagePlace root p)
    (ha : Fs.Answers (.writeAt i off b) h r h') : Staging root p i h₀ h' := by
  have hw := hs.undisturbed.wellFormed
  have hl : ∀ q, h'.lookup q = h.lookup q := by
    rcases ha with hexec | hfault
    · cases hexec
      exact fun _ => rfl
    · cases hfault
      exact fun _ => rfl
  have htidy : Tidy root (.writeAt i off b) := trivial
  refine ⟨hs.undisturbed.answers ⟨htidy, nofun, nofun⟩ ha, fun n t => ?_, (hl p).trans hs.lookup⟩
  rw [← hs.tags n t, tagAt, tagAt, hl]
  split
  · rename_i j hj
    have htags : root ++ [Dir.tags] <+: root ++ [Dir.tags, n, t] := by simp
    have hne : j ≠ i := by
      rintro rfl
      have heq := hw.eq_of_shared hp.under (under_root htags) hs.lookup hj hp.unnamed
      exact not_under hp.in_cas (y := Dir.tags) (by decide) (heq ▸ htags)
    have hdata := ha.frame.2 j (hw.fresh _ j (under_root htags) hj) fun hwrites =>
      hne hwrites.symm
    rw [hdata]
  · rfl

/-- The staging file is removed. -/
theorem Staging.removed (hs : Staging root p i h₀ h) (hp : StagePlace root p)
    (ha : Fs.Answers (.removeFile p) h (.ok ()) h') :
    Undisturbed root (fun _ => False) h₀ h' ∧ SameTags root h₀ h' := by
  have horderly : Orderly root (· = p) (.removeFile p) := hp.orderly_remove
  exact ⟨(hs.undisturbed.answers horderly ha).drop (lookup_removed ha),
    hs.tags.answers hs.undisturbed.wellFormed horderly.tidy hp.keepsTags_remove ha⟩

/-- The staging file is renamed to a name of a digest. -/
theorem Staging.renamed (hs : Staging root p i h₀ h) (hp : StagePlace root p) (hd : IsDigest d)
    (hq : (CasStore.mk root).Names d q) (ha : Fs.Answers (.rename p q) h (.ok ()) h') :
    Undisturbed root (fun _ => False) h₀ h' ∧ SameTags root h₀ h' ∧
      h'.lookup q = some (.file i) := by
  have hw := hs.undisturbed.wellFormed
  have horderly : Orderly root (· = p) (.rename p q) := hp.orderly_rename hd hq
  obtain ⟨hgone, hi, -⟩ := hp.renamed hw hs.lookup hd hq ha
  exact ⟨(hs.undisturbed.answers horderly ha).drop hgone,
    hs.tags.answers hw horderly.tidy (hp.keepsTags_rename hd hq) ha, hi⟩

/-! ### What a call leaves behind -/

/-- No staging file of the call is left, and after an error every tag and every blob that was there
is there still. -/
structure CleanEnd {ε α : Type} (sha : Sha256) (root : Path) (h : Fs) (r : Except ε α) (h' : Fs) :
    Prop where
  staged : ∀ q i, Incoming root q → h'.lookup q = some (.file i) → h.lookup q = some (.file i)
  tags : ∀ e, r = .error e → ∀ n t x, tagAt root h n t = some x → tagAt root h' n t = some x
  blobs : ∀ e, r = .error e → ∀ d x, IsDigest d → (CasStore.mk root).content h d = some x →
    ∃ y, (CasStore.mk root).content h' d = some y ∧ sha.hash y = sha.hash x

theorem Undisturbed.cleanEnd {ε α : Type} {r : Except ε α}
    (hu : Undisturbed root (fun _ => False) h h') (hs : Sound sha root h) (hs' : Sound sha root h')
    (htags : ∀ e, r = .error e → ∀ n t x, tagAt root h n t = some x → tagAt root h' n t = some x) :
    CleanEnd sha root h r h' := by
  refine ⟨fun q i hq hi => (hu.staged q i hq hi).resolve_left id, htags, fun e _ d x hd hx => ?_⟩
  have hstored : (CasStore.mk root).Stored h d := by
    rw [CasStore.stored_iff_content hs.wellFormed hd, hx]
    rfl
  have hstored' := hu.stored d hd hstored
  rw [CasStore.stored_iff_content hs'.wellFormed hd, Option.isSome_iff_exists] at hstored'
  obtain ⟨y, hy⟩ := hstored'
  exact ⟨y, hy, (hs'.content hd hy).trans (hs.content hd hx).symm⟩

/-- A program that only reads. -/
theorem safely_of_reads {α : Type} {prog : Io α} {Q : α → Prop} {sys : System Reply Fs}
    (hsys : ∀ o s r s', sys o s r s' → Fs.Answers o s r s')
    (hp : Keeps Reads (fun _ _ => True) prog Q) :
    Safely sys (fun _ => True) prog (fun a s => Q a ∧ s = h) h := by
  refine (hp.safely (I := fun s => s = h) (fun o s r s' ho heq ha => ?_) rfl).weaken
    fun _ _ => trivial
  exact ⟨trivial, (ho.answers (hsys o s r s' ha)).trans heq⟩

theorem Undisturbed.safely {α : Type} {prog : Io α} {Q : α → Prop} {sys : System Reply Fs}
    (hsys : ∀ o s r s', sys o s r s' → Fs.Answers o s r s') (hu : Undisturbed root P h₀ h)
    (hp : Keeps (Orderly root P) (fun _ _ => True) prog Q) :
    Safely sys (fun _ => True) prog (fun a s => Q a ∧ Undisturbed root P h₀ s) h := by
  refine (hp.safely (I := Undisturbed root P h₀) (fun o s r s' ho hu ha => ?_) hu).weaken
    fun _ _ => trivial
  exact ⟨trivial, hu.answers ho (hsys o s r s' ha)⟩

/-! ### Stores -/

/-- What can come of the calls of `store_blob` when no write to the staging file, no removal and no
renaming of it fails. -/
def StoreSteps : System Reply Fs := fun o h r h' => CopiesWhole o h r h' ∧
  match o, r with
  | .writeAt .., r | .removeFile _, r | .rename .., r => r = .ok ()
  | _, _ => True

theorem Orderly.of_reads (ho : Reads o) : Orderly root P o :=
  ⟨(ho.inArea (x := Dir.cas)).1, by rintro q rfl; exact ho.elim,
    fun q hq => by cases o <;> first | exact ho.elim | exact hq.elim⟩

theorem KeepsTags.of_inArea {x : Name} (ho : InArea root x o) (hx : x ≠ Dir.tags)
    (hopen : ∀ i off b, o ≠ .writeAt i off b) : KeepsTags root o :=
  ⟨ho.2 _ hx.symm, hopen⟩

namespace CasStore

variable {reader : Reader} {hashed body : Bytes} {total : Nat} {pid : Pid}
  {expected : Option String}

private theorem safely_storeLoop_clean (hp : StagePlace root p) (hs : Staging root p i h₀ h)
    (hreader : reader.content = .ok body) :
    Safely StoreSteps (fun _ => True) (storeLoop i reader hashed total)
      (fun r h' => Staging root p i h₀ h' ∧ ∃ x, r = .ok x) h := by
  induction reader generalizing hashed total body h with
  | nil => exact (safely_done _).2 ⟨hs, _, rfl⟩
  | cons chunk reader ih =>
    cases chunk with
    | error e => cases hreader
    | ok chunk =>
      rw [storeLoop]
      split
      · exact (safely_done _).2 ⟨hs, _, rfl⟩
      · rename_i hchunk
        refine Safely.perform fun r h' ha => ?_
        obtain ⟨ha, hok⟩ := ha
        obtain rfl : r = .ok () := hok
        rw [Reader.content, if_neg hchunk] at hreader
        cases hrest : Reader.content reader with
        | error e =>
          rw [hrest] at hreader
          cases hreader
        | ok rest => exact ⟨trivial, ih (hs.writeAt hp ha.answers) hrest⟩

private theorem safely_storeStaged_clean {x : Bytes} (hp : StagePlace root p)
    (hs : Staging root p i h₀ h) :
    Safely StoreSteps (fun _ => True) ((CasStore.mk root).storeStaged p (sha.hash x) total expected)
      (fun _ h' => Undisturbed root (fun _ => False) h₀ h' ∧ SameTags root h₀ h') h := by
  unfold storeStaged
  split
  · refine Safely.perform fun r h' ha => ⟨trivial, (safely_done _).2 ?_⟩
    obtain ⟨ha, hok⟩ := ha
    obtain rfl : r = .ok () := hok
    exact hs.removed hp ha.answers
  · refine (safely_of_reads (fun _ _ _ _ ha => ha.1.answers)
      (keeps_blobPath fun o ho => ho.reads)).bind ?_
    rintro target _ ⟨htarget, rfl⟩
    refine Safely.perform fun r h' ha => ⟨trivial, ?_⟩
    obtain ⟨ha, hok⟩ := ha
    obtain rfl : r = .ok () := hok
    refine (safely_done _).2 ?_
    obtain ⟨hu, htags, -⟩ := hs.renamed hp (sha.isDigest_hash x) htarget ha.answers
    exact ⟨hu, htags⟩

theorem safely_storeBlob_clean (hw : WellFormed root h) (hreader : reader.content = .ok body) :
    Safely StoreSteps (fun _ => True) ((CasStore.mk root).storeBlob sha pid reader expected)
      (fun _ h' => Undisturbed root (fun _ => False) h h' ∧ SameTags root h h') h := by
  refine Safely.perform fun n h₁ ha => ⟨trivial, ?_⟩
  have hcounter : Orderly root (fun _ => False) (.fetchAdd pid) := ⟨trivial, nofun, nofun⟩
  have hu₁ := (Undisturbed.refl hw).answers hcounter ha.1.answers
  have hkeeps : KeepsTags root (.fetchAdd pid) := ⟨trivial, nofun⟩
  have hs₁ : SameTags root h h₁ :=
    SameTags.answers (fun _ _ => rfl) hw hcounter.tidy hkeeps ha.1.answers
  have hp : StagePlace root ((CasStore.mk root).stagePath (nonceOf pid n)) := stagePlace_nonce n
  refine Safely.perform fun r h₂ ha₂ => ⟨trivial, ?_⟩
  cases r with
  | error e =>
    obtain rfl := create_failed ha₂.1.answers
    exact (safely_done _).2 ⟨hu₁, hs₁⟩
  | ok file =>
    have hstaging := Staging.created hp hu₁ hs₁ ha₂.1.answers
    refine (safely_storeLoop_clean hp hstaging hreader).bind ?_
    rintro r h₃ ⟨hs₃, x, rfl⟩
    exact safely_storeStaged_clean hp hs₃

end CasStore

/-! ### Pulls -/

/-- What can come of the calls of `run_pull` when its staging file can be removed and renamed, no
copy fails halfway, and, if the tag was there before: a write of it that fails has not touched it,
and the directory of links can be made once the tag differs. -/
def PullSteps (p : Pull) (n t : Name) (h₀ : Fs) : System Reply Fs := fun o h r h' =>
  CopiesWhole o h r h' ∧
  match o, r with
  | .removeFile q, r => q = p.stagePath → r = .ok ()
  | .rename _ _, r => r = .ok ()
  | .write q _, r => q = p.tagFile → r = .ok () ∨ h' = h ∨ tagAt p.storageRoot h₀ n t = none
  | .createDirAll q, r => q = p.storageRoot.join (ArtifactCommit.extOf p.format) →
      r = .ok () ∨ tagAt p.storageRoot h₀ n t = none ∨
        tagAt p.storageRoot h n t = tagAt p.storageRoot h₀ n t
  | _, _ => True

/-- The tags that were there are there still. -/
def TagsStay (root : Path) (h₀ h : Fs) : Prop :=
  ∀ n t x, tagAt root h₀ n t = some x → tagAt root h n t = some x

theorem SameTags.stay (hs : SameTags root h₀ h) : TagsStay root h₀ h :=
  fun n t _ hx => (hs n t).trans hx

namespace ArtifactCommit.Valid

variable {c : ArtifactCommit} {sys : System Reply Fs}

theorem safely_linkBlob_clean (hc : c.Valid) (hsys : ∀ o s r s', sys o s r s' → Fs.Answers o s r s')
    (hu : Undisturbed c.storageRoot (fun _ => False) h₀ h) (hs : SameTags c.storageRoot h₀ h)
    (hi : h.lookup c.casDest = some (.file i)) :
    Safely sys (fun _ => True) c.linkBlob (fun _ h' =>
      Undisturbed c.storageRoot (fun _ => False) h₀ h' ∧ SameTags c.storageRoot h₀ h') h := by
  have hdest : c.cas.Names c.digest c.casDest := names_casDest
  have hblob : c.cas.Names c.digest c.blobPath := names_blobPath
  have hne := casDest_ne_blobPath hc.digest
  have htags : ¬ c.storageRoot ++ [Dir.tags] <+: c.blobPath :=
    not_under (hblob.in_cas hc.digest) (by decide)
  have hshelf : ∀ q, q = c.blobPath → Incoming c.storageRoot q → False := by
    rintro q rfl hq
    exact (hblob.onShelf hc.digest).2 hq
  refine Safely.perform fun r h₁ ha => ⟨trivial, ?_⟩
  have ha := hsys _ _ _ _ ha
  have hdirs : Orderly c.storageRoot (fun _ => False) (.createDirAll c.blobDir) :=
    ⟨CasStore.inArea_blobsDir.1, nofun, nofun⟩
  have hkeeps : KeepsTags c.storageRoot (.createDirAll c.blobDir) :=
    .of_inArea CasStore.inArea_blobsDir (by decide) nofun
  have hu₁ := hu.answers hdirs ha
  have hs₁ := hs.answers hu.wellFormed hdirs.tidy hkeeps ha
  have hi₁ : h₁.lookup c.casDest = some (.file i) := by
    apply (lookup_file_iff ha (.inl rfl)).2 _ _ _ hi
    intro heq
    exact CasStore.not_prefix_blobsDir hc.digest hdest (heq ▸ List.prefix_rfl)
  split
  swap
  · exact (safely_done _).2 ⟨hu₁, hs₁⟩
  refine Safely.perform fun r₂ h₂ ha₂ => ⟨trivial, ?_⟩
  have ha₂ := hsys _ _ _ _ ha₂
  have htidy₂ : Tidy c.storageRoot (.removeFile c.blobPath) := trivial
  have hkeeps₂ : KeepsTags c.storageRoot (.removeFile c.blobPath) := ⟨htags, nofun⟩
  have hs₂ := hs₁.answers hu₁.wellFormed htidy₂ hkeeps₂ ha₂
  -- The name that is removed is not the last one of its digest.
  have hu₂ : Undisturbed c.storageRoot (fun _ => False) h₀ h₂ := by
    refine hu₁.answers_of_names htidy₂ ?_ (fun q hq => hq.elim) ha₂
    rintro q ⟨⟩ d hd hq
    rw [hq.digest_eq hd hc.digest hblob]
    exact ⟨c.casDest, i, hne, hdest, hi₁⟩
  refine Safely.perform fun r₃ h₃ ha₃ => ⟨trivial, ?_⟩
  have ha₃ := hsys _ _ _ _ ha₃
  have hlink : Orderly c.storageRoot (fun _ => False) (.hardLink c.casDest c.blobPath) :=
    ⟨⟨c.digest, hc.digest, hdest, hblob⟩, nofun, hshelf⟩
  have hkeeps₃ : KeepsTags c.storageRoot (.hardLink c.casDest c.blobPath) := ⟨htags, nofun⟩
  have hu₃ := hu₂.answers hlink ha₃
  have hs₃ := hs₂.answers hu₂.wellFormed hlink.tidy hkeeps₃ ha₃
  split
  swap
  · exact (safely_done _).2 ⟨hu₃, hs₃⟩
  refine Safely.perform fun r₄ h₄ ha₄ => ⟨trivial, (safely_done _).2 ?_⟩
  have ha₄ := hsys _ _ _ _ ha₄
  have hcopy : Orderly c.storageRoot (fun _ => False) (.copy c.casDest c.blobPath) :=
    ⟨⟨hblob.under hc.digest, hblob.not_linkPlace hc.digest⟩, nofun, hshelf⟩
  have hkeeps₄ : KeepsTags c.storageRoot (.copy c.casDest c.blobPath) := ⟨htags, nofun⟩
  exact ⟨hu₃.answers hcopy ha₄, hs₃.answers hu₃.wellFormed hcopy.tidy hkeeps₄ ha₄⟩

end ArtifactCommit.Valid

/-- Making directories changes no tag. -/
theorem SameTags.createDirAll {r : Except IoError Unit} (hs : SameTags root h₀ h)
    (hw : WellFormed root h) (ha : Fs.Answers (.createDirAll p) h r h') : SameTags root h₀ h' := by
  intro n t
  rw [← hs n t, tagAt, tagAt]
  have hdata : ∀ i, h.lookup (root ++ [Dir.tags, n, t]) = some (.file i) → h'.data i = h.data i :=
    fun i hi => ha.frame.2 i (hw.fresh _ i (List.prefix_append _ _) hi) id
  have hl : h'.lookup (root ++ [Dir.tags, n, t]) = h.lookup (root ++ [Dir.tags, n, t]) ∨
      (h.lookup (root ++ [Dir.tags, n, t]) = none ∧
        h'.lookup (root ++ [Dir.tags, n, t]) = some .dir) := by
    cases ha.effect with
    | keep o hl => exact .inl (hl _)
    | newFile o a ho _ _ _ => rcases ho with heq | ⟨y, heq⟩ | ⟨c, heq⟩ <;> cases heq
    | newDirs a hl => exact (hl _).imp_right fun hnew => ⟨hnew.1, hnew.2.1⟩
  rcases hl with hsame | ⟨hnone, hdir⟩
  · rw [hsame]
    split
    · rename_i i hi
      rw [hdata i hi]
    · rfl
  · rw [hnone, hdir]

/-- Writing the file of one tag changes no other, whether it fails or not. -/
theorem tagAt_of_write {n t n' t' : Name} {x : Bytes} {r : Except IoError Unit}
    (hw : WellFormed root h) (hne : ¬ (n' = n ∧ t' = t))
    (ha : Fs.Answers (.write (root ++ [Dir.tags, n, t]) x) h r h') :
    tagAt root h' n' t' = tagAt root h n' t' := by
  have htags : ∀ n t, root ++ [Dir.tags] <+: root ++ [Dir.tags, n, t] := fun _ _ => by simp
  have hroot := under_root (htags n t)
  have hlink := not_linkPlace_of_area (htags n t) (by decide) (by decide)
  have hun : Unnamed root (root ++ [Dir.tags, n, t]) := fun d hd hnames =>
    not_under (htags n t) (y := Dir.cas) (by decide) (hnames.in_cas hd)
  have hpath : root ++ [Dir.tags, n', t'] ≠ root ++ [Dir.tags, n, t] := by
    simpa using hne
  have hl : h'.lookup (root ++ [Dir.tags, n', t']) = h.lookup (root ++ [Dir.tags, n', t']) := by
    cases ha.effect with
    | keep o hl => exact hl _
    | newFile o a ho hnone hl hnext =>
      have ha : a = root ++ [Dir.tags, n, t] := by
        rcases ho with heq | ⟨y, heq⟩ | ⟨c, heq⟩ <;> cases heq
        rfl
      rw [hl, ha, hw.final_eq hroot hlink, if_neg hpath]
  rw [tagAt, tagAt, hl]
  split
  · rename_i i hi
    have hother : ¬ h.Writes i (.write (root ++ [Dir.tags, n, t]) x) := by
      intro hwrites
      rw [Fs.Writes, hw.fileAt_eq_some hroot hlink] at hwrites
      exact hpath (hw.eq_of_shared hroot (under_root (htags n' t')) hwrites hi hun).symm
    rw [ha.frame.2 i (hw.fresh _ i (under_root (htags n' t')) hi) hother]
  · rfl

theorem Outside.orderly (ho : Outside root o) : Orderly root P o := by
  obtain ⟨htidy, havoid, -⟩ := ho
  have hcas := havoid Dir.cas (.inl rfl)
  refine ⟨htidy, ?_, fun q hq hin => ?_⟩
  · rintro q rfl d hd hq
    exact hcas (hq.in_cas hd)
  · have hunder : root ++ [Dir.cas] <+: q := List.IsPrefix.trans (by simp) hin
    cases o with
    | create a => exact absurd (hq ▸ hunder) hcas
    | write a x => exact absurd (hq ▸ hunder) hcas
    | copy a b => exact absurd (hq ▸ hunder) hcas
    | hardLink a b => exact absurd (hq ▸ hunder) hcas
    | rename a b => exact absurd (hq ▸ hunder) hcas.2
    | _ => exact hq.elim

namespace ArtifactCommit.Valid

variable {c : ArtifactCommit}

/-- Once their directory is there, making the links succeeds. -/
private theorem keeps_links (hc : c.Valid) (target : Path) :
    Keeps (AmongLinks c.storageRoot) (fun _ _ => True) (do
      c.linkUntagged target
      if c.tag ≠ "latest" then
        relink target (c.fmtDir.join (c.name ++ ":" ++ c.tag ++ "." ++ c.ext))
        relink target (c.fmtDir.join (c.name ++ "-" ++ c.tag ++ "." ++ c.ext))
      return (.ok () : Except String Unit)) (fun r => r = .ok ()) := by
  have hdests : ∀ dest ∈ c.linkDests, AmongLinks c.storageRoot (.removeFile dest) ∧
      AmongLinks c.storageRoot (.symlink target dest) := by
    intro dest hdest
    have hplace := hc.linkPlace_of_mem hdest
    exact ⟨⟨trivial, fun y hy hy' => hplace.not_in_area hy hy', nofun⟩,
      hplace, fun y hy hy' => hplace.not_in_area hy hy', nofun⟩
  refine Keeps.bind (only_linkUntagged (fun _ => Reads.amongLinks) hdests) fun _ _ => ?_
  split
  · obtain ⟨h2, h2'⟩ := hdests _ (List.mem_cons_of_mem _ (List.mem_cons_self ..))
    obtain ⟨h3, h3'⟩ := hdests _
      (List.mem_cons_of_mem _ (List.mem_cons_of_mem _ (List.mem_cons_self ..)))
    refine Keeps.bind (only_relink h2 h2') fun _ _ => ?_
    exact Keeps.bind (only_relink h3 h3') fun _ _ => (keeps_done _).2 rfl
  · exact (keeps_done _).2 rfl

end ArtifactCommit.Valid

namespace Pull.Valid

variable {p : Pull} (hp : p.Valid)

include hp

/-- The name of the pull as the registry has it. -/
abbrev nameOf : Name := ⟨p.name, hp.name⟩

/-- The tag of the pull as the registry has it. -/
abbrev tagOf : Name := ⟨p.tag, hp.tag⟩

/-- The other tags are as they were, so it is enough to know about this one. -/
private theorem tagsStay (hother : ∀ n t, ¬ (n = hp.nameOf ∧ t = hp.tagOf) →
      tagAt p.storageRoot h n t = tagAt p.storageRoot h₀ n t)
    (hself : tagAt p.storageRoot h₀ hp.nameOf hp.tagOf = none ∨
      tagAt p.storageRoot h hp.nameOf hp.tagOf = tagAt p.storageRoot h₀ hp.nameOf hp.tagOf) :
    TagsStay p.storageRoot h₀ h := by
  intro n t x hx
  by_cases hnt : n = hp.nameOf ∧ t = hp.tagOf
  · obtain ⟨rfl, rfl⟩ := hnt
    rcases hself with hnone | hsame
    · rw [hx] at hnone
      cases hnone
    · exact hsame.trans hx
  · exact (hother n t hnt).trans hx

/-- The links, after the tag. -/
private theorem safely_linkFormat_clean (hd : IsDigest d)
    (hu : Undisturbed p.storageRoot (fun _ => False) h₀ h)
    (hother : ∀ n t, ¬ (n = hp.nameOf ∧ t = hp.tagOf) →
      tagAt p.storageRoot h n t = tagAt p.storageRoot h₀ n t) :
    Safely (PullSteps p hp.nameOf hp.tagOf h₀) (fun _ => True) (p.commit d).linkFormat
      (fun r h' => Undisturbed p.storageRoot (fun _ => False) h₀ h' ∧
        ∀ e, r = .error e → TagsStay p.storageRoot h₀ h') h := by
  have hc := hp.valid_commit hd
  refine Safely.perform fun r h₁ ha => ⟨trivial, ?_⟩
  obtain ⟨ha, hsure⟩ := ha
  have ha := ha.answers
  have hdirs : AmongLinks p.storageRoot (.createDirAll (p.commit d).fmtDir) := by
    rcases ArtifactCommit.Valid.fmtDir_eq (c := p.commit d) with heq | heq <;> rw [heq]
    · exact amongLinks_createDirAll (.inl rfl)
    · exact amongLinks_createDirAll (.inr rfl)
  have hu₁ := hu.answers hdirs.outside.orderly ha
  have hsame : SameTags p.storageRoot h h₁ :=
    SameTags.createDirAll (fun _ _ => rfl) hu.wellFormed ha
  cases r with
  | error e =>
    refine (safely_done _).2 ⟨hu₁, fun _ _ => hp.tagsStay (fun n t hne => ?_) ?_⟩
    · exact (hsame n t).trans (hother n t hne)
    · rcases hsure rfl with hok | hnone | hself
      · cases hok
      · exact .inl hnone
      · exact .inr ((hsame _ _).trans hself)
  | ok u =>
    have htarget : Only Reads (p.commit d).linkTarget := by
      refine Keeps.perform trivial fun r _ => ?_
      cases r <;> exact (keeps_done _).2 trivial
    refine (safely_of_reads (fun _ _ _ _ ha => ha.1.answers) htarget).bind ?_
    rintro target _ ⟨-, rfl⟩
    refine (hu₁.safely (fun _ _ _ _ ha => ha.1.answers)
      ((hc.keeps_links target).mono (fun _ ho => ho.outside.orderly) fun _ hr => hr)).mono ?_
    rintro r h₃ ⟨rfl, hu₃⟩
    exact ⟨hu₃, nofun⟩

/-- The tag and the links. -/
private theorem safely_afterStore_clean (hd : IsDigest d)
    (hu : Undisturbed p.storageRoot (fun _ => False) h₀ h) (hs : SameTags p.storageRoot h₀ h) :
    Safely (PullSteps p hp.nameOf hp.tagOf h₀) (fun _ => True) (p.commit d).afterStore
      (fun r h' => Undisturbed p.storageRoot (fun _ => False) h₀ h' ∧
        ∀ e, r = .error e → TagsStay p.storageRoot h₀ h') h := by
  have hc := hp.valid_commit hd
  have hdir : p.storageRoot ++ [Dir.tags] <+: (p.commit d).tagDir := by
    have heq := hc.tagDir_eq
    rw [storageRoot_commit] at heq
    rw [heq]
    simp
  have hfile : (p.commit d).tagDir.join (p.commit d).tag =
      p.storageRoot ++ [Dir.tags, hp.nameOf, hp.tagOf] := hc.tagFile_eq
  have htags : p.storageRoot ++ [Dir.tags] <+:
      p.storageRoot ++ [Dir.tags, hp.nameOf, hp.tagOf] := by simp
  refine Safely.bind (Q := fun r h' => Undisturbed p.storageRoot (fun _ => False) h₀ h' ∧
    (∀ n t, ¬ (n = hp.nameOf ∧ t = hp.tagOf) →
      tagAt p.storageRoot h' n t = tagAt p.storageRoot h₀ n t) ∧
    ∀ e, r = .error e → TagsStay p.storageRoot h₀ h') ?_ ?_
  · refine Safely.perform fun r h₁ ha => ⟨trivial, ?_⟩
    have hdirs : Orderly p.storageRoot (fun _ => False) (.createDirAll (p.commit d).tagDir) :=
      ⟨fun q hq d hd hnames => not_under hdir (by decide) ((hnames.in_cas hd).trans hq),
        by rintro _ ⟨⟩, by rintro _ ⟨⟩⟩
    have hu₁ := hu.answers hdirs ha.1.answers
    have hs₁ := hs.createDirAll hu.wellFormed ha.1.answers
    cases r with
    | error e => exact (safely_done _).2 ⟨hu₁, fun n t _ => hs₁ n t, fun _ _ => hs₁.stay⟩
    | ok u =>
      dsimp only
      rw [hfile]
      refine Safely.perform fun r h₂ ha₂ => ⟨trivial, ?_⟩
      obtain ⟨ha₂, hsure⟩ := ha₂
      have ha₂ := ha₂.answers
      have hwrite : Orderly p.storageRoot (fun _ => False)
          (.write (p.storageRoot ++ [Dir.tags, hp.nameOf, hp.tagOf])
            (Text.toBytes (p.commit d).digest)) := by
        refine ⟨⟨under_root htags, not_linkPlace_of_area htags (by decide) (by decide)⟩,
          by rintro _ ⟨⟩, ?_⟩
        rintro q rfl hq
        exact not_under htags (y := Dir.cas) (by decide) (List.IsPrefix.trans (by simp) hq)
      have hu₂ := hu₁.answers hwrite ha₂
      have hother : ∀ n t, ¬ (n = hp.nameOf ∧ t = hp.tagOf) →
          tagAt p.storageRoot h₂ n t = tagAt p.storageRoot h₀ n t := fun n t hne =>
        (tagAt_of_write hu₁.wellFormed hne ha₂).trans (hs₁ n t)
      cases r with
      | error e =>
        refine (safely_done _).2 ⟨hu₂, hother, fun _ _ => hp.tagsStay hother ?_⟩
        rcases hsure hfile.symm with hok | hsame | hnone
        · cases hok
        · rw [hsame]
          exact .inr (hs₁ _ _)
        · exact .inl hnone
      | ok u => exact (safely_done _).2 ⟨hu₂, hother, by rintro _ ⟨⟩⟩
  · rintro r h₁ ⟨hu₁, hother, hstay⟩
    cases r with
    | error e => exact (safely_done _).2 ⟨hu₁, hstay⟩
    | ok u => exact hp.safely_linkFormat_clean hd hu₁ hother

omit hp in
private theorem safely_downloadLoop_clean {sys : System Reply Fs} {hashed : Bytes}
    (hsys : ∀ o s r s', sys o s r s' → Fs.Answers o s r s') (hq : StagePlace root q)
    (chunks : List (Except String Bytes)) (hs : Staging root q i h₀ h) :
    Safely sys (fun _ => True) (downloadLoop i chunks hashed)
      (fun _ h' => Staging root q i h₀ h') h := by
  induction chunks generalizing hashed h with
  | nil => exact (safely_done _).2 hs
  | cons chunk chunks ih =>
    rcases chunk with e | chunk
    · exact (safely_done _).2 hs
    refine Safely.perform fun r h' ha => ⟨trivial, ?_⟩
    have hs' := hs.writeAt hq (hsys _ _ _ _ ha)
    cases r with
    | error e => exact (safely_done _).2 hs'
    | ok u => exact ih hs'

/-- The commit of a staged download. -/
private theorem safely_commit_clean (hd : IsDigest d)
    (hs : Staging p.storageRoot p.stagePath i h₀ h) :
    Safely (PullSteps p hp.nameOf hp.tagOf h₀) (fun _ => True) (commitArtifact (p.commit d))
      (fun r h' => Undisturbed p.storageRoot (fun _ => False) h₀ h' ∧
        ∀ e, r = .error e → TagsStay p.storageRoot h₀ h') h := by
  have hc := hp.valid_commit hd
  have hdest : (CasStore.mk p.storageRoot).Names d (p.commit d).casDest :=
    ArtifactCommit.names_casDest (c := p.commit d)
  have hplace := hp.stagePlace
  rw [← stagePath_commit p d] at hs hplace
  refine Safely.perform fun r h₁ ha => ⟨trivial, ?_⟩
  obtain ⟨ha, hok⟩ := ha
  obtain rfl : r = .ok () := hok
  obtain ⟨hu₁, hs₁, hi⟩ := hs.renamed hplace hd hdest ha.answers
  refine (hc.safely_linkBlob_clean (fun _ _ _ _ ha => ha.1.answers) hu₁ hs₁ hi).bind ?_
  rintro _ h₂ ⟨hu₂, hs₂⟩
  exact hp.safely_afterStore_clean hd hu₂ hs₂

theorem safely_runPull_clean (hw : WellFormed p.storageRoot h) :
    Safely (PullSteps p hp.nameOf hp.tagOf h) (fun _ => True) (runPull sha p)
      (fun r h' => Undisturbed p.storageRoot (fun _ => False) h h' ∧
        ∀ e, r = .error e → TagsStay p.storageRoot h h') h := by
  have hsys : ∀ o s r s', PullSteps p hp.nameOf hp.tagOf h o s r s' → Fs.Answers o s r s' :=
    fun _ _ _ _ ha => ha.1.answers
  have hstage := hp.stagePlace
  have hsame : SameTags p.storageRoot h h := fun _ _ => rfl
  refine (safely_of_reads hsys only_isPresent).bind ?_
  rintro present s ⟨-, heq⟩
  obtain rfl : h = s := heq.symm
  split
  · exact (safely_done _).2 ⟨.refl hw, nofun⟩
  split
  · exact (safely_done _).2 ⟨.refl hw, fun _ _ => hsame.stay⟩
  rename_i chunks hchunks
  refine Safely.perform fun r h₁ ha => ⟨trivial, ?_⟩
  have hdirs : Orderly p.storageRoot (fun _ => False) (.createDirAll p.incomingDir) :=
    ⟨inArea_incomingDir.1, nofun, nofun⟩
  have hu₁ := (Undisturbed.refl hw).answers hdirs (hsys _ _ _ _ ha)
  have hs₁ := hsame.createDirAll hw (hsys _ _ _ _ ha)
  cases r with
  | error e => exact (safely_done _).2 ⟨hu₁, fun _ _ => hs₁.stay⟩
  | ok u =>
    refine Safely.bind (Q := fun r h' => SameTags p.storageRoot h h' ∧
      (∀ e, r = .error e → Undisturbed p.storageRoot (fun _ => False) h h') ∧
      ∀ x, r = .ok x → ∃ i, Staging p.storageRoot p.stagePath i h h') ?_ ?_
    · refine Safely.perform fun r h₂ ha₂ => ⟨trivial, ?_⟩
      have ha₂ := hsys _ _ _ _ ha₂
      cases r with
      | error e =>
        obtain rfl := create_failed ha₂
        exact (safely_done _).2 ⟨hs₁, fun _ _ => hu₁, nofun⟩
      | ok file =>
        have hstaging := Staging.created hstage hu₁ hs₁ ha₂
        refine (safely_downloadLoop_clean hsys hstage chunks hstaging).bind fun r h₃ hs₃ => ?_
        cases r with
        | error e =>
          refine Safely.perform fun r h₄ ha₄ => ⟨trivial, (safely_done _).2 ?_⟩
          obtain ⟨ha₄, hok⟩ := ha₄
          obtain rfl : r = .ok () := hok rfl
          obtain ⟨hu₄, hs₄⟩ := hs₃.removed hstage ha₄.answers
          exact ⟨hs₄, fun _ _ => hu₄, nofun⟩
        | ok x => exact (safely_done _).2 ⟨hs₃.tags, nofun, fun _ _ => ⟨file, hs₃⟩⟩
    · rintro r h₂ ⟨hs₂, hfailed, hstaged⟩
      cases r with
      | error e => exact (safely_done _).2 ⟨hfailed e rfl, fun _ _ => hs₂.stay⟩
      | ok x =>
        obtain ⟨i, hstaging⟩ := hstaged x rfl
        refine (hp.safely_commit_clean (sha.isDigest_hash x) hstaging).bind ?_
        rintro r h₃ ⟨hu₃, hstay₃⟩
        cases r with
        | error e => exact (safely_done _).2 ⟨hu₃, fun _ _ => hstay₃ e rfl⟩
        | ok u =>
          dsimp only
          split
          · exact (safely_done _).2 ⟨hu₃, nofun⟩
          · rename_i data hdata
            have htok := hu₃.safely hsys
              ((hp.outside_commitTokenizer data).mono fun _ ho => ho.orderly)
            refine htok.bind ?_
            rintro _ h₄ ⟨-, hu₄⟩
            exact (safely_done _).2 ⟨hu₄, nofun⟩

end Pull.Valid

/-! ### Both -/

/-- Neither function leaves a staging file of its own, and an error leaves what was there, as long
as the calls succeed that they do not clean up after. -/
theorem staging_cleaned (sha : Sha256) (root : Path) (h : Fs) (hw : WellFormed root h)
    (hblobs : Integral sha root h) :
    (∀ pid reader expected, reader.content.isOk = true →
      Safely StoreSteps (fun _ => True) ((CasStore.mk root).storeBlob sha pid reader expected)
        (CleanEnd sha root h) h) ∧
    ∀ p : Pull, p.storageRoot = root → ∀ hp : p.Valid,
      Safely (PullSteps p hp.nameOf hp.tagOf h) (fun _ => True) (runPull sha p)
        (CleanEnd sha root h) h := by
  have hs : Sound sha root h := ⟨hw, hblobs⟩
  constructor
  · intro pid reader expected hreader
    cases hbody : reader.content with
    | error e =>
      rw [hbody] at hreader
      cases hreader
    | ok body =>
      have hsound : Safely StoreSteps (Sound sha root)
          ((CasStore.mk root).storeBlob sha pid reader expected)
          (fun _ h' => Sound sha root h') h :=
        (CasStore.safely_storeBlob hs).of_system fun _ _ _ _ ha => ha.1
      have hclean := hsound.and (CasStore.safely_storeBlob_clean hw hbody)
      refine (hclean.weaken fun _ _ => trivial).mono ?_
      rintro r h' ⟨hs', hu, htags⟩
      exact hu.cleanEnd hs hs' fun _ _ => htags.stay
  · rintro p rfl hp
    have hsound : Safely (PullSteps p hp.nameOf hp.tagOf h) (Sound sha p.storageRoot)
        (runPull sha p) (fun _ h' => Sound sha p.storageRoot h') h :=
      (hp.safely_runPull hs).of_system fun _ _ _ _ ha => ha.1
    have hclean := hsound.and (hp.safely_runPull_clean hw)
    refine (hclean.weaken fun _ _ => trivial).mono ?_
    rintro r h' ⟨hs', hu, htags⟩
    exact hu.cleanEnd hs hs' htags

/-! ### Samples -/

/-- A store and a pull into a storage root that was just opened. -/
theorem sample_staging_cleaned :
    Safely StoreSteps (fun _ => True)
      ((CasStore.mk sampleRoot).storeBlob sampleSha 7 [.ok [1]] none)
      (CleanEnd sampleSha sampleRoot (sampleFs true)) (sampleFs true) ∧
    Safely (PullSteps oneBytePull ⟨"m", by decide⟩ ⟨"latest", by decide⟩ (sampleFs true))
      (fun _ => True) (runPull sampleSha oneBytePull)
      (CleanEnd sampleSha sampleRoot (sampleFs true)) (sampleFs true) := by
  have hboth := staging_cleaned sampleSha sampleRoot (sampleFs true) (wellFormed_openedFs ..)
    integral_sampleFs
  exact ⟨hboth.1 7 [.ok [1]] none rfl, hboth.2 oneBytePull rfl ⟨by decide, by decide⟩⟩

/-- A stream that fails leaves its staging file. -/
theorem sample_stage_left :
    ¬ Safely Fs.reliable (fun _ => True)
      ((CasStore.mk sampleRoot).storeBlob sampleSha 7 [.ok [1], .error .other] none)
      (CleanEnd sampleSha sampleRoot (sampleFs true)) (sampleFs true) := by
  intro hsafe
  have hend := hsafe.run Fs.exec fun _ _ => rfl
  have hleft : ((((CasStore.mk sampleRoot).storeBlob sampleSha 7 [.ok [1], .error .other] none).run
      Fs.exec (sampleFs true)).2).lookup ((CasStore.mk sampleRoot).stagePath
        (CasStore.nonceOf 7 0)) = some (.file 0) := by
    decide +kernel
  have hold := hend.staged _ 0 (CasStore.stagePlace_nonce 0).incoming hleft
  exact lookup_openedFs_ne_file sampleRoot true id _ 0 hold

end Modeld
