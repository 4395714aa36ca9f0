import Modeld.Core.Blobs

/-!
# Integrity of the store when calls fail

`Sound` says that every name of a digest holds content with that digest. Each call that the writers
of the store make keeps it, whether the call fails or not, with one exception: a copy that fails
halfway leaves its destination cut off. `CopiesWhole` is the file system on which no copy does so.
-/

namespace Modeld

open Host Program

/-- Everything that can come of a call, except that a copy which fails has either not touched its
destination or copied everything. -/
def CopiesWhole : System Reply Fs := fun o h r h' =>
  Fs.exec o h = (r, h') ∨
    Fs.Fault o h r h' ∧ ∀ a b, o = .copy a b → h' = h ∨ h'.contents b = h.contents a

/-- The storage is well formed, and every name of a digest holds content with that digest. -/
structure Sound (sha : Sha256) (root : Path) (h : Fs) : Prop where
  wellFormed : WellFormed root h
  integral : Integral sha root h

/-- The path is no name of a digest. -/
def Unnamed (root p : Path) : Prop := ∀ d, IsDigest d → ¬ (CasStore.mk root).Names d p

/-- The call keeps to the layout and puts nothing under a name of a digest. -/
def PutsNoBlob (root : Path) (o : Call) : Prop :=
  Tidy root o ∧ match o with
  | .create p | .write p _ | .copy _ p | .hardLink _ p | .rename _ p => Unnamed root p
  | .writeAt .. => False
  | _ => True

variable {sha : Sha256} {root : Path} {h h' : Fs} {d : String} {p q a b : Path} {i : Ino}
  {x : Bytes}

theorem CopiesWhole.answers {o : Call} {r : Reply o} (hs : CopiesWhole o h r h') :
    Fs.Answers o h r h' :=
  hs.imp_right And.left

theorem Sound.content (hs : Sound sha root h) (hd : IsDigest d)
    (hx : (CasStore.mk root).content h d = some x) : sha.hash x = d := by
  rcases CasStore.content_cases hs.wellFormed hd with ⟨p, i, hp, hi, hc⟩ | ⟨-, hc⟩
  · rw [hx] at hc
    rw [Option.some.inj hc]
    exact hs.integral d p i hd hp hi
  · rw [hx] at hc
    cases hc

/-! ### What one call leaves of it -/

/-- A file under a name of a digest keeps its content when nothing writes it. -/
private theorem Sound.hash_kept {o : Call} {r : Reply o} (hs : Sound sha root h)
    (ha : Fs.Answers o h r h') (hd : IsDigest d) (hp : (CasStore.mk root).Names d p)
    (hi : h.lookup p = some (.file i)) (hw : ¬ Fs.Writes h i o) : sha.hash (h'.data i) = d := by
  have hfresh := hs.wellFormed.fresh p i (hp.under hd) hi
  rw [ha.frame.2 i hfresh hw]
  exact hs.integral d p i hd hp hi

/-- No file under a name of a digest is behind another path. -/
private theorem Sound.not_fileAt (hs : Sound sha root h) (hroot : root <+: q)
    (hlink : ¬ LinkPlace root q) (hun : Unnamed root q) (hd : IsDigest d)
    (hp : (CasStore.mk root).Names d p) (hi : h.lookup p = some (.file i)) :
    h.fileAt q ≠ some i := by
  intro hq
  rw [hs.wellFormed.fileAt_eq_some hroot hlink] at hq
  exact hun d hd (hs.wellFormed.names_of_shared hd hp hroot hi hq)

/-- Calls that put nothing under a name of a digest. -/
theorem Sound.of_putsNoBlob {o : Call} {r : Reply o} (hs : Sound sha root h)
    (ho : PutsNoBlob root o) (ha : Fs.Answers o h r h') : Sound sha root h' := by
  obtain ⟨htidy, hputs⟩ := ho
  refine ⟨hs.wellFormed.answers htidy ha, fun d p i hd hp hi => ?_⟩
  have hold : h.lookup p = some (.file i) := by
    cases ha.effect with
    | keep o hl => rwa [hl] at hi
    | newFile o q hq hnone hl hnext =>
      have hq' : root <+: q ∧ ¬ LinkPlace root q ∧ Unnamed root q := by
        rcases hq with rfl | ⟨y, rfl⟩ | ⟨c, rfl⟩ <;> exact ⟨htidy.1, htidy.2, hputs⟩
      rw [hs.wellFormed.final_eq hq'.1 hq'.2.1] at hl
      have hne : p ≠ q := by
        rintro rfl
        exact hq'.2.2 d hd hp
      rwa [hl, if_neg hne] at hi
    | newDirs q hl =>
      rcases hl p with hsame | ⟨-, hdir, -⟩
      · rwa [hsame] at hi
      · rw [hdir] at hi
        cases hi
    | link c e f he hdir hnone hl =>
      have hne : p ≠ e := by
        rintro rfl
        exact hputs d hd hp
      rwa [hl, if_neg hne] at hi
    | symlink t q hnone hl =>
      have hne : p ≠ q := by
        rintro rfl
        exact hp.not_linkPlace hd htidy
      rwa [hl, if_neg hne] at hi
    | remove q e he hdir hl =>
      rw [hl] at hi
      split at hi
      · cases hi
      · exact hi
    | rename c e f he hdir hnot hl =>
      have hne : p ≠ e := by
        rintro rfl
        exact hputs d hd hp
      rw [hl, if_neg hne] at hi
      split at hi
      · cases hi
      · exact hi
  refine hs.hash_kept ha hd hp hold fun hwrites => ?_
  cases o with
  | create q => exact hs.not_fileAt htidy.1 htidy.2 hputs hd hp hold hwrites
  | write q y => exact hs.not_fileAt htidy.1 htidy.2 hputs hd hp hold hwrites
  | copy c q => exact hs.not_fileAt htidy.1 htidy.2 hputs hd hp hold hwrites
  | writeAt k off y => exact hputs
  | _ => exact hwrites

theorem Reads.putsNoBlob {o : Call} (ho : Reads o) : PutsNoBlob root o := by
  refine ⟨(ho.inArea (x := Dir.cas)).1, ?_⟩
  cases o <;> first | exact ho.elim | exact trivial

/-- A second name for the content of a digest. -/
theorem Sound.hardLink {r : Except IoError Unit} (hs : Sound sha root h) (hd : IsDigest d)
    (hp : (CasStore.mk root).Names d a) (hq : (CasStore.mk root).Names d b)
    (ha : Fs.Answers (.hardLink a b) h r h') : Sound sha root h' := by
  refine ⟨hs.wellFormed.answers (o := .hardLink a b) ⟨d, hd, hp, hq⟩ ha, fun e p i he hpe hi => ?_⟩
  cases ha.effect with
  | newFile o q hq hnone hl hnext => rcases hq with heq | ⟨y, heq⟩ | ⟨c, heq⟩ <;> cases heq
  | keep o hl =>
    rw [hl] at hi
    exact hs.hash_kept ha he hpe hi id
  | link _ _ f hf hdir hnone hl =>
    rw [hl] at hi
    split at hi
    · rename_i heq
      subst heq
      cases Option.some.inj hi
      rw [hpe.digest_eq he hd hq]
      exact hs.hash_kept ha hd hp hf id
    · exact hs.hash_kept ha he hpe hi id

/-- Writing a file that has no name of a digest. -/
theorem Sound.setData (hs : Sound sha root h) (hroot : root <+: p) (hun : Unnamed root p)
    (hi : h.lookup p = some (.file i)) : Sound sha root (h.setData i x) := by
  refine ⟨hs.wellFormed.of_lookup_eq (fun _ => rfl) le_rfl, fun d q k hd hq hk => ?_⟩
  have hne : k ≠ i := by
    rintro rfl
    exact hun d hd (hs.wellFormed.names_of_shared hd hq hroot hk hi)
  rw [Fs.data_setData_of_ne hne]
  exact hs.integral d q k hd hq hk

/-- A copy of all the content of a digest. -/
theorem Sound.copy {r : Except IoError Unit} (hs : Sound sha root h) (hd : IsDigest d)
    (hb : (CasStore.mk root).Names d b) (ha : Fs.Answers (.copy a b) h r h')
    (hx : h'.contents b = some x) (hhash : sha.hash x = d) : Sound sha root h' := by
  have hlink := hb.not_linkPlace hd
  have hw' : WellFormed root h' :=
    hs.wellFormed.answers (o := .copy a b) ⟨hb.under hd, hlink⟩ ha
  refine ⟨hw', fun e p i he hp hi => ?_⟩
  obtain ⟨k, hk, hkx⟩ := Option.map_eq_some_iff.1 hx
  rw [hw'.fileAt_eq_some (hb.under hd) hlink] at hk
  by_cases hik : i = k
  · subst hik
    rw [hp.digest_eq he hd (hw'.names_of_shared hd hb (hp.under he) hk hi), hkx, hhash]
  -- Another file was there before, and the copy does not write it.
  · have hne : p ≠ b := by
      rintro rfl
      rw [hk] at hi
      exact hik (Entry.file.inj (Option.some.inj hi)).symm
    have hold : h.lookup p = some (.file i) := by
      cases ha.effect with
      | keep o hl => rwa [hl] at hi
      | newFile o q hq hnone hl hnext =>
        have hqb : q = b := by
          rcases hq with heq | ⟨y, heq⟩ | ⟨c, heq⟩ <;> cases heq
          rfl
        rw [hqb, hs.wellFormed.final_eq (hb.under hd) hlink] at hl
        rwa [hl, if_neg hne] at hi
    refine hs.hash_kept ha he hp hold fun hwrites => hik ?_
    rw [Fs.Writes, hs.wellFormed.fileAt_eq_some (hb.under hd) hlink] at hwrites
    have hkept : h'.lookup b = some (.file i) := by
      cases ha.effect with
      | keep o hl => rwa [hl]
      | newFile o q hq hnone hl hnext =>
        have hqb : q = b := by
          rcases hq with heq | ⟨y, heq⟩ | ⟨c, heq⟩ <;> cases heq
          rfl
        rw [hqb, hs.wellFormed.final_eq (hb.under hd) hlink, hwrites] at hnone
        cases hnone
    rw [hk] at hkept
    exact (Entry.file.inj (Option.some.inj hkept)).symm

/-! ### Staging files -/

/-- A place in the staging directory. -/
def StagePlace (root p : Path) : Prop := ∃ n : Name, p = root ++ [Dir.cas, Dir.incoming, n]

/-- The path names a file of the given content. -/
structure Staged (p : Path) (i : Ino) (x : Bytes) (h : Fs) : Prop where
  lookup : h.lookup p = some (.file i)
  data : h.data i = x

theorem StagePlace.in_cas (hp : StagePlace root p) : root ++ [Dir.cas] <+: p := by
  obtain ⟨n, rfl⟩ := hp
  simp

theorem StagePlace.under (hp : StagePlace root p) : root <+: p := under_root hp.in_cas

theorem StagePlace.not_linkPlace (hp : StagePlace root p) : ¬ LinkPlace root p :=
  not_linkPlace_of_area hp.in_cas (by decide) (by decide)

theorem StagePlace.unnamed (hp : StagePlace root p) : Unnamed root p := by
  obtain ⟨n, rfl⟩ := hp
  intro d hd
  exact CasStore.not_names_incoming hd n

/-- A staging file is created empty. -/
theorem StagePlace.created (hp : StagePlace root p) (hw : WellFormed root h)
    (ha : Fs.Answers (.create p) h (.ok i) h') : Staged p i [] h' := by
  rcases ha with hexec | hfault
  · have hfinal := hw.final_eq hp.under hp.not_linkPlace
    exact ⟨(Fs.create_lookup hexec hfinal).1, (Fs.create_frame hexec).2.2.1⟩
  · cases hfault

theorem Sound.create {r : Except IoError Ino} (hs : Sound sha root h) (hp : StagePlace root p)
    (ha : Fs.Answers (.create p) h r h') : Sound sha root h' := by
  have hputs : PutsNoBlob root (.create p) := ⟨⟨hp.under, hp.not_linkPlace⟩, hp.unnamed⟩
  exact hs.of_putsNoBlob hputs ha

/-- A chunk is written at the end of a staging file. -/
theorem Sound.writeAt {r : Except IoError Unit} {chunk : Bytes} (hs : Sound sha root h)
    (hp : StagePlace root p) (hst : Staged p i x h)
    (ha : Fs.Answers (.writeAt i x.length chunk) h r h') :
    Sound sha root h' ∧ (r = .ok () → Staged p i (x ++ chunk) h') := by
  rcases ha with hexec | hfault
  · cases hexec
    refine ⟨hs.setData hp.under hp.unnamed hst.lookup, fun _ => ⟨hst.lookup, ?_⟩⟩
    rw [Fs.writeAt, Fs.data_setData_self, hst.data, Fs.patch_length]
  · cases hfault
    exact ⟨hs.setData hp.under hp.unnamed hst.lookup, nofun⟩

/-- A staging file that is renamed to a name of a digest has no other name then. -/
theorem StagePlace.renamed (hp : StagePlace root p) (hw : WellFormed root h)
    (hi : h.lookup p = some (.file i)) (hd : IsDigest d) (hb : (CasStore.mk root).Names d b)
    (ha : Fs.Answers (.rename p b) h (.ok ()) h') :
    h'.lookup p = none ∧ h'.lookup b = some (.file i) ∧
      ∀ q, root <+: q → q ≠ b → h'.lookup q ≠ some (.file i) := by
  have hother : ∀ q, root <+: q → h.lookup q = some (.file i) → p = q := fun q hq hqi =>
    hw.eq_of_shared hp.under hq hi hqi hp.unnamed
  have hpb : p ≠ b := by
    rintro rfl
    exact hp.unnamed d hd hb
  rcases ha with hexec | hfault
  · have hbnil : b ≠ [] := Fs.ne_nil_of_lookup_ne_dir (hw.notDir d b hd hb)
    have hpnil : p ≠ [] := Fs.ne_nil_of_lookup_ne_dir (h := h) (by simp [hi])
    rcases Fs.rename_cases h p b with ⟨f, hf, -, -, -, hr⟩ | ⟨k, hk, hbk, -⟩ | ⟨e, hr⟩
    · have hfi := hi.symm.trans hf
      cases hexec.symm.trans hr
      rw [← Option.some.inj hfi]
      refine ⟨by rw [Fs.lookup_setEntry hbnil, if_neg hpb, Fs.lookup_unlink hpnil, if_pos rfl],
        by rw [Fs.lookup_setEntry hbnil, if_pos rfl], fun q hq hne => ?_⟩
      rw [Fs.lookup_setEntry hbnil, if_neg hne, Fs.lookup_unlink hpnil]
      split
      · exact nofun
      · rename_i hqp
        exact fun hqi => hqp (hother q hq hqi).symm
    · have hik : k = i := Entry.file.inj (Option.some.inj (hk.symm.trans hi))
      exact absurd (hother b (hb.under hd) (hik ▸ hbk)) hpb
    · cases hexec.symm.trans hr
  · cases hfault

/-- A staging file is renamed to a name of its digest. -/
theorem Sound.rename {r : Except IoError Unit} (hs : Sound sha root h) (hp : StagePlace root p)
    (hst : Staged p i x h) (hd : IsDigest d) (hx : sha.hash x = d)
    (hb : (CasStore.mk root).Names d b) (ha : Fs.Answers (.rename p b) h r h') :
    Sound sha root h' := by
  have htidy : Tidy root (.rename p b) :=
    ⟨hp.under, hp.not_linkPlace, hb.not_linkPlace hd, hp.unnamed⟩
  refine ⟨hs.wellFormed.answers htidy ha, fun e q k he hq hk => ?_⟩
  cases ha.effect with
  | keep o hl =>
    rw [hl] at hk
    exact hs.hash_kept ha he hq hk id
  | newFile o c hc hnone hl hnext => rcases hc with heq | ⟨y, heq⟩ | ⟨c, heq⟩ <;> cases heq
  | rename _ _ f hf hdir hnot hl =>
    have hfi := hst.lookup.symm.trans hf
    rw [hl, ← hfi] at hk
    split at hk
    · rename_i heq
      subst heq
      cases Option.some.inj hk
      have hdata := ha.frame.2 i (hs.wellFormed.fresh p i hp.under hst.lookup) id
      rw [hq.digest_eq he hd hb, hdata, hst.data, hx]
    · split at hk
      · cases hk
      · exact hs.hash_kept ha he hq hk id

/-! ### The operations of the core -/

/-- A program whose calls put nothing under a name of a digest. -/
theorem Sound.safely {α : Type} {p : Io α} (hs : Sound sha root h)
    (hp : Only (PutsNoBlob root) p) :
    Safely CopiesWhole (Sound sha root) p (fun _ h => Sound sha root h) h :=
  (hp.safely (I := Sound sha root) (fun _ _ _ _ ho hs ha =>
    ⟨trivial, hs.of_putsNoBlob ho (CopiesWhole.answers ha)⟩) hs).mono fun _ _ hs => hs.2

/-- A program that only reads. -/
theorem Sound.safely_of_reads {α : Type} {p : Io α} {Q : α → Prop} (hs : Sound sha root h)
    (hp : Keeps Reads (fun _ _ => True) p Q) :
    Safely CopiesWhole (Sound sha root) p (fun a h' => Q a ∧ h' = h) h := by
  refine (hp.safely (I := fun s => s = h) (fun _ s _ s' ho heq ha => ?_) rfl).weaken ?_
  · exact ⟨trivial, (ho.answers (CopiesWhole.answers ha)).trans heq⟩
  · rintro s rfl
    exact hs

namespace CasStore

variable {reader : Reader} {hashed : Bytes} {total : Nat} {pid : Pid} {expected : Option String}

/-- What the loop has hashed is what it has written. -/
theorem safely_storeLoop (hp : StagePlace root p) (hs : Sound sha root h)
    (hst : Staged p i hashed h) :
    Safely CopiesWhole (Sound sha root) (storeLoop i reader hashed total)
      (fun r h' => Sound sha root h' ∧ ∀ x n, r = .ok (x, n) → Staged p i x h') h := by
  induction reader generalizing hashed total h with
  | nil =>
    refine (safely_done _).2 ⟨hs, ?_⟩
    rintro x n ⟨⟩
    exact hst
  | cons chunk reader ih =>
    rcases chunk with e | chunk
    · exact (safely_done _).2 ⟨hs, nofun⟩
    rw [storeLoop]
    split
    · refine (safely_done _).2 ⟨hs, ?_⟩
      rintro x n ⟨⟩
      exact hst
    refine Safely.perform fun r h' ha => ?_
    obtain ⟨hs', hst'⟩ := hs.writeAt hp hst ha.answers
    refine ⟨hs', ?_⟩
    cases r with
    | error e => exact (safely_done _).2 ⟨hs', nofun⟩
    | ok u => exact ih hs' (hst' rfl)

theorem safely_storeStaged (hp : StagePlace root p) (hs : Sound sha root h)
    (hst : Staged p i x h) :
    Safely CopiesWhole (Sound sha root)
      ((CasStore.mk root).storeStaged p (sha.hash x) total expected)
      (fun _ h' => Sound sha root h') h := by
  unfold storeStaged
  split
  · exact hs.safely (Only.perform ⟨trivial, trivial⟩ fun _ => only_done _)
  refine (hs.safely_of_reads (keeps_blobPath fun _ ho => ho.reads)).bind ?_
  rintro target _ ⟨htarget, rfl⟩
  refine Safely.perform fun r h' ha => ?_
  have hs' := hs.rename hp hst (sha.isDigest_hash x) rfl htarget ha.answers
  refine ⟨hs', ?_⟩
  cases r <;> exact (safely_done _).2 hs'

theorem stagePlace_nonce (n : Nat) :
    StagePlace root ((CasStore.mk root).stagePath (nonceOf pid n)) :=
  ⟨_, stagePath_eq⟩

/-- A store keeps the integrity of the blobs, whatever fails. -/
theorem safely_storeBlob (hs : Sound sha root h) :
    Safely CopiesWhole (Sound sha root) ((CasStore.mk root).storeBlob sha pid reader expected)
      (fun _ h' => Sound sha root h') h := by
  refine Safely.perform fun n h₁ ha => ?_
  have hcounter : PutsNoBlob root (.fetchAdd pid) := ⟨trivial, trivial⟩
  have hs₁ : Sound sha root h₁ := hs.of_putsNoBlob hcounter ha.answers
  refine ⟨hs₁, Safely.perform fun r h₂ ha => ?_⟩
  have hs₂ := hs₁.create (stagePlace_nonce n) ha.answers
  refine ⟨hs₂, ?_⟩
  rcases r with e | file
  · exact (safely_done _).2 hs₂
  have hst := (stagePlace_nonce n).created hs₁.wellFormed ha.answers
  refine (safely_storeLoop (stagePlace_nonce n) hs₂ hst).bind ?_
  rintro r h₃ ⟨hs₃, hst₃⟩
  rcases r with e | ⟨x, total⟩
  · exact (safely_done _).2 hs₃
  · exact safely_storeStaged (stagePlace_nonce n) hs₃ (hst₃ x total rfl)

end CasStore

/-- A prune keeps it. -/
theorem EvictionManager.only_putsNoBlob_prune {max : Nat} :
    Only (PutsNoBlob root) ((ofRoot root).prune ⟨root⟩ max) :=
  only_prune (fun _ ho => ho.reads.putsNoBlob) (Reads.putsNoBlob trivial) (Reads.putsNoBlob trivial)
    fun _ _ => ⟨⟨trivial, trivial⟩, trivial, trivial⟩

end Modeld
