import Modeld.Core.PruneOrder
import Modeld.Core.TagWrites
import Modeld.Daemon.DaemonCalls
import Modeld.Daemon.ServerFrames

/-!
# What a call may change

`Pin` and `Unpin` touch one pin, `Prune` takes blob files away, `Register` touches one tag. Whatever
else is dispatched only reads.
-/

namespace Modeld

open Host Program

variable {root p : Path} {h h' h₁ : Fs} {d : String} {P Q : Path → Prop}

/-- Nothing differs except at some paths. -/
structure SameBut (root : Path) (P : Path → Prop) (h h' : Fs) : Prop where
  lookup : ∀ q, ¬ P q → h'.lookup q = h.lookup q
  inodes : ∀ q i, root <+: q → ¬ P q → h.lookup q = some (.file i) → h'.inodes i = h.inodes i

namespace SameBut

theorem refl : SameBut root P h h := ⟨fun _ _ => rfl, fun _ _ _ _ _ => rfl⟩

theorem mono (hs : SameBut root P h h') (hPQ : ∀ q, P q → Q q) : SameBut root Q h h' :=
  ⟨fun q hq => hs.lookup q (mt (hPQ q) hq), fun q i hroot hq => hs.inodes q i hroot (mt (hPQ q) hq)⟩

theorem trans (hs : SameBut root P h h₁) (hs' : SameBut root P h₁ h') : SameBut root P h h' where
  lookup q hq := (hs'.lookup q hq).trans (hs.lookup q hq)
  inodes q i hroot hq hi :=
    (hs'.inodes q i hroot hq ((hs.lookup q hq).trans hi)).trans (hs.inodes q i hroot hq hi)

end SameBut

/-- A path of its own: a file there is under no other path, and a link is not there. -/
structure Single (root : Path) (p : Path) : Prop where
  under : root <+: p
  link : ¬ LinkPlace root p
  name : ∀ d, IsDigest d → ¬ (CasStore.mk root).Names d p

theorem single_of_area {x : Name} (hp : root ++ [x] <+: p) (hgguf : x ≠ Dir.gguf)
    (hsafetensors : x ≠ Dir.safetensors) (hcas : x ≠ Dir.cas) : Single root p :=
  ⟨under_root hp, not_linkPlace_of_area hp hgguf hsafetensors,
    fun _ hd hnames => not_under hp hcas.symm (hnames.in_cas hd)⟩

/-- An inode behind such a path is behind no other. -/
theorem Single.ne (hp : Single root p) (hw : WellFormed root h) {i j : Ino} {q : Path}
    (hi : h.lookup p = some (.file i)) (hq : root <+: q) (hne : q ≠ p)
    (hj : h.lookup q = some (.file j)) : j ≠ i := by
  rintro rfl
  exact hne (hw.eq_of_shared hp.under hq hi hj hp.name).symm

/-- What a file created at such a path is behind is behind no other path. -/
theorem Single.ne_created (hp : Single root p) (hw : WellFormed root h) {i j : Ino} {q : Path}
    (hc : h.create p = (.ok i, h₁)) (hq : root <+: q) (hne : q ≠ p)
    (hj : h.lookup q = some (.file j)) : j ≠ i := by
  obtain ⟨-, hfile, -⟩ := Fs.create_frame hc
  rcases hfile with hold | hnew
  · exact hp.ne hw ((hw.fileAt_eq_some hp.under hp.link).1 hold) hq hne hj
  · have hlt := hw.fresh q j hq hj
    rw [hnew]
    exact hlt.ne

theorem sameBut_create (hw : WellFormed root h) (hp : Single root p) :
    SameBut root (· = p) h (h.create p).2 := by
  rcases hc : h.create p with ⟨r, h₁⟩
  cases r with
  | error e =>
    rw [show h₁ = h from Fs.create_error hc]
    exact .refl
  | ok i =>
    obtain ⟨-, hother⟩ := Fs.create_lookup hc (hw.final_eq hp.under hp.link)
    obtain ⟨-, hinodes, -⟩ := Fs.create_spec hc
    exact ⟨hother, fun q j hroot hq hj => hinodes j (hp.ne_created hw hc hroot hq hj)⟩

/-- Creating a file and writing to it. -/
theorem SameBut.writeAt {i : Ino} (hw : WellFormed root h) (hp : Single root p)
    (hc : h.create p = (.ok i, h₁)) (off : Nat) (b : Bytes) :
    SameBut root (· = p) h (h₁.writeAt i off b) := by
  have hcreated : SameBut root (· = p) h h₁ := by
    have hsame := sameBut_create hw hp
    rwa [hc] at hsame
  refine ⟨hcreated.lookup, fun q j hroot hq hj => ?_⟩
  have hne := hp.ne_created hw hc hroot hq hj
  exact (Function.update_of_ne hne ..).trans (hcreated.inodes q j hroot hq hj)

theorem sameBut_removeFile : SameBut root (· = p) h (h.removeFile p).2 := by
  obtain ⟨-, hkept, ⟨entries, hrest⟩, -⟩ := EvictionManager.run_removeAt h p
  refine ⟨fun q hq => hkept q (.inl hq), fun q i _ _ _ => ?_⟩
  rw [hrest]

/-! ### Pins -/

/-- The pin of a digest. -/
def PinRecord (root : Path) (d : String) (q : Path) : Prop :=
  ∃ hd : IsDigest (Text.trim d), q = root ++ [Dir.pinned, ⟨Text.trim d, hd.plain⟩]

theorem single_pin {n : Name} : Single root (root ++ [Dir.pinned, n]) := by
  have hpin : root ++ [Dir.pinned] <+: root ++ [Dir.pinned, n] := by simp
  exact single_of_area hpin (by decide) (by decide) (by decide)

theorem sameBut_pin (hw : WellFormed root h) :
    SameBut root (PinRecord root d) h (((EvictionManager.ofRoot root).pin d).run Fs.exec h).2 := by
  unfold EvictionManager.pin
  by_cases hd : IsDigest (Text.trim d)
  · rw [validateDigestFormat_of_isDigest hd, EvictionManager.pinFile_eq hd]
    dsimp only
    have hpinned : SameBut root (PinRecord root d) h _ :=
      (sameBut_create hw (@single_pin root ⟨_, hd.plain⟩)).mono fun _ hq => ⟨hd, hq⟩
    rw [Fs.run_create]
    generalize h.create (root ++ [Dir.pinned, ⟨_, hd.plain⟩]) = made at hpinned ⊢
    obtain ⟨r, h₁⟩ := made
    cases r with
    | error e => exact hpinned
    | ok i => exact hpinned
  · obtain ⟨e, he⟩ := validateDigestFormat_of_not_isDigest hd
    rw [he]
    exact .refl

theorem sameBut_unpin :
    SameBut root (PinRecord root d) h (((EvictionManager.ofRoot root).unpin d).run Fs.exec h).2 := by
  unfold EvictionManager.unpin
  by_cases hd : IsDigest (Text.trim d)
  · rw [validateDigestFormat_of_isDigest hd, EvictionManager.pinFile_eq hd]
    dsimp only
    rw [Fs.run_isFile]
    split
    · have hunpinned : SameBut root (PinRecord root d) h _ :=
        (@sameBut_removeFile root (root ++ [Dir.pinned, ⟨_, hd.plain⟩]) h).mono fun _ hq => ⟨hd, hq⟩
      rw [Fs.run_removeFile]
      generalize h.removeFile (root ++ [Dir.pinned, ⟨_, hd.plain⟩]) = made at hunpinned ⊢
      obtain ⟨r, h₁⟩ := made
      cases r with
      | error e => exact hunpinned
      | ok u => exact hunpinned
    · exact .refl
  · obtain ⟨e, he⟩ := validateDigestFormat_of_not_isDigest hd
    rw [he]
    exact .refl

/-- An operation on the digest that an identifier resolves to. -/
def OnResolved (root : Path) (params : Option Json) (h h' : Fs) : Prop :=
  h' = h ∨ ∃ id d, textParam params "id" = some id ∧
    ((resolveDigest (TagRegistry.ofRoot root) id).run Fs.exec h).1 = .ok d ∧
      SameBut root (PinRecord root d) h h'

theorem onResolved_handleDigest {α : Type} {params : Option Json}
    {operation : EvictionManager → String → Io (Except ModeldError α)}
    (hop : ∀ d, SameBut root (PinRecord root d) h
      ((operation (EvictionManager.ofRoot root) d).run Fs.exec h).2) :
    OnResolved root params h ((handleDigest operation params (.ofRoot root)).run Fs.exec h).2 := by
  unfold handleDigest
  cases hid : textParam params "id" with
  | none => exact .inl rfl
  | some id =>
    dsimp only
    rw [run_bind_of_reads only_resolveDigest]
    cases hresolved : ((resolveDigest (TagRegistry.ofRoot root) id).run Fs.exec h).1 with
    | invalid => exact .inl rfl
    | notFound => exact .inl rfl
    | ok digest =>
      refine .inr ⟨id, digest, hid, hresolved, ?_⟩
      have hsame := hop digest
      dsimp only
      rw [run_bind]
      generalize (operation (EvictionManager.ofRoot root) digest).run Fs.exec h = made at hsame ⊢
      obtain ⟨r, h₁⟩ := made
      cases r with
      | error e => exact hsame
      | ok a => exact hsame

/-! ### Blobs -/

/-- A file in the blobs directory, or a flat GGUF file. -/
def BlobFile (root : Path) (q : Path) : Prop :=
  (∃ n : Name, q = root ++ [Dir.cas, Dir.blobs, Dir.sha256, n]) ∨
    ∃ (n : Name) (d : String), q = root ++ [Dir.cas, n] ∧ n.text = "sha256-" ++ d ++ ".gguf"

/-- Files are taken away from some paths. -/
def TakesAway (P : Path → Prop) (h h' : Fs) : Prop :=
  (∀ q, h'.lookup q = h.lookup q ∨ (P q ∧ h'.lookup q = none)) ∧ h'.inodes = h.inodes

theorem TakesAway.refl : TakesAway P h h := ⟨fun _ => .inl rfl, rfl⟩

theorem takesAway_of_evicts {gone : List Candidate} (hw : WellFormed root h)
    (hs : EvictionManager.Evicts root gone h h') (hslash : ∀ b ∈ gone, '/' ∉ b.digest.toList) :
    TakesAway (BlobFile root) h h' := by
  constructor
  · intro q
    by_cases hdir : h.lookup q = some .dir
    · exact .inl (hs.kept q (.inr hdir))
    by_cases hgone : ∃ b ∈ gone, (CasStore.mk root).PrunedName b.digest q
    swap
    · exact .inl (hs.kept q (.inl hgone))
    refine .inr ⟨?_, hs.removed q hgone hdir⟩
    obtain ⟨b, hb, hq⟩ := hgone
    rcases hq with rfl | rfl
    · by_cases hplain : PlainName b.digest
      · rw [CasStore.blobsDir_join hplain]
        exact .inl ⟨_, rfl⟩
      · refine absurd ?_ hdir
        apply hw.base
        have hnot := Path.join_of_not_plain (CasStore.mk root).blobsDir (hslash b hb) hplain
        rcases hnot with hjoin | hjoin
        · rw [hjoin, CasStore.blobsDir_eq]
          simp [baseDirs]
        · rw [hjoin, CasStore.blobsDir_eq]
          simp [baseDirs, List.dropLast_append_of_ne_nil]
    · rw [CasStore.flatGguf_eq (hslash b hb)]
      exact .inr ⟨_, _, rfl, rfl⟩
  · obtain ⟨entries, rfl⟩ := hs.rest
    rfl

theorem takesAway_prune {max : Nat} (hw : WellFormed root h) : TakesAway (BlobFile root) h
    (((EvictionManager.ofRoot root).prune ⟨root⟩ max).run Fs.exec h).2 := by
  obtain ⟨blobs, hblobs⟩ := @Fs.exists_readDir h (CasStore.mk root).blobsDir (by
    rw [CasStore.blobsDir_eq]
    exact hw.base _ (.inr (by simp [baseDirs])))
  obtain ⟨cas, hcas⟩ := @Fs.exists_readDir h (CasStore.mk root).casDir (by
    rw [CasStore.casDir_eq]
    exact hw.base _ (.inr (by simp [baseDirs])))
  obtain ⟨evicted, hevicts, hsub⟩ := EvictionManager.evicts_prune hblobs hcas
    (EvictionManager.pinsAreFiles_of_wellFormed hw) max
  exact takesAway_of_evicts hw hevicts fun b hb =>
    (EvictionManager.present_of_mem hblobs hcas (hsub hb)).slash

theorem takesAway_handlePrune {params : Option Json} (hw : WellFormed root h) :
    TakesAway (BlobFile root) h ((handlePrune params (.ofRoot root)).run Fs.exec h).2 := by
  unfold handlePrune
  split
  · exact .refl
  · have hpruned := @takesAway_prune root h (maxBytesParam params) hw
    rw [run_bind]
    change TakesAway (BlobFile root) h (run Fs.exec _ (((EvictionManager.ofRoot root).prune ⟨root⟩
      (maxBytesParam params)).run Fs.exec h).2).2
    generalize ((EvictionManager.ofRoot root).prune ⟨root⟩ (maxBytesParam params)).run Fs.exec h =
      made at hpruned ⊢
    obtain ⟨r, h₁⟩ := made
    cases r with
    | error e => exact hpruned
    | ok reclaimed => exact hpruned

/-! ### Tags -/

/-- What a name and a tag are mapped with: the file, and the directory that it may need. -/
def TagRecord (root : Path) (h : Fs) (name tag : Name) (q : Path) : Prop :=
  q = root ++ [Dir.tags, name, tag] ∨ (q = root ++ [Dir.tags, name] ∧ h.lookup q = none)

theorem single_tag {n t : Name} : Single root (root ++ [Dir.tags, n, t]) := by
  have htags : root ++ [Dir.tags] <+: root ++ [Dir.tags, n, t] := by simp
  exact single_of_area htags (by decide) (by decide) (by decide)

/-- The directory of a name. -/
theorem sameBut_createDirAll {n t : Name} (hw : WellFormed root h) :
    SameBut root (TagRecord root h n t) h (h.createDirAll (root ++ [Dir.tags, n])).2 := by
  obtain ⟨hspec, hinodes, -⟩ := Fs.makeDirs_spec [] (root ++ [Dir.tags, n]) h
  refine ⟨fun q hq => ?_, fun q i _ _ _ => congrFun hinodes i⟩
  rcases hspec q with hsame | ⟨hnone, -, ds, -, hds, heq⟩
  · exact hsame
  have hsplit : root ++ [Dir.tags, n] = root ++ [Dir.tags] ++ [n] := by simp
  rw [List.nil_append] at heq
  rw [← heq, hsplit, List.prefix_concat_iff, List.prefix_concat_iff] at hds
  have hdir : h.lookup q = some .dir := by
    rcases hds with hds | hds | hds
    · exact absurd (.inr ⟨hds.trans hsplit.symm, hnone⟩) hq
    · rw [hds]
      exact hw.base _ (.inr (by simp [baseDirs]))
    · exact hw.base q (.inl hds)
  rw [hnone] at hdir
  cases hdir

theorem sameBut_setTag {name tag : String} (hw : WellFormed root h) (hname : IsSegment name)
    (htag : IsSegment tag) :
    SameBut root (TagRecord root h ⟨name, hname.1⟩ ⟨tag, htag.1⟩) h
      (((TagRegistry.ofRoot root).setTag name tag d).run Fs.exec h).2 := by
  unfold TagRegistry.setTag
  rw [validateTagSegment_eq_ok.2 ⟨rfl, hname⟩]
  dsimp only
  rw [validateTagSegment_eq_ok.2 ⟨rfl, htag⟩]
  dsimp only
  cases validateDigestFormat (Text.trim d) with
  | error e => exact .refl
  | ok u =>
    have hdir : (TagRegistry.ofRoot root).tagsDir.join name = root ++ [Dir.tags, ⟨name, hname.1⟩] := by
      rw [Path.join_of_plain _ hname.1]
      simp
    have hfile : ((TagRegistry.ofRoot root).tagsDir.join name).join tag =
        root ++ [Dir.tags, ⟨name, hname.1⟩, ⟨tag, htag.1⟩] := TagRegistry.tagFile_eq hname htag
    obtain ⟨-, hw₁, -⟩ := TagRegistry.run_createDirAll hw ⟨name, hname.1⟩
    have hmade := @sameBut_createDirAll root h ⟨name, hname.1⟩ ⟨tag, htag.1⟩ hw
    dsimp only
    rw [TagRegistry.writeTag, hfile, hdir, Fs.run_createDirAll]
    generalize h.createDirAll (root ++ [Dir.tags, ⟨name, hname.1⟩]) = made at hw₁ hmade ⊢
    obtain ⟨r, h₁⟩ := made
    cases r with
    | error e => exact hmade
    | ok u =>
      have hsingle := @single_tag root ⟨name, hname.1⟩ ⟨tag, htag.1⟩
      have hcreated := sameBut_create hw₁ hsingle
      dsimp only
      rw [Fs.run_create]
      rcases hc : h₁.create (root ++ [Dir.tags, ⟨name, hname.1⟩, ⟨tag, htag.1⟩]) with ⟨r₂, h₂⟩
      rw [hc] at hcreated
      cases r₂ with
      | error e => exact hmade.trans (hcreated.mono fun _ => .inl)
      | ok i => exact hmade.trans ((SameBut.writeAt hw₁ hsingle hc _ _).mono fun _ => .inl)

/-- The mapping of the name and the tag that the parameters ask for. -/
def OnTarget (root : Path) (params : Option Json) (h h' : Fs) : Prop :=
  h' = h ∨ ∃ (id : String) (name tag : Name), registerId params = some id ∧
    registerTarget id (textParam params "tag") = (name.text, tag.text) ∧
      SameBut root (TagRecord root h name tag) h h'

theorem onTarget_handleRegister {json : JsonLibrary} {params : Option Json} (hw : WellFormed root h) :
    OnTarget root params h ((handleRegister json params (.ofRoot root)).run Fs.exec h).2 := by
  unfold handleRegister
  cases hid : registerId params with
  | none => exact .inl rfl
  | some id =>
    rcases htarget : registerTarget id (textParam params "tag") with ⟨name, tag⟩
    dsimp only
    rw [htarget]
    dsimp only
    rcases validateTagSegment_cases name with ⟨hname, hvalid⟩ | ⟨-, e, hvalid⟩
    swap
    · rw [hvalid]
      exact .inl rfl
    rcases validateTagSegment_cases tag with ⟨htag, hvalid'⟩ | ⟨-, e, hvalid'⟩
    swap
    · rw [hvalid, hvalid']
      exact .inl rfl
    rw [hvalid, hvalid']
    dsimp only
    unfold registerDigest
    rw [run_bind_of_reads only_digestCandidate]
    cases ((digestCandidate (TagRegistry.ofRoot root) name tag
      (textParam params "digest")).run Fs.exec h).1 with
    | error reply => exact .inl rfl
    | ok candidate =>
      dsimp only
      cases validateDigestFormat (cleanDigest candidate) with
      | error e => exact .inl rfl
      | ok u =>
        have hset := @sameBut_setTag root h (cleanDigest candidate) name tag hw hname htag
        refine .inr ⟨id, ⟨name, hname.1⟩, ⟨tag, htag.1⟩, hid, htarget, ?_⟩
        dsimp only
        rw [run_bind]
        generalize ((TagRegistry.ofRoot root).setTag name tag (cleanDigest candidate)).run Fs.exec h =
          made at hset ⊢
        obtain ⟨r, h₁⟩ := made
        cases r with
        | error e => exact hset
        | ok v =>
          dsimp only
          rw [Only.run_eq only_describeEntry]
          exact hset

/-! ### Calls -/

theorem reads_dispatchCall {json : JsonLibrary} {ctx : ModelServiceContext} {call : VarlinkCall}
    (hpin : call.method ≠ "io.syntrop.Model1.Pin") (hunpin : call.method ≠ "io.syntrop.Model1.Unpin")
    (hprune : call.method ≠ "io.syntrop.Model1.Prune")
    (hregister : call.method ≠ "io.syntrop.Model1.Register") :
    Only Reads (dispatchCall json call ctx) := by
  unfold dispatchCall
  split
  · exact only_done _
  split
  · rename_i hcall
    unfold handleModel1Call at hcall
    rw [if_neg hpin, if_neg hunpin, if_neg hprune, if_neg hregister] at hcall
    split_ifs at hcall
    all_goals obtain rfl := Option.some.inj hcall
    · exact only_handleList
    · exact only_handleInspect
    · exact only_handleGetStorageStats
  · exact only_done _

/-- What a call changes, by its method. -/
structure CallFrame (root : Path) (call : VarlinkCall) (h h' : Fs) : Prop where
  pin : call.method = "io.syntrop.Model1.Pin" → OnResolved root call.parameters h h'
  unpin : call.method = "io.syntrop.Model1.Unpin" → OnResolved root call.parameters h h'
  prune : call.method = "io.syntrop.Model1.Prune" → TakesAway (BlobFile root) h h'
  register : call.method = "io.syntrop.Model1.Register" → OnTarget root call.parameters h h'
  other : call.method ≠ "io.syntrop.Model1.Pin" → call.method ≠ "io.syntrop.Model1.Unpin" →
    call.method ≠ "io.syntrop.Model1.Prune" → call.method ≠ "io.syntrop.Model1.Register" → h' = h

theorem callFrame_dispatchCall {json : JsonLibrary} (call : VarlinkCall) (hw : WellFormed root h) :
    CallFrame root call h ((dispatchCall json call (.ofRoot root)).run Fs.exec h).2 := by
  obtain ⟨method, params, more⟩ := call
  constructor
  · rintro rfl
    rw [dispatchCall_pin]
    exact onResolved_handleDigest fun d => sameBut_pin hw
  · rintro rfl
    rw [dispatchCall_unpin]
    exact onResolved_handleDigest fun d => sameBut_unpin
  · rintro rfl
    rw [dispatchCall_prune]
    exact takesAway_handlePrune hw
  · rintro rfl
    exact onTarget_handleRegister hw
  · intro hpin hunpin hprune hregister
    exact Only.run_eq (reads_dispatchCall hpin hunpin hprune hregister) h

end Modeld
