import Modeld.Core.Blobs
import Modeld.Core.Opening
import Modeld.Core.TagWrites
import Modeld.Daemon.DaemonCalls

/-!
# Calls that fail

A reply with an error means that nothing changed, with one exception: `Register` looks at the blob
only after it has written the tag, so when it then refuses an unsafe blob, the tag stays.
-/

namespace Modeld

open Host Program

variable {root : Path} {h : Fs} {json : JsonLibrary} {params : Option Json}
  {ctx : ModelServiceContext} {name tag d : String}

/-! ### Errors that leave the state alone -/

/-- An operation that fails leaves the state as it was. -/
def FailsClean {α : Type} (p : Io (Except ModeldError α)) : Prop :=
  ∀ h e, (p.run Fs.exec h).1 = .error e → (p.run Fs.exec h).2 = h

theorem EvictionManager.failsClean_pin (m : EvictionManager) (d : String) : FailsClean (m.pin d) := by
  intro h e he
  unfold pin at he ⊢
  split
  · rfl
  · rename_i hvalid
    rw [hvalid] at he
    rw [Fs.run_create] at he ⊢
    rcases Fs.create_cases h (m.pinnedDir.join (Text.trim d)) with
      ⟨i, -, hc⟩ | ⟨-, -, hc⟩ | ⟨-, e', hc⟩
    · rw [hc] at he
      cases he
    · rw [hc] at he
      cases he
    · rw [hc]
      rfl

theorem EvictionManager.failsClean_unpin (m : EvictionManager) (d : String) :
    FailsClean (m.unpin d) := by
  intro h e he
  unfold unpin at he ⊢
  split
  · rfl
  · rename_i hvalid
    rw [hvalid] at he
    dsimp only at he ⊢
    rw [Fs.run_isFile] at he ⊢
    split
    · rename_i hfile
      rw [if_pos hfile, Fs.run_removeFile] at he
      rw [Fs.run_removeFile]
      rcases Fs.removeFile_cases h (m.pinnedDir.join (Text.trim d)) with
        ⟨e', -, -, hr⟩ | ⟨-, e', hr⟩
      · rw [hr] at he
        cases he
      · rw [hr]
        rfl
    · rfl

theorem EvictionManager.failsClean_prune (m : EvictionManager) (cas : CasStore) (max : Nat) :
    FailsClean (m.prune cas max) := by
  intro h e he
  unfold prune at he ⊢
  rw [run_bind_of_reads only_scan] at he ⊢
  split
  · rfl
  · rename_i blobs total hscan
    rw [hscan] at he
    dsimp only at he ⊢
    split
    · rfl
    · rename_i hmax
      rw [if_neg hmax, run_bind] at he
      cases he

theorem handleDigest_error {α : Type} {operation : EvictionManager → String → Io (Except ModeldError α)}
    (hop : ∀ d, FailsClean (operation ctx.eviction d))
    (he : ((handleDigest operation params ctx).run Fs.exec h).1.error.isSome = true) :
    ((handleDigest operation params ctx).run Fs.exec h).2 = h := by
  unfold handleDigest at he ⊢
  split
  · rfl
  rename_i id hid
  rw [hid] at he
  dsimp only at he
  rw [run_bind_of_reads only_resolveDigest] at he ⊢
  cases houtcome : ((resolveDigest ctx.tags id).run Fs.exec h).1 with
  | ok digest =>
    rw [houtcome] at he
    dsimp only at he ⊢
    rw [run_bind] at he ⊢
    cases hr : ((operation ctx.eviction digest).run Fs.exec h).1 with
    | ok a =>
      rw [hr] at he
      cases he
    | error e => exact hop digest h e hr
  | invalid => rfl
  | notFound => rfl

theorem handlePrune_error
    (he : ((handlePrune params ctx).run Fs.exec h).1.error.isSome = true) :
    ((handlePrune params ctx).run Fs.exec h).2 = h := by
  unfold handlePrune at he ⊢
  split
  · rfl
  rename_i hmax
  rw [if_neg hmax, run_bind] at he
  rw [run_bind]
  cases hr : ((ctx.eviction.prune ctx.cas (maxBytesParam params)).run Fs.exec h).1 with
  | ok a =>
    rw [hr] at he
    cases he
  | error e => exact EvictionManager.failsClean_prune _ _ _ h e hr

/-! ### `Register` -/

/-- The digest that a call asks for: its parameter, or what the name and the tag resolve to. -/
def requestedDigest (tags : TagRegistry) (h : Fs) (name tag : String) : Option String → Option String
  | some d => some (Text.trim d)
  | none =>
    match ((tags.resolve (name ++ ":" ++ tag)).run Fs.exec h).1 with
    | .ok d => d
    | .error _ => none

/-- The blob of a digest is one that `detect_safe_format` refuses as unsafe. -/
def UnsafeBlob (cas : CasStore) (h : Fs) (d : String) : Prop :=
  ∃ bytes reason, cas.content h d = some bytes ∧
    detectSafeFormat (bytes.take 16) = .error (.securityRejection reason)

/-- What is asked for is a digest whose blob is unsafe, under a tag that can be written and does not
hold that digest already. -/
def RefusedAfterWrite (root : Path) (h : Fs) (name tag : Name) (given : Option String) : Prop :=
  ∃ candidate, requestedDigest (TagRegistry.ofRoot root) h name.text tag.text given = some candidate ∧
    IsDigest (cleanDigest candidate) ∧ UnsafeBlob ⟨root⟩ h (cleanDigest candidate) ∧
    Writable root h name tag ∧ tagAt root h name tag ≠ some (Text.toBytes (cleanDigest candidate))

/-- The call is a `Register` with a valid name and a valid tag that is refused after it has written
the tag. -/
def RegistersUnsafe (root : Path) (call : VarlinkCall) (h : Fs) : Prop :=
  call.method = "io.syntrop.Model1.Register" ∧ ∃ id, registerId call.parameters = some id ∧
    ∃ (hname : IsSegment (registerTarget id (textParam call.parameters "tag")).1)
      (htag : IsSegment (registerTarget id (textParam call.parameters "tag")).2),
      RefusedAfterWrite root h ⟨_, hname.1⟩ ⟨_, htag.1⟩ (textParam call.parameters "digest")

theorem run_digestCandidate (tags : TagRegistry) (h : Fs) (name tag : String)
    (given : Option String) :
    (∃ candidate, requestedDigest tags h name tag given = some candidate ∧
      ((digestCandidate tags name tag given).run Fs.exec h).1 = .ok candidate) ∨
    (requestedDigest tags h name tag given = none ∧
      ∃ reply, ((digestCandidate tags name tag given).run Fs.exec h).1 = .error reply) := by
  unfold digestCandidate requestedDigest
  cases given with
  | some d => exact .inl ⟨_, rfl, rfl⟩
  | none =>
    dsimp only
    rw [run_bind_of_reads TagRegistry.only_resolve]
    rcases ((tags.resolve (name ++ ":" ++ tag)).run Fs.exec h).1 with e | d | d
    · exact .inr ⟨rfl, _, rfl⟩
    · exact .inr ⟨rfl, _, rfl⟩
    · exact .inl ⟨d, rfl, rfl⟩

/-- Describing an entry fails exactly when its blob is unsafe. -/
theorem describeEntry_error (h : Fs) :
    ((describeEntry json ctx name tag d).run Fs.exec h).1.error.isSome = true ↔
      UnsafeBlob ctx.cas h d := by
  unfold describeEntry registerBlob UnsafeBlob CasStore.content
  rw [run_bind_of_reads (reads_of_looks only_sizeOrZero),
    run_bind_of_reads (reads_of_looks EvictionManager.only_isPinned), bind_assoc,
    run_bind_of_reads CasStore.only_openBlob]
  rcases ((ctx.cas.openBlob d).run Fs.exec h).1 with e | file
  · simp
  dsimp only
  rw [bind_assoc, run_bind_of_reads (reads_of_looks only_detectFile)]
  have hdetect : ((detectFile file).run Fs.exec h).1 = detectSafeFormat ((h.data file).take 16) := rfl
  rw [hdetect]
  rcases hformat : detectSafeFormat ((h.data file).take 16) with (e | _ | _ | reason | _) | format
  case error.securityRejection => simp [hformat]
  all_goals
    dsimp only
    rw [bind_assoc, run_bind_of_reads (reads_of_looks only_describeFile)]
    simp [hformat]

/-- Registering a digest under a valid name and a valid tag. -/
theorem registerDigest_error (hw : WellFormed root h) (hname : IsSegment name) (htag : IsSegment tag)
    (given : Option String) :
    let result := (registerDigest json (ModelServiceContext.ofRoot root) name tag given).run Fs.exec h
    (result.1.error.isSome = true → SameStorage root h result.2) ↔
      ¬ RefusedAfterWrite root h ⟨name, hname.1⟩ ⟨tag, htag.1⟩ given := by
  unfold registerDigest
  rw [run_bind_of_reads only_digestCandidate]
  rcases run_digestCandidate (TagRegistry.ofRoot root) h name tag given with ⟨candidate, hcandidate, hrun⟩ | ⟨hnone, reply, hrun⟩
  swap
  · rw [hrun]
    refine iff_of_true (fun _ => .refl) ?_
    rintro ⟨candidate, hcandidate, -⟩
    rw [hnone] at hcandidate
    cases hcandidate
  rw [hrun]
  by_cases hd : IsDigest (cleanDigest candidate)
  swap
  · obtain ⟨e, he⟩ := validateDigestFormat_of_not_isDigest hd
    simp only [he]
    refine iff_of_true (fun _ => .refl) ?_
    rintro ⟨candidate', hcandidate', hd', -⟩
    obtain rfl := Option.some.inj (hcandidate.symm.trans hcandidate')
    exact hd hd'
  simp only [validateDigestFormat_of_isDigest hd]
  rw [run_bind]
  rcases TagRegistry.run_setTag hw hname htag hd with
    ⟨hwritable, ⟨e, he⟩, hsame⟩ | ⟨hwritable, hok, hself, hother, hpins, hstore⟩
  · rw [he]
    refine iff_of_true (fun _ => hsame) ?_
    rintro ⟨-, -, -, -, hwritable', -⟩
    exact hwritable hwritable'
  rw [hok]
  have hw₁ : WellFormed root (((TagRegistry.ofRoot root).setTag name tag
      (cleanDigest candidate)).run Fs.exec h).2 :=
    Only.run (I := WellFormed root) Fs.exec
      (fun o s ho hs => hs.answers ho.1 (r := (Fs.exec o s).1) (.inl rfl))
      TagRegistry.inArea_setTag hw
  generalize (((TagRegistry.ofRoot root).setTag name tag (cleanDigest candidate)).run Fs.exec h).2 =
    h₁ at *
  dsimp only
  rw [describeEntry_error, Only.run_eq only_describeEntry]
  have hbad : UnsafeBlob ⟨root⟩ h₁ (cleanDigest candidate) ↔
      UnsafeBlob ⟨root⟩ h (cleanDigest candidate) := by
    rw [UnsafeBlob, UnsafeBlob, CasStore.content_of_sameStore hw hw₁ hd hstore]
  have hsame : SameStorage root h h₁ ↔
      tagAt root h ⟨name, hname.1⟩ ⟨tag, htag.1⟩ = some (Text.toBytes (cleanDigest candidate)) := by
    refine ⟨fun hs => (hs.tags _ _).symm.trans hself, fun hbefore => ⟨fun n t => ?_, hpins, hstore⟩⟩
    by_cases hnt : n = ⟨name, hname.1⟩ ∧ t = ⟨tag, htag.1⟩
    · obtain ⟨rfl, rfl⟩ := hnt
      rw [hself, hbefore]
    · exact hother n t hnt
  rw [hbad, hsame]
  constructor
  · rintro himp ⟨candidate', hcandidate', -, hbad, -, hne⟩
    obtain rfl := Option.some.inj (hcandidate.symm.trans hcandidate')
    exact hne (himp hbad)
  · intro hnot hbad
    by_contra hne
    exact hnot ⟨candidate, hcandidate, hd, hbad, hwritable, hne⟩

/-- `Register`, with any parameters. -/
theorem handleRegister_error (hw : WellFormed root h) :
    let result := (handleRegister json params (ModelServiceContext.ofRoot root)).run Fs.exec h
    (result.1.error.isSome = true → SameStorage root h result.2) ↔
      ¬ RegistersUnsafe root ⟨"io.syntrop.Model1.Register", params, none⟩ h := by
  unfold handleRegister RegistersUnsafe
  dsimp only
  cases hid : registerId params with
  | none => exact iff_of_true (fun _ => .refl) (by simp)
  | some id =>
    dsimp only
    generalize hname' : (registerTarget id (textParam params "tag")).1 = name
    generalize htag' : (registerTarget id (textParam params "tag")).2 = tag
    rcases validateTagSegment_cases name with ⟨hname, h1⟩ | ⟨hname, e, h1⟩
    swap
    · rw [h1]
      refine iff_of_true (fun _ => .refl) ?_
      rintro ⟨-, id', hid', hsegment, -⟩
      obtain rfl := Option.some.inj hid'
      exact hname (hname' ▸ hsegment)
    rcases validateTagSegment_cases tag with ⟨htag, h2⟩ | ⟨htag, e, h2⟩
    swap
    · rw [h1, h2]
      refine iff_of_true (fun _ => .refl) ?_
      rintro ⟨-, id', hid', -, hsegment, -⟩
      obtain rfl := Option.some.inj hid'
      exact htag (htag' ▸ hsegment)
    rw [h1, h2]
    subst hname' htag'
    refine (registerDigest_error hw hname htag _).trans (not_congr ?_)
    constructor
    · exact fun hrefused => ⟨rfl, id, rfl, hname, htag, hrefused⟩
    · rintro ⟨-, id', hid', hname', htag', hrefused⟩
      obtain rfl := Option.some.inj hid'
      exact hrefused

/-- A reply with an error leaves the tags, the pins and the store as they were, unless the call
registers an unsafe blob under a tag that did not have its digest before. -/
theorem dispatchCall_error (root : Path) (json : JsonLibrary) (call : VarlinkCall) (h : Fs)
    (hw : WellFormed root h) :
    let result := (dispatchCall json call (ModelServiceContext.ofRoot root)).run Fs.exec h
    (result.1.error.isSome = true → SameStorage root h result.2) ↔ ¬ RegistersUnsafe root call h := by
  -- Whatever is not `Register` leaves the state itself as it was.
  have hclean : ∀ {p : Io VarlinkReply}, call.method ≠ "io.syntrop.Model1.Register" →
      ((p.run Fs.exec h).1.error.isSome = true → (p.run Fs.exec h).2 = h) →
      (((p.run Fs.exec h).1.error.isSome = true → SameStorage root h (p.run Fs.exec h).2) ↔
        ¬ RegistersUnsafe root call h) := fun hmethod hstate =>
    iff_of_true (fun he => by rw [hstate he]; exact .refl) fun hbad => hmethod hbad.1
  have hreads : ∀ {p : Io VarlinkReply}, Only Reads p →
      ((p.run Fs.exec h).1.error.isSome = true → (p.run Fs.exec h).2 = h) :=
    fun hp _ => Only.run_eq hp h
  unfold dispatchCall
  dsimp only
  split
  · rename_i reply hservice
    refine hclean (fun hmethod => ?_) fun _ => rfl
    rw [hmethod] at hservice
    cases hservice
  split
  · rename_i p hcall
    unfold handleModel1Call at hcall
    by_cases hregister : call.method = "io.syntrop.Model1.Register"
    · rw [hregister] at hcall
      obtain rfl := Option.some.inj hcall
      refine (handleRegister_error hw).trans (not_congr ?_)
      rw [RegistersUnsafe, RegistersUnsafe, hregister]
    · split_ifs at hcall
      all_goals obtain rfl := Option.some.inj hcall
      · exact hclean hregister (hreads only_handleList)
      · exact hclean hregister (hreads only_handleInspect)
      · exact hclean hregister (handleDigest_error (EvictionManager.failsClean_pin _))
      · exact hclean hregister (handleDigest_error (EvictionManager.failsClean_unpin _))
      · exact hclean hregister handlePrune_error
      · exact hclean hregister (hreads only_handleGetStorageStats)
  · rename_i hcall
    refine hclean (fun hmethod => ?_) fun _ => rfl
    rw [hmethod] at hcall
    cases hcall

end Modeld
