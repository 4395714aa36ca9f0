import Modeld.Daemon.ErrorFrame
import Modeld.Runs.RegistryRuns
import Modeld.Runs.TagNames

/-!
# What a successful `Register` did

A reply that is not an error tells that the tag was written: under the name and the tag of the call,
with the digest that was given or the one that the tag had.
-/

namespace Modeld

open Host Program

variable {root : Path} {json : JsonLibrary} {h : Fs} {m : Entries}

/-! ### The reply -/

section

variable {ctx : ModelServiceContext} {name tag d : String} {body : Json}

private theorem isSome_err {α : Type} {text : String} {params : Option Json} {reply : VarlinkReply}
    (heq : (Except.error (.err text params) : Except VarlinkReply α) = .error reply) :
    reply.error.isSome = true := by
  rw [← Except.error.inj heq]
  rfl

private theorem ne_ok {reply : VarlinkReply} (hreply : reply.error.isSome = true) (body : Json) :
    reply ≠ .ok body := by
  rintro rfl
  cases hreply

private theorem registerBlob_error {cas : CasStore} {reply : VarlinkReply}
    (hrun : ((registerBlob json cas d).run Fs.exec h).1 = .error reply) :
    reply.error.isSome = true := by
  unfold registerBlob at hrun
  rw [run_bind_of_reads CasStore.only_openBlob] at hrun
  generalize ((cas.openBlob d).run Fs.exec h).1 = opened at hrun
  rcases opened with e | file
  · exact absurd hrun nofun
  dsimp only at hrun
  rw [run_bind_of_reads (reads_of_looks only_detectFile)] at hrun
  split at hrun
  · exact isSome_err hrun
  · rw [run_bind] at hrun
    exact absurd hrun nofun

/-- A blob that is not refused is described as the other handlers describe it. -/
theorem registerBlob_ok {cas : CasStore} {format description : String}
    (hrun : ((registerBlob json cas d).run Fs.exec h).1 = .ok (format, description)) :
    ((inspectBlob json cas d).run Fs.exec h).1 = (format, description) ∧
      ((listFormat cas d).run Fs.exec h).1 = format := by
  unfold registerBlob at hrun
  unfold inspectBlob listFormat
  rw [run_bind_of_reads CasStore.only_openBlob] at hrun ⊢
  rw [run_bind_of_reads CasStore.only_openBlob]
  cases hopen : ((cas.openBlob d).run Fs.exec h).1 with
  | error e =>
    rw [hopen] at hrun
    obtain ⟨rfl, rfl⟩ := Prod.mk.inj (Except.ok.inj hrun)
    exact ⟨rfl, rfl⟩
  | ok file =>
    have hreads := reads_of_looks (@only_detectFile file)
    have hdescribed : ∀ detected : Except ModeldError SafeFormat,
        ((do return Except.ok (formatName detected.toOption,
            ← describeFile json d detected.toOption file) :
          Io (Except VarlinkReply (String × String))).run Fs.exec h).1 = .ok (format, description) →
        ((describeFile json d detected.toOption file).run Fs.exec h).1 = description ∧
          formatName detected.toOption = format := by
      intro detected hok
      rw [run_bind] at hok
      obtain ⟨hformat, hdescription⟩ := Prod.mk.inj (Except.ok.inj hok)
      exact ⟨hdescription, hformat⟩
    rw [hopen] at hrun
    dsimp only at hrun ⊢
    rw [run_bind_of_reads hreads] at hrun
    rw [run_bind_of_reads hreads, run_bind_of_reads hreads]
    generalize ((detectFile file).run Fs.exec h).1 = detected at hrun ⊢
    have hboth : ((describeFile json d detected.toOption file).run Fs.exec h).1 = description ∧
        formatName detected.toOption = format := by
      split at hrun
      · exact absurd hrun nofun
      · exact hdescribed _ hrun
    rw [run_bind, hboth.1]
    exact ⟨congrArg (·, description) hboth.2, hboth.2⟩

/-- The reply to a call that succeeds is made of what the other handlers find. -/
theorem describeEntry_ok (hrun : ((describeEntry json ctx name tag d).run Fs.exec h).1 = .ok body) :
    ∃ format description, ((registerBlob json ctx.cas d).run Fs.exec h).1 = .ok (format, description) ∧
      body = .object [
        ("entry", .object [
          ("id", .str (name ++ ":" ++ tag)),
          ("digest", .str d),
          ("name", .str name),
          ("tag", .str tag),
          ("size_bytes", .ofNat ((sizeOrZero ctx.cas d).run Fs.exec h).1),
          ("pinned", .bool ((ctx.eviction.isPinned d).run Fs.exec h).1),
          ("format", .str format)]),
        ("metadata", .str description)] := by
  unfold describeEntry at hrun
  rw [run_bind_of_reads (reads_of_looks only_sizeOrZero),
    run_bind_of_reads (reads_of_looks EvictionManager.only_isPinned),
    run_bind_of_reads only_registerBlob] at hrun
  cases hblob : ((registerBlob json ctx.cas d).run Fs.exec h).1 with
  | error reply =>
    rw [hblob] at hrun
    exact absurd hrun (ne_ok (registerBlob_error hblob) body)
  | ok found =>
    rw [hblob] at hrun
    obtain ⟨format, description⟩ := found
    exact ⟨format, description, rfl, (Option.some.inj (congrArg VarlinkReply.parameters hrun)).symm⟩

theorem describeEntry_reply (json : JsonLibrary) (ctx : ModelServiceContext) (name tag d : String)
    (h : Fs) : (∃ body, ((describeEntry json ctx name tag d).run Fs.exec h).1 = .ok body) ∨
      ((describeEntry json ctx name tag d).run Fs.exec h).1.error.isSome = true := by
  unfold describeEntry
  rw [run_bind_of_reads (reads_of_looks only_sizeOrZero),
    run_bind_of_reads (reads_of_looks EvictionManager.only_isPinned),
    run_bind_of_reads only_registerBlob]
  cases hblob : ((registerBlob json ctx.cas d).run Fs.exec h).1 with
  | ok found => exact .inl ⟨_, rfl⟩
  | error reply => exact .inr (registerBlob_error hblob)

end

/-- The call succeeded with `body`, having named the digest. -/
structure Registration (json : JsonLibrary) (root : Path) (params : Option Json) (h : Fs) (m : Entries)
    (body : Json) (name tag digest : String) : Prop where
  target : ∃ id, registerId params = some id ∧
    registerTarget id (textParam params "tag") = (name, tag)
  isName : IsSegment name
  isTag : IsSegment tag
  isDigest : IsDigest digest
  given : ∀ d, textParam params "digest" = some d → digest = cleanDigest (Text.trim d)
  absent : textParam params "digest" = none → m ⟨name, isName.1⟩ ⟨tag, isTag.1⟩ = some digest
  holds : (TagRegistry.ofRoot root).Holds
    ((handleRegister json params (.ofRoot root)).run Fs.exec h).2
    (m.set ⟨name, isName.1⟩ ⟨tag, isTag.1⟩ (some digest))
  reply : (describeEntry json (.ofRoot root) name tag digest).run Fs.exec
      ((handleRegister json params (.ofRoot root)).run Fs.exec h).2 =
    (.ok body, ((handleRegister json params (.ofRoot root)).run Fs.exec h).2)

/-- The digest that a call asks for. -/
private theorem digestCandidate_ok (hm : (TagRegistry.ofRoot root).Holds h m)
    (hdigest : ∀ n v d, m n v = some d → IsDigest d) {name tag : String} (hname : IsSegment name)
    (htag : IsSegment tag) {given : Option String} {candidate : String}
    (hrun : ((digestCandidate (TagRegistry.ofRoot root) name tag given).run Fs.exec h).1 =
      .ok candidate) :
    (∀ d, given = some d → cleanDigest candidate = cleanDigest (Text.trim d)) ∧
      (given = none → m ⟨name, hname.1⟩ ⟨tag, htag.1⟩ = some (cleanDigest candidate)) := by
  cases given with
  | some d =>
    obtain rfl : Text.trim d = candidate := Except.ok.inj hrun
    refine ⟨fun d' hd' => ?_, nofun⟩
    rw [Option.some.inj hd']
  | none =>
    refine ⟨nofun, fun _ => ?_⟩
    rw [digestCandidate, run_bind, TagRegistry.resolve_tagged _ hname htag] at hrun
    rcases hm.run_getTag name tag with ⟨_, _, hget⟩ | ⟨hbad, -⟩
    swap
    · exact absurd ⟨hname, htag⟩ hbad
    rw [hget] at hrun
    cases hd : m ⟨name, hname.1⟩ ⟨tag, htag.1⟩ with
    | none =>
      rw [hd] at hrun
      cases hrun
    | some d =>
      rw [hd] at hrun
      obtain rfl : Text.trim d = candidate := Except.ok.inj hrun
      rw [(hdigest _ _ d hd).trim_eq, (hdigest _ _ d hd).cleanDigest_eq]

private theorem digestCandidate_error {tags : TagRegistry} {name tag : String} {given : Option String}
    {reply : VarlinkReply}
    (hrun : ((digestCandidate tags name tag given).run Fs.exec h).1 = .error reply) :
    reply.error.isSome = true := by
  cases given with
  | some d => exact absurd hrun nofun
  | none =>
    rw [digestCandidate, run_bind] at hrun
    generalize name ++ ":" ++ tag = id at hrun
    generalize ((tags.resolve id).run Fs.exec h).1 = r at hrun
    rcases r with e | - | d
    · exact isSome_err hrun
    · exact isSome_err hrun
    · exact absurd hrun nofun

/-- What follows the checks of the name and the tag, when it succeeds. -/
private theorem run_registerDigest (hm : (TagRegistry.ofRoot root).Holds h m)
    (hdigest : ∀ n v d, m n v = some d → IsDigest d) {name tag : String} (hname : IsSegment name)
    (htag : IsSegment tag) {given : Option String} {body : Json}
    (hok : ((registerDigest json (.ofRoot root) name tag given).run Fs.exec h).1 = .ok body) :
    ∃ digest, IsDigest digest ∧ (∀ d, given = some d → digest = cleanDigest (Text.trim d)) ∧
      (given = none → m ⟨name, hname.1⟩ ⟨tag, htag.1⟩ = some digest) ∧
      (TagRegistry.ofRoot root).Holds
        ((registerDigest json (.ofRoot root) name tag given).run Fs.exec h).2
        (m.set ⟨name, hname.1⟩ ⟨tag, htag.1⟩ (some digest)) ∧
      (describeEntry json (.ofRoot root) name tag digest).run Fs.exec
          ((registerDigest json (.ofRoot root) name tag given).run Fs.exec h).2 =
        (.ok body, ((registerDigest json (.ofRoot root) name tag given).run Fs.exec h).2) := by
  unfold registerDigest at hok ⊢
  rw [run_bind_of_reads only_digestCandidate] at hok ⊢
  rcases hc : ((digestCandidate (TagRegistry.ofRoot root) name tag given).run Fs.exec h).1 with
    reply | candidate
  · rw [hc] at hok
    exact absurd hok (ne_ok (digestCandidate_error hc) body)
  rw [hc] at hok
  obtain ⟨hgiven, habsent⟩ := digestCandidate_ok hm hdigest hname htag hc
  dsimp only at hok ⊢
  generalize cleanDigest candidate = digest at *
  by_cases hd : IsDigest digest
  swap
  · obtain ⟨msg, he⟩ := validateDigestFormat_of_not_isDigest hd
    rw [he] at hok
    exact absurd hok nofun
  rw [validateDigestFormat_of_isDigest hd] at hok ⊢
  dsimp only at hok ⊢
  rcases hm.run_setTag name tag digest with ⟨_, _, -, hset, hholds⟩ | ⟨hbad, -⟩
  swap
  · exact absurd ⟨hname, htag, hd.trim_eq.symm ▸ hd⟩ hbad
  rw [run_bind, hset] at hok ⊢
  dsimp only at hok ⊢
  rw [hd.trim_eq] at hholds
  have hsame := Only.run_eq (@only_describeEntry json (.ofRoot root) digest name tag) (((TagRegistry.ofRoot root).setTag name tag digest).run Fs.exec h).2
  rw [hsame]
  exact ⟨digest, hd, hgiven, habsent, hholds, Prod.ext hok hsame⟩

/-- A successful call names a digest. -/
theorem exists_registration (hm : (TagRegistry.ofRoot root).Holds h m)
    (hdigest : ∀ n v d, m n v = some d → IsDigest d) {params : Option Json} {body : Json}
    (hok : ((handleRegister json params (.ofRoot root)).run Fs.exec h).1 = .ok body) :
    ∃ name tag digest, Registration json root params h m body name tag digest := by
  cases hid : registerId params with
  | none =>
    rw [handleRegister, hid] at hok
    exact absurd hok nofun
  | some id =>
    rcases htarget : registerTarget id (textParam params "tag") with ⟨name, tag⟩
    rcases validateTagSegment_cases name with ⟨hname, h1⟩ | ⟨-, msg, h1⟩
    swap
    · rw [handleRegister, hid] at hok
      dsimp only at hok
      rw [htarget, h1] at hok
      exact absurd hok nofun
    rcases validateTagSegment_cases tag with ⟨htag, h2⟩ | ⟨-, msg, h2⟩
    swap
    · rw [handleRegister, hid] at hok
      dsimp only at hok
      rw [htarget, h1, h2] at hok
      exact absurd hok nofun
    have heq : handleRegister json params (.ofRoot root) =
        registerDigest json (.ofRoot root) name tag (textParam params "digest") := by
      rw [handleRegister, hid]
      dsimp only
      rw [htarget, h1, h2]
    rw [heq] at hok
    obtain ⟨digest, hd, hgiven, habsent, hholds, hreply⟩ := run_registerDigest hm hdigest hname htag hok
    refine ⟨name, tag, digest, ⟨id, hid, htarget⟩, hname, htag, hd, hgiven, habsent, ?_, ?_⟩
    · rw [heq]
      exact hholds
    · rw [heq]
      exact hreply

/-- What follows the checks of the name and the tag succeeds for a digest whose blob is not refused. -/
private theorem exists_reply_registerDigest (hw : WellFormed root h)
    (hm : (TagRegistry.ofRoot root).Holds h m) {name tag given : String} (hname : IsSegment name)
    (htag : IsSegment tag) (hd : IsDigest (cleanDigest (Text.trim given)))
    (hsafe : ¬ UnsafeBlob ⟨root⟩ h (cleanDigest (Text.trim given))) :
    ∃ body, ((registerDigest json (.ofRoot root) name tag (some given)).run Fs.exec h).1 = .ok body := by
  have hcandidate : digestCandidate (TagRegistry.ofRoot root) name tag (some given) =
      Program.done (.ok (Text.trim given)) := rfl
  rw [registerDigest, hcandidate, done_bind]
  dsimp only
  generalize cleanDigest (Text.trim given) = d at *
  rw [validateDigestFormat_of_isDigest hd]
  dsimp only
  have hok : (((TagRegistry.ofRoot root).setTag name tag d).run Fs.exec h).1 = .ok () := by
    rcases hm.run_setTag name tag d with ⟨-, -, -, hok, -⟩ | ⟨hbad, -⟩
    · exact hok
    · exact absurd ⟨hname, htag, hd.trim_eq.symm ▸ hd⟩ hbad
  have hw₁ : WellFormed root (((TagRegistry.ofRoot root).setTag name tag d).run Fs.exec h).2 :=
    Only.run (I := WellFormed root) Fs.exec (fun _ _ ho hs => hs.answers ho.1 (.inl rfl))
      TagRegistry.inArea_setTag hw
  have hsame : SameStore root h (((TagRegistry.ofRoot root).setTag name tag d).run Fs.exec h).2 := by
    rcases TagRegistry.run_setTag hw hname htag hd with ⟨-, ⟨e, he⟩, -⟩ | ⟨-, -, -, -, -, hsame⟩
    · rw [hok] at he
      cases he
    · exact hsame
  rw [run_bind, hok]
  generalize (((TagRegistry.ofRoot root).setTag name tag d).run Fs.exec h).2 = h₁ at *
  have hsafe₁ : ¬ UnsafeBlob ⟨root⟩ h₁ d := by
    rw [UnsafeBlob, CasStore.content_of_sameStore hw hw₁ hd hsame]
    exact hsafe
  apply (describeEntry_reply json (.ofRoot root) name tag d h₁).resolve_right
  rw [describeEntry_error]
  exact hsafe₁

/-- A call succeeds when it names a digest under a name and a tag that the registry accepts, and the
blob of the digest is not refused. -/
theorem exists_reply (hw : WellFormed root h) (hm : (TagRegistry.ofRoot root).Holds h m)
    {params : Option Json} {id name tag given : String} (hid : registerId params = some id)
    (htarget : registerTarget id (textParam params "tag") = (name, tag)) (hname : IsSegment name)
    (htag : IsSegment tag) (hgiven : textParam params "digest" = some given)
    (hd : IsDigest (cleanDigest (Text.trim given)))
    (hsafe : ¬ UnsafeBlob ⟨root⟩ h (cleanDigest (Text.trim given))) :
    ∃ body, ((handleRegister json params (.ofRoot root)).run Fs.exec h).1 = .ok body := by
  rw [handleRegister, hid]
  dsimp only
  rw [htarget]
  dsimp only
  rw [validateTagSegment_eq_ok.2 ⟨rfl, hname⟩, validateTagSegment_eq_ok.2 ⟨rfl, htag⟩, hgiven]
  exact exists_reply_registerDigest hw hm hname htag hd hsafe

end Modeld
