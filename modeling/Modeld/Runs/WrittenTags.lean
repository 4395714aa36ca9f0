import Modeld.Ctl.PullPlaces
import Modeld.Runs.RegisterSpec

/-!
# Writers and the resolver agree

What an import, a call of `Register` or a pull names is what the registry resolves the name to. An import
may use a name of 64 hexadecimal characters, which the registry takes for a digest.
-/

namespace Modeld

open Host Program

/-! ### What is stored -/

/-- A call that may be any call, with any reply. -/
private abbrev Returns {α : Type} (p : Io α) (Q : α → Prop) : Prop :=
  Keeps (fun _ => True) (fun _ _ => True) p Q

private theorem Returns.run {α : Type} {p : Io α} {Q : α → Prop} (hp : Returns p Q) (h : Fs) :
    Q (p.run Fs.exec h).1 :=
  (Keeps.run (I := fun _ => True) Fs.exec (fun _ _ _ _ => ⟨trivial, trivial⟩) hp trivial).1

namespace CasStore

private theorem returns_storeLoop {file : Ino} (reader : Reader) (hashed : Bytes) (total : Nat) :
    Returns (storeLoop file reader hashed total) fun r =>
      ∀ x, r = .ok x → ∃ rest, reader.content = .ok rest ∧ x.1 = hashed ++ rest := by
  induction reader generalizing hashed total with
  | nil =>
    refine (keeps_done _).2 ?_
    rintro _ ⟨⟩
    exact ⟨[], rfl, by simp⟩
  | cons chunk reader ih =>
    rcases chunk with e | chunk
    · exact (keeps_done _).2 nofun
    unfold storeLoop
    split
    · rename_i hchunk
      refine (keeps_done _).2 ?_
      rintro _ ⟨⟩
      exact ⟨[], by simp [Reader.content, hchunk], by simp⟩
    · rename_i hchunk
      refine Keeps.perform trivial fun r _ => ?_
      rcases r with e | -
      · exact (keeps_done _).2 nofun
      refine (ih _ _).mono (fun _ _ => trivial) fun r hr x hx => ?_
      obtain ⟨rest, hrest, hsum⟩ := hr x hx
      refine ⟨chunk ++ rest, ?_, by rw [hsum, List.append_assoc]⟩
      rw [Reader.content, if_neg hchunk, hrest]
      rfl

/-- A digest that is returned is that of the content of the stream. -/
private theorem returns_storeBlob {sha : Sha256} {s : CasStore} {pid : Pid} {reader : Reader} :
    Returns (s.storeBlob sha pid reader none) fun r =>
      ∀ x, r = .ok x → ∃ bytes, reader.content = .ok bytes ∧ x.1 = sha.hash bytes := by
  refine Keeps.perform trivial fun n _ => ?_
  refine Keeps.perform trivial fun r _ => ?_
  rcases r with e | file
  · exact (keeps_done _).2 nofun
  refine (returns_storeLoop reader [] 0).bind fun r hr => ?_
  rcases r with e | ⟨hashed, total⟩
  · exact (keeps_done _).2 nofun
  obtain ⟨bytes, hbytes, rfl⟩ := hr _ rfl
  refine Keeps.bind (Q := fun _ => True) (only_true (s.blobPath _)) fun target _ => ?_
  refine Keeps.perform trivial fun r _ => ?_
  rcases r with e | -
  · exact (keeps_done _).2 nofun
  refine (keeps_done _).2 ?_
  rintro _ ⟨⟩
  exact ⟨hashed, hbytes, rfl⟩

end CasStore

namespace Pull

/-- The body of a download, unless the network fails. -/
def body : List (Except String Bytes) → Option Bytes
  | [] => some []
  | .error _ :: _ => none
  | .ok chunk :: chunks => (body chunks).map (chunk ++ ·)

private theorem returns_downloadLoop {file : Ino} (chunks : List (Except String Bytes))
    (hashed : Bytes) : Returns (downloadLoop file chunks hashed) fun r =>
      ∀ x, r = .ok x → ∃ rest, body chunks = some rest ∧ x = hashed ++ rest := by
  induction chunks generalizing hashed with
  | nil =>
    refine (keeps_done _).2 ?_
    rintro _ ⟨⟩
    exact ⟨[], rfl, by simp⟩
  | cons chunk chunks ih =>
    rcases chunk with e | chunk
    · exact (keeps_done _).2 nofun
    refine Keeps.perform trivial fun r _ => ?_
    rcases r with e | -
    · exact (keeps_done _).2 nofun
    refine (ih _).mono (fun _ _ => trivial) fun r hr x hx => ?_
    obtain ⟨rest, hrest, hsum⟩ := hr x hx
    refine ⟨chunk ++ rest, ?_, by rw [hsum, List.append_assoc]⟩
    rw [body, hrest]
    rfl

/-- What a download returns is its body. -/
private theorem returns_download (p : Pull) (chunks : List (Except String Bytes)) :
    Returns (p.download chunks) fun r => ∀ x, r = .ok x → body chunks = some x := by
  refine Keeps.perform trivial fun r _ => ?_
  rcases r with e | file
  · exact (keeps_done _).2 nofun
  refine (returns_downloadLoop chunks []).bind fun r hr => ?_
  rcases r with e | bytes
  · exact Keeps.perform trivial fun _ _ => (keeps_done _).2 nofun
  refine (keeps_done _).2 ?_
  rintro _ ⟨⟩
  obtain ⟨rest, hrest, rfl⟩ := hr _ rfl
  exact hrest

end Pull

/-! ### Names -/

variable {root : Path} {h : Fs} {m : Entries} {s : String}

/-- There is nothing to trim from an identifier that the registry accepts. -/
theorem IsTagged.trim_eq (hs : IsTagged s) : Text.trim s = s := by
  obtain ⟨hname, htag⟩ := hs
  refine Text.trim_eq_self fun c hc => ?_
  have hseg : ∀ {part : String}, IsSegment part → c ∈ part.toList → Text.isWhitespace c = false :=
    fun hpart hmem => not_isWhitespace_of_isSegmentChar (hpart.2 c hmem)
  rw [identifierParts, Text.splitOnce] at hname htag
  split at hname
  · rename_i hcolon
    rw [if_pos hcolon] at htag
    rw [← List.takeWhile_append_dropWhile (p := (· ≠ ':')) (l := s.toList), List.mem_append] at hc
    rcases hc with hc | hc
    · exact hseg hname (by simpa using hc)
    cases hrest : s.toList.dropWhile (· ≠ ':') with
    | nil =>
      rw [hrest] at hc
      cases hc
    | cons x rest =>
      rw [hrest] at hc
      rcases List.mem_cons.1 hc with rfl | hc
      · have hx := List.head?_dropWhile_not (· ≠ ':') s.toList
        rw [hrest] at hx
        obtain rfl : c = ':' := by simpa using hx
        decide
      · refine hseg htag ?_
        rw [Option.getD_some, String.toList_ofList, hrest]
        exact hc
  · exact hseg hname hc

/-- A digest resolves to itself. -/
theorem TagRegistry.resolve_digest (t : TagRegistry) {d : String} (hd : IsDigest d) :
    (t.resolve d).run Fs.exec h = (.ok (some d), h) := by
  have hbool : (decide (d.toList.length = 64) && d.toList.all isHexDigit) = true := by
    simpa [IsHex] using hd.isHex
  unfold resolve
  rw [hd.trim_eq]
  dsimp only
  rw [if_pos hbool, validateDigestFormat_of_isDigest hd]
  rfl

/-- What is named by an identifier that is not taken for a digest is what it resolves to. -/
theorem TagRegistry.Holds.resolve_eq (hm : (TagRegistry.ofRoot root).Holds h m) (hs : IsTagged s)
    (hhex : ¬ IsHex s) {d : String} (hd : IsDigest d)
    (hentry : m ⟨_, hs.1.1⟩ ⟨_, hs.2.1⟩ = some d) :
    (((TagRegistry.ofRoot root).resolve s).run Fs.exec h).1 = .ok (some d) := by
  have hbool : ¬ (decide (s.toList.length = 64) && s.toList.all isHexDigit) = true := by
    simpa [IsHex] using hhex
  have hparts : (Text.splitOnce ':' s).getD (s, "latest") = identifierParts s := rfl
  unfold resolve
  rw [hs.trim_eq]
  dsimp only
  rw [if_neg hbool, hparts, validateTagSegment_eq_ok.2 ⟨rfl, hs.1⟩, validateTagSegment_eq_ok.2 ⟨rfl, hs.2⟩]
  dsimp only
  rcases hm.run_getTag (identifierParts s).1 (identifierParts s).2 with ⟨_, _, hrun⟩ | ⟨hbad, -⟩
  swap
  · exact absurd hs hbad
  rw [hrun, hentry, Option.map_some, hd.trim_eq]

/-! ### Imports -/

section

variable {sha : Sha256} {chunking : Chunking} {pid : Pid} {source : Path}

/-- An import that succeeds has named what it stored. -/
private theorem run_storeImport {reader : Reader} (hw : WellFormed root h)
    (hm : (TagRegistry.ofRoot root).Holds h m)
    (hok : ((storeImport sha ⟨root⟩ (TagRegistry.ofRoot root) pid reader (some s)).run Fs.exec h).1 =
      .ok ()) :
    ∃ bytes, ∃ hs : IsTagged s, reader.content = .ok bytes ∧ (TagRegistry.ofRoot root).Holds
      ((storeImport sha ⟨root⟩ (TagRegistry.ofRoot root) pid reader (some s)).run Fs.exec h).2
      (m.set ⟨_, hs.1.1⟩ ⟨_, hs.2.1⟩ (some (sha.hash bytes))) := by
  have hleaves : Leaves root Dir.tags ((CasStore.mk root).storeBlob sha pid reader none) :=
    CasStore.leaves_storeBlob (by decide)
  obtain ⟨hw₁, hsame⟩ := hleaves h hw
  have hstored := (@CasStore.returns_storeBlob sha ⟨root⟩ pid reader).run h
  unfold storeImport at hok ⊢
  rw [run_bind] at hok ⊢
  generalize ((CasStore.mk root).storeBlob sha pid reader none).run Fs.exec h = stored at *
  obtain ⟨r, h₁⟩ := stored
  rcases r with e | ⟨digest, total⟩
  · cases hok
  obtain ⟨bytes, hbytes, hd⟩ := hstored _ rfl
  obtain rfl : digest = sha.hash bytes := hd
  have hdigest := sha.isDigest_hash bytes
  have hm₁ := hm.of_sameArea hsame hw₁
  rcases hm₁.run_setTag (identifierParts s).1 (identifierParts s).2 (sha.hash bytes) with
    ⟨hname, htag, -, -, hholds⟩ | ⟨-, ⟨msg, he⟩, -⟩
  · rw [hdigest.trim_eq] at hholds
    exact ⟨bytes, ⟨hname, htag⟩, hbytes, hholds⟩
  · exact absurd (hok.symm.trans he) nofun

theorem run_runImport (hw : WellFormed root h) (hm : (TagRegistry.ofRoot root).Holds h m)
    (hok : ((runImport sha chunking root pid source (some s)).run Fs.exec h).1 = .ok ()) :
    ∃ bytes, ∃ hs : IsTagged s, h.contents source = some bytes ∧ (TagRegistry.ofRoot root).Holds
      ((runImport sha chunking root pid source (some s)).run Fs.exec h).2
      (m.set ⟨_, hs.1.1⟩ ⟨_, hs.2.1⟩ (some (sha.hash bytes))) := by
  unfold runImport at hok ⊢
  rw [Fs.run_isFile] at hok ⊢
  split at hok
  · cases hok
  rename_i hfile
  rw [if_neg hfile]
  split at hok
  · cases hok
  rw [run_bind, CasStore.run_new hw] at hok ⊢
  dsimp only at hok ⊢
  rw [run_bind, TagRegistry.run_new hw] at hok ⊢
  dsimp only at hok ⊢
  obtain ⟨i, hi⟩ : ∃ i, h.fileAt source = some i := by
    apply Option.isSome_iff_exists.1
    simpa only [Fs.isFile, Bool.not_eq_true', Bool.not_eq_false] using hfile
  rw [Fs.run_openFile, CasStore.openFile_of_fileAt hi] at hok ⊢
  dsimp only at hok ⊢
  rw [Fs.run_read] at hok ⊢
  split at hok
  · cases hok
  rw [Fs.run_read, run_bind] at hok ⊢
  have hstored := @run_storeImport root h m s sha pid (chunking.reader (.ok (h.data i))) hw hm
  revert hok hstored
  generalize (storeImport sha ⟨root⟩ (TagRegistry.ofRoot root) pid
    (chunking.reader (.ok (h.data i))) (some s)).run Fs.exec h = stored
  intro hok hstored
  obtain ⟨r, h'⟩ := stored
  rcases r with e | u
  · cases hok
  obtain ⟨bytes, hs, hbytes, hholds⟩ := hstored rfl
  refine ⟨bytes, hs, ?_, hholds⟩
  rw [Fs.contents, hi]
  exact congrArg some (Except.ok.inj ((chunking.content_split _).symm.trans hbytes))

end

/-! ### Pulls -/

namespace Pull

variable {p : Pull} {sha : Sha256}

/-- A commit that succeeds has named its digest. -/
private theorem holds_commitArtifact {c : ArtifactCommit} (hc : c.Valid)
    (hw : WellFormed c.storageRoot h) (hm : (TagRegistry.ofRoot c.storageRoot).Holds h m)
    (hok : ((commitArtifact c).run Fs.exec h).1 = .ok ()) :
    WellFormed c.storageRoot ((commitArtifact c).run Fs.exec h).2 ∧
      (TagRegistry.ofRoot c.storageRoot).Holds ((commitArtifact c).run Fs.exec h).2
        (m.set ⟨c.name, hc.name⟩ ⟨c.tag, hc.tag⟩ (some c.digest)) := by
  obtain ⟨hw₁, hs₁⟩ := hc.leaves_rename h hw
  have hm₁ := hm.of_sameArea hs₁ hw₁
  unfold commitArtifact at hok ⊢
  rw [run_bind] at hok ⊢
  revert hok hw₁ hm₁
  generalize (rename c.stagePath c.casDest).run Fs.exec h = renamed
  obtain ⟨r, h₁⟩ := renamed
  intro hok hw₁ hm₁
  rcases r with e | u
  · cases hok
  dsimp only at hok hw₁ hm₁ ⊢
  obtain ⟨hw₂, hs₂⟩ := hc.leaves_linkBlob h₁ hw₁
  obtain ⟨hw₃, hm₃⟩ := hc.holds_writeTag hw₂ (hm₁.of_sameArea hs₂ hw₂)
  rw [run_bind, ArtifactCommit.afterStore, run_bind] at hok ⊢
  revert hok hw₃ hm₃
  generalize c.writeTag.run Fs.exec (c.linkBlob.run Fs.exec h₁).2 = written
  obtain ⟨r, h₃⟩ := written
  intro hok hw₃ hm₃
  rcases r with e | u
  · cases hok
  dsimp only at hok hw₃ hm₃ ⊢
  obtain ⟨hw₄, hs₄⟩ := AmongLinks.leaves_tags hc.amongLinks_linkFormat h₃ hw₃
  exact ⟨hw₄, hm₃.of_sameArea hs₄ hw₄⟩

private theorem holds_finish (hp : p.Valid) (bytes : Bytes) (hw : WellFormed p.storageRoot h)
    (hm : (TagRegistry.ofRoot p.storageRoot).Holds h m)
    (hok : ((p.finish sha bytes).run Fs.exec h).1 = .ok ()) :
    (TagRegistry.ofRoot p.storageRoot).Holds ((p.finish sha bytes).run Fs.exec h).2
      (m.set ⟨p.name, hp.name⟩ ⟨p.tag, hp.tag⟩ (some (sha.hash bytes))) := by
  have hcommitted := holds_commitArtifact (hp.valid_commit (sha.isDigest_hash bytes)) hw hm
  unfold finish at hok ⊢
  rw [run_bind] at hok ⊢
  revert hok hcommitted
  generalize (commitArtifact (p.commit (sha.hash bytes))).run Fs.exec h = committed
  obtain ⟨r, h'⟩ := committed
  intro hok hcommitted
  rcases r with e | u
  · cases hok
  obtain ⟨hw', hm'⟩ := hcommitted rfl
  dsimp only at hok ⊢
  cases p.tokenizer with
  | none => exact hm'
  | some data =>
    obtain ⟨hw₂, hs₂⟩ := AmongLinks.leaves_tags (hp.amongLinks_commitTokenizer data) h' hw'
    dsimp only
    rw [run_bind]
    exact hm'.of_sameArea hs₂ hw₂

/-- A pull that had something to do and succeeds has named what it downloaded. -/
theorem holds_fetch (hp : p.Valid) (hw : WellFormed p.storageRoot h)
    (hm : (TagRegistry.ofRoot p.storageRoot).Holds h m)
    (hok : ((p.fetch sha).run Fs.exec h).1 = .ok ()) :
    ∃ chunks bytes, p.response = .ok chunks ∧ body chunks = some bytes ∧
      (TagRegistry.ofRoot p.storageRoot).Holds ((p.fetch sha).run Fs.exec h).2
        (m.set ⟨p.name, hp.name⟩ ⟨p.tag, hp.tag⟩ (some (sha.hash bytes))) := by
  have hdirs : h.createDirAll p.incomingDir = (.ok (), h) := by
    apply hw.createDirAll_of_base
    rw [incomingDir_eq]
    simp [baseDirs]
  unfold fetch at hok ⊢
  cases hresponse : p.response with
  | error e =>
    rw [hresponse] at hok
    cases hok
  | ok chunks =>
    rw [hresponse] at hok
    dsimp only at hok ⊢
    rw [Fs.run_createDirAll, hdirs] at hok ⊢
    dsimp only at hok ⊢
    have hbody := (returns_download p chunks).run h
    obtain ⟨hw₁, hs₁⟩ := hp.leaves_download chunks h hw
    rw [run_bind] at hok ⊢
    revert hok hbody hw₁ hs₁
    generalize (p.download chunks).run Fs.exec h = downloaded
    obtain ⟨r, h₁⟩ := downloaded
    intro hok hbody hw₁ hs₁
    rcases r with e | bytes
    · cases hok
    exact ⟨chunks, bytes, rfl, hbody bytes rfl, holds_finish hp bytes hw₁ (hm.of_sameArea hs₁ hw₁) hok⟩

end Pull

/-! ### All writers -/

/-- The digest in the reply to `Register`. -/
def repliedDigest (body : Json) : Option Json := (body.get "entry").bind (·.get "digest")

private theorem repliedDigest_of_describeEntry {json : JsonLibrary} {ctx : ModelServiceContext}
    {name tag d : String} {body : Json}
    (hrun : ((describeEntry json ctx name tag d).run Fs.exec h).1 = .ok body) :
    repliedDigest body = some (.str d) := by
  obtain ⟨format, description, -, rfl⟩ := describeEntry_ok hrun
  rw [repliedDigest, Json.get_object (by simp) (List.mem_cons_self ..)]
  exact Json.get_object (by simp) (by simp)

/-- In every state that operations reach, an import under a name that is not of 64 hexadecimal
characters, a call of `Register` and a pull with something to do, under a name and a tag that the
registry accepts, name what the registry then resolves the name to. -/
theorem written_tags_resolve (inst : Installation) (h : Fs) (hh : Reachable inst h) :
    (∀ chunking pid source s, ¬ IsHex s →
      let after := (runImport inst.sha chunking inst.root pid source (some s)).run Fs.exec h
      after.1 = .ok () → ∃ bytes, h.contents source = some bytes ∧
        ((inst.ctx.tags.resolve s).run Fs.exec after.2).1 = .ok (some (inst.sha.hash bytes))) ∧
    (∀ params body,
      let after := (handleRegister inst.json params inst.ctx).run Fs.exec h
      after.1 = .ok body → ∃ id name tag d, registerId params = some id ∧
        registerTarget id (textParam params "tag") = (name, tag) ∧ repliedDigest body = some (.str d) ∧
        ((inst.ctx.tags.resolve (name ++ ":" ++ tag)).run Fs.exec after.2).1 = .ok (some d)) ∧
    (∀ p : Pull, p.storageRoot = inst.root → IsSegment p.name → IsSegment p.tag →
      p.presentIn h = false →
      let after := (runPull inst.sha p).run Fs.exec h
      after.1 = .ok () → ∃ chunks bytes, p.response = .ok chunks ∧ Pull.body chunks = some bytes ∧
        ((inst.ctx.tags.resolve (p.name ++ ":" ++ p.tag)).run Fs.exec after.2).1 =
          .ok (some (inst.sha.hash bytes))) := by
  obtain ⟨m, hm, hdigest⟩ := hh.exists_holds
  have hw := hh.wellFormed
  -- A name and a tag resolve to the entry that was written.
  have htagged : ∀ {name tag d : String} {h' : Fs} (hname : IsSegment name) (htag : IsSegment tag),
      IsDigest d → inst.ctx.tags.Holds h' (m.set ⟨name, hname.1⟩ ⟨tag, htag.1⟩ (some d)) →
      ((inst.ctx.tags.resolve (name ++ ":" ++ tag)).run Fs.exec h').1 = .ok (some d) := by
    intro name tag d h' hname htag hd hholds
    rw [TagRegistry.resolve_tagged _ hname htag]
    rcases hholds.run_getTag name tag with ⟨_, _, hget⟩ | ⟨hbad, -⟩
    · rw [hget, Entries.set, if_pos ⟨rfl, rfl⟩, Option.map_some, hd.trim_eq]
    · exact absurd ⟨hname, htag⟩ hbad
  refine ⟨?_, ?_, ?_⟩
  · intro chunking pid source s hhex after hok
    obtain ⟨bytes, hs, hbytes, hholds⟩ := run_runImport hw hm hok
    refine ⟨bytes, hbytes, hholds.resolve_eq hs hhex (inst.sha.isDigest_hash bytes) ?_⟩
    rw [Entries.set, if_pos ⟨rfl, rfl⟩]
  · intro params body after hok
    obtain ⟨name, tag, d, hreg⟩ := exists_registration hm hdigest hok
    obtain ⟨id, hid, htarget⟩ := hreg.target
    refine ⟨id, name, tag, d, hid, htarget, ?_, htagged hreg.isName hreg.isTag hreg.isDigest hreg.holds⟩
    exact repliedDigest_of_describeEntry (congrArg Prod.fst hreg.reply)
  · intro p hroot hname htag habsent after hok
    rw [← hroot] at hw hm
    have hafter : after = (p.fetch inst.sha).run Fs.exec h := by
      change (runPull inst.sha p).run Fs.exec h = _
      rw [Pull.runPull_eq, run_bind, Pull.run_isPresent, habsent]
      rfl
    rw [hafter] at hok ⊢
    obtain ⟨chunks, bytes, hchunks, hbody, hholds⟩ :=
      Pull.holds_fetch ⟨hname.1, htag.1⟩ hw hm hok
    rw [hroot] at hholds
    exact ⟨chunks, bytes, hchunks, hbody, htagged hname htag (inst.sha.isDigest_hash bytes) hholds⟩

/-! ### Sample imports -/

/-- The sample root after a store whose stream failed. -/
def sampleLeft : Fs :=
  Operation.afterAll sampleInstallation [.store 7 [.ok [1], .error .other] none] (sampleFs true)

theorem reachable_sampleLeft : Reachable sampleInstallation sampleLeft :=
  ⟨true, id, _, by simp [Operation.Valid], rfl⟩

/-- What the store left behind. -/
def sampleSource : Path := sampleInstallation.cas.incomingDir.join "stage-7-0"

theorem contents_sampleSource : sampleLeft.contents sampleSource = some [1] := by decide +kernel

/-- A file that is read in one piece. -/
def wholeFile : Chunking where
  split bytes := [.ok bytes]
  content_split bytes := by
    by_cases hempty : bytes = []
    · simp [Reader.content, hempty]
    · simp [Reader.content, hempty, Except.map]

/-- That file is imported under a name. -/
def sampleImport (s : String) : Except String Unit × Fs :=
  (runImport sampleSha wholeFile sampleRoot 8 sampleSource (some s)).run Fs.exec sampleLeft

private theorem okay {r : Except String Unit} (hr : r.toOption = some ()) : r = .ok () := by
  cases r with
  | error e => cases hr
  | ok u => rfl

theorem sample_written_tags : ((sampleInstallation.ctx.tags.resolve "m:v").run Fs.exec
    (sampleImport "m:v").2).1 = .ok (some digestOne) := by
  have hok : (sampleImport "m:v").1.toOption = some () := by decide +kernel
  obtain ⟨bytes, hbytes, hresolve⟩ := (written_tags_resolve sampleInstallation sampleLeft
    reachable_sampleLeft).1 wholeFile 8 sampleSource "m:v" (by decide) (okay hok)
  obtain rfl := Option.some.inj (contents_sampleSource.symm.trans hbytes)
  exact hresolve

/-- What was imported under a digest is not what the digest resolves to. -/
theorem sample_import_shadowed :
    Reachable sampleInstallation sampleLeft ∧ (sampleImport digestTwo).1 = .ok () ∧
      sampleLeft.contents sampleSource = some [1] ∧
      ((sampleInstallation.ctx.tags.resolve digestTwo).run Fs.exec (sampleImport digestTwo).2).1 ≠
        .ok (some (sampleInstallation.sha.hash [1])) := by
  refine ⟨reachable_sampleLeft, okay (by decide +kernel), contents_sampleSource, ?_⟩
  rw [sampleInstallation.ctx.tags.resolve_digest isDigest_digestTwo]
  intro heq
  have hdigests : digestTwo = digestOne := Option.some.inj (Except.ok.inj heq)
  exact absurd hdigests (by decide)

end Modeld
