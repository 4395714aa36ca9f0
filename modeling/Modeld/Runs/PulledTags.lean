import Modeld.Core.TagWrites
import Modeld.Ctl.Resolve
import Modeld.Ctl.PullPlaces
import Modeld.Runs.RegistryRuns

/-!
# Where a pulled tag comes from

A pull writes the digest of what it was served, or finds its tag in the store and leaves it alone.
Which pull wrote that tag does not matter: names and tags do not say where a model comes from.
-/

namespace Modeld

open Host Program

variable {root : Path} {h h' : Fs} {n t : Name}

/-- What is served is complete. -/
def Served (response : Except String (List (Except String Bytes))) (bytes : Bytes) : Prop :=
  ∃ parts : List Bytes, response = .ok (parts.map .ok) ∧ bytes = parts.flatten

/-- The tags are the same. -/
def SameTags (root : Path) (h h' : Fs) : Prop := ∀ n t, tagAt root h' n t = tagAt root h n t

theorem SameArea.sameTags (hs : SameArea root Dir.tags h h') : SameTags root h h' := by
  intro n t
  have htags : root ++ [Dir.tags] <+: root ++ [Dir.tags, n, t] := by simp
  rw [tagAt, tagAt, hs.lookup _ htags]
  split
  · rename_i i hi
    rw [hs.data _ i htags hi]
  · rfl

/-- At most one tag differs, and it is the digest of the bytes. -/
def Tagged (root : Path) (name tag : Name) (digest : String) (h h' : Fs) : Prop :=
  tagAt root h' name tag = some (Text.toBytes digest) ∧
    ∀ n t, ¬ (n = name ∧ t = tag) → tagAt root h' n t = tagAt root h n t

theorem Tagged.of_sameTags {name tag : Name} {d : String} {h₁ : Fs} (hs : SameTags root h h₁)
    (ht : Tagged root name tag d h₁ h') : Tagged root name tag d h h' :=
  ⟨ht.1, fun n t hne => (ht.2 n t hne).trans (hs n t)⟩

theorem Tagged.sameTags {name tag : Name} {d : String} {h₁ : Fs} (ht : Tagged root name tag d h h₁)
    (hs : SameTags root h₁ h') : Tagged root name tag d h h' :=
  ⟨(hs name tag).trans ht.1, fun n t hne => (hs n t).trans (ht.2 n t hne)⟩

namespace ArtifactCommit.Valid

variable {c : ArtifactCommit} (hc : c.Valid)

include hc

theorem run_writeTag (hw : WellFormed c.storageRoot h) :
    let r := c.writeTag.run Fs.exec h
    WellFormed c.storageRoot r.2 ∧
      ((∃ e, r.1 = .error e ∧ SameTags c.storageRoot h r.2) ∨
        (r.1 = .ok () ∧
          Tagged c.storageRoot ⟨c.name, hc.name⟩ ⟨c.tag, hc.tag⟩ c.digest h r.2)) := by
  intro r
  refine ⟨hc.wellFormed_writeTag hw, ?_⟩
  obtain ⟨hsame, hw₁, -⟩ := TagRegistry.run_createDirAll hw ⟨c.name, hc.name⟩
  have hrun : r = c.writeTag.run Fs.exec h := rfl
  rw [writeTag, hc.tagFile_eq, hc.tagDir_eq, Fs.run_createDirAll] at hrun
  generalize h.createDirAll (c.storageRoot ++ [Dir.tags, ⟨c.name, hc.name⟩]) = made
    at hrun hsame hw₁
  obtain ⟨created, h₁⟩ := made
  cases created with
  | error e =>
    rw [hrun]
    exact .inl ⟨_, rfl, hsame.tags⟩
  | ok u =>
    dsimp only at hrun
    rw [Fs.run_write, Fs.write] at hrun
    rcases hcreate : h₁.create (c.storageRoot ++ [Dir.tags, ⟨c.name, hc.name⟩, ⟨c.tag, hc.tag⟩])
      with ⟨opened, h₂⟩
    rw [hcreate] at hrun
    cases opened with
    | error e =>
      obtain rfl : h₂ = h₁ := Fs.create_error hcreate
      rw [hrun]
      exact .inl ⟨_, rfl, hsame.tags⟩
    | ok i =>
      obtain ⟨hself, hother, -, -⟩ := TagRegistry.write_tagFile hw₁ hcreate (Text.toBytes c.digest)
      obtain ⟨hempty, -⟩ := Fs.create_spec hcreate
      have hwritten : h₂.writeAt i 0 (Text.toBytes c.digest) =
          h₂.setData i (Text.toBytes c.digest) := by
        rw [Fs.writeAt, hempty]
        simp [Fs.patch]
      rw [hwritten] at hself hother
      rw [hrun]
      exact .inr ⟨rfl, Tagged.of_sameTags hsame.tags ⟨hself, hother⟩⟩

theorem run_commitArtifact (hw : WellFormed c.storageRoot h) :
    let r := (commitArtifact c).run Fs.exec h
    WellFormed c.storageRoot r.2 ∧
      ((∃ e, r.1 = .error e ∧ SameTags c.storageRoot h r.2) ∨
        Tagged c.storageRoot ⟨c.name, hc.name⟩ ⟨c.tag, hc.tag⟩ c.digest h r.2) := by
  intro r
  have hrun : r = (commitArtifact c).run Fs.exec h := rfl
  obtain ⟨hw₁, hs₁⟩ := hc.leaves_rename h hw
  rw [commitArtifact, run_bind] at hrun
  generalize (rename c.stagePath c.casDest).run Fs.exec h = renamed at hrun hw₁ hs₁
  obtain ⟨moved, h₁⟩ := renamed
  cases moved with
  | error e =>
    rw [hrun]
    exact ⟨hw₁, .inl ⟨_, rfl, hs₁.sameTags⟩⟩
  | ok u =>
    obtain ⟨hw₂, hs₂⟩ := hc.leaves_linkBlob h₁ hw₁
    dsimp only at hrun
    rw [run_bind, afterStore, run_bind] at hrun
    have hsame := (hs₁.trans hs₂).sameTags
    generalize (c.linkBlob.run Fs.exec h₁).2 = h₂ at hrun hw₂ hsame
    obtain ⟨hw₃, htag⟩ := hc.run_writeTag hw₂
    generalize c.writeTag.run Fs.exec h₂ = written at hrun hw₃ htag
    obtain ⟨w, h₃⟩ := written
    rcases htag with ⟨e, he, hkept⟩ | ⟨hok, htagged⟩
    · obtain rfl : w = .error e := he
      rw [hrun]
      exact ⟨hw₃, .inl ⟨_, rfl, fun n t => (hkept n t).trans (hsame n t)⟩⟩
    · obtain rfl : w = .ok () := hok
      obtain ⟨hw₄, hs₄⟩ := AmongLinks.leaves_tags hc.amongLinks_linkFormat h₃ hw₃
      rw [hrun]
      exact ⟨hw₄, .inr ((Tagged.of_sameTags hsame htagged).sameTags hs₄.sameTags)⟩

end ArtifactCommit.Valid

/-! ### One pull -/

namespace Pull

variable {p : Pull}

theorem downloadLoop_ok {file : Ino} {chunks : List (Except String Bytes)} {hashed bytes : Bytes}
    (hok : ((downloadLoop file chunks hashed).run Fs.exec h).1 = .ok bytes) :
    ∃ parts : List Bytes, chunks = parts.map .ok ∧ bytes = hashed ++ parts.flatten := by
  induction chunks generalizing h hashed with
  | nil =>
    refine ⟨[], rfl, ?_⟩
    rw [List.flatten_nil, List.append_nil]
    exact (Except.ok.inj hok).symm
  | cons chunk chunks ih =>
    cases chunk with
    | error e => cases hok
    | ok chunk =>
      rw [downloadLoop, Fs.run_writeAt] at hok
      obtain ⟨parts, rfl, rfl⟩ := ih hok
      exact ⟨chunk :: parts, rfl, by rw [List.flatten_cons, List.append_assoc]⟩

theorem served_of_download {chunks : List (Except String Bytes)} {bytes : Bytes}
    (hok : ((p.download chunks).run Fs.exec h).1 = .ok bytes) : Served (.ok chunks) bytes := by
  rw [download, Fs.run_create] at hok
  generalize h.create p.stagePath = made at hok
  obtain ⟨opened, h₁⟩ := made
  cases opened with
  | error e => cases hok
  | ok file =>
    dsimp only at hok
    rw [run_bind] at hok
    have hloop := @downloadLoop_ok h₁ file chunks []
    generalize (downloadLoop file chunks []).run Fs.exec h₁ = looped at hok hloop
    obtain ⟨result, h₂⟩ := looped
    cases result with
    | error e => cases hok
    | ok found =>
      obtain rfl : found = bytes := Except.ok.inj hok
      obtain ⟨parts, rfl, hbytes⟩ := hloop rfl
      exact ⟨parts, rfl, hbytes⟩

theorem Valid.run_finish (hp : p.Valid) (sha : Sha256) (bytes : Bytes)
    (hw : WellFormed p.storageRoot h) :
    let r := (p.finish sha bytes).run Fs.exec h
    WellFormed p.storageRoot r.2 ∧
      ((∃ e, r.1 = .error e ∧ SameTags p.storageRoot h r.2) ∨
        Tagged p.storageRoot ⟨p.name, hp.name⟩ ⟨p.tag, hp.tag⟩ (sha.hash bytes) h r.2) := by
  intro r
  have hrun : r = (p.finish sha bytes).run Fs.exec h := rfl
  rw [finish, run_bind] at hrun
  obtain ⟨hw₁, hcommitted⟩ := (hp.valid_commit (sha.isDigest_hash bytes)).run_commitArtifact hw
  generalize (commitArtifact (p.commit (sha.hash bytes))).run Fs.exec h = committed
    at hrun hw₁ hcommitted
  obtain ⟨result, h₁⟩ := committed
  cases result with
  | error e =>
    rw [hrun]
    exact ⟨hw₁, hcommitted.imp_left fun ⟨_, _, hkept⟩ => ⟨e, rfl, hkept⟩⟩
  | ok u =>
    have htagged : Tagged p.storageRoot ⟨p.name, hp.name⟩ ⟨p.tag, hp.tag⟩ (sha.hash bytes)
        h h₁ := by
      rcases hcommitted with ⟨e, he, -⟩ | htagged
      · cases he
      · exact htagged
    dsimp only at hrun
    cases htokenizer : p.tokenizer with
    | none =>
      rw [htokenizer] at hrun
      rw [hrun]
      exact ⟨hw₁, .inr htagged⟩
    | some data =>
      rw [htokenizer] at hrun
      dsimp only at hrun
      rw [run_bind] at hrun
      obtain ⟨hw₂, hs₂⟩ := AmongLinks.leaves_tags (hp.amongLinks_commitTokenizer data) h₁ hw₁
      rw [hrun]
      exact ⟨hw₂, .inr (htagged.sameTags hs₂.sameTags)⟩

/-- What a pull does to the tags once it downloads. -/
theorem Valid.run_fetch (hp : p.Valid) (sha : Sha256) (hw : WellFormed p.storageRoot h) :
    let r := (p.fetch sha).run Fs.exec h
    WellFormed p.storageRoot r.2 ∧
      ((∃ e, r.1 = .error e ∧ SameTags p.storageRoot h r.2) ∨
        ∃ bytes, Served p.response bytes ∧
          Tagged p.storageRoot ⟨p.name, hp.name⟩ ⟨p.tag, hp.tag⟩ (sha.hash bytes) h r.2) := by
  intro r
  have hrun : r = (p.fetch sha).run Fs.exec h := rfl
  unfold fetch at hrun
  cases hresponse : p.response with
  | error e =>
    rw [hresponse] at hrun
    rw [hrun]
    exact ⟨hw, .inl ⟨_, rfl, fun _ _ => rfl⟩⟩
  | ok chunks =>
    rw [hresponse] at hrun
    dsimp only at hrun
    obtain ⟨hw₁, hs₁⟩ := Valid.leaves_incomingDir h hw
    rw [run_bind] at hrun
    generalize (createDirAll p.incomingDir).run Fs.exec h = made at hrun hw₁ hs₁
    obtain ⟨created, h₁⟩ := made
    cases created with
    | error e =>
      rw [hrun]
      exact ⟨hw₁, .inl ⟨_, rfl, hs₁.sameTags⟩⟩
    | ok u =>
      dsimp only at hrun
      obtain ⟨hw₂, hs₂⟩ := hp.leaves_download chunks h₁ hw₁
      have hserved := @served_of_download h₁ p chunks
      rw [run_bind] at hrun
      generalize (p.download chunks).run Fs.exec h₁ = downloaded at hrun hw₂ hs₂ hserved
      obtain ⟨result, h₂⟩ := downloaded
      have hsame := (hs₁.trans hs₂).sameTags
      cases result with
      | error e =>
        rw [hrun]
        exact ⟨hw₂, .inl ⟨_, rfl, hsame⟩⟩
      | ok bytes =>
        obtain ⟨hw₃, hfinished⟩ := hp.run_finish sha bytes hw₂
        rw [hrun]
        refine ⟨hw₃, ?_⟩
        rcases hfinished with ⟨e, he, hkept⟩ | htagged
        · exact .inl ⟨e, he, fun n t => (hkept n t).trans (hsame n t)⟩
        · exact .inr ⟨bytes, hserved rfl, Tagged.of_sameTags hsame htagged⟩

end Pull

namespace PullRequest

variable {r : PullRequest}

/-- The names that the request resolves to are ordinary file names. -/
def Plain (r : PullRequest) : Prop := ∀ m, r.resolve = .ok m → PlainName m.name ∧ PlainName m.tag

theorem Plain.valid (hr : r.Plain) {m : ResolvedModel} (hm : r.resolve = .ok m) :
    (r.pull m).Valid :=
  ⟨(hr m hm).1, (hr m hm).2⟩

/-- The tag holds the digest of what the request was served. -/
def Source (sha : Sha256) (h : Fs) (name tag : Name) (r : PullRequest) : Prop :=
  ∃ m bytes, r.resolve = .ok m ∧ m.name = name.text ∧ m.tag = tag.text ∧
    Served (r.response m.downloadUrl) bytes ∧
    tagAt r.storageRoot h name tag = some (Text.toBytes (sha.hash bytes))

theorem run_eq (sha : Sha256) {m : ResolvedModel} (hm : r.resolve = .ok m) :
    (r.run sha).run Fs.exec h = if (r.pull m).presentIn h then (.ok (), h)
      else ((r.pull m).fetch sha).run Fs.exec h := by
  unfold PullRequest.run
  rw [hm]
  dsimp only
  rw [Pull.runPull_eq, run_bind, Pull.run_isPresent]
  split_ifs <;> rfl

/-- One pull leaves a tag as it is, or is its source. -/
theorem Plain.run (hr : r.Plain) (sha : Sha256) (hw : WellFormed r.storageRoot h) :
    WellFormed r.storageRoot ((r.run sha).run Fs.exec h).2 ∧
      ∀ n t, tagAt r.storageRoot ((r.run sha).run Fs.exec h).2 n t = tagAt r.storageRoot h n t ∨
        r.Source sha ((r.run sha).run Fs.exec h).2 n t := by
  cases hm : r.resolve with
  | error e =>
    rw [PullRequest.run, hm]
    exact ⟨hw, fun _ _ => .inl rfl⟩
  | ok m =>
    rw [run_eq sha hm]
    split_ifs with hpresent
    · exact ⟨hw, fun _ _ => .inl rfl⟩
    obtain ⟨hw', hfetched⟩ := (hr.valid hm).run_fetch sha hw
    refine ⟨hw', fun n t => ?_⟩
    rcases hfetched with ⟨-, -, hkept⟩ | ⟨bytes, hserved, hself, hother⟩
    · exact .inl (hkept n t)
    · by_cases heq : n = ⟨m.name, (hr m hm).1⟩ ∧ t = ⟨m.tag, (hr m hm).2⟩
      · obtain ⟨rfl, rfl⟩ := heq
        exact .inr ⟨m, bytes, hm, rfl, rfl, hserved, hself⟩
      · exact .inl (hother n t heq)

/-- Pulls one after the other. -/
def afterAll (sha : Sha256) (requests : List PullRequest) (h : Fs) : Fs :=
  requests.foldl (fun h r => ((r.run sha).run Fs.exec h).2) h

end PullRequest

end Modeld
