import Modeld.Core.Opening
import Modeld.Ctl.CommitArtifact

/-!
# Which calls a commit makes

The calls of `commitArtifact`, and where they go when the name and the tag of the commit are ordinary
file names: only the first two steps then reach into the store.
-/

namespace Modeld

open Host Program

namespace ArtifactCommit

variable {may : Call → Prop} {c : ArtifactCommit}

theorem only_linkBlob (hdirs : may (.createDirAll c.blobDir)) (hremove : may (.removeFile c.blobPath))
    (hlink : may (.hardLink c.casDest c.blobPath)) (hcopy : may (.copy c.casDest c.blobPath)) :
    Only may c.linkBlob := by
  refine Only.perform hdirs fun r => ?_
  split
  · refine Only.perform hremove fun _ => ?_
    refine Only.perform hlink fun r => ?_
    split
    · exact Only.perform hcopy fun _ => only_done _
    · exact only_done _
  · exact only_done _

theorem only_writeTag (hdirs : may (.createDirAll c.tagDir))
    (hwrite : may (.write (c.tagDir.join c.tag) (Text.toBytes c.digest))) : Only may c.writeTag := by
  refine Only.perform hdirs fun r => ?_
  rcases r with e | -
  · exact only_done _
  refine Only.perform hwrite fun r => ?_
  cases r <;> exact only_done _

/-- The places of the links. -/
def linkDests (c : ArtifactCommit) : List Path :=
  [c.fmtDir.join (c.name ++ "." ++ c.ext), c.fmtDir.join (c.name ++ ":" ++ c.tag ++ "." ++ c.ext),
    c.fmtDir.join (c.name ++ "-" ++ c.tag ++ "." ++ c.ext)]

theorem only_relink {target dest : Path} (hremove : may (.removeFile dest))
    (hlink : may (.symlink target dest)) : Only may (relink target dest) :=
  Only.perform hremove fun _ => Only.perform hlink fun _ => only_done _

theorem only_linkUntagged {target : Path} (hreads : ∀ o, Reads o → may o)
    (hdests : ∀ dest ∈ c.linkDests, may (.removeFile dest) ∧ may (.symlink target dest)) :
    Only may (c.linkUntagged target) := by
  obtain ⟨hremove, hlink⟩ := hdests _ (List.mem_cons_self ..)
  unfold linkUntagged
  dsimp only
  split
  · exact only_relink hremove hlink
  · refine Only.perform (hreads _ trivial) fun r => ?_
    split
    · exact only_relink hremove hlink
    · exact only_done _

theorem only_linkFormat (hreads : ∀ o, Reads o → may o) (hdirs : may (.createDirAll c.fmtDir))
    (hdests : ∀ target, ∀ dest ∈ c.linkDests, may (.removeFile dest) ∧ may (.symlink target dest)) :
    Only may c.linkFormat := by
  refine Only.perform hdirs fun r => ?_
  rcases r with e | -
  · exact only_done _
  refine Only.bind ?_ fun target => ?_
  · refine Only.perform (hreads _ trivial) fun r => ?_
    cases r <;> exact only_done _
  refine (only_linkUntagged hreads (hdests target)).bind fun _ => ?_
  split
  · obtain ⟨h2, h2'⟩ := hdests target _ (List.mem_cons_of_mem _ (List.mem_cons_self ..))
    obtain ⟨h3, h3'⟩ := hdests target _
      (List.mem_cons_of_mem _ (List.mem_cons_of_mem _ (List.mem_cons_self ..)))
    refine (only_relink h2 h2').bind fun _ => ?_
    exact (only_relink h3 h3').bind fun _ => only_done _
  · exact only_done _

end ArtifactCommit

/-- The call keeps to the layout and touches neither the store nor the pins. -/
def Outside (root : Path) (o : Call) : Prop :=
  Tidy root o ∧ (∀ y, y = Dir.cas ∨ y = Dir.pinned → Avoids (root ++ [y]) o) ∧
    ∀ i off b, o ≠ .writeAt i off b

theorem Outside.keepsPins {root : Path} {o : Call} (ho : Outside root o) : KeepsPins root o :=
  ⟨ho.1, ho.2.1 _ (.inr rfl)⟩

theorem Outside.sameStore {root : Path} {o : Call} {h h' : Fs} {r : Reply o} (ho : Outside root o)
    (hw : WellFormed root h) (hs : Fs.Answers o h r h') : SameStore root h h' := by
  obtain ⟨htidy, havoid, hopen⟩ := ho
  have hcas := havoid Dir.cas (.inl rfl)
  exact ⟨fun q hq => hcas.lookup_eq htidy hw hs hq,
    fun q i hq hqi => hcas.data_eq htidy hw hs hq hqi (hopen i)⟩

/-- The call keeps to the layout and touches only the directories of links. -/
def AmongLinks (root : Path) (o : Call) : Prop :=
  Tidy root o ∧ (∀ y, y ≠ Dir.gguf → y ≠ Dir.safetensors → Avoids (root ++ [y]) o) ∧
    ∀ i off b, o ≠ .writeAt i off b

theorem AmongLinks.outside {root : Path} {o : Call} (ho : AmongLinks root o) : Outside root o := by
  refine ⟨ho.1, ?_, ho.2.2⟩
  rintro y (rfl | rfl)
  · exact ho.2.1 _ (by decide) (by decide)
  · exact ho.2.1 _ (by decide) (by decide)

theorem Reads.amongLinks {root : Path} {o : Call} (ho : Reads o) : AmongLinks root o := by
  refine ⟨(ho.inArea (x := Dir.cas)).1, ?_, ?_⟩
  · intro y _ _
    cases o <;> first | exact ho.elim | trivial
  · rintro i off b rfl
    exact ho

theorem amongLinks_createDirAll {root : Path} {x : Name} (hx : x = Dir.gguf ∨ x = Dir.safetensors) :
    AmongLinks root (.createDirAll (root ++ [x])) := by
  have hcas : Dir.cas ≠ x := by
    rcases hx with rfl | rfl <;> decide
  refine ⟨fun q hq d hd hnames => ?_, fun y hy hy' => ?_, nofun⟩
  · exact not_under List.prefix_rfl hcas ((hnames.in_cas hd).trans hq)
  · apply not_under List.prefix_rfl
    rcases hx with rfl | rfl
    · exact hy
    · exact hy'

namespace ArtifactCommit

/-- The commit is of a staged file, its digest is one, and its name and tag are ordinary file names,
as the tag registry asks for and `commit_artifact` does not. -/
structure Valid (c : ArtifactCommit) : Prop where
  stage : ∃ n : Name, c.stagePath = c.storageRoot ++ [Dir.cas, Dir.incoming, n]
  digest : IsDigest c.digest
  name : PlainName c.name
  tag : PlainName c.tag

variable {c : ArtifactCommit}

theorem ext_cases (c : ArtifactCommit) : c.ext = "gguf" ∨ c.ext = "safetensors" := by
  unfold ext extOf
  split
  · exact .inr rfl
  · exact .inl rfl

/-- The store that the commit is made to. -/
abbrev cas (c : ArtifactCommit) : CasStore := ⟨c.storageRoot⟩

theorem blobDir_eq : c.blobDir = c.cas.blobsDir := rfl

theorem blobPath_eq : c.blobPath = c.cas.blobsDir.join c.digest := rfl

theorem casDest_eq : c.casDest = c.cas.flatGguf c.digest ∨ c.casDest = c.cas.flatSt c.digest := by
  unfold casDest
  rcases c.ext_cases with h | h <;> rw [h]
  · left
    rw [CasStore.flatGguf, String.append_assoc]
    rfl
  · right
    rw [CasStore.flatSt, String.append_assoc]
    rfl

theorem names_casDest : c.cas.Names c.digest c.casDest := .inr casDest_eq

theorem names_blobPath : c.cas.Names c.digest c.blobPath := .inl rfl

namespace Valid

variable (hc : c.Valid)

include hc

theorem tagDir_eq : c.tagDir = c.storageRoot ++ [Dir.tags, ⟨c.name, hc.name⟩] := by
  rw [tagDir, Path.join_name _ Dir.tags, Path.join_of_plain _ hc.name]
  simp

theorem tagFile_eq : c.tagDir.join c.tag =
    c.storageRoot ++ [Dir.tags, ⟨c.name, hc.name⟩, ⟨c.tag, hc.tag⟩] := by
  rw [hc.tagDir_eq, Path.join_of_plain _ hc.tag]
  simp

omit hc in
theorem fmtDir_eq : c.fmtDir = c.storageRoot ++ [Dir.gguf] ∨
    c.fmtDir = c.storageRoot ++ [Dir.safetensors] := by
  unfold fmtDir
  rcases c.ext_cases with h | h <;> rw [h]
  · exact .inl (Path.join_name _ Dir.gguf)
  · exact .inr (Path.join_name _ Dir.safetensors)

omit hc in
private theorem linkPlace_join {s : String} (hs : PlainName (s ++ "." ++ c.ext)) :
    LinkPlace c.storageRoot (c.fmtDir.join (s ++ "." ++ c.ext)) := by
  rw [Path.join_of_plain _ hs]
  rcases c.ext_cases with h | h
  · have hdir : c.fmtDir = c.storageRoot ++ [Dir.gguf] := by
      rw [fmtDir, h, Path.join_name _ Dir.gguf]
    rw [hdir]
    exact ⟨_, .inl ⟨List.append_assoc .., by simp [Text.endsWith, h]⟩⟩
  · have hdir : c.fmtDir = c.storageRoot ++ [Dir.safetensors] := by
      rw [fmtDir, h, Path.join_name _ Dir.safetensors]
    rw [hdir]
    exact ⟨_, .inr ⟨List.append_assoc .., by simp [Text.endsWith, h]⟩⟩

theorem linkPlace_of_mem {dest : Path} (hdest : dest ∈ c.linkDests) :
    LinkPlace c.storageRoot dest := by
  have hext : '/' ∉ c.ext.toList := by rcases c.ext_cases with h | h <;> rw [h] <;> decide
  have htag : '/' ∉ c.tag.toList := hc.tag.2.2.2
  have hplain : ∀ t : String, '/' ∉ t.toList → PlainName (c.name ++ t ++ "." ++ c.ext) :=
    fun t ht => ((hc.name.append ht).append (by decide)).append hext
  simp only [linkDests, List.mem_cons, List.not_mem_nil, or_false] at hdest
  rcases hdest with rfl | rfl | rfl
  · exact linkPlace_join ((hc.name.append (by decide)).append hext)
  · have := hplain (":" ++ c.tag) (by simp [htag])
    rw [← String.append_assoc] at this
    exact linkPlace_join this
  · have := hplain ("-" ++ c.tag) (by simp [htag])
    rw [← String.append_assoc] at this
    exact linkPlace_join this

theorem inArea_rename : InArea c.storageRoot Dir.cas (.rename c.stagePath c.casDest) := by
  obtain ⟨n, hn⟩ := hc.stage
  have hcas : c.storageRoot ++ [Dir.cas] <+: c.stagePath := by
    rw [hn]
    simp
  have hdest := (names_casDest (c := c)).in_cas hc.digest
  refine ⟨⟨under_root hcas, not_linkPlace_of_area hcas (by decide) (by decide),
    not_linkPlace_of_area hdest (by decide) (by decide), fun d hd hnames => ?_⟩,
    fun y hy => ⟨not_under hcas hy, not_under hdest hy⟩⟩
  rw [hn] at hnames
  exact CasStore.not_names_incoming hd n hnames

theorem inArea_linkBlob : Only (InArea c.storageRoot Dir.cas) c.linkBlob := by
  have hblob := (names_blobPath (c := c)).in_cas hc.digest
  refine only_linkBlob ⟨fun q hq d hd hnames => ?_, fun y hy => not_under ?_ hy⟩
    ⟨trivial, fun y hy => not_under hblob hy⟩
    ⟨⟨c.digest, hc.digest, names_casDest, names_blobPath⟩, fun y hy => not_under hblob hy⟩
    ⟨⟨under_root hblob, names_blobPath.not_linkPlace hc.digest⟩, fun y hy => not_under hblob hy⟩
  · exact CasStore.not_prefix_blobsDir hd hnames hq
  · rw [blobDir_eq, CasStore.blobsDir_eq]
    simp

/-- The links go to the format directory. -/
theorem amongLinks_linkFormat : Only (AmongLinks c.storageRoot) c.linkFormat := by
  refine only_linkFormat (fun _ => Reads.amongLinks) ?_ fun target dest hdest => ?_
  · rcases fmtDir_eq (c := c) with h | h <;> rw [h]
    · exact amongLinks_createDirAll (.inl rfl)
    · exact amongLinks_createDirAll (.inr rfl)
  · have hplace := hc.linkPlace_of_mem hdest
    exact ⟨⟨trivial, fun y hy hy' => hplace.not_in_area hy hy', nofun⟩,
      hplace, fun y hy hy' => hplace.not_in_area hy hy', nofun⟩

/-- After its steps in the store, the commit writes under `tags` and the format directory. -/
theorem outside_afterStore : Only (Outside c.storageRoot) c.afterStore := by
  have htag : c.storageRoot ++ [Dir.tags] <+: c.tagDir := by
    rw [hc.tagDir_eq]
    simp
  have hfile : c.storageRoot ++ [Dir.tags] <+: c.tagDir.join c.tag := by
    rw [hc.tagFile_eq]
    simp
  have houtside : ∀ {p : Path}, c.storageRoot ++ [Dir.tags] <+: p →
      ∀ y, y = Dir.cas ∨ y = Dir.pinned → ¬ c.storageRoot ++ [y] <+: p := by
    rintro p hp y (rfl | rfl)
    · exact not_under hp (by decide)
    · exact not_under hp (by decide)
  refine (only_writeTag ?_ ?_).bind fun r => ?_
  · exact ⟨fun q hq d hd hnames => not_under htag (by decide) ((hnames.in_cas hd).trans hq),
      houtside htag, by rintro _ _ _ ⟨⟩⟩
  · exact ⟨⟨under_root hfile, not_linkPlace_of_area hfile (by decide) (by decide)⟩,
      houtside hfile, by rintro _ _ _ ⟨⟩⟩
  rcases r with e | -
  · exact only_done _
  · exact hc.amongLinks_linkFormat.mono fun _ ho => ho.outside

/-- A commit keeps to the layout and leaves the pins alone. -/
theorem keepsPins_commitArtifact : Only (KeepsPins c.storageRoot) (commitArtifact c) := by
  refine Only.perform (hc.inArea_rename.keepsPins (by decide)) fun r => ?_
  rcases r with e | -
  · exact only_done _
  refine (hc.inArea_linkBlob.mono fun _ ho => ho.keepsPins (by decide)).bind fun _ => ?_
  exact hc.outside_afterStore.mono fun _ ho => ho.keepsPins

end Valid

end ArtifactCommit

/-! ### A sample -/

def stageA : Name := ⟨"pull-a", by decide⟩

/-- A commit of a staged one-byte model. -/
def sampleCommit (stage : Name) : ArtifactCommit where
  storageRoot := sampleRoot
  stagePath := sampleRoot ++ [Dir.cas, Dir.incoming, stage]
  digest := digestOne
  format := "gguf"
  name := "m"
  tag := "latest"

theorem valid_sampleCommit (stage : Name) : (sampleCommit stage).Valid :=
  ⟨⟨stage, rfl⟩, isDigest_digestOne, (by decide : PlainName "m"), (by decide : PlainName "latest")⟩

end Modeld
