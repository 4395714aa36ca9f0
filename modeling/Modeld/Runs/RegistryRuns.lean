import Modeld.Core.Areas
import Modeld.Core.Registry
import Modeld.Runs.Operations

/-!
# The registry over runs of operations

Every operation leaves the directory of the tags the directory of some map, to which it has added
digests only, under names that tell the operation.
-/

namespace Modeld

open Host Program

/-- Every entry of `m'` is one of `m`, or a digest under a name with `P`. -/
def Entries.Extends (P : Name → Name → Prop) (m m' : Entries) : Prop :=
  ∀ n v d, m' n v = some d → m n v = some d ∨ (IsDigest d ∧ P n v)

namespace Entries

variable {P : Name → Name → Prop} {m m' : Entries} {n v : Name} {d : String}

theorem Extends.refl : Extends P m m := fun _ _ _ => .inl

theorem Extends.trans {m'' : Entries} (h₁₂ : Extends P m m') (h₂₃ : Extends P m' m'') :
    Extends P m m'' := by
  intro n v d hd
  rcases h₂₃ n v d hd with hd | hnew
  · exact h₁₂ n v d hd
  · exact .inr hnew

theorem extends_set (hd : IsDigest d) (hP : P n v) : Extends P m (m.set n v (some d)) := by
  intro k w e he
  by_cases hkw : k = n ∧ w = v
  · obtain ⟨rfl, rfl⟩ := hkw
    obtain rfl : d = e := by simpa [set] using he
    exact .inr ⟨hd, hP⟩
  · exact .inl (by simpa [set, hkw] using he)

end Entries

/-- A program that keeps the directory of the tags the directory of a map, and adds digests under
names with `P` only. -/
def KeepsRegistry (root : Path) (P : Name → Name → Prop) {α : Type} (p : Io α) : Prop :=
  ∀ h m, WellFormed root h → (TagRegistry.ofRoot root).Holds h m →
    ∃ m', WellFormed root (p.run Fs.exec h).2 ∧
      (TagRegistry.ofRoot root).Holds (p.run Fs.exec h).2 m' ∧ Entries.Extends P m m'

variable {root : Path} {P : Name → Name → Prop} {α β : Type} {p : Io α} {h h' : Fs} {m : Entries}

/-- What leaves the tags alone leaves the registry the map that it is. -/
theorem TagRegistry.Holds.of_sameArea (hm : (ofRoot root).Holds h m)
    (hs : SameArea root Dir.tags h h') (hw : WellFormed root h') :
    (ofRoot root).Holds h' m where
  base q hq := by
    rcases List.prefix_concat_iff.1 hq with rfl | hq
    · exact hw.base _ (.inr (by simp [baseDirs]))
    · exact hw.base q (.inl hq)
  model n := by
    rw [hs.lookup _ (List.prefix_append _ _)]
    exact hm.model n
  absent n v hnone := by
    rw [hs.lookup _ (List.prefix_append _ _)]
    exact hm.absent n v hnone
  present n v d hd := by
    obtain ⟨hdir, i, hi, -, hbytes⟩ := hm.present n v d hd
    have hi' : h'.lookup (root ++ [Dir.tags] ++ [n, v]) = some (.file i) := by
      rw [hs.lookup _ (List.prefix_append _ _)]
      exact hi
    rw [hs.lookup _ (List.prefix_append _ _)]
    refine ⟨hdir, i, hi', hw.fresh _ i ?_ hi', (hs.data _ i (List.prefix_append _ _) hi).trans hbytes⟩
    rw [List.append_assoc]
    exact List.prefix_append _ _
  distinct n v n' v' i hi hi' := by
    rw [hs.lookup _ (List.prefix_append _ _)] at hi hi'
    exact hm.distinct n v n' v' i hi hi'

namespace KeepsRegistry

theorem of_leaves (hp : Leaves root Dir.tags p) : KeepsRegistry root P p := by
  intro h m hw hm
  obtain ⟨hw', hs⟩ := hp h hw
  exact ⟨m, hw', hm.of_sameArea hs hw', .refl⟩

theorem of_reads (hp : Only Reads p) : KeepsRegistry root P p := of_leaves (.of_reads hp)

theorem done (a : α) : KeepsRegistry root P (Program.done a : Io α) := of_reads (only_done a)

theorem bind {f : α → Io β} (hp : KeepsRegistry root P p) (hf : ∀ a, KeepsRegistry root P (f a)) :
    KeepsRegistry root P (p >>= f) := by
  intro h m hw hm
  obtain ⟨m₁, hw₁, hm₁, he₁⟩ := hp h m hw hm
  obtain ⟨m₂, hw₂, hm₂, he₂⟩ := hf (p.run Fs.exec h).1 _ m₁ hw₁ hm₁
  rw [run_bind]
  exact ⟨m₂, hw₂, hm₂, he₁.trans he₂⟩

theorem perform {o : Call} {f : Reply o → Io β} (ho : Reads o)
    (hf : ∀ r, KeepsRegistry root P (f r)) : KeepsRegistry root P (Program.perform o >>= f) :=
  (of_reads (only_perform ho)).bind hf

/-- A program that does nothing but return `a` in a well-formed state. -/
theorem bind_of_run {f : α → Io β} {a : α}
    (hp : ∀ h, WellFormed root h → p.run Fs.exec h = (a, h)) (hf : KeepsRegistry root P (f a)) :
    KeepsRegistry root P (p >>= f) := by
  intro h m hw hm
  rw [run_bind, hp h hw]
  exact hf h m hw hm

theorem mono {P' : Name → Name → Prop} (hp : KeepsRegistry root P p) (hP : ∀ n v, P n v → P' n v) :
    KeepsRegistry root P' p := by
  intro h m hw hm
  obtain ⟨m', hw', hm', he⟩ := hp h m hw hm
  exact ⟨m', hw', hm', fun n v d hd => (he n v d hd).imp_right fun hnew => ⟨hnew.1, hP _ _ hnew.2⟩⟩

end KeepsRegistry

/-! ### Setting a tag -/

/-- Both parts of a name are what the registry accepts. -/
def Segments (n v : Name) : Prop := IsSegment n.text ∧ IsSegment v.text

theorem TagRegistry.keepsRegistry_setTag {name tag d : String} :
    KeepsRegistry root Segments ((ofRoot root).setTag name tag d) := by
  intro h m hw hm
  have hw' : WellFormed root (((ofRoot root).setTag name tag d).run Fs.exec h).2 :=
    Only.run (I := WellFormed root) Fs.exec (fun _ _ ho hs => hs.answers ho.1 (.inl rfl))
      inArea_setTag hw
  rcases hm.run_setTag name tag d with ⟨hname, htag, hd, -, hm'⟩ | ⟨-, -, hsame⟩
  · exact ⟨_, hw', hm', Entries.extends_set hd ⟨hname, htag⟩⟩
  · rw [hsame] at hw' ⊢
    exact ⟨m, hw', hm, .refl⟩

/-! ### Calls to the daemon -/

section Daemon

variable {json : JsonLibrary} {params : Option Json}

theorem keepsRegistry_handleDigest {operation : EvictionManager → String → Io (Except ModeldError α)}
    (hop : ∀ d, Leaves root Dir.tags (operation (EvictionManager.ofRoot root) d)) :
    KeepsRegistry root P (handleDigest operation params (ModelServiceContext.ofRoot root)) := by
  unfold handleDigest
  split
  · exact .done _
  apply (KeepsRegistry.of_reads only_resolveDigest).bind
  intro outcome
  cases outcome with
  | ok digest =>
    apply (KeepsRegistry.of_leaves (hop digest)).bind
    intro r
    cases r <;> exact .done _
  | invalid => exact .done _
  | notFound => exact .done _

theorem keepsRegistry_handlePrune :
    KeepsRegistry root P (handlePrune params (ModelServiceContext.ofRoot root)) := by
  unfold handlePrune
  split
  · exact .done _
  apply (KeepsRegistry.of_leaves (EvictionManager.leaves_prune (by decide))).bind
  intro r
  cases r <;> exact .done _

theorem keepsRegistry_registerDigest {name tag : String} {digest : Option String} :
    KeepsRegistry root Segments
      (registerDigest json (ModelServiceContext.ofRoot root) name tag digest) := by
  apply (KeepsRegistry.of_reads only_digestCandidate).bind
  intro r
  rcases r with reply | candidate
  · exact .done _
  dsimp only
  split
  · exact .done _
  apply TagRegistry.keepsRegistry_setTag.bind
  intro r
  rcases r with e | -
  · exact .done _
  · exact .of_reads only_describeEntry

theorem keepsRegistry_handleRegister :
    KeepsRegistry root Segments (handleRegister json params (ModelServiceContext.ofRoot root)) := by
  unfold handleRegister
  split
  · exact .done _
  dsimp only
  split
  · exact .done _
  split
  · exact .done _
  · exact keepsRegistry_registerDigest

theorem keepsRegistry_dispatchCall (call : VarlinkCall) :
    KeepsRegistry root Segments (dispatchCall json call (ModelServiceContext.ofRoot root)) := by
  unfold dispatchCall
  split
  · exact .done _
  split
  · rename_i hcall
    unfold handleModel1Call at hcall
    split_ifs at hcall
    all_goals obtain rfl := Option.some.inj hcall
    · exact .of_reads only_handleList
    · exact .of_reads only_handleInspect
    · exact keepsRegistry_handleRegister
    · exact keepsRegistry_handleDigest fun _ => EvictionManager.leaves_pin (by decide)
    · exact keepsRegistry_handleDigest fun _ => EvictionManager.leaves_unpin (by decide)
    · exact keepsRegistry_handlePrune
    · exact .of_reads only_handleGetStorageStats
  · exact .done _

end Daemon

/-! ### Commits and pulls -/

/-- Links leave the tags alone. -/
theorem AmongLinks.leaves_tags (hp : Only (AmongLinks root) p) : Leaves root Dir.tags p := by
  refine .of_only (hp.mono fun o ho => ⟨ho.1, ho.2.1 _ (by decide) (by decide)⟩) fun T =>
    hp.mono fun o ho => ?_
  cases o with
  | writeAt i off b => exact absurd rfl (ho.2.2 i off b)
  | _ => exact trivial

namespace ArtifactCommit.Valid

variable {c : ArtifactCommit} (hc : c.Valid)

include hc

theorem wellFormed_writeTag (hw : WellFormed c.storageRoot h) :
    WellFormed c.storageRoot (c.writeTag.run Fs.exec h).2 := by
  refine Only.run (I := WellFormed c.storageRoot) Fs.exec
    (fun _ _ ho hs => hs.answers ho (.inl rfl)) (only_writeTag ?_ ?_) hw
  · rw [hc.tagDir_eq]
    exact fun q hq d hd hnames =>
      not_under (x := Dir.tags) (by simp) (by decide) ((hnames.in_cas hd).trans hq)
  · rw [hc.tagFile_eq]
    exact ⟨by simp, not_linkPlace_of_area (x := Dir.tags) (by simp) (by decide) (by decide)⟩

/-- The commit names its digest. -/
theorem holds_writeTag (hw : WellFormed c.storageRoot h) (hm : (TagRegistry.ofRoot c.storageRoot).Holds h m) :
    WellFormed c.storageRoot (c.writeTag.run Fs.exec h).2 ∧
      (TagRegistry.ofRoot c.storageRoot).Holds (c.writeTag.run Fs.exec h).2
        (m.set ⟨c.name, hc.name⟩ ⟨c.tag, hc.tag⟩ (some c.digest)) := by
  obtain ⟨hok, hm₁, hdir⟩ := hm.createDirAll ⟨c.name, hc.name⟩
  obtain ⟨i, h₂, hcreate, -, hm₂⟩ := hm₁.create (v := ⟨c.tag, hc.tag⟩) hdir c.digest
  have hdirEq : c.tagDir = (TagRegistry.ofRoot c.storageRoot).tagsDir ++ [⟨c.name, hc.name⟩] := by
    rw [hc.tagDir_eq, List.append_assoc]
    rfl
  have hfileEq : c.tagDir.join c.tag =
      (TagRegistry.ofRoot c.storageRoot).tagsDir ++ [⟨c.name, hc.name⟩, ⟨c.tag, hc.tag⟩] := by
    rw [hc.tagFile_eq, List.append_assoc]
    rfl
  refine ⟨hc.wellFormed_writeTag hw, ?_⟩
  rw [ArtifactCommit.writeTag, hfileEq, hdirEq, Fs.run_createDirAll, hok]
  dsimp only
  rw [perform_bind, run_call, Fs.exec, Fs.write, hcreate]
  exact hm₂

theorem keepsRegistry_writeTag :
    KeepsRegistry c.storageRoot (fun n v => n.text = c.name ∧ v.text = c.tag) c.writeTag := by
  intro h m hw hm
  obtain ⟨hw', hm'⟩ := hc.holds_writeTag hw hm
  exact ⟨_, hw', hm', Entries.extends_set hc.digest ⟨rfl, rfl⟩⟩

theorem leaves_rename : Leaves c.storageRoot Dir.tags (rename c.stagePath c.casDest) :=
  .of_only (only_perform (hc.inArea_rename.spare (by decide))) fun _ => only_perform trivial

theorem leaves_linkBlob : Leaves c.storageRoot Dir.tags c.linkBlob :=
  .of_only (hc.inArea_linkBlob.mono fun _ ho => ho.spare (by decide))
    fun _ => only_linkBlob trivial trivial trivial trivial

theorem keepsRegistry_commitArtifact :
    KeepsRegistry c.storageRoot (fun n v => n.text = c.name ∧ v.text = c.tag)
      (commitArtifact c) := by
  apply (KeepsRegistry.of_leaves hc.leaves_rename).bind
  intro r
  rcases r with e | -
  · exact .done _
  apply (KeepsRegistry.of_leaves hc.leaves_linkBlob).bind
  intro _
  apply hc.keepsRegistry_writeTag.bind
  intro r
  rcases r with e | -
  · exact .done _
  · exact .of_leaves (AmongLinks.leaves_tags hc.amongLinks_linkFormat)

/-- A commit together with the staging of its file. -/
theorem keepsRegistry_staged (staged : Bytes) :
    KeepsRegistry c.storageRoot (fun n v => n.text = c.name ∧ v.text = c.tag) (do
      let _ ← write c.stagePath staged
      let _ ← commitArtifact c
      return ()) := by
  obtain ⟨n, hn⟩ := hc.stage
  have hcas : c.storageRoot ++ [Dir.cas] <+: c.stagePath := by
    rw [hn]
    simp
  have hwrite : Leaves c.storageRoot Dir.tags (write c.stagePath staged) := by
    refine .of_only (only_perform ⟨⟨under_root hcas, ?_⟩, ?_⟩) fun _ => only_perform trivial
    · exact not_linkPlace_of_area hcas (by decide) (by decide)
    · exact not_under hcas (by decide)
  exact (KeepsRegistry.of_leaves hwrite).bind fun _ =>
    hc.keepsRegistry_commitArtifact.bind fun _ => .done _

end ArtifactCommit.Valid

namespace Pull.Valid

variable {q : Pull} (hq : q.Valid)

theorem leaves_incomingDir : Leaves q.storageRoot Dir.tags (createDirAll q.incomingDir) :=
  .of_only (only_perform (inArea_incomingDir.spare (by decide))) fun _ => only_perform trivial

include hq

theorem leaves_download (chunks : List (Except String Bytes)) :
    Leaves q.storageRoot Dir.tags (q.download chunks) := by
  refine .of_keeps fun T => Keeps.and (Keeps.of_true (hq.inArea_download.mono fun _ ho =>
    ho.spare (by decide))) (keeps_download trivial ?_ trivial)
  intro i off b hi
  exact hi i rfl

theorem keepsRegistry_finish (sha : Sha256) (bytes : Bytes) :
    KeepsRegistry q.storageRoot (fun n v => n.text = q.name ∧ v.text = q.tag)
      (q.finish sha bytes) := by
  apply (hq.valid_commit (sha.isDigest_hash bytes)).keepsRegistry_commitArtifact.bind
  intro r
  rcases r with e | -
  · exact .done _
  dsimp only
  split
  · exact .done _
  · exact (KeepsRegistry.of_leaves
      (AmongLinks.leaves_tags (hq.amongLinks_commitTokenizer _))).bind fun _ => .done _

theorem keepsRegistry_runPull (sha : Sha256) :
    KeepsRegistry q.storageRoot (fun n v => n.text = q.name ∧ v.text = q.tag) (runPull sha q) := by
  apply (KeepsRegistry.of_reads only_isPresent).bind
  intro present
  split
  · exact .done _
  split
  · exact .done _
  apply (KeepsRegistry.of_leaves leaves_incomingDir).bind
  intro r
  rcases r with e | -
  · exact .done _
  apply (KeepsRegistry.of_leaves (hq.leaves_download _)).bind
  intro r
  rcases r with e | bytes
  · exact .done _
  · exact hq.keepsRegistry_finish sha bytes

end Pull.Valid

/-! ### Imports -/

theorem CasStore.run_new (hw : WellFormed root h) : (new root).run Fs.exec h = (.ok ⟨root⟩, h) := by
  have hincoming : h.createDirAll (mk root).incomingDir = (.ok (), h) := by
    apply hw.createDirAll_of_base
    rw [incomingDir_eq]
    simp [baseDirs]
  rw [new, Fs.run_createDirAll, hw.createDirAll_blobsDir]
  dsimp only
  rw [Fs.run_createDirAll, hincoming]
  rfl

theorem TagRegistry.run_new (hw : WellFormed root h) :
    (new root).run Fs.exec h = (.ok (ofRoot root), h) := by
  have htags : h.createDirAll (root ++ [Dir.tags]) = (.ok (), h) :=
    hw.createDirAll_of_base (by simp [baseDirs])
  rw [new, Path.join_name _ Dir.tags, Fs.run_createDirAll, htags]
  rfl

theorem keepsRegistry_storeImport {sha : Sha256} {pid : Pid} {reader : Reader}
    {tag : Option String} : KeepsRegistry root Segments
      (storeImport sha ⟨root⟩ (TagRegistry.ofRoot root) pid reader tag) := by
  apply (KeepsRegistry.of_leaves (CasStore.leaves_storeBlob (by decide))).bind
  intro r
  rcases r with e | ⟨digest, -⟩
  · exact .done _
  dsimp only
  split
  · exact .done _
  · exact TagRegistry.keepsRegistry_setTag

theorem keepsRegistry_runImport {sha : Sha256} {chunking : Chunking} {pid : Pid} {source : Path}
    {tag : Option String} :
    KeepsRegistry root Segments (runImport sha chunking root pid source tag) := by
  refine KeepsRegistry.perform trivial fun isSource => ?_
  split
  · exact .done _
  split
  · exact .done _
  apply KeepsRegistry.bind_of_run fun _ hw => CasStore.run_new hw
  apply KeepsRegistry.bind_of_run fun _ hw => TagRegistry.run_new hw
  refine KeepsRegistry.perform trivial fun r => ?_
  rcases r with e | file
  · exact .done _
  refine KeepsRegistry.perform trivial fun head => ?_
  split
  · exact .done _
  refine KeepsRegistry.perform trivial fun whole => ?_
  apply keepsRegistry_storeImport.bind
  intro r
  cases r <;> exact .done _

/-! ### Runs -/

variable {inst : Installation} {o : Operation}

namespace Operation

/-- The names that an operation may write in the registry. -/
def MayName : Operation → Name → Name → Prop
  | call _ | importFile .. => Segments
  | store .. => fun _ _ => False
  | pull q => fun n v => n.text = q.name ∧ v.text = q.tag
  | commit _ c => fun n v => n.text = c.name ∧ v.text = c.tag

/-- One operation. -/
theorem Valid.keepsRegistry (ho : o.Valid inst.root) :
    KeepsRegistry inst.root o.MayName (o.program inst) := by
  cases o with
  | call c => exact (keepsRegistry_dispatchCall c).bind fun _ => .done _
  | store pid reader expected =>
    exact (KeepsRegistry.of_leaves (CasStore.leaves_storeBlob (by decide))).bind fun _ => .done _
  | pull q =>
    obtain ⟨hroot, hq⟩ := ho
    rw [← hroot]
    exact (hq.keepsRegistry_runPull inst.sha).bind fun _ => .done _
  | commit staged c =>
    obtain ⟨hroot, hc⟩ := ho
    rw [← hroot]
    exact hc.keepsRegistry_staged staged
  | importFile chunking pid source tag => exact keepsRegistry_runImport.bind fun _ => .done _

/-- A run of operations. -/
theorem registry_afterAll {ops : List Operation} (hops : ∀ o ∈ ops, o.Valid inst.root)
    (hP : ∀ o ∈ ops, ∀ n v, o.MayName n v → P n v) (hw : WellFormed inst.root h)
    (hm : (TagRegistry.ofRoot inst.root).Holds h m) :
    ∃ m', (TagRegistry.ofRoot inst.root).Holds (afterAll inst ops h) m' ∧
      Entries.Extends P m m' := by
  induction ops generalizing h m with
  | nil => exact ⟨m, hm, .refl⟩
  | cons o ops ih =>
    obtain ⟨m₁, hw₁, hm₁, he₁⟩ := ((hops o (List.mem_cons_self ..)).keepsRegistry.mono
      (hP o (List.mem_cons_self ..))) h m hw hm
    obtain ⟨m₂, hm₂, he₂⟩ := ih (fun o' ho' => hops o' (List.mem_cons_of_mem _ ho'))
      (fun o' ho' => hP o' (List.mem_cons_of_mem _ ho')) hw₁ hm₁
    exact ⟨m₂, hm₂, he₁.trans he₂⟩

end Operation

/-- A registry that was just opened has no tags. -/
theorem holds_openedFs (root : Path) (hardLinks : Bool) (clock : Nat → Nat) :
    (TagRegistry.ofRoot root).Holds (openedFs root hardLinks clock) fun _ _ => none := by
  have hnone : ∀ l : List Name, l ≠ [] →
      (openedFs root hardLinks clock).lookup (root ++ [Dir.tags] ++ l) = none := by
    intro l hl
    apply lookup_openedFs
    intro q hq hpre
    have harea : root ++ [Dir.tags] <+: q := (List.prefix_append _ _).trans hpre
    simp only [openedDirs, List.mem_cons, List.not_mem_nil, or_false] at hq
    rcases hq with rfl | rfl | rfl | rfl
    · exact not_under (x := Dir.cas) (by simp) (by decide) harea
    · exact not_under (x := Dir.cas) (by simp) (by decide) harea
    · have := hpre.length_le
      rw [List.length_append] at this
      exact hl (List.length_eq_zero_iff.1 (by omega))
    · exact not_under (x := Dir.pinned) (by simp) (by decide) harea
  refine ⟨fun q hq => ?_, fun n => .inl (hnone _ (by simp)), fun n v _ => hnone _ (by simp),
    by rintro _ _ _ ⟨⟩, fun n v n' v' i hi _ => ?_⟩
  · rcases List.prefix_concat_iff.1 hq with rfl | hq
    · exact (wellFormed_openedFs ..).base _ (.inr (by simp [baseDirs]))
    · exact (wellFormed_openedFs ..).base q (.inl hq)
  · rw [hnone _ (by simp)] at hi
    cases hi

/-- In every state that valid operations reach the registry is a map of names to digests. -/
theorem Reachable.exists_holds (hh : Reachable inst h) :
    ∃ m, (TagRegistry.ofRoot inst.root).Holds h m ∧ ∀ n v d, m n v = some d → IsDigest d := by
  obtain ⟨hardLinks, clock, ops, hops, rfl⟩ := hh
  obtain ⟨m, hm, he⟩ := Operation.registry_afterAll (P := fun _ _ => True) hops
    (fun _ _ _ _ _ => trivial) (wellFormed_openedFs ..) (holds_openedFs ..)
  refine ⟨m, hm, fun n v d hd => ?_⟩
  rcases he n v d hd with hnone | ⟨hdigest, -⟩
  · cases hnone
  · exact hdigest

end Modeld
