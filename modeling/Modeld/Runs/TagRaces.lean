import Modeld.Host.Pool
import Modeld.Runs.Identifiers

/-!
# Tags while they are written

`set_tag` truncates the file of the tag before it writes the digest. Lookups in between read an empty
file, and one that stays empty when the writer goes no further. Where no lookup reads then, lookups
find digests that were set, in whatever order the steps of all calls come.
-/

namespace Modeld

open Host Program

/-! ### Calls on one tag -/

/-- A call on one tag. -/
inductive TagTask
  | set (digest : String)
  | get
  | resolve (identifier : String)

/-- What a call returns: a writer nothing, a lookup what it found. -/
abbrev TagResult := Except ModeldError Unit ⊕ Except ModeldError (Option String)

namespace TagTask

/-- The call, for a name and a tag. -/
def program (t : TagRegistry) (name tag : String) : TagTask → Io TagResult
  | set digest => do return .inl (← t.setTag name tag digest)
  | get => do return .inr (← t.getTag name tag)
  | resolve identifier => do return .inr (← t.resolve identifier)

/-- An identifier to resolve is one of this name and tag, and has not the form of a digest. -/
def On (name tag : String) : TagTask → Prop
  | resolve identifier =>
    ¬ IsHex (Text.trim identifier) ∧ identifierParts (Text.trim identifier) = (name, tag)
  | _ => True

end TagTask

/-- All calls, from a state of the registry. -/
def tagPool {ι : Type} (root : Path) (tasks : ι → TagTask) (name tag : String) (h : Fs) :
    Pool ι Fs Reply TagResult where
  state := h
  threads i := (tasks i).program (.ofRoot root) name tag

theorem TagRegistry.resolve_eq {t : TagRegistry} {name tag identifier : String}
    (h : (TagTask.resolve identifier).On name tag) : t.resolve identifier = t.getTag name tag := by
  obtain ⟨hhex, hparts⟩ := h
  have hbool : ¬ (decide ((Text.trim identifier).toList.length = 64) &&
      (Text.trim identifier).toList.all isHexDigit) = true := by
    simpa [IsHex] using hhex
  have hsplit : (Text.splitOnce ':' (Text.trim identifier)).getD (Text.trim identifier, "latest") =
      (name, tag) := hparts
  unfold resolve getTag
  dsimp only
  rw [if_neg hbool, hsplit]
  dsimp only
  cases hname : validateTagSegment name with
  | error e => rfl
  | ok a =>
    cases htag : validateTagSegment tag with
    | error e => rfl
    | ok b => rfl

/-! ### What was set so far -/

section

variable {ι : Type}

/-- A tag was created, or emptied. -/
def Truncates : Event ι Reply → Prop
  | ⟨_, .create _, .ok _⟩ => True
  | _ => False

/-- The last that was done to the tag was to empty it. -/
def Truncated : List (Event ι Reply) → Bool
  | [] => false
  | ⟨_, .create _, .ok _⟩ :: _ => true
  | ⟨_, .writeAt .., _⟩ :: _ => false
  | _ :: hist => Truncated hist

/-- No call reads the tag while it is empty. -/
def WholeReads : Condition ι Fs Reply := fun _ hist _ o => ∀ k, o = .read k → ¬ Truncated hist

instance (s : Fs) (hist : List (Event ι Reply)) (i : ι) :
    (o : Call) → Decidable (WholeReads s hist i o)
  | .read k => decidable_of_iff (¬ Truncated hist) ⟨fun h _ _ => h, fun h => h k rfl⟩
  | .isFile _ | .isDir _ | .pathExists _ | .canonicalize _ | .metadata _ | .readDir _ | .openFile _
  | .create _ | .writeAt .. | .write .. | .rename .. | .removeFile _ | .hardLink .. | .copy ..
  | .symlink .. | .createDirAll _ | .fetchAdd _ => isTrue nofun

/-- The file of a tag. -/
def tagFile (root : Path) (name tag : String) : Path :=
  ((TagRegistry.ofRoot root).tagsDir.join name).join tag

/-- The digest was passed to a call, or was there before. -/
def WasSet (root : Path) (tasks : ι → TagTask) (name tag : String) (h : Fs) (d : String) : Prop :=
  (∃ j x, tasks j = .set x ∧ Text.trim x = d) ∨
    h.contents (tagFile root name tag) = some (Text.toBytes d)

/-- The tag was not there before, and not yet when call `i` looked for it. -/
def Missed (root : Path) (name tag : String) (h : Fs) (i : ι) (hist : List (Event ι Reply)) : Prop :=
  h.isFile (tagFile root name tag) = false ∧ ∃ newer older,
    hist = newer ++ ⟨i, .isFile (tagFile root name tag), false⟩ :: older ∧
    ∀ e ∈ older, ¬ Truncates e

/-- What a lookup may find. -/
def MayFind (root : Path) (tasks : ι → TagTask) (name tag : String) (h : Fs) (i : ι)
    (hist : List (Event ι Reply)) : Option String → Prop
  | some d => IsDigest d ∧ WasSet root tasks name tag h d
  | none => Missed root name tag h i hist

end

/-! ### The invariant -/

namespace TagTask

variable {ι : Type} {root : Path} {tasks : ι → TagTask} {n v : Name} {h s s' : Fs} {m : Entries}
  {hist : List (Event ι Reply)} {i : ι} {γ : ι → Stage}

/-- How far a call has come. -/
inductive Stage
  | start
  | inDir
  | holding (file : Ino)
  | missed

/-- What a call knows at its stage. -/
def Stage.Knows (root : Path) (n v : Name) (h : Fs) (i : ι) :
    Stage → Fs → List (Event ι Reply) → Prop
  | start, _, _ => True
  | inDir, s, _ => s.lookup ((TagRegistry.ofRoot root).tagsDir ++ [n]) = some .dir
  | holding k, s, _ => s.lookup ((TagRegistry.ofRoot root).tagsDir ++ [n, v]) = some (.file k)
  | missed, _, hist => Missed root n.text v.text h i hist

/-- What the tag holds: a digest that was set, or nothing at all while it is being written. -/
structure Content (root : Path) (tasks : ι → TagTask) (n v : Name) (h : Fs) (m : Entries)
    (x : Option String) (s : Fs) (hist : List (Event ι Reply)) : Prop where
  holds : (TagRegistry.ofRoot root).Holds s (m.set n v x)
  absent : x = none → m n v = none ∧ ∀ e ∈ hist, ¬ Truncates e
  present : ∀ d, x = some d → (d = "" ∧ Truncated hist) ∨
    (IsDigest d ∧ WasSet root tasks n.text v.text h d)

/-- What holds while the calls are at their stages. -/
structure Inv (root : Path) (tasks : ι → TagTask) (n v : Name) (h : Fs) (m : Entries)
    (γ : ι → Stage) (s : Fs) (hist : List (Event ι Reply)) : Prop where
  content : ∃ x, Content root tasks n v h m x s hist
  knows : ∀ i, (γ i).Knows root n v h i s hist

theorem missed_cons (hi : Missed root n.text v.text h i hist) (e : Event ι Reply) :
    Missed root n.text v.text h i (e :: hist) := by
  obtain ⟨hnone, newer, older, rfl, holder⟩ := hi
  exact ⟨hnone, e :: newer, older, rfl, holder⟩

/-- What a call knows stays true as long as nothing is removed. -/
theorem Stage.Knows.step {g : Stage} (hg : g.Knows root n v h i s hist)
    (hkeep : ∀ q e, s.lookup q = some e → s'.lookup q = some e) (e : Event ι Reply) :
    g.Knows root n v h i s' (e :: hist) := by
  cases g with
  | start => trivial
  | inDir => exact hkeep _ _ hg
  | holding k => exact hkeep _ _ hg
  | missed => exact missed_cons hg e

variable [DecidableEq ι]

/-- One step of call `i`. -/
theorem Inv.step (hInv : Inv root tasks n v h m γ s hist) {x : Option String} {e : Event ι Reply}
    (hcontent : Content root tasks n v h m x s' (e :: hist))
    (hkeep : ∀ q e, s.lookup q = some e → s'.lookup q = some e) {g : Stage}
    (hg : g.Knows root n v h i s' (e :: hist)) :
    Inv root tasks n v h m (Function.update γ i g) s' (e :: hist) := by
  refine ⟨⟨x, hcontent⟩, fun j => ?_⟩
  rcases eq_or_ne j i with rfl | hji
  · rw [Function.update_self]
    exact hg
  · rw [Function.update_of_ne hji]
    exact (hInv.knows j).step hkeep e

omit [DecidableEq ι] in
/-- A call that neither creates a file nor writes one. -/
theorem Content.quiet {x : Option String} (hc : Content root tasks n v h m x s hist)
    (hholds : (TagRegistry.ofRoot root).Holds s' (m.set n v x)) {o : Call} (r : Reply o)
    (hcreate : ∀ p, o ≠ .create p) (hwrite : ∀ k off b, o ≠ .writeAt k off b) :
    Content root tasks n v h m x s' (⟨i, o, r⟩ :: hist) := by
  have htruncates : ¬ Truncates (⟨i, o, r⟩ : Event ι Reply) := by
    cases o with
    | create p => exact absurd rfl (hcreate p)
    | _ => exact id
  have htruncated : Truncated (⟨i, o, r⟩ :: hist) = Truncated hist := by
    cases o with
    | create p => exact absurd rfl (hcreate p)
    | writeAt k off b => exact absurd rfl (hwrite k off b)
    | _ => rfl
  refine ⟨hholds, fun hx => ⟨(hc.absent hx).1, fun e he => ?_⟩, fun d hd => ?_⟩
  · rcases List.mem_cons.1 he with rfl | he
    · exact htruncates
    · exact (hc.absent hx).2 e he
  · rw [htruncated]
    exact hc.present d hd

/-- A call that only reads. -/
theorem Inv.read (hInv : Inv root tasks n v h m γ s hist) {o : Call} (ho : Reads o) (r : Reply o)
    {g : Stage} (hg : g.Knows root n v h i s (⟨i, o, r⟩ :: hist)) :
    Inv root tasks n v h m (Function.update γ i g) s (⟨i, o, r⟩ :: hist) := by
  obtain ⟨x, hc⟩ := hInv.content
  refine hInv.step (hc.quiet hc.holds r ?_ ?_) (fun _ _ => id) hg
  · rintro p rfl
    exact ho
  · rintro k off b rfl
    exact ho

/-- The directory of the model is made. -/
theorem Inv.createDirAll (hInv : Inv root tasks n v h m γ s hist) {r : Except IoError Unit}
    (hs : Fs.exec (.createDirAll ((TagRegistry.ofRoot root).tagsDir ++ [n])) s = (r, s')) :
    Inv root tasks n v h m (Function.update γ i .inDir) s'
      (⟨i, .createDirAll ((TagRegistry.ofRoot root).tagsDir ++ [n]), r⟩ :: hist) := by
  obtain ⟨x, hc⟩ := hInv.content
  obtain ⟨-, hholds, hdir⟩ := hc.holds.createDirAll n
  obtain rfl : (s.createDirAll ((TagRegistry.ofRoot root).tagsDir ++ [n])).2 = s' :=
    congrArg Prod.snd hs
  obtain ⟨hspec, -, -⟩ := Fs.makeDirs_spec [] ((TagRegistry.ofRoot root).tagsDir ++ [n]) s
  have hcontent := hc.quiet (i := i) (o := .createDirAll ((TagRegistry.ofRoot root).tagsDir ++ [n]))
    hholds r (fun _ => nofun) (fun _ _ _ => nofun)
  refine hInv.step hcontent (fun q e he => ?_) (g := .inDir) hdir
  rcases hspec q with hsame | ⟨hnone, -⟩
  · exact hsame.trans he
  · rw [hnone] at he
    cases he

/-- The file of the tag is created, or emptied. -/
theorem Inv.create (hInv : Inv root tasks n v h m γ s hist) (hi : γ i = .inDir)
    {r : Except IoError Ino}
    (hs : Fs.exec (.create ((TagRegistry.ofRoot root).tagsDir ++ [n, v])) s = (r, s')) :
    ∃ k, r = .ok k ∧ Inv root tasks n v h m (Function.update γ i (.holding k)) s'
      (⟨i, .create ((TagRegistry.ofRoot root).tagsDir ++ [n, v]), r⟩ :: hist) := by
  obtain ⟨x, hc⟩ := hInv.content
  have hdir := hInv.knows i
  rw [hi] at hdir
  obtain ⟨k, s₁, hcreate, hself, hholds⟩ := hc.holds.truncate (v := v) hdir
  obtain ⟨rfl, rfl⟩ := Prod.mk.inj (hs.symm.trans hcreate)
  rw [Entries.set_set] at hholds
  refine ⟨k, rfl, hInv.step (x := some "") ⟨hholds, nofun, fun d hd => .inl ?_⟩ (fun q e he => ?_)
    hself⟩
  · exact ⟨(Option.some.inj hd).symm, rfl⟩
  · have hkept := Fs.lookup_create_of_some (p := (TagRegistry.ofRoot root).tagsDir ++ [n, v]) he
    rwa [hcreate] at hkept

/-- A digest is written over what the file of the tag holds. -/
theorem Inv.writeAt (hInv : Inv root tasks n v h m γ s hist) {k : Ino} (hi : γ i = .holding k)
    {d : String} (hd : IsDigest d) (hset : WasSet root tasks n.text v.text h d)
    (r : Except IoError Unit) :
    Inv root tasks n v h m γ (s.writeAt k 0 (Text.toBytes d))
      (⟨i, .writeAt k 0 (Text.toBytes d), r⟩ :: hist) := by
  obtain ⟨x, hc⟩ := hInv.content
  have hfile := hInv.knows i
  rw [hi] at hfile
  have hlen : (s.data k).length ≤ (Text.toBytes d).length := by
    obtain ⟨e, he, hbytes, -⟩ := hc.holds.of_file hfile
    rw [hbytes, hd.length_toBytes]
    rcases hc.present e (by simpa using he) with ⟨rfl, -⟩ | ⟨he, -⟩
    · decide
    · rw [he.length_toBytes]
  have hholds := hc.holds.overwrite (d := d) hfile hlen
  rw [Entries.set_set] at hholds
  have hcontent : Content root tasks n v h m (some d) (s.writeAt k 0 (Text.toBytes d))
      (⟨i, .writeAt k 0 (Text.toBytes d), r⟩ :: hist) := by
    refine ⟨hholds, nofun, fun e he => .inr ?_⟩
    obtain rfl := Option.some.inj he
    exact ⟨hd, hset⟩
  have hkeep : ∀ q e, s.lookup q = some e → (s.writeAt k 0 (Text.toBytes d)).lookup q = some e :=
    fun _ _ => id
  have hstep := hInv.step hcontent hkeep ((hInv.knows i).step hkeep _)
  rwa [Function.update_eq_self] at hstep

/-! ### One call in any company -/

variable (root tasks n v h m) in
/-- A program of call `i`, in any company. -/
private abbrev Runs {α : Type} (i : ι) (p : Io α) (Q : α → Stage → Prop) (g : Stage) : Prop :=
  Pool.Outline Fs.reliable WholeReads (Inv root tasks n v h m) (fun _ _ _ _ => True) i p Q g

private theorem runs_setTag (hn : IsSegment n.text) (hv : IsSegment v.text) {x : String}
    (hi : tasks i = .set x) : Runs root tasks n v h m i
      ((TagRegistry.ofRoot root).setTag n.text v.text x) (fun _ _ => True) .start := by
  unfold TagRegistry.setTag
  rw [validateTagSegment_eq_ok.2 ⟨rfl, hn⟩, validateTagSegment_eq_ok.2 ⟨rfl, hv⟩]
  dsimp only
  by_cases hd : IsDigest (Text.trim x)
  swap
  · obtain ⟨msg, hmsg⟩ := validateDigestFormat_of_not_isDigest hd
    rw [hmsg]
    exact (Pool.outline_done _).2 trivial
  rw [validateDigestFormat_of_isDigest hd]
  dsimp only
  rw [TagRegistry.writeTag, TagRegistry.tagPath_eq _ hn.1 hv.1, TagRegistry.modelDir_eq _ hn.1]
  refine Pool.Outline.perform fun γ s hist hγ hInv => ⟨trivial, fun r s' _ hs => ?_⟩
  refine ⟨.inDir, hInv.createDirAll hs, ?_⟩
  rcases r with e | -
  · exact (Pool.outline_done _).2 trivial
  refine Pool.Outline.perform fun γ s hist hγ hInv => ⟨trivial, fun r s' _ hs => ?_⟩
  obtain ⟨k, rfl, hInv'⟩ := hInv.create hγ hs
  refine ⟨.holding k, hInv', ?_⟩
  refine Pool.Outline.perform fun γ s hist hγ hInv => ⟨trivial, fun r s' _ hs => ?_⟩
  obtain rfl : s.writeAt k 0 (Text.toBytes (Text.trim x)) = s' := congrArg Prod.snd hs
  refine ⟨.holding k, ?_, ?_⟩
  · rw [← hγ, Function.update_eq_self]
    exact hInv.writeAt hγ hd (.inl ⟨i, x, hi, rfl⟩) r
  · rcases r with e | - <;> exact (Pool.outline_done _).2 trivial

/-- What a lookup has found when it is done. -/
def Found (root : Path) (tasks : ι → TagTask) (n v : Name) (h : Fs) :
    Except ModeldError (Option String) → Stage → Prop
  | .ok (some d), _ => IsDigest d ∧ WasSet root tasks n.text v.text h d
  | .ok none, g => g = .missed
  | .error _, _ => True

private theorem runs_getTag (hn : IsSegment n.text) (hv : IsSegment v.text)
    (hm : (TagRegistry.ofRoot root).Holds h m) : Runs root tasks n v h m i
      ((TagRegistry.ofRoot root).getTag n.text v.text) (Found root tasks n v h) .start := by
  have hpath : tagFile root n.text v.text = (TagRegistry.ofRoot root).tagsDir ++ [n, v] :=
    TagRegistry.tagPath_eq _ hn.1 hv.1
  unfold TagRegistry.getTag
  rw [validateTagSegment_eq_ok.2 ⟨rfl, hn⟩, validateTagSegment_eq_ok.2 ⟨rfl, hv⟩]
  dsimp only
  change Runs root tasks n v h m i (TagRegistry.readTag (tagFile root n.text v.text)) _ _
  rw [hpath, TagRegistry.readTag]
  refine Pool.Outline.perform fun γ s hist hγ hInv => ⟨trivial, fun r s' _ hs => ?_⟩
  obtain ⟨rfl, rfl⟩ := Prod.mk.inj hs
  cases hfile : s.isFile ((TagRegistry.ofRoot root).tagsDir ++ [n, v]) with
  | false =>
    -- There was no file, so nothing has been created and nothing was there before.
    refine ⟨.missed, hInv.read (o := .isFile _) trivial _ ?_, (Pool.outline_done _).2 rfl⟩
    obtain ⟨x, hc⟩ := hInv.content
    cases x with
    | some d =>
      obtain ⟨-, k, hk, -⟩ := hc.holds.present n v d (by simp)
      rw [Fs.isFile, Fs.fileAt_of_lookup hk] at hfile
      cases hfile
    | none =>
      obtain ⟨habsent, hquiet⟩ := hc.absent rfl
      refine ⟨?_, [], hist, by rw [hpath]; rfl, hquiet⟩
      rw [hpath, Fs.isFile, Fs.fileAt_of_lookup_none (hm.absent n v habsent)]
      rfl
  | true =>
    refine ⟨.start, hInv.read (o := .isFile _) trivial _ trivial, ?_⟩
    simp only [Bool.not_true, Bool.false_eq_true, if_false]
    refine Pool.Outline.perform fun γ s hist hγ hInv => ⟨trivial, fun r s' _ hs => ?_⟩
    obtain ⟨rfl, rfl⟩ := Prod.mk.inj hs
    rcases hopen : s.openFile ((TagRegistry.ofRoot root).tagsDir ++ [n, v]) with e | k
    · exact ⟨.start, hInv.read (o := .openFile _) trivial _ trivial, (Pool.outline_done _).2 trivial⟩
    have hk : s.lookup ((TagRegistry.ofRoot root).tagsDir ++ [n, v]) = some (.file k) := by
      obtain ⟨x, hc⟩ := hInv.content
      rw [Fs.openFile, hc.holds.final_eq] at hopen
      split at hopen <;> cases hopen
      assumption
    refine ⟨.holding k, hInv.read (o := .openFile _) trivial _ hk, ?_⟩
    refine Pool.Outline.perform fun γ s hist hγ hInv => ⟨trivial, fun r s' hallowed hs => ?_⟩
    obtain ⟨rfl, rfl⟩ := Prod.mk.inj hs
    have hk := hInv.knows i
    rw [hγ] at hk
    obtain ⟨x, hc⟩ := hInv.content
    obtain ⟨d, hx, hbytes, -⟩ := hc.holds.of_file hk
    rw [Entries.set_self] at hx
    obtain ⟨hd, hset⟩ := (hc.present d hx).resolve_left fun hempty => hallowed k rfl hempty.2
    refine ⟨.holding k, hInv.read (o := .read _) trivial _ hk, ?_⟩
    dsimp only
    rw [hbytes, Text.ofBytes?_toBytes]
    dsimp only
    rw [hd.trim_eq]
    exact (Pool.outline_done _).2 ⟨hd, hset⟩

variable (root tasks n v h) in
/-- What a call has returned. -/
def Returned : TagResult → Stage → Prop
  | .inl _, _ => True
  | .inr r, g => Found root tasks n v h r g

private theorem runs_program (hn : IsSegment n.text) (hv : IsSegment v.text)
    (hm : (TagRegistry.ofRoot root).Holds h m) (hon : (tasks i).On n.text v.text) :
    Runs root tasks n v h m i ((tasks i).program (.ofRoot root) n.text v.text)
      (Returned root tasks n v h) .start := by
  cases hi : tasks i with
  | set x =>
    exact (runs_setTag hn hv hi).bind fun r g _ => (Pool.outline_done _).2 trivial
  | get =>
    exact (runs_getTag hn hv hm).bind fun r g hr => (Pool.outline_done _).2 hr
  | resolve identifier =>
    rw [hi] at hon
    rw [program, TagRegistry.resolve_eq hon]
    exact (runs_getTag hn hv hm).bind fun r g hr => (Pool.outline_done _).2 hr

omit [DecidableEq ι] in
/-- Before the calls the tag holds what it holds. -/
private theorem inv_start (hn : IsSegment n.text) (hv : IsSegment v.text)
    (hm : (TagRegistry.ofRoot root).Holds h m) (hdigest : ∀ n v d, m n v = some d → IsDigest d) :
    Inv root tasks n v h m (fun _ => .start) h [] := by
  refine ⟨⟨m n v, ?_, fun hnone => ⟨hnone, nofun⟩, fun d hd => .inr ⟨hdigest n v d hd, .inr ?_⟩⟩,
    fun _ => trivial⟩
  · rw [Entries.set_eq_self rfl]
    exact hm
  · obtain ⟨-, k, hk, -, hbytes⟩ := hm.present n v d hd
    have hpath : tagFile root n.text v.text = (TagRegistry.ofRoot root).tagsDir ++ [n, v] :=
      TagRegistry.tagPath_eq _ hn.1 hv.1
    rw [hpath, Fs.contents, Fs.fileAt_of_lookup hk, Option.map_some, hbytes]

/-- Names that the registry refuses: no call does anything. -/
private theorem refused {name tag : String} (hbad : ¬ (IsSegment name ∧ IsSegment tag))
    {task : TagTask} (hon : task.On name tag) (t : TagRegistry) :
    ∃ r, task.program t name tag = .done r ∧ ∀ d, r ≠ .inr (.ok d) := by
  have hget : ∃ e, t.getTag name tag = .done (.error e) := by
    unfold TagRegistry.getTag
    rcases validateTagSegment_cases name with ⟨hname, h1⟩ | ⟨-, msg, h1⟩
    · rcases validateTagSegment_cases tag with ⟨htag, -⟩ | ⟨-, msg, h2⟩
      · exact absurd ⟨hname, htag⟩ hbad
      · rw [h1, h2]
        exact ⟨_, rfl⟩
    · rw [h1]
      exact ⟨_, rfl⟩
  obtain ⟨e, hget⟩ := hget
  cases task with
  | set x =>
    have hset : ∃ e, t.setTag name tag x = .done (.error e) := by
      unfold TagRegistry.setTag
      rcases validateTagSegment_cases name with ⟨hname, h1⟩ | ⟨-, msg, h1⟩
      · rcases validateTagSegment_cases tag with ⟨htag, -⟩ | ⟨-, msg, h2⟩
        · exact absurd ⟨hname, htag⟩ hbad
        · rw [h1, h2]
          exact ⟨_, rfl⟩
      · rw [h1]
        exact ⟨_, rfl⟩
    obtain ⟨e, hset⟩ := hset
    exact ⟨.inl (.error e), by rw [program, hset]; rfl, nofun⟩
  | get => exact ⟨.inr (.error e), by rw [program, hget]; rfl, nofun⟩
  | resolve identifier =>
    exact ⟨.inr (.error e), by rw [program, TagRegistry.resolve_eq hon, hget]; rfl, nofun⟩

end TagTask

/-- In every reachable state and every order of steps in which no call reads the tag while it is
empty, a lookup finds a digest that was set, and misses only a tag that nothing had created. -/
theorem lookups_find_what_was_set (inst : Installation) (h : Fs) (hh : Reachable inst h) {ι : Type}
    [DecidableEq ι] (tasks : ι → TagTask) (name tag : String) (hon : ∀ i, (tasks i).On name tag)
    (pool : Pool ι Fs Reply TagResult)
    (hrun : Pool.Steps Fs.reliable WholeReads (tagPool inst.root tasks name tag h) pool) (i : ι)
    (found : Option String) (hi : pool.threads i = .done (.inr (.ok found))) :
    MayFind inst.root tasks name tag h i pool.history found := by
  by_cases hsegments : IsSegment name ∧ IsSegment tag
  swap
  · obtain ⟨r, hr, hne⟩ := TagTask.refused hsegments (hon i) (.ofRoot inst.root)
    have hdone := hrun.done_stable (i := i) hr
    rw [hi] at hdone
    cases hdone
    exact absurd rfl (hne found)
  obtain ⟨hname, htag⟩ := hsegments
  obtain ⟨m, hm, hdigest⟩ := hh.exists_holds
  have hstart : Pool.Outlined Fs.reliable WholeReads
      (TagTask.Inv inst.root tasks ⟨name, hname.1⟩ ⟨tag, htag.1⟩ h m) (fun _ _ _ _ => True)
      (fun _ => TagTask.Returned inst.root tasks ⟨name, hname.1⟩ ⟨tag, htag.1⟩ h)
      (tagPool inst.root tasks name tag h) :=
    ⟨fun _ => .start, TagTask.inv_start hname htag hm hdigest,
      fun j => TagTask.runs_program hname htag hm (hon j)⟩
  obtain ⟨γ, hInv, hthreads⟩ := hrun.outlined hstart
  have hdone := hthreads i
  rw [hi, Pool.outline_done] at hdone
  cases found with
  | some d => exact hdone
  | none =>
    have hmissed := hInv.knows i
    rwa [show γ i = .missed from hdone] at hmissed

/-! ### Sample calls -/

/-- A writer and a reader. -/
def sampleTasks : Bool → TagTask
  | false => .set digestEmpty
  | true => .get

/-- The writer writes, and then the reader reads. -/
theorem sample_lookup_finds : ∃ pool, Pool.Steps Fs.reliable WholeReads
      (tagPool sampleRoot sampleTasks "n" "latest" (sampleFs true)) pool ∧
    pool.threads true = .done (.inr (.ok (some digestEmpty))) ∧
    MayFind sampleRoot sampleTasks "n" "latest" (sampleFs true) true pool.history
      (some digestEmpty) := by
  have hvalue : ((Pool.follow Fs.exec WholeReads [false, false, false, true, true, true]
      (tagPool sampleRoot sampleTasks "n" "latest" (sampleFs true))).bind
        fun pool => (pool.threads true).value?) = some (.inr (.ok (some digestEmpty))) := by
    decide +kernel
  obtain ⟨pool, hpool, hdone⟩ := Option.bind_eq_some_iff.1 hvalue
  have hrun := Pool.steps_of_follow hpool
  rw [value?_eq_some] at hdone
  exact ⟨pool, hrun, hdone, lookups_find_what_was_set sampleInstallation (sampleFs true)
    (reachable_openedFs true id) sampleTasks "n" "latest" (by rintro (_ | _) <;> trivial) pool hrun
    true (some digestEmpty) hdone⟩

/-- A reader between the two steps of a writer finds a tag that was set to be empty. -/
theorem sample_empty_tag_found : Reachable sampleInstallation sampleNamed ∧
    (∀ i, (sampleTasks i).On "n" "latest") ∧
    sampleNamed.contents (tagFile sampleRoot "n" "latest") = some (Text.toBytes digestEmpty) ∧
    ∃ pool, Pool.Steps Fs.reliable (fun _ _ _ _ => True)
      (tagPool sampleRoot sampleTasks "n" "latest" sampleNamed) pool ∧
      pool.threads true = .done (.inr (.ok (some ""))) ∧ ¬ IsDigest "" := by
  have hvalue : ((Pool.follow Fs.exec (fun _ _ _ _ => True) [false, false, true, true, true]
      (tagPool sampleRoot sampleTasks "n" "latest" sampleNamed)).bind
        fun pool => (pool.threads true).value?) = some (.inr (.ok (some ""))) := by
    decide +kernel
  obtain ⟨pool, hpool, hdone⟩ := Option.bind_eq_some_iff.1 hvalue
  rw [value?_eq_some] at hdone
  exact ⟨⟨true, id, _, by simp [Operation.Valid], rfl⟩, by rintro (_ | _) <;> trivial,
    by decide +kernel, pool, Pool.steps_of_follow hpool, hdone, by decide⟩

end Modeld
