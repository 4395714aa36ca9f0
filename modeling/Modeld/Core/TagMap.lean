import Modeld.Core.Opening
import Modeld.Core.TagListing

/-!
# The registry refines a finite map

What the tag registry is for: a finite map from names and tags to digests. Runs of calls on a registry
return what the same calls on the map return.
-/

namespace Modeld

open Host Program

/-! ### The map -/

/-- A call on the registry. -/
inductive TagCall
  | set (name tag digest : String)
  | remove (name tag : String)
  | get (name tag : String)
  | list

/-- What a call returns. -/
inductive TagReply
  | done
  | removed (present : Bool)
  | found (digest : Option String)
  | listed (tags : List ModelTag)
  /-- The arguments are refused. -/
  | refused
  /-- The file system failed. -/
  | failed
deriving DecidableEq

/-- A finite map from names and tags to digests. -/
abbrev TagMap := AList fun _ : String × String => String

namespace TagMap

/-- Its entries, in the order of names and tags. -/
def listing (m : TagMap) : List ModelTag :=
  (m.entries.map fun e => ⟨e.1.1, e.1.2, e.2⟩).insertionSort TagRegistry.TagLe

/-- One call on the map. -/
def step (m : TagMap) : TagCall → TagReply × TagMap
  | .set name tag digest =>
    if IsSegment name ∧ IsSegment tag ∧ IsDigest (Text.trim digest) then
      (.done, m.insert (name, tag) (Text.trim digest))
    else (.refused, m)
  | .remove name tag =>
    if IsSegment name ∧ IsSegment tag then
      (.removed (m.lookup (name, tag)).isSome, m.erase (name, tag))
    else (.refused, m)
  | .get name tag =>
    if IsSegment name ∧ IsSegment tag then (.found (m.lookup (name, tag)), m) else (.refused, m)
  | .list => (.listed m.listing, m)

/-- A run of calls on the map. -/
def stepAll (m : TagMap) : List TagCall → List TagReply × TagMap
  | [] => ([], m)
  | c :: calls => ((m.step c).1 :: ((m.step c).2.stepAll calls).1, ((m.step c).2.stepAll calls).2)

/-- Before in the order of names and tags. -/
def Before (a b : ModelTag) : Prop := a.name < b.name ∨ (a.name = b.name ∧ a.tag < b.tag)

theorem mem_entries_iff {m : TagMap} {x : ModelTag} :
    (x ∈ m.entries.map fun e => (⟨e.1.1, e.1.2, e.2⟩ : ModelTag)) ↔
      m.lookup (x.name, x.tag) = some x.digest := by
  rw [List.mem_map, ← Option.mem_def, AList.mem_lookup_iff]
  constructor
  · rintro ⟨e, he, rfl⟩
    exact he
  · intro hx
    exact ⟨_, hx, rfl⟩

theorem pairwise_entries (m : TagMap) :
    (m.entries.map fun e => (⟨e.1.1, e.1.2, e.2⟩ : ModelTag)).Pairwise
      fun a b => ¬ (a.name = b.name ∧ a.tag = b.tag) := by
  rw [List.pairwise_map]
  refine (List.pairwise_map.1 m.nodupKeys).imp fun hne heq => hne ?_
  exact Prod.ext heq.1 heq.2

/-- Every entry is listed. -/
theorem mem_listing {m : TagMap} {x : ModelTag} :
    x ∈ m.listing ↔ m.lookup (x.name, x.tag) = some x.digest := by
  rw [listing, List.mem_insertionSort]
  exact mem_entries_iff

/-- The list is in strict order, so nothing is listed twice. -/
theorem pairwise_listing (m : TagMap) : m.listing.Pairwise Before := by
  have hsym : Std.Symm fun a b : ModelTag => ¬ (a.name = b.name ∧ a.tag = b.tag) :=
    ⟨fun a b hne heq => hne ⟨heq.1.symm, heq.2.symm⟩⟩
  have hne : m.listing.Pairwise fun a b => ¬ (a.name = b.name ∧ a.tag = b.tag) :=
    ((List.perm_insertionSort _ _).pairwise_iff fun {a b} hab => hsym.symm a b hab).2
      m.pairwise_entries
  refine ((List.pairwise_insertionSort TagRegistry.TagLe _).and hne).imp ?_
  rintro a b ⟨hlt | ⟨heq, hle⟩, hne⟩
  · exact .inl hlt
  · exact .inr ⟨heq, lt_of_le_of_ne hle fun htag => hne ⟨heq, htag⟩⟩

end TagMap

/-! ### The registry -/

/-- The reply for a result. -/
def TagReply.of {α : Type} (reply : α → TagReply) : Except ModeldError α → TagReply
  | .ok a => reply a
  | .error (.invalidFormat _) => .refused
  | .error _ => .failed

namespace TagRegistry

/-- One call. -/
def perform (t : TagRegistry) : TagCall → Io TagReply
  | .set name tag digest => do return .of (fun _ => .done) (← t.setTag name tag digest)
  | .remove name tag => do return .of .removed (← t.removeTag name tag)
  | .get name tag => do return .of .found (← t.getTag name tag)
  | .list => do return .of .listed (← t.listTags)

/-- A run of calls. -/
def performAll (t : TagRegistry) (h : Fs) : List TagCall → List TagReply × Fs
  | [] => ([], h)
  | c :: calls =>
    (((t.perform c).run Fs.exec h).1 :: (t.performAll ((t.perform c).run Fs.exec h).2 calls).1,
      (t.performAll ((t.perform c).run Fs.exec h).2 calls).2)

/-- The entries of the map, under names that are valid segments. -/
def ofMap (m : TagMap) : Entries := fun n v => m.lookup (n.text, v.text)

/-- The registry stands for the map. -/
structure Refines (t : TagRegistry) (h : Fs) (m : TagMap) : Prop where
  holds : Holds t h (ofMap m)
  valid : ∀ k d, m.lookup k = some d → IsSegment k.1 ∧ IsSegment k.2 ∧ IsDigest d

variable {t : TagRegistry} {h : Fs} {m : TagMap}

theorem ofMap_insert {name tag d : String} (hname : PlainName name) (htag : PlainName tag) :
    ofMap (m.insert (name, tag) d) = (ofMap m).set ⟨name, hname⟩ ⟨tag, htag⟩ (some d) := by
  funext n v
  by_cases hnv : n = ⟨name, hname⟩ ∧ v = ⟨tag, htag⟩
  · obtain ⟨rfl, rfl⟩ := hnv
    simp [ofMap, Entries.set]
  · have hne : (n.text, v.text) ≠ (name, tag) := by
      intro heq
      rw [Prod.mk.injEq] at heq
      exact hnv ⟨Name.ext heq.1, Name.ext heq.2⟩
    rw [ofMap, AList.lookup_insert_ne hne, Entries.set, if_neg hnv]
    rfl

theorem ofMap_erase {name tag : String} (hname : PlainName name) (htag : PlainName tag) :
    ofMap (m.erase (name, tag)) = (ofMap m).set ⟨name, hname⟩ ⟨tag, htag⟩ none := by
  funext n v
  by_cases hnv : n = ⟨name, hname⟩ ∧ v = ⟨tag, htag⟩
  · obtain ⟨rfl, rfl⟩ := hnv
    simp [ofMap, Entries.set]
  · have hne : (n.text, v.text) ≠ (name, tag) := by
      intro heq
      rw [Prod.mk.injEq] at heq
      exact hnv ⟨Name.ext heq.1, Name.ext heq.2⟩
    rw [ofMap, AList.lookup_erase_ne hne, Entries.set, if_neg hnv]
    rfl

/-- The list of a registry is that of its map. -/
theorem Refines.run_listTags (hr : Refines t h m) :
    (t.listTags).run Fs.exec h = (.ok m.listing, h) := by
  obtain ⟨entries, hdir⟩ := Fs.exists_readDir (hr.holds.base _ List.prefix_rfl)
  -- Each file stands for an entry, whose name and tag are valid.
  have hget : ∀ (n v : Name) (i : Ino), h.lookup (t.tagsDir ++ [n, v]) = some (.file i) →
      ∃ d, m.lookup (n.text, v.text) = some d ∧ t.getTagAt h n.text v.text = .ok (some d) := by
    intro n v i hi
    obtain ⟨d, hd, -, -, -⟩ := hr.holds.of_file hi
    obtain ⟨hname, htag, hdigest⟩ := hr.valid _ d hd
    refine ⟨d, hd, ?_⟩
    rcases hr.holds.run_getTag n.text v.text with ⟨_, _, hrun⟩ | ⟨hbad, -⟩
    · have hd' : ofMap m ⟨n.text, hname.1⟩ ⟨v.text, htag.1⟩ = some d := hd
      rw [getTagAt, hrun, hd', Option.map_some, hdigest.trim_eq]
    · exact absurd ⟨hname, htag⟩ hbad
  have hread : ∀ e ∈ entries, ReadableModel t h e := by
    rw [forall_readableModel hdir]
    intro n v i _ hi
    obtain ⟨d, -, hd⟩ := hget n v i hi
    exact (getTagAt_of_file hi).1 ⟨_, hd⟩
  rw [TagRegistry.run_listTags hdir hread, TagMap.listing]
  refine congrArg (fun l => ((Except.ok l : Except ModeldError (List ModelTag)), h)) ?_
  have hmem : ∀ x, x ∈ entries.flatMap (t.modelTags h) ↔
      x ∈ m.entries.map fun e => (⟨e.1.1, e.1.2, e.2⟩ : ModelTag) := by
    intro x
    rw [mem_listed hdir, TagMap.mem_entries_iff]
    constructor
    · rintro ⟨n, v, i, -, hi, hname, htag, hx⟩
      obtain ⟨d, hd, hd'⟩ := hget n v i hi
      rw [hname, htag] at hx ⊢
      rw [hd'] at hx
      cases hx
      exact hd
    · intro hx
      obtain ⟨hname, htag, -⟩ := hr.valid _ _ hx
      obtain ⟨hisDir, i, hi, -⟩ := hr.holds.present ⟨x.name, hname.1⟩ ⟨x.tag, htag.1⟩ _ hx
      obtain ⟨d, hd, hd'⟩ := hget _ _ i hi
      obtain rfl : d = x.digest := Option.some.inj (hd.symm.trans hx)
      exact ⟨_, _, i, hisDir, hi, rfl, rfl, hd'⟩
  have hnodup : ∀ {l : List ModelTag},
      l.Pairwise (fun a b => ¬ (a.name = b.name ∧ a.tag = b.tag)) → l.Nodup := by
    intro l hl
    refine hl.imp fun hne heq => hne ?_
    rw [heq]
    exact ⟨rfl, rfl⟩
  have hperm := (List.perm_ext_iff_of_nodup (hnodup (pairwise_listed hdir))
    (hnodup m.pairwise_entries)).2 hmem
  refine List.Perm.eq_of_pairwise ?_ (List.pairwise_insertionSort TagLe _)
    (List.pairwise_insertionSort TagLe _)
    ((List.perm_insertionSort _ _).trans (hperm.trans (List.perm_insertionSort _ _).symm))
  intro a b ha hb hab hba
  rw [List.mem_insertionSort] at ha hb
  have hla := TagMap.mem_entries_iff.1 ((hmem a).1 ha)
  have hlb := TagMap.mem_entries_iff.1 hb
  -- In the order both ways, two entries have the same name and the same tag.
  have hkey : a.name = b.name ∧ a.tag = b.tag := by
    rcases hab with hlt | ⟨heq, hle⟩
    · rcases hba with hlt' | ⟨heq', -⟩
      · exact absurd hlt' (lt_asymm hlt)
      · exact absurd hlt (by rw [heq']; exact lt_irrefl _)
    · rcases hba with hlt' | ⟨-, hle'⟩
      · exact absurd hlt' (by rw [heq]; exact lt_irrefl _)
      · exact ⟨heq, le_antisymm hle hle'⟩
  rw [hkey.1, hkey.2, hlb] at hla
  cases a
  cases b
  simp only [ModelTag.mk.injEq]
  exact ⟨hkey.1, hkey.2, (Option.some.inj hla).symm⟩

/-- One call. -/
theorem Refines.step (hr : Refines t h m) (c : TagCall) :
    ((t.perform c).run Fs.exec h).1 = (m.step c).1 ∧
      Refines t ((t.perform c).run Fs.exec h).2 (m.step c).2 := by
  cases c with
  | set name tag digest =>
    rw [perform, TagMap.step, run_bind]
    rcases hr.holds.run_setTag name tag digest with
      ⟨hname, htag, hd, hok, hholds⟩ | ⟨hbad, ⟨msg, herror⟩, hsame⟩
    · rw [if_pos ⟨hname, htag, hd⟩, hok]
      refine ⟨rfl, ⟨?_, fun k d hk => ?_⟩⟩
      · rw [ofMap_insert hname.1 htag.1]
        exact hholds
      · by_cases hkey : k = (name, tag)
        · subst hkey
          rw [AList.lookup_insert] at hk
          cases hk
          exact ⟨hname, htag, hd⟩
        · rw [AList.lookup_insert_ne hkey] at hk
          exact hr.valid k d hk
    · rw [if_neg hbad, herror, hsame]
      exact ⟨rfl, hr⟩
  | remove name tag =>
    rw [perform, TagMap.step, run_bind]
    rcases hr.holds.run_removeTag name tag with ⟨hname, htag, hok, hholds⟩ | ⟨hbad, msg, hrun⟩
    · rw [if_pos ⟨hname, htag⟩, hok]
      refine ⟨rfl, ⟨?_, fun k d hk => ?_⟩⟩
      · rw [ofMap_erase hname.1 htag.1]
        exact hholds
      · by_cases hkey : k = (name, tag)
        · subst hkey
          rw [AList.lookup_erase] at hk
          cases hk
        · rw [AList.lookup_erase_ne hkey] at hk
          exact hr.valid k d hk
    · rw [if_neg hbad, hrun]
      exact ⟨rfl, hr⟩
  | get name tag =>
    rw [perform, TagMap.step, run_bind]
    rcases hr.holds.run_getTag name tag with ⟨hname, htag, hrun⟩ | ⟨hbad, msg, hrun⟩
    · rw [if_pos ⟨hname, htag⟩, hrun]
      refine ⟨?_, hr⟩
      have hentry : (ofMap m ⟨name, hname.1⟩ ⟨tag, htag.1⟩).map Text.trim = m.lookup (name, tag) := by
        rw [ofMap]
        cases hd : m.lookup (name, tag) with
        | none => rfl
        | some d => rw [Option.map_some, (hr.valid _ d hd).2.2.trim_eq]
      dsimp only
      rw [hentry]
      rfl
    · rw [if_neg hbad, hrun]
      exact ⟨rfl, hr⟩
  | list =>
    rw [perform, TagMap.step, run_bind, hr.run_listTags]
    exact ⟨rfl, hr⟩

/-- A run of calls. -/
theorem Refines.steps (hr : Refines t h m) (calls : List TagCall) :
    (t.performAll h calls).1 = (m.stepAll calls).1 ∧
      Refines t (t.performAll h calls).2 (m.stepAll calls).2 := by
  induction calls generalizing h m with
  | nil => exact ⟨rfl, hr⟩
  | cons c calls ih =>
    obtain ⟨hreply, hr₁⟩ := hr.step c
    obtain ⟨hreplies, hr₂⟩ := ih hr₁
    rw [performAll, TagMap.stepAll, hreply, hreplies]
    exact ⟨rfl, hr₂⟩

/-- A registry that was opened on a directory with nothing in it stands for the empty map. -/
theorem refines_new {root : Path} {h₀ : Fs}
    (hnew : ((new root).run Fs.exec h₀).1 = .ok t)
    (hempty : ∀ q, root.join "tags" <+: q → q ≠ root.join "tags" → h₀.lookup q = none) :
    Refines t ((new root).run Fs.exec h₀).2 ∅ := by
  unfold new at hnew ⊢
  generalize root.join "tags" = dir at *
  dsimp only at hnew ⊢
  rw [Fs.run_createDirAll] at hnew ⊢
  cases hok : (h₀.createDirAll dir).1 with
  | error e =>
    rw [hok] at hnew
    cases hnew
  | ok u =>
    rw [hok] at hnew
    cases hnew
    dsimp only
    rw [pure_eq, run_done]
    have hnone : ∀ q, dir <+: q → q ≠ dir → (h₀.createDirAll dir).2.lookup q = none := by
      intro q hq hne
      rw [Fs.lookup_createDirAll_of_not_prefix]
      · exact hempty q hq hne
      · intro hpre
        exact hne (hpre.eq_of_length_le hq.length_le)
    have hunder : ∀ l : List Name, l ≠ [] → (h₀.createDirAll dir).2.lookup (dir ++ l) = none :=
      fun l hl => hnone _ (List.prefix_append _ _) (by simpa using hl)
    refine ⟨⟨fun q hq => Fs.createDirAll_dirs hok hq, fun n => .inl (hunder _ (by simp)),
      fun n v _ => hunder _ (by simp), nofun, fun n v n' v' i hi _ => ?_⟩, nofun⟩
    rw [hunder _ (by simp)] at hi
    cases hi

end TagRegistry

/-- From an empty directory on, every run of calls on the registry returns what the same calls on the
map return, and the list of a map is in strict order and has each entry once. -/
theorem registry_refines_map (root : Path) (h₀ : Fs) (t : TagRegistry)
    (hnew : ((TagRegistry.new root).run Fs.exec h₀).1 = .ok t)
    (hempty : ∀ q, root.join "tags" <+: q → q ≠ root.join "tags" → h₀.lookup q = none)
    (calls : List TagCall) :
    (t.performAll ((TagRegistry.new root).run Fs.exec h₀).2 calls).1 = (TagMap.stepAll ∅ calls).1 ∧
      ∀ m : TagMap, m.listing.Pairwise TagMap.Before ∧
        ∀ x : ModelTag, x ∈ m.listing ↔ m.lookup (x.name, x.tag) = some x.digest :=
  ⟨((TagRegistry.refines_new hnew hempty).steps calls).1,
    fun m => ⟨m.pairwise_listing, fun _ => TagMap.mem_listing⟩⟩

/-- Two tags, one of them removed again. -/
def sampleTagCalls : List TagCall :=
  [.set "m" "latest" digestOne, .set "m" "4b" (" " ++ digestTwo), .set ".." "x" digestOne, .list,
    .remove "m" "latest", .remove "m" "latest", .get "m" "4b"]

theorem sampleTagCalls_replies :
    ((TagRegistry.mk (sampleRoot.join "tags")).performAll
      ((TagRegistry.new sampleRoot).run Fs.exec (blankFs true id)).2 sampleTagCalls).1 =
      [.done, .done, .refused, .listed [⟨"m", "4b", digestTwo⟩, ⟨"m", "latest", digestOne⟩],
        .removed true, .removed false, .found (some digestTwo)] := by
  refine (registry_refines_map sampleRoot (blankFs true id) _ rfl (fun q hq _ => ?_)
    sampleTagCalls).1.trans (by decide +kernel)
  have hq' : q ≠ [] := by
    rintro rfl
    exact absurd (List.prefix_nil.1 hq) (by decide +kernel)
  simp [Fs.lookup, blankFs, hq']

end Modeld
