import Mathlib
import Modeld.Core.Registry

/-!
# Listing the tags

`listTags` stops at the first tag file whose name or content it cannot use. When there is none, it
lists them all, in order.
-/

namespace Modeld

open Host Program

namespace TagRegistry

variable {t : TagRegistry} {h : Fs}

/-- What `get_tag` returns in a state. -/
def getTagAt (t : TagRegistry) (h : Fs) (name tag : String) : Except ModeldError (Option String) :=
  ((t.getTag name tag).run Fs.exec h).1

/-- The tag that a file of a model directory stands for. -/
def entryTag (t : TagRegistry) (h : Fs) (model : String) (e : DirEntry) : Option ModelTag :=
  if e.metadata.isFile then
    match t.getTagAt h model e.name.text with
    | .ok (some digest) => some ⟨model, e.name.text, digest⟩
    | _ => none
  else none

/-- The tags that a directory stands for. -/
def modelTags (t : TagRegistry) (h : Fs) (e : DirEntry) : List ModelTag :=
  if e.metadata.isDir then
    match h.readDir (t.tagsDir ++ [e.name]) with
    | .ok entries => entries.filterMap (t.entryTag h e.name.text)
    | .error _ => []
  else []

/-- The file is a tag that can be read. -/
def Readable (t : TagRegistry) (h : Fs) (model : String) (e : DirEntry) : Prop :=
  e.metadata.isFile = true → ∃ r, t.getTagAt h model e.name.text = .ok r

theorem run_listModel {model : String} {entries : List DirEntry}
    (hread : ∀ e ∈ entries, Readable t h model e) (result : List ModelTag) :
    (t.listModel model entries result).run Fs.exec h =
      (.ok (result ++ entries.filterMap (t.entryTag h model)), h) := by
  induction entries generalizing result with
  | nil =>
    rw [List.filterMap_nil, List.append_nil]
    rfl
  | cons e entries ih =>
    have ih' := ih fun x hx => hread x (List.mem_cons_of_mem _ hx)
    rw [listModel]
    split
    · rename_i hfile
      obtain ⟨r, hr⟩ := hread e (List.mem_cons_self ..) hfile
      have hentry : t.entryTag h model e =
          r.map fun digest => ⟨model, e.name.text, digest⟩ := by
        rw [entryTag, if_pos hfile, hr]
        cases r <;> rfl
      rw [run_bind_of_reads only_getTag, show ((t.getTag model e.name.text).run Fs.exec h).1 = .ok r from hr]
      cases r with
      | none =>
        rw [List.filterMap_cons_none (by rw [hentry]; rfl)]
        exact ih' _
      | some digest =>
        rw [List.filterMap_cons_some (by rw [hentry]; rfl)]
        dsimp only
        rw [ih', List.append_assoc]
        rfl
    · rename_i hfile
      have hentry : t.entryTag h model e = none := by rw [entryTag, if_neg hfile]
      rw [List.filterMap_cons_none hentry]
      exact ih' _

/-- The directory can be listed, and the files in it are tags that can be read. -/
def ReadableModel (t : TagRegistry) (h : Fs) (e : DirEntry) : Prop :=
  e.metadata.isDir = true → ∃ entries, h.readDir (t.tagsDir ++ [e.name]) = .ok entries ∧
    ∀ x ∈ entries, Readable t h e.name.text x

theorem run_listModels {entries : List DirEntry} (hread : ∀ e ∈ entries, ReadableModel t h e)
    (result : List ModelTag) :
    (t.listModels entries result).run Fs.exec h =
      (.ok (result ++ entries.flatMap (t.modelTags h)), h) := by
  induction entries generalizing result with
  | nil =>
    rw [List.flatMap_nil, List.append_nil]
    rfl
  | cons e entries ih =>
    have ih' := ih fun x hx => hread x (List.mem_cons_of_mem _ hx)
    rw [listModels, List.flatMap_cons]
    split
    · rename_i hdir
      obtain ⟨tagEntries, hl, hall⟩ := hread e (List.mem_cons_self ..) hdir
      have htags : t.modelTags h e = tagEntries.filterMap (t.entryTag h e.name.text) := by
        rw [modelTags, if_pos hdir, hl]
      rw [Fs.run_readDir, hl]
      dsimp only
      rw [run_bind_of_reads (only_listModel _ _), run_listModel hall]
      dsimp only
      rw [ih', htags, List.append_assoc]
    · rename_i hdir
      have htags : t.modelTags h e = [] := by rw [modelTags, if_neg hdir]
      rw [htags, List.nil_append]
      exact ih' _

/-- The order of the list. -/
def TagLe (a b : ModelTag) : Prop := a.name < b.name ∨ (a.name = b.name ∧ a.tag ≤ b.tag)

instance : DecidableRel TagLe := fun a b =>
  inferInstanceAs (Decidable (a.name < b.name ∨ (a.name = b.name ∧ a.tag ≤ b.tag)))

instance : Std.Total TagLe where
  total a b := by
    rcases lt_trichotomy a.name b.name with hlt | heq | hlt
    · exact .inl (.inl hlt)
    · rcases le_total a.tag b.tag with hle | hle
      · exact .inl (.inr ⟨heq, hle⟩)
      · exact .inr (.inr ⟨heq.symm, hle⟩)
    · exact .inr (.inl hlt)

instance : IsTrans ModelTag TagLe where
  trans a b c := by
    rintro (hab | ⟨hab, hab'⟩) (hbc | ⟨hbc, hbc'⟩)
    · exact .inl (hab.trans hbc)
    · exact .inl (hbc ▸ hab)
    · exact .inl (hab ▸ hbc)
    · exact .inr ⟨hab.trans hbc, hab'.trans hbc'⟩

theorem run_listTags {entries : List DirEntry} (hdir : h.readDir t.tagsDir = .ok entries)
    (hread : ∀ e ∈ entries, ReadableModel t h e) :
    (t.listTags).run Fs.exec h =
      (.ok ((entries.flatMap (t.modelTags h)).insertionSort TagLe), h) := by
  have hisDir : h.isDir t.tagsDir = true := by
    have hl := Fs.lookup_of_readDir hdir
    rw [Fs.isDir, Fs.final_eq_self (by simp [hl]), hl]
    rfl
  rw [listTags, Fs.run_isDir, hisDir]
  simp only [Bool.not_true, Bool.false_eq_true, if_false]
  rw [Fs.run_readDir, hdir]
  dsimp only
  rw [run_bind_of_reads (only_listModels _ _), run_listModels hread]
  rfl

theorem mem_modelTags {e : DirEntry} {x : ModelTag} : x ∈ t.modelTags h e ↔
    e.metadata.isDir = true ∧ h.lookup (t.tagsDir ++ [e.name]) = some .dir ∧ x.name = e.name.text ∧
      ∃ (v : Name) (i : Ino), h.lookup (t.tagsDir ++ [e.name, v]) = some (.file i) ∧
        x.tag = v.text ∧ t.getTagAt h x.name x.tag = .ok (some x.digest) := by
  unfold modelTags
  split
  swap
  · rename_i hdir
    simp [hdir]
  rename_i hdir
  cases hl : h.readDir (t.tagsDir ++ [e.name]) with
  | error err =>
    refine iff_of_false List.not_mem_nil ?_
    rintro ⟨-, hisDir, -⟩
    obtain ⟨l, hok⟩ := Fs.exists_readDir hisDir
    rw [hl] at hok
    cases hok
  | ok l =>
    have hisDir := Fs.lookup_of_readDir hl
    have hpath : ∀ v : Name, t.tagsDir ++ [e.name] ++ [v] = t.tagsDir ++ [e.name, v] := by
      intro v
      rw [List.append_assoc]
      rfl
    dsimp only
    rw [List.mem_filterMap]
    constructor
    · rintro ⟨y, hy, hentry⟩
      obtain ⟨z, hz, hmeta⟩ := (Fs.mem_readDir hl).1 hy
      unfold entryTag at hentry
      split at hentry
      swap
      · cases hentry
      rename_i hfile
      rw [hmeta] at hfile
      obtain ⟨i, rfl⟩ := Fs.stat_isFile.1 hfile
      split at hentry
      · rename_i digest hget
        cases hentry
        exact ⟨hdir, hisDir, rfl, y.name, i, by rw [← hpath, hz], rfl, hget⟩
      · cases hentry
    · rintro ⟨-, -, hname, v, i, hi, htag, hget⟩
      refine ⟨⟨v, h.stat (.file i)⟩, (Fs.mem_readDir hl).2 ⟨.file i, by rw [hpath, hi], rfl⟩, ?_⟩
      rw [hname, htag] at hget
      rw [entryTag, if_pos (Fs.stat_isFile.2 ⟨i, rfl⟩)]
      dsimp only
      rw [hget]
      dsimp only
      rw [← hname, ← htag]

variable {entries : List DirEntry}

/-- The tags that are listed are the files that stand for tags. -/
theorem mem_listed (hdir : h.readDir t.tagsDir = .ok entries) {x : ModelTag} :
    x ∈ entries.flatMap (t.modelTags h) ↔ ∃ (n v : Name) (i : Ino),
      h.lookup (t.tagsDir ++ [n]) = some .dir ∧ h.lookup (t.tagsDir ++ [n, v]) = some (.file i) ∧
      x.name = n.text ∧ x.tag = v.text ∧ t.getTagAt h x.name x.tag = .ok (some x.digest) := by
  rw [List.mem_flatMap]
  constructor
  · rintro ⟨e, -, hx⟩
    obtain ⟨-, hisDir, hname, v, i, hi, htag, hget⟩ := mem_modelTags.1 hx
    exact ⟨e.name, v, i, hisDir, hi, hname, htag, hget⟩
  · rintro ⟨n, v, i, hisDir, hi, hname, htag, hget⟩
    refine ⟨⟨n, h.stat .dir⟩, (Fs.mem_readDir hdir).2 ⟨.dir, hisDir, rfl⟩, mem_modelTags.2 ?_⟩
    exact ⟨Fs.stat_isDir.2 rfl, hisDir, hname, v, i, hi, htag, hget⟩

/-- Every file in the directory of a model is one that the registry can name and read. -/
def AllNameable (t : TagRegistry) (h : Fs) : Prop :=
  ∀ (n v : Name) (i : Ino), h.lookup (t.tagsDir ++ [n]) = some .dir →
    h.lookup (t.tagsDir ++ [n, v]) = some (.file i) →
      IsSegment n.text ∧ IsSegment v.text ∧ (Text.ofBytes? (h.data i)).isSome = true

/-- What `get_tag` says of a file that it can name and read. -/
theorem getTagAt_of_text {n v : Name} {i : Ino} {d : String}
    (hi : h.lookup (t.tagsDir ++ [n, v]) = some (.file i)) (hname : IsSegment n.text)
    (htag : IsSegment v.text) (hd : Text.ofBytes? (h.data i) = some d) :
    t.getTagAt h n.text v.text = .ok (some (Text.trim d)) := by
  rw [getTagAt, getTag, validateTagSegment_eq_ok.2 ⟨rfl, hname⟩, validateTagSegment_eq_ok.2 ⟨rfl, htag⟩]
  dsimp only
  rw [tagPath_eq t hname.1 htag.1, run_readTag_of_file hi hd]

/-- `get_tag` returns for a file when it can name and read it. -/
theorem getTagAt_of_file {n v : Name} {i : Ino} (hi : h.lookup (t.tagsDir ++ [n, v]) = some (.file i)) :
    (∃ r, t.getTagAt h n.text v.text = .ok r) ↔
      IsSegment n.text ∧ IsSegment v.text ∧ (Text.ofBytes? (h.data i)).isSome = true := by
  constructor
  swap
  · rintro ⟨hname, htag, hsome⟩
    obtain ⟨d, hd⟩ := Option.isSome_iff_exists.1 hsome
    exact ⟨_, getTagAt_of_text hi hname htag hd⟩
  unfold getTagAt getTag
  rcases validateTagSegment_cases n.text with ⟨hname, h1⟩ | ⟨hname, msg, h1⟩
  swap
  · rw [h1]
    exact nofun
  rcases validateTagSegment_cases v.text with ⟨htag, h2⟩ | ⟨htag, msg, h2⟩
  swap
  · rw [h1, h2]
    exact nofun
  rw [h1, h2]
  dsimp only
  rw [tagPath_eq t hname.1 htag.1]
  cases hd : Text.ofBytes? (h.data i) with
  | none =>
    rw [run_readTag_of_not_text hi hd]
    exact nofun
  | some d => exact fun _ => ⟨hname, htag, rfl⟩

/-- What stops a listing is a file that the registry cannot name or read. -/
theorem forall_readableModel (hdir : h.readDir t.tagsDir = .ok entries) :
    (∀ e ∈ entries, ReadableModel t h e) ↔ AllNameable t h := by
  have hpath : ∀ n v : Name, t.tagsDir ++ [n] ++ [v] = t.tagsDir ++ [n, v] := by
    intro n v
    rw [List.append_assoc]
    rfl
  constructor
  · intro hread n v i hn hi
    have he : (⟨n, h.stat .dir⟩ : DirEntry) ∈ entries := (Fs.mem_readDir hdir).2 ⟨.dir, hn, rfl⟩
    obtain ⟨l, hl, hall⟩ := hread _ he (Fs.stat_isDir.2 rfl)
    have hx : (⟨v, h.stat (.file i)⟩ : DirEntry) ∈ l :=
      (Fs.mem_readDir hl).2 ⟨.file i, by rw [hpath, hi], rfl⟩
    exact (getTagAt_of_file hi).1 (hall _ hx (Fs.stat_isFile.2 ⟨i, rfl⟩))
  · intro hname e he hisDir
    obtain ⟨x, hx, hmeta⟩ := (Fs.mem_readDir hdir).1 he
    rw [hmeta] at hisDir
    obtain rfl := Fs.stat_isDir.1 hisDir
    obtain ⟨l, hl⟩ := Fs.exists_readDir hx
    refine ⟨l, hl, fun y hy hfile => ?_⟩
    obtain ⟨z, hz, hmeta'⟩ := (Fs.mem_readDir hl).1 hy
    rw [hmeta'] at hfile
    obtain ⟨i, rfl⟩ := Fs.stat_isFile.1 hfile
    rw [hpath] at hz
    exact (getTagAt_of_file hz).2 (hname _ _ i hx hz)

/-- No tag is listed twice. -/
theorem pairwise_listed (hdir : h.readDir t.tagsDir = .ok entries) :
    (entries.flatMap (t.modelTags h)).Pairwise fun a b => ¬ (a.name = b.name ∧ a.tag = b.tag) := by
  rw [List.pairwise_flatMap]
  constructor
  · intro e _
    unfold modelTags
    split
    swap
    · exact .nil
    cases hl : h.readDir (t.tagsDir ++ [e.name]) with
    | error err => exact .nil
    | ok l =>
      refine (Fs.pairwise_readDir hl).filterMap _ fun a b hne x hx y hy heq => hne ?_
      have hname : ∀ z x, t.entryTag h e.name.text z = some x → x.tag = z.name.text := by
        intro z x hz
        unfold entryTag at hz
        split at hz
        · split at hz
          · cases hz
            rfl
          · cases hz
        · cases hz
      exact Name.ext ((hname a x hx).symm.trans (heq.2.trans (hname b y hy)))
  · refine (Fs.pairwise_readDir hdir).imp fun hne x hx y hy heq => hne ?_
    obtain ⟨-, -, hxname, -⟩ := mem_modelTags.1 hx
    obtain ⟨-, -, hyname, -⟩ := mem_modelTags.1 hy
    exact Name.ext (hxname.symm.trans (heq.1.trans hyname))

end TagRegistry

end Modeld
