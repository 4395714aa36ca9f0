import Modeld.Core.Footprint

/-!
# What writing a tag changes

`SameStorage` compares two states as clients can tell them apart: by the tags, the pins and the
store. `setTag` either leaves all of it as it is, or changes the one tag.
-/

namespace Modeld

open Host Program

/-- The bytes of the tag file of a name and a tag. -/
def tagAt (root : Path) (h : Fs) (name tag : Name) : Option Bytes :=
  match h.lookup (root ++ [Dir.tags, name, tag]) with
  | some (.file i) => some (h.data i)
  | _ => none

/-- The tags, the pins and the store are the same. -/
structure SameStorage (root : Path) (h h' : Fs) : Prop where
  tags : ∀ name tag, tagAt root h' name tag = tagAt root h name tag
  pins : ∀ n : Name, h'.lookup (root ++ [Dir.pinned, n]) = h.lookup (root ++ [Dir.pinned, n])
  store : SameStore root h h'

variable {root : Path} {h h' : Fs} {name tag d : String}

theorem SameStorage.refl : SameStorage root h h := ⟨fun _ _ => rfl, fun _ => rfl, .refl⟩

/-- New directories on the way to a tag do not count. -/
theorem sameStorage_of_newDirs {n : Name}
    (hl : ∀ q, h'.lookup q = h.lookup q ∨
      (h.lookup q = none ∧ h'.lookup q = some .dir ∧ q <+: root ++ [Dir.tags, n]))
    (hdata : h'.inodes = h.inodes) : SameStorage root h h' := by
  have hsame : ∀ q, ¬ q <+: root ++ [Dir.tags, n] → h'.lookup q = h.lookup q := fun q hq =>
    (hl q).resolve_right fun hnew => hq hnew.2.2
  have hdata' : ∀ i, h'.data i = h.data i := fun i => by rw [Fs.data, Fs.data, hdata]
  refine ⟨fun name tag => ?_, fun m => hsame _ ?_, fun q hq => hsame q fun hpre => ?_,
    fun _ i _ _ => hdata' i⟩
  · rw [tagAt, tagAt, hsame]
    · simp only [hdata']
    · intro hpre
      have := hpre.length_le
      simp at this
  · intro hpre
    rw [List.prefix_append_right_inj, List.cons_prefix_cons] at hpre
    exact absurd hpre.1 (by decide)
  · exact not_under (x := Dir.tags) (y := Dir.cas) (by simp) (by decide) (hq.trans hpre)

/-- The tag can be written: no file is where its directory belongs, and no directory where it
belongs itself. -/
def Writable (root : Path) (h : Fs) (name tag : Name) : Prop :=
  (h.lookup (root ++ [Dir.tags, name]) = none ∨ h.lookup (root ++ [Dir.tags, name]) = some .dir) ∧
    h.lookup (root ++ [Dir.tags, name, tag]) ≠ some .dir

namespace TagRegistry

/-- Directories on the way to a tag: all but the last are there. -/
theorem run_createDirAll (hw : WellFormed root h) (n : Name) :
    SameStorage root h (h.createDirAll (root ++ [Dir.tags, n])).2 ∧
    WellFormed root (h.createDirAll (root ++ [Dir.tags, n])).2 ∧
    (∀ t : Name, (h.createDirAll (root ++ [Dir.tags, n])).2.lookup (root ++ [Dir.tags, n, t]) =
      h.lookup (root ++ [Dir.tags, n, t])) ∧
    ((h.createDirAll (root ++ [Dir.tags, n])).1 = .ok () ↔
      h.lookup (root ++ [Dir.tags, n]) = none ∨ h.lookup (root ++ [Dir.tags, n]) = some .dir) ∧
    ((h.createDirAll (root ++ [Dir.tags, n])).1 = .ok () →
      (h.createDirAll (root ++ [Dir.tags, n])).2.lookup (root ++ [Dir.tags, n]) = some .dir) := by
  have htidy : Tidy root (.createDirAll (root ++ [Dir.tags, n])) := fun q hq d hd hnames =>
    not_under (x := Dir.tags) (y := Dir.cas) (by simp) (by decide) ((hnames.in_cas hd).trans hq)
  obtain ⟨hspec, hinodes, -⟩ := Fs.makeDirs_spec [] (root ++ [Dir.tags, n]) h
  refine ⟨sameStorage_of_newDirs (n := n) (fun q => ?_) hinodes,
    hw.answers htidy (.inl rfl), fun t => ?_, ⟨fun hok => ?_, fun hfree => ?_⟩,
    fun hok => Fs.createDirAll_dirs hok (List.prefix_refl _)⟩
  · rcases hspec q with h1 | ⟨h1, h2, ds, -, hds, rfl⟩
    · exact .inl h1
    · exact .inr ⟨h1, h2, hds⟩
  · refine Fs.lookup_createDirAll_of_not_prefix fun hpre => ?_
    have := hpre.length_le
    simp at this
  · have hdir := Fs.createDirAll_dirs hok (List.prefix_refl _)
    rcases hspec (root ++ [Dir.tags, n]) with h1 | ⟨h1, -⟩
    · exact .inr (h1.symm.trans hdir)
    · exact .inl h1
  · refine (Fs.createDirAll_ok fun q hq => ?_).1
    have hsplit : root ++ [Dir.tags, n] = root ++ [Dir.tags] ++ [n] := by simp
    rw [hsplit, List.prefix_concat_iff, List.prefix_concat_iff] at hq
    rcases hq with rfl | rfl | hq
    · rwa [← hsplit]
    · exact .inr (hw.base _ (.inr (by simp [baseDirs])))
    · exact .inr (hw.base q (.inl hq))

/-- Writing the file of a tag changes that tag and nothing else. -/
theorem write_tagFile (hw : WellFormed root h) {n t : Name} {i : Ino} {h₁ : Fs}
    (hc : h.create (root ++ [Dir.tags, n, t]) = (.ok i, h₁)) (x : Bytes) :
    tagAt root (h₁.writeAt i 0 x) n t = some x ∧
      (∀ n' t', ¬ (n' = n ∧ t' = t) → tagAt root (h₁.writeAt i 0 x) n' t' = tagAt root h n' t') ∧
      (∀ m : Name, (h₁.writeAt i 0 x).lookup (root ++ [Dir.pinned, m]) =
        h.lookup (root ++ [Dir.pinned, m])) ∧
      SameStore root h (h₁.writeAt i 0 x) := by
  have htags : root ++ [Dir.tags] <+: root ++ [Dir.tags, n, t] := by simp
  have hroot := under_root htags
  have hlink := not_linkPlace_of_area htags (by decide) (by decide)
  have hnone : ∀ d, IsDigest d → ¬ (CasStore.mk root).Names d (root ++ [Dir.tags, n, t]) :=
    fun d hd hnames => not_under htags (y := Dir.cas) (by decide) (hnames.in_cas hd)
  obtain ⟨hself, hother⟩ := Fs.create_lookup hc (hw.final_eq hroot hlink)
  obtain ⟨-, -, hempty, hdata⟩ := Fs.create_frame hc
  have hkeep : ∀ q k, root <+: q → q ≠ root ++ [Dir.tags, n, t] → h.lookup q = some (.file k) →
      (h₁.writeAt i 0 x).data k = h.data k := by
    intro q k hq hne hk
    obtain ⟨hki, hsame⟩ := hdata k (hw.fresh q k hq hk) fun hfile => hne <| by
      rw [hw.fileAt_eq_some hroot hlink] at hfile
      exact (hw.eq_of_shared hroot hq hfile hk hnone).symm
    exact (Fs.data_setData_of_ne hki).trans hsame
  have hdiff : ∀ q, ¬ root ++ [Dir.tags] <+: q → q ≠ root ++ [Dir.tags, n, t] := by
    rintro q hq rfl
    exact hq htags
  refine ⟨?_, fun n' t' hne => ?_, fun m => hother _ (hdiff _ ?_), fun q hq => hother q (hdiff q ?_),
    fun q k hq => hkeep q k (under_root hq) (hdiff q ?_)⟩
  · have hl : (h₁.writeAt i 0 x).lookup (root ++ [Dir.tags, n, t]) = some (.file i) := hself
    rw [tagAt, hl]
    simp [Fs.writeAt, hempty, Fs.patch]
  · have hpath : root ++ [Dir.tags, n', t'] ≠ root ++ [Dir.tags, n, t] := by
      simpa using hne
    have hl : (h₁.writeAt i 0 x).lookup (root ++ [Dir.tags, n', t']) =
        h.lookup (root ++ [Dir.tags, n', t']) := hother _ hpath
    rw [tagAt, tagAt, hl]
    split
    · rename_i k hk
      rw [hkeep _ k (List.prefix_append _ _) hpath hk]
    · rfl
  · exact not_under (x := Dir.pinned) (by simp) (by decide)
  · exact not_under hq (by decide)
  · exact not_under hq (by decide)

/-- Writing a tag of a valid name: nothing changes, or that tag does. -/
theorem run_setTag (hw : WellFormed root h) (hname : IsSegment name) (htag : IsSegment tag)
    (hd : IsDigest d) :
    (¬ Writable root h ⟨name, hname.1⟩ ⟨tag, htag.1⟩ ∧
      (∃ e, (((ofRoot root).setTag name tag d).run Fs.exec h).1 = .error e) ∧
      SameStorage root h (((ofRoot root).setTag name tag d).run Fs.exec h).2) ∨
    (Writable root h ⟨name, hname.1⟩ ⟨tag, htag.1⟩ ∧
      (((ofRoot root).setTag name tag d).run Fs.exec h).1 = .ok () ∧
      tagAt root (((ofRoot root).setTag name tag d).run Fs.exec h).2 ⟨name, hname.1⟩ ⟨tag, htag.1⟩ =
        some (Text.toBytes d) ∧
      (∀ n t, ¬ (n = ⟨name, hname.1⟩ ∧ t = ⟨tag, htag.1⟩) →
        tagAt root (((ofRoot root).setTag name tag d).run Fs.exec h).2 n t = tagAt root h n t) ∧
      (∀ m : Name, (((ofRoot root).setTag name tag d).run Fs.exec h).2.lookup
        (root ++ [Dir.pinned, m]) = h.lookup (root ++ [Dir.pinned, m])) ∧
      SameStore root h (((ofRoot root).setTag name tag d).run Fs.exec h).2) := by
  have hdir : (ofRoot root).tagsDir.join name = root ++ [Dir.tags, ⟨name, hname.1⟩] := by
    rw [Path.join_of_plain _ hname.1]
    simp
  have hfile : ((ofRoot root).tagsDir.join name).join tag =
      root ++ [Dir.tags, ⟨name, hname.1⟩, ⟨tag, htag.1⟩] := tagFile_eq hname htag
  have hset : (ofRoot root).setTag name tag d = (ofRoot root).writeTag name tag d := by
    simp only [setTag, validateTagSegment_eq_ok.2 ⟨rfl, hname⟩, validateTagSegment_eq_ok.2 ⟨rfl, htag⟩,
      hd.trim_eq, validateDigestFormat_of_isDigest hd]
  obtain ⟨hsame, hw₁, hlookup, hok, hparent⟩ := run_createDirAll hw ⟨name, hname.1⟩
  rw [hset, writeTag, hfile, hdir, Fs.run_createDirAll]
  rcases hr : (h.createDirAll (root ++ [Dir.tags, ⟨name, hname.1⟩])).1 with e | u
  · refine .inl ⟨fun hwritable => ?_, ⟨_, rfl⟩, hsame⟩
    rw [hok.2 hwritable.1] at hr
    cases hr
  have hfree := hok.1 hr
  replace hparent := hparent hr
  generalize (h.createDirAll (root ++ [Dir.tags, ⟨name, hname.1⟩])).2 = h₁ at *
  dsimp only
  rw [Fs.run_create]
  have htags : root ++ [Dir.tags] <+: root ++ [Dir.tags, ⟨name, hname.1⟩, ⟨tag, htag.1⟩] := by simp
  have hlink := not_linkPlace_of_area htags (by decide) (by decide)
  by_cases hisDir : h.lookup (root ++ [Dir.tags, ⟨name, hname.1⟩, ⟨tag, htag.1⟩]) = some .dir
  · have hc : h₁.create (root ++ [Dir.tags, ⟨name, hname.1⟩, ⟨tag, htag.1⟩]) =
        (.error .isADirectory, h₁) := by
      simp [Fs.create, hw₁.final_eq (under_root htags) hlink, hlookup, hisDir]
    rw [hc]
    exact .inl ⟨fun hwritable => hwritable.2 hisDir, ⟨_, rfl⟩, hsame⟩
  obtain ⟨i, h₂, hc⟩ := Fs.create_ok
    (fun t ht => hlink (hw₁.links _ t (under_root htags) ht)) (hlookup _ ▸ hisDir)
    (by simpa using hparent)
  obtain ⟨hself, hother, hpins, hstore⟩ := write_tagFile hw₁ hc (Text.toBytes d)
  rw [hc]
  exact .inr ⟨⟨hfree, hisDir⟩, rfl, hself, fun n t hne => (hother n t hne).trans (hsame.tags n t),
    fun m => (hpins m).trans (hsame.pins m), hsame.store.trans hstore⟩

/-- Setting a tag to a digest succeeds if the tag can be written, and otherwise changes nothing. -/
theorem run_setTag_cases (hw : WellFormed root h) (hd : IsDigest d) :
    let r := ((ofRoot root).setTag name tag d).run Fs.exec h
    let writable := ∃ (hname : IsSegment name) (htag : IsSegment tag),
      Writable root h ⟨name, hname.1⟩ ⟨tag, htag.1⟩
    (writable ∧ r.1 = .ok ()) ∨ (¬ writable ∧ (∃ e, r.1 = .error e) ∧ SameStorage root h r.2) := by
  intro r writable
  by_cases hsegments : IsSegment name ∧ IsSegment tag
  · obtain ⟨hname, htag⟩ := hsegments
    rcases run_setTag hw hname htag hd with ⟨hno, herror, hsame⟩ | ⟨hyes, hok, -⟩
    · exact .inr ⟨fun ⟨_, _, hyes⟩ => hno hyes, herror, hsame⟩
    · exact .inl ⟨⟨hname, htag, hyes⟩, hok⟩
  · refine .inr ⟨fun ⟨hname, htag, _⟩ => hsegments ⟨hname, htag⟩, ?_⟩
    have hrun : ∃ e, r = (.error e, h) := by
      show ∃ e, ((ofRoot root).setTag name tag d).run Fs.exec h = (.error e, h)
      unfold setTag
      rcases validateTagSegment_cases name with ⟨hname, h1⟩ | ⟨-, msg, h1⟩
      · rcases validateTagSegment_cases tag with ⟨htag, h2⟩ | ⟨-, msg, h2⟩
        · exact absurd ⟨hname, htag⟩ hsegments
        · rw [h1, h2]
          exact ⟨_, rfl⟩
      · rw [h1]
        exact ⟨_, rfl⟩
    obtain ⟨e, he⟩ := hrun
    rw [he]
    exact ⟨⟨e, rfl⟩, .refl⟩

end TagRegistry

end Modeld
