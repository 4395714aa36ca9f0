import Modeld.Core.Footprint
import Modeld.Host.Listing

/-!
# The registry as a map

`Holds` says that the directory of a registry holds the entries of a map and nothing else: directories
of models, and in them one file for each tag, none of them shared. Writing, reading and removing a
tag are then what they are for the map.
-/

namespace Modeld

open Host Program

/-- The digests that names and tags have. -/
abbrev Entries := Name → Name → Option String

/-- Set one entry, or clear it. -/
def Entries.set (m : Entries) (name tag : Name) (d : Option String) : Entries := fun n t =>
  if n = name ∧ t = tag then d else m n t

@[simp] theorem Entries.set_self (m : Entries) (name tag : Name) (d : Option String) :
    m.set name tag d name tag = d := if_pos ⟨rfl, rfl⟩

theorem Entries.set_set (m : Entries) (name tag : Name) (d e : Option String) :
    (m.set name tag d).set name tag e = m.set name tag e := by
  funext n t
  unfold Entries.set
  split <;> rfl

/-- Setting what is there. -/
theorem Entries.set_eq_self {m : Entries} {name tag : Name} {d : Option String}
    (hd : m name tag = d) : m.set name tag d = m := by
  funext n t
  unfold Entries.set
  split
  · rename_i h
    rw [h.1, h.2, hd]
  · rfl

namespace TagRegistry

/-- The directory of the registry holds the entries of the map and nothing else. -/
structure Holds (t : TagRegistry) (h : Fs) (m : Entries) : Prop where
  base : ∀ q, q <+: t.tagsDir → h.lookup q = some .dir
  model : ∀ n, h.lookup (t.tagsDir ++ [n]) = none ∨ h.lookup (t.tagsDir ++ [n]) = some .dir
  absent : ∀ n v, m n v = none → h.lookup (t.tagsDir ++ [n, v]) = none
  present : ∀ n v d, m n v = some d → h.lookup (t.tagsDir ++ [n]) = some .dir ∧
    ∃ i, h.lookup (t.tagsDir ++ [n, v]) = some (.file i) ∧ i < h.nextIno ∧ h.data i = Text.toBytes d
  distinct : ∀ n v n' v' i, h.lookup (t.tagsDir ++ [n, v]) = some (.file i) →
    h.lookup (t.tagsDir ++ [n', v']) = some (.file i) → n = n' ∧ v = v'

variable {t : TagRegistry} {h h' : Fs} {m : Entries} {n v : Name} {name tag d : String} {i : Ino}

namespace Holds

/-- Where there is a file there is an entry. -/
theorem of_file (hm : Holds t h m) (hi : h.lookup (t.tagsDir ++ [n, v]) = some (.file i)) :
    ∃ d, m n v = some d ∧ h.data i = Text.toBytes d ∧ i < h.nextIno ∧
      h.lookup (t.tagsDir ++ [n]) = some .dir := by
  cases hd : m n v with
  | none =>
    rw [hm.absent n v hd] at hi
    cases hi
  | some d =>
    obtain ⟨hdir, j, hj, hlt, hdata⟩ := hm.present n v d hd
    obtain rfl : j = i := by simpa [hi] using hj.symm
    exact ⟨d, rfl, hdata, hlt, hdir⟩

/-- A tag is a file or nothing. -/
theorem lookup_cases (hm : Holds t h m) (n v : Name) :
    h.lookup (t.tagsDir ++ [n, v]) = none ∨ ∃ i, h.lookup (t.tagsDir ++ [n, v]) = some (.file i) := by
  cases hd : m n v with
  | none => exact .inl (hm.absent n v hd)
  | some d =>
    obtain ⟨-, i, hi, -⟩ := hm.present n v d hd
    exact .inr ⟨i, hi⟩

theorem final_eq (hm : Holds t h m) (n v : Name) :
    h.final (t.tagsDir ++ [n, v]) = t.tagsDir ++ [n, v] := by
  apply Fs.final_eq_self
  intro target htarget
  rcases hm.lookup_cases n v with hnone | ⟨i, hi⟩
  · rw [hnone] at htarget
    cases htarget
  · rw [hi] at htarget
    cases htarget

/-- What leaves the directory and its files as they are. -/
theorem of_same (hm : Holds t h m) (hbase : ∀ q, q <+: t.tagsDir → h'.lookup q = some .dir)
    (hl : ∀ q, t.tagsDir <+: q → h'.lookup q = h.lookup q)
    (hdata : ∀ q i, t.tagsDir <+: q → h.lookup q = some (.file i) → h'.data i = h.data i)
    (hnext : h.nextIno ≤ h'.nextIno) : Holds t h' m where
  base := hbase
  model n := by
    rw [hl _ (List.prefix_append _ _)]
    exact hm.model n
  absent n v hnone := by
    rw [hl _ (List.prefix_append _ _)]
    exact hm.absent n v hnone
  present n v d hd := by
    obtain ⟨hdir, i, hi, hlt, hbytes⟩ := hm.present n v d hd
    rw [hl _ (List.prefix_append _ _), hl _ (List.prefix_append _ _)]
    exact ⟨hdir, i, hi, hlt.trans_le hnext,
      (hdata _ i (List.prefix_append _ _) hi).trans hbytes⟩
  distinct n v n' v' i hi hi' := by
    rw [hl _ (List.prefix_append _ _)] at hi hi'
    exact hm.distinct n v n' v' i hi hi'

private theorem ne_model (t : TagRegistry) (n v n' : Name) : t.tagsDir ++ [n, v] ≠ t.tagsDir ++ [n'] := by
  intro heq
  have := congrArg List.length heq
  simp at this

private theorem not_prefix (t : TagRegistry) (n : Name) (l : List Name) : ¬ t.tagsDir ++ n :: l <+: t.tagsDir := by
  intro hpre
  have := hpre.length_le
  rw [List.length_append, List.length_cons] at this
  omega

/-- The directory of a model can be made. -/
theorem createDirAll (hm : Holds t h m) (n : Name) :
    (h.createDirAll (t.tagsDir ++ [n])).1 = .ok () ∧
      Holds t (h.createDirAll (t.tagsDir ++ [n])).2 m ∧
      (h.createDirAll (t.tagsDir ++ [n])).2.lookup (t.tagsDir ++ [n]) = some .dir := by
  have hfree : ∀ q, q <+: t.tagsDir ++ [n] → h.lookup q = none ∨ h.lookup q = some .dir := by
    intro q hq
    rcases List.prefix_concat_iff.1 hq with rfl | hq
    · exact hm.model n
    · exact .inr (hm.base q hq)
  obtain ⟨hok, hdirs⟩ := Fs.createDirAll_ok hfree
  obtain ⟨-, hinodes, hnext⟩ := Fs.makeDirs_spec [] (t.tagsDir ++ [n]) h
  have hself := hdirs _ List.prefix_rfl
  have hother : ∀ q, ¬ q <+: t.tagsDir ++ [n] →
      (h.createDirAll (t.tagsDir ++ [n])).2.lookup q = h.lookup q :=
    fun q hq => Fs.lookup_createDirAll_of_not_prefix hq
  have hfile : ∀ k v, ¬ t.tagsDir ++ [k, v] <+: t.tagsDir ++ [n] := by
    intro k v hpre
    have := hpre.length_le
    simp at this
  have hmodel : ∀ k, k ≠ n → ¬ t.tagsDir ++ [k] <+: t.tagsDir ++ [n] := by
    intro k hk hpre
    have := hpre.eq_of_length (by simp)
    simp [hk] at this
  have hdata : ∀ i, (h.createDirAll (t.tagsDir ++ [n])).2.data i = h.data i :=
    fun i => congrArg (fun inodes => (inodes i).data) hinodes
  refine ⟨hok, ⟨fun q hq => hdirs q (hq.trans (List.prefix_append _ _)), fun k => ?_,
    fun k v hnone => ?_, fun k v d hd => ?_, fun k v k' v' i hi hi' => ?_⟩, hself⟩
  · by_cases hk : k = n
    · subst hk
      exact .inr hself
    · rw [hother _ (hmodel k hk)]
      exact hm.model k
  · rw [hother _ (hfile k v)]
    exact hm.absent k v hnone
  · obtain ⟨hdir, i, hi, hlt, hbytes⟩ := hm.present k v d hd
    refine ⟨?_, i, ?_, hlt.trans_eq hnext.symm, (hdata i).trans hbytes⟩
    · by_cases hk : k = n
      · subst hk
        exact hself
      · rw [hother _ (hmodel k hk)]
        exact hdir
    · rw [hother _ (hfile k v)]
      exact hi
  · rw [hother _ (hfile k v)] at hi
    rw [hother _ (hfile k' v')] at hi'
    exact hm.distinct k v k' v' i hi hi'

/-- One file more or less, or with new bytes, and nothing else. -/
private theorem of_file_change {o : Option String} (hm : Holds t h m)
    (hdir : h.lookup (t.tagsDir ++ [n]) = some .dir)
    (hl : ∀ q, q ≠ t.tagsDir ++ [n, v] → h'.lookup q = h.lookup q)
    (hdata : ∀ i, i < h.nextIno → h.lookup (t.tagsDir ++ [n, v]) ≠ some (.file i) →
      h'.data i = h.data i)
    (hnext : h.nextIno ≤ h'.nextIno)
    (hnone : o = none → h'.lookup (t.tagsDir ++ [n, v]) = none)
    (hsome : ∀ d, o = some d → ∃ i, h'.lookup (t.tagsDir ++ [n, v]) = some (.file i) ∧
      i < h'.nextIno ∧ h'.data i = Text.toBytes d ∧
      (h.lookup (t.tagsDir ++ [n, v]) = some (.file i) ∨ h.nextIno ≤ i)) :
    Holds t h' (m.set n v o) := by
  have hmodel : ∀ k, h'.lookup (t.tagsDir ++ [k]) = h.lookup (t.tagsDir ++ [k]) :=
    fun k => hl _ (ne_model t n v k).symm
  have hother : ∀ k w, ¬ (k = n ∧ w = v) →
      h'.lookup (t.tagsDir ++ [k, w]) = h.lookup (t.tagsDir ++ [k, w]) := by
    intro k w hne
    apply hl
    intro heq
    exact hne (by simpa using heq)
  -- The file of the entry is shared with no other.
  have hshared : ∀ k w i, ¬ (k = n ∧ w = v) → h.lookup (t.tagsDir ++ [k, w]) = some (.file i) →
      h'.lookup (t.tagsDir ++ [n, v]) ≠ some (.file i) := by
    intro k w i hne hi heq
    obtain ⟨-, -, -, hlt, -⟩ := hm.of_file hi
    cases o with
    | none =>
      rw [hnone rfl] at heq
      cases heq
    | some d =>
      obtain ⟨j, hj, -, -, hold⟩ := hsome d rfl
      obtain rfl : j = i := by simpa [heq] using hj.symm
      rcases hold with hold | hold
      · exact hne (hm.distinct k w n v j hi hold)
      · exact absurd hlt (not_lt.2 hold)
  refine ⟨fun q hq => ?_, fun k => ?_, fun k w hkw => ?_, fun k w d hd => ?_,
    fun k w k' w' i hi hi' => ?_⟩
  · rw [hl, hm.base q hq]
    rintro rfl
    exact not_prefix t n [v] hq
  · rw [hmodel]
    exact hm.model k
  · by_cases hkw' : k = n ∧ w = v
    · obtain ⟨rfl, rfl⟩ := hkw'
      exact hnone (by simpa [Entries.set] using hkw)
    · rw [hother k w hkw']
      exact hm.absent k w (by simpa [Entries.set, hkw'] using hkw)
  · by_cases hkw' : k = n ∧ w = v
    · obtain ⟨rfl, rfl⟩ := hkw'
      obtain ⟨i, hi, hlt, hbytes, -⟩ := hsome d (by simpa [Entries.set] using hd)
      rw [hmodel]
      exact ⟨hdir, i, hi, hlt, hbytes⟩
    · obtain ⟨hdir', i, hi, hlt, hbytes⟩ := hm.present k w d (by simpa [Entries.set, hkw'] using hd)
      rw [hmodel, hother k w hkw']
      refine ⟨hdir', i, hi, hlt.trans_le hnext, (hdata i hlt fun heq => ?_).trans hbytes⟩
      exact hkw' (hm.distinct k w n v i hi heq)
  · by_cases hkw : k = n ∧ w = v
    · obtain ⟨rfl, rfl⟩ := hkw
      by_cases hkw' : k' = k ∧ w' = w
      · exact ⟨hkw'.1.symm, hkw'.2.symm⟩
      · rw [hother k' w' hkw'] at hi'
        exact absurd hi (hshared k' w' i hkw' hi')
    · rw [hother k w hkw] at hi
      by_cases hkw' : k' = n ∧ w' = v
      · obtain ⟨rfl, rfl⟩ := hkw'
        exact absurd hi' (hshared k w i hkw hi)
      · rw [hother k' w' hkw'] at hi'
        exact hm.distinct k w k' w' i hi hi'

/-- The file of a tag can be written once the directory of its model is there. -/
theorem create (hm : Holds t h m) (hdir : h.lookup (t.tagsDir ++ [n]) = some .dir) (d : String) :
    ∃ i h₁, h.create (t.tagsDir ++ [n, v]) = (.ok i, h₁) ∧ h₁.data i = [] ∧
      Holds t (h₁.setData i (Text.toBytes d)) (m.set n v (some d)) := by
  have hparent : (t.tagsDir ++ [n, v]).dropLast = t.tagsDir ++ [n] := by
    rw [List.dropLast_append_of_ne_nil (by simp)]
    rfl
  have hfinal := hm.final_eq n v
  rcases Fs.create_cases h (t.tagsDir ++ [n, v]) with ⟨i, hi, hc⟩ | ⟨hnone, -, hc⟩ | ⟨hnone, e, hc⟩
  · rw [Fs.fileAt_eq_some, hfinal] at hi
    obtain ⟨-, -, -, hlt, -⟩ := hm.of_file hi
    refine ⟨i, _, hc, Fs.data_setData_self, hm.of_file_change hdir (fun _ _ => rfl) ?_ le_rfl
      (by rintro ⟨⟩) ?_⟩
    · intro j _ hne
      have hji : j ≠ i := by
        rintro rfl
        exact hne hi
      exact (Fs.data_setData_of_ne hji).trans (Fs.data_setData_of_ne hji)
    · rintro _ ⟨⟩
      exact ⟨i, hi, hlt, Fs.data_setData_self, .inl hi⟩
  · rw [hfinal] at hnone hc
    refine ⟨h.nextIno, _, hc, Fs.data_newFile_self, hm.of_file_change hdir
      (fun q hq => Fs.lookup_newFile_of_ne hq) ?_ (Nat.le_succ _) (by rintro ⟨⟩) ?_⟩
    · intro j hj _
      exact (Fs.data_setData_of_ne hj.ne).trans (Fs.data_newFile_of_ne hj.ne)
    · rintro _ ⟨⟩
      exact ⟨h.nextIno, Fs.lookup_newFile_self (Fs.ne_nil_of_lookup_none hnone), Nat.lt_succ_self _,
        Fs.data_setData_self, .inr le_rfl⟩
  · have hlink : ∀ target, h.lookup (t.tagsDir ++ [n, v]) ≠ some (.symlink target) := by
      intro target htarget
      rcases hm.lookup_cases n v with hl | ⟨i, hl⟩ <;> rw [hl] at htarget <;> cases htarget
    have hfile : h.lookup (t.tagsDir ++ [n, v]) ≠ some .dir := by
      intro hd
      rcases hm.lookup_cases n v with hl | ⟨i, hl⟩ <;> rw [hl] at hd <;> cases hd
    obtain ⟨i, h₁, hok⟩ := Fs.create_ok hlink hfile (by rw [hparent]; exact hdir)
    rw [hc] at hok
    cases hok

/-- A tag that was just created is empty. -/
theorem truncate (hm : Holds t h m) (hdir : h.lookup (t.tagsDir ++ [n]) = some .dir) :
    ∃ i h₁, h.create (t.tagsDir ++ [n, v]) = (.ok i, h₁) ∧
      h₁.lookup (t.tagsDir ++ [n, v]) = some (.file i) ∧ Holds t h₁ (m.set n v (some "")) := by
  obtain ⟨i, h₁, hc, hempty, hm₁⟩ := hm.create (v := v) hdir ""
  obtain ⟨hself, -⟩ := Fs.create_lookup hc (hm.final_eq n v)
  refine ⟨i, h₁, hc, hself, hm₁.of_same (fun q hq => hm₁.base q hq) (fun _ _ => rfl) ?_ le_rfl⟩
  intro q j _ _
  rcases eq_or_ne j i with rfl | hne
  · rw [hempty, Fs.data_setData_self]
    rfl
  · exact (Fs.data_setData_of_ne hne).symm

/-- Writing over a tag from its start, with no less than is there. -/
theorem overwrite (hm : Holds t h m) (hi : h.lookup (t.tagsDir ++ [n, v]) = some (.file i))
    (hlen : (h.data i).length ≤ (Text.toBytes d).length) :
    Holds t (h.writeAt i 0 (Text.toBytes d)) (m.set n v (some d)) := by
  obtain ⟨-, -, -, hlt, hdir⟩ := hm.of_file hi
  have hpatch : Fs.patch (h.data i) 0 (Text.toBytes d) = Text.toBytes d := by
    simp [Fs.patch, List.drop_eq_nil_iff.2 hlen]
  refine hm.of_file_change hdir (fun _ _ => rfl) ?_ le_rfl (by rintro ⟨⟩) ?_
  · intro j _ hne
    refine Fs.data_setData_of_ne ?_
    rintro rfl
    exact hne hi
  · rintro _ ⟨⟩
    exact ⟨i, hi, hlt, Fs.data_setData_self.trans hpatch, .inl hi⟩

theorem remove (hm : Holds t h m) (hi : h.lookup (t.tagsDir ++ [n, v]) = some (.file i)) :
    Holds t (h.unlink (t.tagsDir ++ [n, v])) (m.set n v none) := by
  obtain ⟨-, -, -, -, hdir⟩ := hm.of_file hi
  refine hm.of_file_change hdir (fun q hq => Fs.lookup_unlink_of_ne hq) (fun _ _ _ => rfl) le_rfl ?_ nofun
  intro _
  exact Fs.lookup_unlink_self (by simp)

end Holds

/-! ### The operations -/

theorem run_readTag_of_not_isFile {p : Path} (hp : h.isFile p = false) :
    (readTag p).run Fs.exec h = (.ok none, h) := by
  rw [readTag, Fs.run_isFile, hp]
  rfl

/-- What is behind the test of `get_tag`. -/
private theorem run_readTag_aux {p : Path} (hi : h.lookup p = some (.file i)) :
    (readTag p).run Fs.exec h = ((match Text.ofBytes? (h.data i) with
      | none => .error (.io .invalidData)
      | some digest => .ok (some (Text.trim digest))), h) := by
  have hfinal : h.final p = p := by
    apply Fs.final_eq_self
    intro target htarget
    rw [hi] at htarget
    cases htarget
  have hfile : h.isFile p = true := by
    rw [Fs.isFile, Fs.fileAt_of_lookup hi]
    rfl
  have hopen : h.openFile p = .ok i := by
    rw [Fs.openFile, hfinal, hi]
  rw [readTag, Fs.run_isFile, hfile]
  simp only [Bool.not_true, Bool.false_eq_true, if_false]
  rw [Fs.run_openFile, hopen]
  dsimp only
  rw [Fs.run_read]
  dsimp only
  cases Text.ofBytes? (h.data i) <;> rfl

theorem run_readTag_of_file {p : Path} (hi : h.lookup p = some (.file i))
    (hd : Text.ofBytes? (h.data i) = some d) :
    (readTag p).run Fs.exec h = (.ok (some (Text.trim d)), h) := by
  rw [run_readTag_aux hi, hd]

theorem run_readTag_of_not_text {p : Path} (hi : h.lookup p = some (.file i))
    (hd : Text.ofBytes? (h.data i) = none) :
    (readTag p).run Fs.exec h = (.error (.io .invalidData), h) := by
  rw [run_readTag_aux hi, hd]

variable (hm : Holds t h m)

theorem modelDir_eq (t : TagRegistry) (hname : PlainName name) :
    t.tagsDir.join name = t.tagsDir ++ [⟨name, hname⟩] := Path.join_of_plain _ hname

theorem tagPath_eq (t : TagRegistry) (hname : PlainName name) {tag : String} (htag : PlainName tag) :
    (t.tagsDir.join name).join tag = t.tagsDir ++ [⟨name, hname⟩, ⟨tag, htag⟩] := by
  rw [modelDir_eq t hname, Path.join_of_plain _ htag, List.append_assoc]
  rfl

include hm

/-- Writing a tag of ordinary names succeeds. -/
theorem Holds.run_writeTag (hname : PlainName name) (htag : PlainName tag) (d : String) :
    ((t.writeTag name tag d).run Fs.exec h).1 = .ok () ∧
      Holds t ((t.writeTag name tag d).run Fs.exec h).2 (m.set ⟨name, hname⟩ ⟨tag, htag⟩ (some d)) := by
  obtain ⟨hok, hm₁, hdir⟩ := hm.createDirAll ⟨name, hname⟩
  obtain ⟨i, h₂, hc, hempty, hm₂⟩ := hm₁.create (v := ⟨tag, htag⟩) hdir d
  rw [writeTag, tagPath_eq t hname htag, modelDir_eq t hname, Fs.run_createDirAll, hok]
  dsimp only
  rw [Fs.run_create, hc]
  dsimp only
  rw [Fs.run_writeAt]
  refine ⟨rfl, ?_⟩
  have hwrite : h₂.writeAt i 0 (Text.toBytes d) = h₂.setData i (Text.toBytes d) := by
    rw [Fs.writeAt, hempty]
    simp [Fs.patch]
  rw [hwrite]
  exact hm₂

/-- Setting a tag succeeds for valid segments and a valid digest, and otherwise changes nothing. -/
theorem Holds.run_setTag (name tag digest : String) :
    (∃ (hname : IsSegment name) (htag : IsSegment tag), IsDigest (Text.trim digest) ∧
      ((t.setTag name tag digest).run Fs.exec h).1 = .ok () ∧
      Holds t ((t.setTag name tag digest).run Fs.exec h).2
        (m.set ⟨name, hname.1⟩ ⟨tag, htag.1⟩ (some (Text.trim digest)))) ∨
    (¬ (IsSegment name ∧ IsSegment tag ∧ IsDigest (Text.trim digest)) ∧
      (∃ msg, ((t.setTag name tag digest).run Fs.exec h).1 = .error (.invalidFormat msg)) ∧
      ((t.setTag name tag digest).run Fs.exec h).2 = h) := by
  unfold setTag
  rcases validateTagSegment_cases name with ⟨hname, h1⟩ | ⟨hname, msg, h1⟩
  swap
  · rw [h1]
    exact .inr ⟨fun hall => hname hall.1, ⟨msg, rfl⟩, rfl⟩
  rcases validateTagSegment_cases tag with ⟨htag, h2⟩ | ⟨htag, msg, h2⟩
  swap
  · rw [h1, h2]
    exact .inr ⟨fun hall => htag hall.2.1, ⟨msg, rfl⟩, rfl⟩
  rw [h1, h2]
  by_cases hd : IsDigest (Text.trim digest)
  · rw [validateDigestFormat_of_isDigest hd]
    exact .inl ⟨hname, htag, hd, hm.run_writeTag hname.1 htag.1 _⟩
  · obtain ⟨msg, he⟩ := validateDigestFormat_of_not_isDigest hd
    rw [he]
    exact .inr ⟨fun hall => hd hall.2.2, ⟨msg, rfl⟩, rfl⟩

theorem Holds.run_readTag (n v : Name) :
    (readTag (t.tagsDir ++ [n, v])).run Fs.exec h = (.ok ((m n v).map Text.trim), h) := by
  cases hd : m n v with
  | none =>
    have hfile : h.isFile (t.tagsDir ++ [n, v]) = false := by
      rw [Fs.isFile, Fs.fileAt_of_lookup_none (hm.absent n v hd)]
      rfl
    exact run_readTag_of_not_isFile hfile
  | some d =>
    obtain ⟨-, i, hi, -, hbytes⟩ := hm.present n v d hd
    have hdata : Text.ofBytes? (h.data i) = some d := by
      rw [hbytes, Text.ofBytes?_toBytes]
    exact run_readTag_of_file hi hdata

/-- Reading a tag of valid segments gives its entry. -/
theorem Holds.run_getTag (name tag : String) :
    (∃ (hname : IsSegment name) (htag : IsSegment tag), (t.getTag name tag).run Fs.exec h =
      (.ok ((m ⟨name, hname.1⟩ ⟨tag, htag.1⟩).map Text.trim), h)) ∨
    (¬ (IsSegment name ∧ IsSegment tag) ∧
      ∃ msg, (t.getTag name tag).run Fs.exec h = (.error (.invalidFormat msg), h)) := by
  unfold getTag
  rcases validateTagSegment_cases name with ⟨hname, h1⟩ | ⟨hname, msg, h1⟩
  swap
  · rw [h1]
    exact .inr ⟨fun hall => hname hall.1, msg, rfl⟩
  rcases validateTagSegment_cases tag with ⟨htag, h2⟩ | ⟨htag, msg, h2⟩
  swap
  · rw [h1, h2]
    exact .inr ⟨fun hall => htag hall.2, msg, rfl⟩
  rw [h1, h2]
  dsimp only
  rw [tagPath_eq t hname.1 htag.1]
  exact .inl ⟨hname, htag, hm.run_readTag _ _⟩

/-- Removing a tag tells whether it was there. -/
theorem Holds.run_removeTag (name tag : String) :
    (∃ (hname : IsSegment name) (htag : IsSegment tag),
      ((t.removeTag name tag).run Fs.exec h).1 = .ok (m ⟨name, hname.1⟩ ⟨tag, htag.1⟩).isSome ∧
      Holds t ((t.removeTag name tag).run Fs.exec h).2
        (m.set ⟨name, hname.1⟩ ⟨tag, htag.1⟩ none)) ∨
    (¬ (IsSegment name ∧ IsSegment tag) ∧
      ∃ msg, (t.removeTag name tag).run Fs.exec h = (.error (.invalidFormat msg), h)) := by
  unfold removeTag
  rcases validateTagSegment_cases name with ⟨hname, h1⟩ | ⟨hname, msg, h1⟩
  swap
  · rw [h1]
    exact .inr ⟨fun hall => hname hall.1, msg, rfl⟩
  rcases validateTagSegment_cases tag with ⟨htag, h2⟩ | ⟨htag, msg, h2⟩
  swap
  · rw [h1, h2]
    exact .inr ⟨fun hall => htag hall.2, msg, rfl⟩
  rw [h1, h2]
  dsimp only
  rw [tagPath_eq t hname.1 htag.1, Fs.run_isFile]
  left
  refine ⟨hname, htag, ?_⟩
  cases hd : m ⟨name, hname.1⟩ ⟨tag, htag.1⟩ with
  | none =>
    have hfile : h.isFile (t.tagsDir ++ [⟨name, hname.1⟩, ⟨tag, htag.1⟩]) = false := by
      rw [Fs.isFile, Fs.fileAt_of_lookup_none (hm.absent _ _ hd)]
      rfl
    rw [hfile]
    rw [Entries.set_eq_self hd]
    exact ⟨rfl, hm⟩
  | some d =>
    obtain ⟨-, i, hi, -, -⟩ := hm.present _ _ d hd
    have hfile : h.isFile (t.tagsDir ++ [⟨name, hname.1⟩, ⟨tag, htag.1⟩]) = true := by
      rw [Fs.isFile, Fs.fileAt_of_lookup hi]
      rfl
    have hremove : h.removeFile (t.tagsDir ++ [⟨name, hname.1⟩, ⟨tag, htag.1⟩]) =
        (.ok (), h.unlink (t.tagsDir ++ [⟨name, hname.1⟩, ⟨tag, htag.1⟩])) := by
      rw [Fs.removeFile, hi]
    rw [hfile, if_pos rfl, Fs.run_removeFile, hremove]
    exact ⟨rfl, hm.remove hi⟩

end TagRegistry

end Modeld
