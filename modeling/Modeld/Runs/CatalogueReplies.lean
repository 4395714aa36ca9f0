import Modeld.Runs.CatalogueState
import Modeld.Runs.Identifiers

/-!
# What the daemon replies on a catalogue

A storage root that stands for a catalogue: what a client gets is what the catalogue says, and the storage
root goes on to stand for what becomes of the catalogue.
-/

namespace Modeld

open Host Program

/-- The storage root stands for the catalogue, and there is nothing but files in its staging directory. -/
structure Stands (root : Path) (h : Fs) (c : Catalogue) : Prop where
  wellFormed : WellFormed root h
  tags : (TagRegistry.ofRoot root).Refines h c.tags
  pins : (EvictionManager.ofRoot root).HoldsPins h c.pins
  stocked : ∃ file, Stocked root h file c.blobs
  staging : ∀ n, h.lookup (root ++ [Dir.cas, Dir.incoming, n]) ≠ some .dir

variable {root : Path} {h h' : Fs} {c : Catalogue} {d id : String} {json : JsonLibrary}
  {params : Option Json}

namespace Stands

/-! ### What is read -/

theorem isDigest_tag (hs : Stands root h c) {k : String × String} (hd : c.tags.lookup k = some d) :
    IsDigest d := (hs.tags.valid k d hd).2.2

theorem classify_eq (c : Catalogue) (id : String) :
    (TagRegistry.ofMap c.tags).classify (Text.trim id) = c.resolve id := by
  unfold Entries.classify Catalogue.resolve
  dsimp only
  generalize Text.trim id = s
  by_cases hhex : IsHex s
  · rw [if_pos hhex, if_pos hhex]
  rw [if_neg hhex, if_neg hhex]
  by_cases hs : IsTagged s
  · rw [dif_pos hs, if_pos hs]
    rfl
  · rw [dif_neg hs, if_neg hs]

theorem isDigest_of_resolve (hs : Stands root h c) (hd : c.resolve id = .ok d) : IsDigest d := by
  rw [← classify_eq] at hd
  exact Entries.isDigest_of_classify (fun _ _ _ he => hs.isDigest_tag he) hd

theorem run_resolveDigest (hs : Stands root h c) (id : String) :
    (resolveDigest (TagRegistry.ofRoot root) id).run Fs.exec h = (c.resolve id, h) := by
  rw [hs.tags.holds.run_resolveDigest (fun _ _ _ he => hs.isDigest_tag he), classify_eq]

/-- Resolving an identifier in the registry. -/
theorem run_resolve (hs : Stands root h c) (id : String) :
    (c.resolve id = .invalid ∧ ∃ e, ((TagRegistry.ofRoot root).resolve id).run Fs.exec h = (.error e, h)) ∨
    (c.resolve id = .notFound ∧ ((TagRegistry.ofRoot root).resolve id).run Fs.exec h = (.ok none, h)) ∨
    ∃ d, IsDigest d ∧ c.resolve id = .ok d ∧
      ((TagRegistry.ofRoot root).resolve id).run Fs.exec h = (.ok (some d), h) := by
  rw [← classify_eq]
  rcases hs.tags.holds.run_resolve (fun _ _ _ he => hs.isDigest_tag he) id with
    hinvalid | hnone | ⟨d, hd, hrun⟩
  · exact .inl hinvalid
  · exact .inr (.inl hnone)
  · exact .inr (.inr ⟨d, Entries.isDigest_of_classify (fun _ _ _ he => hs.isDigest_tag he) hd, hd, hrun⟩)

theorem content_eq (hs : Stands root h c) (hd : IsDigest d) :
    (CasStore.mk root).content h d = c.content d := by
  obtain ⟨file, hstocked⟩ := hs.stocked
  exact hstocked.content_eq hs.wellFormed hd

/-- Opening a digest. -/
theorem run_openBlob (hs : Stands root h c) (hd : IsDigest d) :
    (∃ i, c.content d = some (h.data i) ∧ ((CasStore.mk root).openBlob d).run Fs.exec h = (.ok i, h)) ∨
    (c.content d = none ∧ ((CasStore.mk root).openBlob d).run Fs.exec h = (.error (.notFound d), h)) := by
  rw [← hs.content_eq hd, CasStore.content_eq, CasStore.run_openBlob]
  cases h.fileAt ((CasStore.mk root).blobPathAt h d) with
  | none => exact .inr ⟨rfl, rfl⟩
  | some i => exact .inl ⟨i, rfl, rfl⟩

theorem run_blobSize (hs : Stands root h c) (hd : IsDigest d) :
    ((CasStore.mk root).blobSize d).run Fs.exec h =
      (match c.content d with
        | some x => .ok x.length
        | none => .error (.notFound d), h) := by
  have hname : (CasStore.mk root).Names d ((CasStore.mk root).blobPathAt h d) := CasStore.names_blobPathAt
  have hfinal := hs.wellFormed.final_eq (hname.under hd) (hname.not_linkPlace hd)
  have hdir := hs.wellFormed.notDir d _ hd hname
  unfold CasStore.blobSize
  rw [run_bind, CasStore.run_blobPath]
  dsimp only
  rw [Fs.run_metadata, ← hs.content_eq hd, CasStore.content_eq, Fs.fileAt, Fs.metadata, hfinal]
  cases hl : h.lookup ((CasStore.mk root).blobPathAt h d) with
  | none => rfl
  | some e =>
    cases e with
    | dir => exact absurd hl hdir
    | file i => rfl
    | symlink t => exact absurd (hs.wellFormed.links _ t (hname.under hd) hl) (hname.not_linkPlace hd)

theorem run_sizeOrZero (hs : Stands root h c) (hd : IsDigest d) :
    (sizeOrZero ⟨root⟩ d).run Fs.exec h = (c.size d, h) := by
  unfold sizeOrZero
  rw [run_bind, hs.run_blobSize hd, Catalogue.size]
  cases c.content d <;> rfl

theorem run_isPinned (hs : Stands root h c) (hd : IsDigest d) :
    ((EvictionManager.ofRoot root).isPinned d).run Fs.exec h = (decide (d ∈ c.pins), h) := by
  rw [hs.pins.run_isPinned, hd.trim_eq]

theorem run_detectFile {i : Ino} : (detectFile i).run Fs.exec h =
    (detectSafeFormat ((h.data i).take 16), h) := rfl

theorem run_listFormat (hs : Stands root h c) (hd : IsDigest d) :
    (listFormat ⟨root⟩ d).run Fs.exec h = (c.format d, h) := by
  unfold listFormat
  rw [run_bind, Catalogue.format]
  rcases hs.run_openBlob hd with ⟨i, hcontent, hrun⟩ | ⟨hcontent, hrun⟩
  · rw [hrun, hcontent]
    rfl
  · rw [hrun, hcontent]
    rfl

/-- What is reported about an open file is what is reported about its bytes. -/
theorem run_describeFile {format : Option SafeFormat} {i : Ino} :
    (describeFile json d format i).run Fs.exec h =
      (Catalogue.describeBytes json d format (h.data i), h) := by
  unfold describeFile Catalogue.describeBytes
  split
  · have hparse : (parseFile (parseSafetensorsHeader json) i).run Fs.exec h =
        (parseSafetensorsHeader json (h.data i), h) := rfl
    rw [run_bind, hparse]
    cases parseSafetensorsHeader json (h.data i) <;> rfl
  · have hparse : (parseFile parseGgufHeader i).run Fs.exec h = (parseGgufHeader (h.data i), h) := rfl
    rw [run_bind, hparse]
    cases parseGgufHeader (h.data i) <;> rfl

theorem run_inspectBlob (hs : Stands root h c) (hd : IsDigest d) :
    (inspectBlob json ⟨root⟩ d).run Fs.exec h = ((c.format d, c.description json d), h) := by
  unfold inspectBlob
  rw [run_bind, Catalogue.format, Catalogue.description]
  rcases hs.run_openBlob hd with ⟨i, hcontent, hrun⟩ | ⟨hcontent, hrun⟩
  · rw [hrun, hcontent]
    dsimp only
    rw [run_bind, run_detectFile]
    dsimp only
    rw [run_bind, run_describeFile]
    rfl
  · rw [hrun, hcontent]
    rfl

/-- The reply to `Register` about a blob. -/
theorem run_registerBlob (hs : Stands root h c) (hd : IsDigest d) :
    (registerBlob json ⟨root⟩ d).run Fs.exec h =
      (match c.refusal d with
        | some reason => .error
            (.err "io.syntrop.Model1.SecurityRejection" (some (.object [("reason", .str reason)])))
        | none => .ok (c.format d, c.description json d), h) := by
  unfold registerBlob
  rw [run_bind, Catalogue.format, Catalogue.description, Catalogue.refusal]
  rcases hs.run_openBlob hd with ⟨i, hcontent, hrun⟩ | ⟨hcontent, hrun⟩
  · rw [hrun, hcontent, Option.map_some]
    dsimp only
    rw [run_bind, run_detectFile]
    dsimp only
    cases detectSafeFormat ((h.data i).take 16) with
    | ok format =>
      dsimp only
      rw [run_bind, run_describeFile]
      rfl
    | error e =>
      cases e with
      | securityRejection reason => rfl
      | _ =>
        dsimp only
        rw [run_bind, run_describeFile]
        rfl
  · rw [hrun, hcontent]
    rfl

theorem run_listEntry (hs : Stands root h c) (tag : ModelTag) (hd : IsDigest tag.digest) :
    (listEntry (.ofRoot root) tag).run Fs.exec h = (c.entry tag, h) := by
  unfold listEntry
  rw [run_bind, hs.run_sizeOrZero hd]
  dsimp only
  rw [run_bind, hs.run_isPinned hd]
  dsimp only
  rw [run_bind, hs.run_listFormat hd]
  rfl

theorem run_listEntries (hs : Stands root h c) (tags : List ModelTag)
    (hd : ∀ tag ∈ tags, IsDigest tag.digest) :
    (listEntries (.ofRoot root) tags).run Fs.exec h = (tags.map c.entry, h) := by
  induction tags with
  | nil => rfl
  | cons tag tags ih =>
    rw [listEntries, run_bind, hs.run_listEntry tag (hd tag (List.mem_cons_self ..))]
    dsimp only
    rw [run_bind, ih fun t ht => hd t (List.mem_cons_of_mem _ ht)]
    rfl

/-! ### The methods that read -/

theorem run_list (hs : Stands root h c) :
    (handleList (.ofRoot root)).run Fs.exec h = (c.list, h) := by
  unfold handleList
  rw [run_bind, hs.tags.run_listTags]
  dsimp only
  rw [run_bind, Except.toOption, Option.getD_some, hs.run_listEntries]
  · rfl
  · intro tag htag
    exact hs.isDigest_tag (TagMap.mem_listing.1 htag)

theorem run_inspect (hs : Stands root h c) (json : JsonLibrary) (params : Option Json) :
    (handleInspect json params (.ofRoot root)).run Fs.exec h = (c.inspect json params, h) := by
  unfold handleInspect Catalogue.inspect
  cases textParam params "id" with
  | none => rfl
  | some id =>
    dsimp only
    rw [run_bind, hs.run_resolveDigest]
    cases hd : c.resolve id with
    | ok d =>
      have hdigest := hs.isDigest_of_resolve hd
      dsimp only
      rw [run_bind, hs.run_sizeOrZero hdigest]
      dsimp only
      rw [run_bind, hs.run_isPinned hdigest]
      dsimp only
      rw [run_bind, hs.run_inspectBlob hdigest]
      rfl
    | invalid => rfl
    | notFound => rfl

theorem run_stats (hs : Stands root h c) (hsum : c.total < 2 ^ 64) :
    (handleGetStorageStats (.ofRoot root)).run Fs.exec h = (c.stats, h) := by
  obtain ⟨file, hstocked⟩ := hs.stocked
  obtain ⟨hcount, htotal⟩ := hstocked.storageStats_eq hs.wellFormed
  have hreads := Only.run_eq (only_storageStats : Only Reads (storageStats ⟨root⟩)) h
  unfold handleGetStorageStats
  rw [run_bind, hreads, run_bind, hs.pins.run_listPinned, hcount, htotal]
  have hu64 : u64 (Quota.total Stocked.len c.blobs) = c.total := Nat.mod_eq_of_lt hsum
  rw [hu64, Catalogue.stats, ← Finset.length_sort (· ≤ ·)]
  rfl

/-- A handoff. -/
theorem run_handoff (hs : Stands root h c) (request : Json) :
    ∃ r, (handleFdRequest request ⟨root⟩ (TagRegistry.ofRoot root)).run Fs.exec h = (r, h) ∧
      r.toOption = c.handoff request := by
  unfold handleFdRequest Catalogue.handoff
  generalize (textParam (some request) "id").getD "" = id
  dsimp only
  rw [run_bind]
  rcases hs.run_resolve id with ⟨hc, e, hrun⟩ | ⟨hc, hrun⟩ | ⟨d, hd, hc, hrun⟩
  · rw [hrun, hc]
    exact ⟨_, rfl, rfl⟩
  · rw [hrun, hc]
    exact ⟨_, rfl, rfl⟩
  · rw [hrun, hc]
    dsimp only
    rw [run_bind, hs.run_blobSize hd]
    rcases hs.run_openBlob hd with ⟨i, hcontent, hopen⟩ | ⟨hcontent, hopen⟩
    · rw [hcontent]
      dsimp only
      rw [run_bind, hopen]
      exact ⟨_, rfl, rfl⟩
    · rw [hcontent]
      exact ⟨_, rfl, rfl⟩

end Stands

/-! ### What is left alone -/

/-- What leaves the pins alone leaves them the set that they are. -/
theorem EvictionManager.HoldsPins.of_sameArea {pins : PinSet} (hp : (ofRoot root).HoldsPins h pins)
    (hsame : SameArea root Dir.pinned h h') (hw : WellFormed root h') :
    (ofRoot root).HoldsPins h' pins where
  base q hq := by
    rcases List.prefix_concat_iff.1 hq with rfl | hq
    · exact hw.base _ (.inr (by simp [baseDirs]))
    · exact hw.base q (.inl hq)
  digest := hp.digest
  present n hn := by
    rw [hsame.lookup _ (List.prefix_append _ _)]
    exact hp.present n hn
  absent n hn := by
    rw [hsame.lookup _ (List.prefix_append _ _)]
    exact hp.absent n hn

/-- What leaves the tags alone leaves the registry the map that it is. -/
theorem TagRegistry.Refines.of_sameArea {tags : TagMap} (hr : (ofRoot root).Refines h tags)
    (hsame : SameArea root Dir.tags h h') (hw : WellFormed root h') : (ofRoot root).Refines h' tags :=
  ⟨hr.holds.of_sameArea hsame hw, hr.valid⟩

/-- A program that leaves the store alone, and writes only to files that it has created elsewhere. -/
theorem sameShelf_of_keeps {α : Type} {p : Io α} {Q : α → Prop}
    (hp : ∀ T, Keeps (fun o => Spare root Dir.cas o ∧ NotInto T o) (FreshHandle T) p Q)
    (hw : WellFormed root h) : SameShelf root h (p.run Fs.exec h).2 := by
  have hrun := Keeps.run (I := fun s => (WellFormed root s ∧ SameArea root Dir.cas h s) ∧
    SameShelf root h s) Fs.exec ?_ (hp (filesOf root Dir.cas h)) ⟨⟨hw, .refl⟩, .refl⟩
  · exact hrun.2.2
  rintro o s ⟨hspare, hinto⟩ ⟨⟨hws, harea⟩, hsame⟩
  obtain ⟨hfresh, hws', harea'⟩ := hspare.exec hinto hws harea
  refine ⟨hfresh, ⟨hws', harea'⟩, hsame.trans ⟨fun q hq => ?_, fun q j hq hj => ?_,
    (Fs.constants_exec o s).1, (Fs.constants_exec o s).2, Fs.ticks_exec o s⟩⟩
  · rw [harea'.lookup q hq.1, harea.lookup q hq.1]
  · apply Fs.inodes_exec o s (hws.fresh q j (under_root hq.1) hj)
    apply hspare.2.not_writes hspare.1 hws hq.1 hj
    rintro off b rfl
    rw [harea.lookup q hq.1] at hj
    exact hinto ⟨q, hq.1, hj⟩

theorem InArea.makesNoDir {x : Name} {o : Call} (ho : InArea root x o) (hx : x ≠ Dir.cas) :
    MakesNoDir root o := by
  refine ⟨ho.1, ?_⟩
  rintro p rfl
  exact .inr (ho.2 _ hx.symm)

/-- The call makes no directory. -/
def NoDirs (o : Call) : Prop := ∀ p, o ≠ .createDirAll p

theorem Reads.noDirs {o : Call} (ho : Reads o) : NoDirs o := by
  rintro p rfl
  exact ho

theorem makesNoDir_of_inArea {α : Type} {x : Name} {p : Io α} (hp : Only (InArea root x) p)
    (hno : Only NoDirs p) : Only (MakesNoDir root) p :=
  (Keeps.and hp hno).mono (fun _ ho => ⟨ho.1.1, fun q hq => absurd hq (ho.2 q)⟩) fun _ _ => trivial

theorem CasStore.noDirs_storeBlob {sha : Sha256} {pid : Pid} {reader : Reader}
    {expected : Option String} : Only NoDirs ((mk root).storeBlob sha pid reader expected) := by
  refine keeps_storeBlob (fun _ _ => keeps_blobPath fun _ ho => ho.reads.noDirs) ?_ ?_ ?_ ?_ ?_
  · rintro _ ⟨⟩
  · rintro _ _ ⟨⟩
  · rintro _ _ _ _ _ _ ⟨⟩
  · rintro _ _ ⟨⟩
  · rintro _ _ _ _ _ _ ⟨⟩

theorem EvictionManager.noDirs_prune {max : Nat} : Only NoDirs ((ofRoot root).prune ⟨root⟩ max) := by
  refine only_prune (fun _ ho => ho.reads.noDirs) ?_ ?_ fun _ _ => ⟨?_, ?_⟩
  · rintro _ ⟨⟩
  · rintro _ ⟨⟩
  · rintro _ ⟨⟩
  · rintro _ ⟨⟩

/-- Setting a tag writes to the file of the tag. -/
theorem TagRegistry.keeps_setTag {may : Call → Prop} {reply : (o : Call) → Reply o → Prop}
    {t : TagRegistry} {name tag : String} (hdirs : may (.createDirAll (t.tagsDir.join name)))
    (hcreate : may (.create ((t.tagsDir.join name).join tag)))
    (hwrite : ∀ i b, reply (.create ((t.tagsDir.join name).join tag)) (.ok i) → may (.writeAt i 0 b)) :
    Keeps may reply (t.setTag name tag d) fun _ => True := by
  unfold setTag
  rcases validateTagSegment_cases name with ⟨-, h1⟩ | ⟨-, e, h1⟩
  swap
  · rw [h1]
    exact (keeps_done _).2 trivial
  rcases validateTagSegment_cases tag with ⟨-, h2⟩ | ⟨-, e, h2⟩
  swap
  · rw [h1, h2]
    exact (keeps_done _).2 trivial
  rw [h1, h2]
  dsimp only
  split
  · exact (keeps_done _).2 trivial
  refine Keeps.perform hdirs fun r _ => ?_
  rcases r with e | -
  · exact (keeps_done _).2 trivial
  refine Keeps.perform hcreate fun r hr => ?_
  rcases r with e | i
  · exact (keeps_done _).2 trivial
  refine Keeps.perform (hwrite i _ hr) fun r _ => ?_
  cases r <;> exact (keeps_done _).2 trivial

theorem TagRegistry.keeps_setTag_spare {x : Name} (hx : x ≠ Dir.tags) (name tag d : String)
    (T : Set Ino) : Keeps (fun o => Spare root x o ∧ NotInto T o) (FreshHandle T)
      ((ofRoot root).setTag name tag d) fun _ => True := by
  refine (Keeps.and (Keeps.of_true (inArea_setTag.mono fun _ ho => ho.spare hx))
    (keeps_setTag trivial trivial ?_)).mono (fun _ => id) fun _ _ => trivial
  intro i b hi
  exact hi i rfl

namespace Stands

/-- No program that makes no directory in the store makes one for staging. -/
theorem staging_run {α : Type} {p : Io α} (hs : Stands root h c) (hp : Only (MakesNoDir root) p)
    (n : Name) : (p.run Fs.exec h).2.lookup (root ++ [Dir.cas, Dir.incoming, n]) ≠ some .dir := by
  intro hdir
  exact hs.staging n (dir_of_run hp hs.wellFormed (by simp) hdir)

/-! ### What is changed -/

/-- Setting a tag. -/
theorem setTag {name tag : String} (hs : Stands root h c) (hname : IsSegment name)
    (htag : IsSegment tag) (hd : IsDigest d) :
    (((TagRegistry.ofRoot root).setTag name tag d).run Fs.exec h).1 = .ok () ∧
      Stands root (((TagRegistry.ofRoot root).setTag name tag d).run Fs.exec h).2
        { c with tags := c.tags.insert (name, tag) d } := by
  have hset : IsSegment name ∧ IsSegment tag ∧ IsDigest (Text.trim d) := by
    rw [hd.trim_eq]
    exact ⟨hname, htag, hd⟩
  have hrefines := (hs.tags.step (.set name tag d)).2
  rw [TagRegistry.perform, TagMap.step, if_pos hset, hd.trim_eq, run_bind, pure_eq, run_done] at hrefines
  obtain ⟨hw', hpinned⟩ := Leaves.of_keeps (x := Dir.pinned)
    (TagRegistry.keeps_setTag_spare (by decide) name tag d) h hs.wellFormed
  have hshelf := sameShelf_of_keeps
    (TagRegistry.keeps_setTag_spare (by decide) name tag d) hs.wellFormed
  obtain ⟨file, hstocked⟩ := hs.stocked
  constructor
  · rcases hs.tags.holds.run_setTag name tag d with ⟨-, -, -, hok, -⟩ | ⟨hbad, -⟩
    · exact hok
    · exact absurd hset hbad
  · exact ⟨hw', hrefines, hs.pins.of_sameArea hpinned hw', ⟨file, hstocked.of_sameShelf hshelf⟩,
      hs.staging_run (TagRegistry.inArea_setTag.mono fun _ ho => ho.makesNoDir (by decide))⟩

/-- A program that changes the pins only. -/
theorem of_pins {α : Type} {p : Io α} {pins : PinSet} (hs : Stands root h c)
    (hp : Only (OffShelf root) p) (htags : Leaves root Dir.tags p)
    (hpins : (EvictionManager.ofRoot root).HoldsPins (p.run Fs.exec h).2 pins) :
    Stands root (p.run Fs.exec h).2 { c with pins := pins } := by
  obtain ⟨hw', hsame⟩ := htags h hs.wellFormed
  obtain ⟨file, hstocked⟩ := hs.stocked
  exact ⟨hw', hs.tags.of_sameArea hsame hw', hpins,
    ⟨file, hstocked.of_sameShelf (sameShelf_run hp hs.wellFormed).2⟩,
    hs.staging_run (hp.mono fun _ ho => ho.makesNoDir)⟩

theorem pin (hs : Stands root h c) (hd : IsDigest d) :
    (((EvictionManager.ofRoot root).pin d).run Fs.exec h).1 = .ok () ∧
      Stands root (((EvictionManager.ofRoot root).pin d).run Fs.exec h).2
        { c with pins := insert d c.pins } := by
  have hd' : IsDigest (Text.trim d) := by rwa [hd.trim_eq]
  obtain ⟨hok, hpins⟩ := hs.pins.run_pin hd'
  rw [hd.trim_eq] at hpins
  exact ⟨hok, hs.of_pins EvictionManager.offShelf_pin (EvictionManager.leaves_pin (by decide)) hpins⟩

theorem unpin (hs : Stands root h c) (hd : IsDigest d) :
    (∃ was, (((EvictionManager.ofRoot root).unpin d).run Fs.exec h).1 = .ok was) ∧
      Stands root (((EvictionManager.ofRoot root).unpin d).run Fs.exec h).2
        { c with pins := c.pins.erase d } := by
  have hd' : IsDigest (Text.trim d) := by rwa [hd.trim_eq]
  obtain ⟨hok, hpins⟩ := hs.pins.run_unpin hd'
  rw [hd.trim_eq] at hpins
  exact ⟨⟨_, hok⟩, hs.of_pins EvictionManager.offShelf_unpin (EvictionManager.leaves_unpin (by decide)) hpins⟩

/-- A program that changes the blobs only. -/
theorem of_blobs {α : Type} {p : Io α} {file : String → Ino} {blobs : List (String × Bytes)}
    (hs : Stands root h c) (hp : Only (MakesNoDir root) p)
    (hleaves : ∀ x, x ≠ Dir.cas → Leaves root x p) (hstocked : Stocked root (p.run Fs.exec h).2 file blobs) :
    Stands root (p.run Fs.exec h).2 { c with blobs := blobs } := by
  obtain ⟨hw', htags⟩ := hleaves Dir.tags (by decide) h hs.wellFormed
  obtain ⟨-, hpins⟩ := hleaves Dir.pinned (by decide) h hs.wellFormed
  exact ⟨hw', hs.tags.of_sameArea htags hw', hs.pins.of_sameArea hpins hw', ⟨file, hstocked⟩,
    hs.staging_run hp⟩

/-! ### The methods that write -/

/-- `Pin` and `Unpin`. -/
theorem run_handleDigest {α : Type} {operation : EvictionManager → String → Io (Except ModeldError α)}
    {change : String → PinSet → PinSet} (hs : Stands root h c)
    (hop : ∀ d, IsDigest d →
      (∃ a, ((operation (EvictionManager.ofRoot root) d).run Fs.exec h).1 = .ok a) ∧
      Stands root ((operation (EvictionManager.ofRoot root) d).run Fs.exec h).2
        { c with pins := change d c.pins }) :
    ((handleDigest operation params (.ofRoot root)).run Fs.exec h).1 = (c.repin change params).1 ∧
      Stands root ((handleDigest operation params (.ofRoot root)).run Fs.exec h).2
        (c.repin change params).2 := by
  unfold handleDigest Catalogue.repin
  cases textParam params "id" with
  | none => exact ⟨rfl, hs⟩
  | some id =>
    dsimp only
    rw [run_bind, hs.run_resolveDigest]
    cases hd : c.resolve id with
    | ok d =>
      obtain ⟨⟨a, hok⟩, hs'⟩ := hop d (hs.isDigest_of_resolve hd)
      dsimp only
      rw [run_bind, hok, pure_eq, run_done]
      exact ⟨rfl, hs'⟩
    | invalid => exact ⟨rfl, hs⟩
    | notFound => exact ⟨rfl, hs⟩

theorem run_prune (hs : Stands root h c) (hsum : c.total < 2 ^ 64) (params : Option Json) :
    ((handlePrune params (.ofRoot root)).run Fs.exec h).1 = (c.prune params).1 ∧
      Stands root ((handlePrune params (.ofRoot root)).run Fs.exec h).2 (c.prune params).2 := by
  unfold handlePrune Catalogue.prune
  dsimp only
  split
  · exact ⟨rfl, hs⟩
  obtain ⟨file, hstocked⟩ := hs.stocked
  obtain ⟨hok, hstocked'⟩ := hstocked.run_prune hs.wellFormed hs.pins hsum (maxBytesParam params) rfl
  rw [run_bind, hok]
  dsimp only
  rw [pure_eq, run_done]
  exact ⟨rfl, hs.of_blobs (makesNoDir_of_inArea EvictionManager.inArea_prune EvictionManager.noDirs_prune)
    (fun x hx => EvictionManager.leaves_prune hx) hstocked'⟩

theorem run_candidate (hs : Stands root h c) (name tag : String) (digest : Option String) :
    (digestCandidate (TagRegistry.ofRoot root) name tag digest).run Fs.exec h =
      (c.candidate name tag digest, h) := by
  unfold digestCandidate Catalogue.candidate
  cases digest with
  | some d => rfl
  | none =>
    dsimp only
    rw [run_bind]
    rcases hs.run_resolve (name ++ ":" ++ tag) with ⟨hc, e, hrun⟩ | ⟨hc, hrun⟩ | ⟨d, -, hc, hrun⟩ <;>
      rw [hrun, hc] <;> rfl

/-- What `Register` replies once the tag is set. -/
theorem run_describeEntry (hs : Stands root h c) (hd : IsDigest d) (name tag : String) :
    (describeEntry json (.ofRoot root) name tag d).run Fs.exec h = (c.registered json name tag d, h) := by
  unfold describeEntry Catalogue.registered
  rw [run_bind, hs.run_sizeOrZero hd]
  dsimp only
  rw [run_bind, hs.run_isPinned hd]
  dsimp only
  rw [run_bind, hs.run_registerBlob hd]
  cases c.refusal d <;> rfl

theorem run_registerDigest (hs : Stands root h c) {name tag : String} (hname : IsSegment name)
    (htag : IsSegment tag) (digest : Option String) :
    ((registerDigest json (.ofRoot root) name tag digest).run Fs.exec h).1 =
        (c.nameDigest json name tag digest).1 ∧
      Stands root ((registerDigest json (.ofRoot root) name tag digest).run Fs.exec h).2
        (c.nameDigest json name tag digest).2 := by
  unfold registerDigest Catalogue.nameDigest
  rw [run_bind, hs.run_candidate]
  cases c.candidate name tag digest with
  | error reply => exact ⟨rfl, hs⟩
  | ok x =>
    dsimp only
    by_cases hd : IsDigest (cleanDigest x)
    · obtain ⟨hok, hs'⟩ := hs.setTag hname htag hd
      rw [validateDigestFormat_of_isDigest hd]
      dsimp only
      rw [run_bind, hok]
      dsimp only
      rw [hs'.run_describeEntry hd]
      exact ⟨rfl, hs'⟩
    · obtain ⟨msg, he⟩ := validateDigestFormat_of_not_isDigest hd
      rw [he]
      exact ⟨rfl, hs⟩

theorem run_register (hs : Stands root h c) (json : JsonLibrary) (params : Option Json) :
    ((handleRegister json params (.ofRoot root)).run Fs.exec h).1 = (c.register json params).1 ∧
      Stands root ((handleRegister json params (.ofRoot root)).run Fs.exec h).2
        (c.register json params).2 := by
  unfold handleRegister Catalogue.register
  cases registerId params with
  | none => exact ⟨rfl, hs⟩
  | some id =>
    dsimp only
    rcases validateTagSegment_cases (registerTarget id (textParam params "tag")).1 with
      ⟨hname, h1⟩ | ⟨-, msg, h1⟩
    swap
    · rw [h1]
      exact ⟨rfl, hs⟩
    rcases validateTagSegment_cases (registerTarget id (textParam params "tag")).2 with
      ⟨htag, h2⟩ | ⟨-, msg, h2⟩
    swap
    · rw [h1, h2]
      exact ⟨rfl, hs⟩
    rw [h1, h2]
    exact hs.run_registerDigest hname htag _

end Stands

end Modeld
