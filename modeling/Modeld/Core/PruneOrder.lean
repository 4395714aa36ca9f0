import Modeld.Core.Areas
import Modeld.Core.Opening
import Modeld.Core.PruneRun

/-!
# What pruning removes, whatever the directories hold

The entries that `prune` counts, in the order of the two listings, and the stretch of them that it
removes: among those that are not pinned, from the oldest on, the shortest that is enough.
-/

namespace Modeld

open Host Program

namespace EvictionManager

/-! ### What is counted -/

/-- The entry of the blobs directory has a digest. -/
def HasBlob (blobs : List DirEntry) (d : String) : Prop :=
  ∃ e ∈ blobs, e.metadata.isFile = true ∧ e.name.text = d

instance (blobs : List DirEntry) (d : String) : Decidable (HasBlob blobs d) :=
  inferInstanceAs (Decidable (∃ e ∈ blobs, _))

/-- A flat GGUF file that counts: its digest is not that of an entry of the blobs directory. -/
def flatEntry (blobs : List DirEntry) (e : DirEntry) : Option Candidate :=
  if e.metadata.isFile then
    (flatDigest e.name.text).bind fun d => if HasBlob blobs d then none else some (candidate d e)
  else none

/-- The entries that count, in the order of the listings. -/
def entriesOf (blobs cas : List DirEntry) : List Candidate :=
  (blobs.filter (·.metadata.isFile)).map (fun e => candidate e.name.text e) ++
    cas.filterMap (flatEntry blobs)

variable {root : Path} {h h' h₁ : Fs} {max : Nat} {blobs cas l : List DirEntry} {b : Candidate}
  {d : String} {found : List Candidate × Nat}

theorem sizes_append (a b : List Candidate) : sizes (a ++ b) = sizes a + sizes b := by
  simp [sizes]

theorem sizes_cons (b : Candidate) (rest : List Candidate) : sizes (b :: rest) = b.size + sizes rest := by
  simp [sizes]

/-- The walk through the blobs directory. -/
theorem foldl_scanBlob (hfound : found.2 = u64 (sizes found.1)) :
    l.foldl scanBlob found =
      (found.1 ++ (l.filter (·.metadata.isFile)).map (fun e => candidate e.name.text e),
        u64 (sizes (found.1 ++ (l.filter (·.metadata.isFile)).map (fun e => candidate e.name.text e)))) := by
  induction l generalizing found with
  | nil =>
    rw [List.foldl_nil, List.filter_nil, List.map_nil, List.append_nil, ← hfound]
  | cons e l ih =>
    rw [List.foldl_cons]
    cases hfile : e.metadata.isFile with
    | false =>
      rw [scanBlob_other hfile, ih hfound, List.filter_cons_of_neg (by simp [hfile])]
    | true =>
      have hpushed : u64 (found.2 + (candidate e.name.text e).size) =
          u64 (sizes (found.1 ++ [candidate e.name.text e])) := by
        rw [hfound, u64_add, sizes_append, sizes_cons]
        rfl
      have hcons : (e :: l).filter (·.metadata.isFile) = e :: l.filter (·.metadata.isFile) :=
        List.filter_cons_of_pos hfile
      rw [scanBlob_file hfile, ih hpushed, hcons, List.map_cons, List.append_assoc]
      rfl

/-- Names of flat files differ where their digests do. -/
theorem flatDigest_inj {a c : String} (ha : flatDigest a = some d) (hc : flatDigest c = some d) : a = c := by
  rw [flatDigest_eq_some.1 ha, flatDigest_eq_some.1 hc]

/-- The walk through the flat files: those found on the way do not hide one that comes later. -/
theorem foldl_scanFlat (hfound : found.2 = u64 (sizes found.1))
    (hnames : l.Pairwise fun a b => a.name ≠ b.name)
    (hknown : ∀ e ∈ l, ∀ d, flatDigest e.name.text = some d →
      (found.1.any (·.digest = d) = true ↔ HasBlob blobs d)) :
    l.foldl scanFlat found = (found.1 ++ l.filterMap (flatEntry blobs),
      u64 (sizes (found.1 ++ l.filterMap (flatEntry blobs)))) := by
  induction l generalizing found with
  | nil =>
    rw [List.foldl_nil, List.filterMap_nil, List.append_nil, ← hfound]
  | cons e l ih =>
    obtain ⟨hne, hnames⟩ := List.pairwise_cons.1 hnames
    have hrest := fun x hx => hknown x (List.mem_cons_of_mem _ hx)
    have hskip : scanFlat found e = found → flatEntry blobs e = none →
        (e :: l).foldl scanFlat found = (found.1 ++ (e :: l).filterMap (flatEntry blobs),
          u64 (sizes (found.1 ++ (e :: l).filterMap (flatEntry blobs)))) := by
      intro hsame hnone
      rw [List.foldl_cons, hsame, List.filterMap_cons_none hnone]
      exact ih hfound hnames hrest
    cases hfile : e.metadata.isFile with
    | false =>
      refine hskip ?_ ?_
      · unfold scanFlat
        rw [hfile]
      · unfold flatEntry
        rw [hfile]
        rfl
    | true =>
      cases hflat : flatDigest e.name.text with
      | none =>
        refine hskip ?_ ?_
        · unfold scanFlat
          rw [hfile, hflat]
        · unfold flatEntry
          rw [hfile, hflat]
          rfl
      | some d =>
        have hthis := hknown e (List.mem_cons_self ..) d hflat
        by_cases hblob : HasBlob blobs d
        · refine hskip ?_ ?_
          · unfold scanFlat
            rw [hfile, hflat]
            exact if_pos (hthis.2 hblob)
          · unfold flatEntry
            rw [hfile, hflat]
            exact if_pos hblob
        · have hpush : scanFlat found e =
              (found.1 ++ [candidate d e], u64 (found.2 + (candidate d e).size)) := by
            unfold scanFlat
            rw [hfile, hflat]
            exact if_neg (mt hthis.1 hblob)
          have hentry : flatEntry blobs e = some (candidate d e) := by
            unfold flatEntry
            rw [hfile, hflat]
            exact if_neg hblob
          rw [List.foldl_cons, hpush, List.filterMap_cons_some hentry, ih _ hnames, List.append_assoc]
          · rfl
          · intro x hx d' hd'
            have hdiffer : d ≠ d' := by
              rintro rfl
              exact hne x hx (Name.ext (flatDigest_inj hflat hd'))
            rw [← hrest x hx d' hd', List.any_append]
            simp [candidate, hdiffer]
          · rw [hfound, u64_add, sizes_append, sizes_cons]
            rfl

/-- What the two walks find. -/
theorem run_scan_eq (hblobs : h.readDir (CasStore.mk root).blobsDir = .ok blobs)
    (hcas : h.readDir (CasStore.mk root).casDir = .ok cas) :
    (scan ⟨root⟩).run Fs.exec h = (.ok (entriesOf blobs cas, u64 (sizes (entriesOf blobs cas))), h) := by
  have hisDir : ∀ p l, h.readDir p = .ok l → h.isDir p = true := by
    intro p l hl
    have hp := Fs.lookup_of_readDir hl
    rw [Fs.isDir, Fs.final_eq_self (by simp [hp]), hp]
    rfl
  have hread : ∀ p, (readDir p).run Fs.exec h = (h.readDir p, h) := fun _ => rfl
  unfold scan listBlobs
  rw [run_bind, Fs.run_isDir, hisDir _ _ hblobs, if_pos rfl, hread, hblobs]
  dsimp only
  rw [Fs.run_isDir, hisDir _ _ hcas, if_pos rfl, Fs.run_readDir, hcas]
  have hfirst := @foldl_scanBlob blobs ([], 0) rfl
  rw [List.nil_append] at hfirst
  rw [hfirst]
  show Program.run Fs.exec (Program.done (Except.ok (cas.foldl scanFlat _))) h = _
  rw [foldl_scanFlat rfl (Fs.pairwise_readDir hcas) fun e he d hd => ?_]
  · rfl
  · simp [HasBlob, candidate, List.any_map, List.any_filter]

/-! ### What is removed -/

theorem flatEntry_eq_some {e : DirEntry} (he : flatEntry blobs e = some b) :
    e.metadata.isFile = true ∧ ¬ HasBlob blobs b.digest ∧ flatDigest e.name.text = some b.digest ∧
      b = candidate b.digest e := by
  unfold flatEntry at he
  split at he
  swap
  · cases he
  rename_i hfile
  obtain ⟨d, hd, hentry⟩ := Option.bind_eq_some_iff.1 he
  split at hentry
  · cases hentry
  rename_i hno
  obtain rfl := Option.some.inj hentry
  exact ⟨hfile, hno, hd, rfl⟩

/-- Where a digest may have been found. -/
def FoundName (root : Path) (d : String) (p : Path) : Prop :=
  (PlainName d ∧ p = (CasStore.mk root).blobsDir.join d) ∨ p = (CasStore.mk root).flatGguf d

theorem FoundName.pruned {p : Path} (hp : FoundName root d p) : (CasStore.mk root).PrunedName d p :=
  hp.imp_left And.right

/-- The file of a candidate is there. -/
structure Present (root : Path) (h : Fs) (b : Candidate) : Prop where
  slash : '/' ∉ b.digest.toList
  file : ∃ p i, FoundName root b.digest p ∧ h.lookup p = some (.file i)

theorem present_of_mem (hblobs : h.readDir (CasStore.mk root).blobsDir = .ok blobs)
    (hcas : h.readDir (CasStore.mk root).casDir = .ok cas) (hb : b ∈ entriesOf blobs cas) :
    Present root h b := by
  rcases List.mem_append.1 hb with hb | hb
  · obtain ⟨e, he, rfl⟩ := List.mem_map.1 hb
    obtain ⟨he, hfile⟩ := List.mem_filter.1 he
    obtain ⟨x, hx, hmeta⟩ := (Fs.mem_readDir hblobs).1 he
    rw [hmeta] at hfile
    obtain ⟨i, rfl⟩ := Fs.stat_isFile.1 hfile
    exact ⟨e.name.plain.2.2.2, _, i, .inl ⟨e.name.plain, (Path.join_name _ _).symm⟩, hx⟩
  · obtain ⟨e, he, hentry⟩ := List.mem_filterMap.1 hb
    obtain ⟨x, hx, hmeta⟩ := (Fs.mem_readDir hcas).1 he
    obtain ⟨hfile, -, hd, -⟩ := flatEntry_eq_some hentry
    rw [hmeta] at hfile
    obtain ⟨i, rfl⟩ := Fs.stat_isFile.1 hfile
    have hname := flatDigest_eq_some.1 hd
    have hslash : '/' ∉ b.digest.toList := by
      have hplain := e.name.plain.2.2.2
      rw [hname, String.toList_append, String.toList_append] at hplain
      exact fun hmem => hplain (List.mem_append_left _ (List.mem_append_right _ hmem))
    refine ⟨hslash, _, i, .inr ?_, hx⟩
    rw [CasStore.flatGguf, ← hname]
    exact (Path.join_name _ _).symm

/-- Text without a separator leads to a path in the store. -/
theorem prunedName_in_cas {p : Path} (hd : '/' ∉ d.toList) (hp : (CasStore.mk root).PrunedName d p) :
    root ++ [Dir.cas] <+: p := by
  rcases hp with rfl | rfl
  · by_cases hplain : PlainName d
    · rw [CasStore.blobsDir_join hplain]
      simp
    · rcases Path.join_of_not_plain (CasStore.mk root).blobsDir hd hplain with hjoin | hjoin
      · rw [hjoin, CasStore.blobsDir_eq]
        simp
      · rw [hjoin, CasStore.blobsDir_eq]
        simp [List.dropLast_append_of_ne_nil]
  · rw [CasStore.flatGguf_eq hd]
    simp

/-- The files of some candidates were removed, and nothing else. -/
structure Evicts (root : Path) (gone : List Candidate) (h h' : Fs) : Prop where
  removed : ∀ p, (∃ b ∈ gone, (CasStore.mk root).PrunedName b.digest p) → h.lookup p ≠ some .dir →
    h'.lookup p = none
  kept : ∀ p, (¬ ∃ b ∈ gone, (CasStore.mk root).PrunedName b.digest p) ∨ h.lookup p = some .dir →
    h'.lookup p = h.lookup p
  rest : ∃ entries, h' = { h with entries := entries }

theorem Evicts.refl : Evicts root [] h h :=
  ⟨fun _ ⟨_, hb, _⟩ => absurd hb List.not_mem_nil, fun _ _ => rfl, h.entries, rfl⟩

theorem Evicts.trans {gone gone' : List Candidate} (hs : Evicts root gone h h₁)
    (hs' : Evicts root gone' h₁ h') : Evicts root (gone ++ gone') h h' where
  removed p hp hdir := by
    by_cases hfirst : ∃ b ∈ gone, (CasStore.mk root).PrunedName b.digest p
    · have hnone := hs.removed p hfirst hdir
      by_cases hsecond : ∃ b ∈ gone', (CasStore.mk root).PrunedName b.digest p
      · exact hs'.removed p hsecond (by rw [hnone]; nofun)
      · rw [hs'.kept p (.inl hsecond), hnone]
    · have hsame := hs.kept p (.inl hfirst)
      obtain ⟨b, hb, hbp⟩ := hp
      rcases List.mem_append.1 hb with hb | hb
      · exact absurd ⟨b, hb, hbp⟩ hfirst
      · exact hs'.removed p ⟨b, hb, hbp⟩ (by rwa [hsame])
  kept p hp := by
    rcases hp with hp | hp
    · have hno : ∀ l : List Candidate, l ⊆ gone ++ gone' →
          ¬ ∃ b ∈ l, (CasStore.mk root).PrunedName b.digest p := fun l hl ⟨b, hb, hbp⟩ =>
        hp ⟨b, hl hb, hbp⟩
      rw [hs'.kept p (.inl (hno _ (List.subset_append_right ..))),
        hs.kept p (.inl (hno _ (List.subset_append_left ..)))]
    · have hsame := hs.kept p (.inr hp)
      rw [hs'.kept p (.inr (hsame.trans hp)), hsame]
  rest := by
    obtain ⟨entries, rfl⟩ := hs.rest
    obtain ⟨entries', rfl⟩ := hs'.rest
    exact ⟨entries', rfl⟩

/-- Removing what may be at a path. -/
theorem run_removeAt (h : Fs) (p : Path) :
    (h.lookup p ≠ some .dir → (h.removeFile p).2.lookup p = none) ∧
    (∀ q, q ≠ p ∨ h.lookup p = some .dir → (h.removeFile p).2.lookup q = h.lookup q) ∧
    (∃ entries, (h.removeFile p).2 = { h with entries := entries }) ∧
    (∀ i, h.lookup p = some (.file i) → (h.removeFile p).1.isOk = true) := by
  rcases Fs.removeFile_cases h p with ⟨e, he, hne, hr⟩ | ⟨hnone | hdir, e, hr⟩
  · rw [hr]
    have hdir : h.lookup p ≠ some .dir := by
      rw [he]
      exact fun heq => hne (Option.some.inj heq)
    refine ⟨fun _ => Fs.lookup_unlink_self (Fs.ne_nil_of_lookup_ne_dir hdir), fun q hq => ?_, ⟨_, rfl⟩,
      fun _ _ => rfl⟩
    exact Fs.lookup_unlink_of_ne (hq.resolve_right hdir)
  · rw [hr]
    refine ⟨fun _ => hnone, fun _ _ => rfl, ⟨_, rfl⟩, fun i hi => ?_⟩
    exact absurd (hnone.symm.trans hi) nofun
  · rw [hr]
    refine ⟨fun hno => absurd hdir hno, fun _ _ => rfl, ⟨_, rfl⟩, fun i hi => ?_⟩
    exact absurd (hdir.symm.trans hi) nofun

/-- Removing both names of a candidate. -/
theorem evicts_one (b : Candidate) (h : Fs) :
    let s := CasStore.mk root
    let r1 := h.removeFile (s.blobsDir.join b.digest)
    let r2 := r1.2.removeFile (s.flatGguf b.digest)
    Evicts root [b] h r2.2 ∧ (Present root h b → (r1.1.isOk || r2.1.isOk) = true) := by
  intro s r1 r2
  obtain ⟨hgone₁, hkept₁, ⟨entries₁, hr₁⟩, hok₁⟩ := run_removeAt h (s.blobsDir.join b.digest)
  obtain ⟨hgone₂, hkept₂, ⟨entries₂, hr₂⟩, hok₂⟩ := run_removeAt r1.2 (s.flatGguf b.digest)
  refine ⟨⟨?_, ?_, entries₂, ?_⟩, fun hpresent => ?_⟩
  · rintro p ⟨c, hc, hp⟩ hdir
    obtain rfl := List.mem_singleton.1 hc
    by_cases hflat : p = s.flatGguf c.digest
    · by_cases hblob : p = s.blobsDir.join c.digest
      · have hnone : r1.2.lookup p = none := hblob ▸ hgone₁ (hblob ▸ hdir)
        rw [hflat]
        exact hgone₂ (by rw [← hflat, hnone]; nofun)
      · have hsame : r1.2.lookup p = h.lookup p := hkept₁ p (.inl hblob)
        rw [hflat]
        exact hgone₂ (by rwa [← hflat, hsame])
    · have hblob : p = s.blobsDir.join c.digest := hp.resolve_right hflat
      have hnone : r1.2.lookup p = none := hblob ▸ hgone₁ (hblob ▸ hdir)
      exact (hkept₂ p (.inl hflat)).trans hnone
  · intro p hp
    have hfirst : r1.2.lookup p = h.lookup p := by
      apply hkept₁
      rcases hp with hp | hp
      · exact .inl fun heq => hp ⟨b, List.mem_singleton_self b, .inl heq⟩
      · by_cases heq : p = s.blobsDir.join b.digest
        · exact .inr (heq ▸ hp)
        · exact .inl heq
    refine Eq.trans (hkept₂ p ?_) hfirst
    rcases hp with hp | hp
    · exact .inl fun heq => hp ⟨b, List.mem_singleton_self b, .inr heq⟩
    · by_cases heq : p = s.flatGguf b.digest
      · exact .inr (heq ▸ hfirst.trans hp)
      · exact .inl heq
  · rw [show r2.2 = _ from hr₂, show r1.2 = _ from hr₁]
  · obtain ⟨p, i, hp, hi⟩ := hpresent.file
    rw [Bool.or_eq_true]
    by_cases hblob : p = s.blobsDir.join b.digest
    · exact .inl (hok₁ i (hblob ▸ hi))
    · have hflat : p = s.flatGguf b.digest := hp.pruned.resolve_left hblob
      exact .inr (hok₂ i (hflat ▸ (hkept₁ p (.inl hblob)).trans hi))

/-- What was found for a digest is not removed for another one. -/
theorem FoundName.not_pruned {e : String} {p : Path} (hp : FoundName root d p) (hd : '/' ∉ d.toList)
    (he : '/' ∉ e.toList) (hne : d ≠ e) : ¬ (CasStore.mk root).PrunedName e p := by
  have hnotPlain : ¬ PlainName e → (CasStore.mk root).blobsDir.join e = root ++ [Dir.cas, Dir.blobs, Dir.sha256] ∨
      (CasStore.mk root).blobsDir.join e = root ++ [Dir.cas, Dir.blobs] := by
    intro hplain
    have hjoin := Path.join_of_not_plain (CasStore.mk root).blobsDir he hplain
    rw [CasStore.blobsDir_eq] at hjoin ⊢
    simpa [List.dropLast_append_of_ne_nil] using hjoin
  rintro (hblob | hflat)
  · by_cases hplain : PlainName e
    · rw [CasStore.blobsDir_join hplain] at hblob
      rcases hp with ⟨hplain', rfl⟩ | rfl
      · rw [CasStore.blobsDir_join hplain'] at hblob
        simp only [List.append_cancel_left_eq, List.cons.injEq, Name.mk.injEq, and_true, true_and] at hblob
        exact hne hblob
      · rw [CasStore.flatGguf_eq hd] at hblob
        simp at hblob
    · rcases hp with ⟨hplain', rfl⟩ | rfl
      · rw [CasStore.blobsDir_join hplain'] at hblob
        rcases hnotPlain hplain with heq | heq <;> rw [heq] at hblob <;> simp at hblob
      · rw [CasStore.flatGguf_eq hd] at hblob
        rcases hnotPlain hplain with heq | heq
        · rw [heq] at hblob
          simp at hblob
        · rw [heq] at hblob
          simp only [List.append_cancel_left_eq, List.cons.injEq, and_true, true_and] at hblob
          have htext := congrArg (fun n : Name => n.text.toList.head?) hblob
          simp at htext
  · rw [CasStore.flatGguf_eq he] at hflat
    rcases hp with ⟨hplain', rfl⟩ | rfl
    · rw [CasStore.blobsDir_join hplain'] at hflat
      simp at hflat
    · rw [CasStore.flatGguf_eq hd] at hflat
      simp only [List.append_cancel_left_eq, List.cons.injEq, Name.mk.injEq, and_true, true_and,
        Text.append_right_inj, Text.toList_append_inj] at hflat
      exact hne (by simpa using hflat)

theorem Present.of_evicts {c : Candidate} (hc : Present root h c) (hs : Evicts root [b] h h')
    (hb : '/' ∉ b.digest.toList) (hne : b.digest ≠ c.digest) : Present root h' c := by
  obtain ⟨p, i, hp, hi⟩ := hc.file
  refine ⟨hc.slash, p, i, hp, ?_⟩
  rw [hs.kept p (.inl ?_), hi]
  rintro ⟨x, hx, hpruned⟩
  obtain rfl := List.mem_singleton.1 hx
  exact hp.not_pruned hc.slash hb hne.symm hpruned

/-! ### Pins -/

/-- What `is_pinned` says of a digest. -/
def saysPinned (root : Path) (h : Fs) (d : String) : Bool := (((ofRoot root).isPinned d).run Fs.exec h).1

/-- Pins are files. -/
def PinsAreFiles (root : Path) (h : Fs) : Prop :=
  ∀ (n : Name) (t : Path), h.lookup (root ++ [Dir.pinned, n]) ≠ some (.symlink t)

theorem run_isPinned_eq (d : String) :
    ((ofRoot root).isPinned d).run Fs.exec h = (saysPinned root h d, h) := by
  have hstate := Only.run_eq (reads_of_looks (@only_isPinned (ofRoot root) d)) h
  unfold saysPinned
  generalize ((ofRoot root).isPinned d).run Fs.exec h = r at *
  exact congrArg (Prod.mk r.1) hstate

theorem saysPinned_of_format (hformat : isDigestFormat (Text.trim d) = true) :
    saysPinned root h d = h.isFile ((ofRoot root).pinnedDir.join (Text.trim d)) := by
  rw [saysPinned, isPinned, if_pos hformat]
  generalize (ofRoot root).pinnedDir.join (Text.trim d) = pin
  rfl

theorem saysPinned_of_not_format (hformat : ¬ isDigestFormat (Text.trim d) = true) :
    saysPinned root h d = false := by
  rw [saysPinned, isPinned, if_neg hformat]
  rfl

/-- No pin is in the store. -/
theorem Evicts.lookup_pin {gone : List Candidate} (hs : Evicts root gone h h')
    (hslash : ∀ b ∈ gone, '/' ∉ b.digest.toList) (n : Name) :
    h'.lookup (root ++ [Dir.pinned, n]) = h.lookup (root ++ [Dir.pinned, n]) := by
  apply hs.kept
  refine .inl ?_
  rintro ⟨b, hb, hp⟩
  have hpin : root ++ [Dir.pinned] <+: root ++ [Dir.pinned, n] := by simp
  exact not_under hpin (by decide) (prunedName_in_cas (hslash b hb) hp)

theorem Evicts.pinsAreFiles {gone : List Candidate} (hs : Evicts root gone h h')
    (hslash : ∀ b ∈ gone, '/' ∉ b.digest.toList) (hpins : PinsAreFiles root h) : PinsAreFiles root h' := by
  intro n t ht
  rw [hs.lookup_pin hslash] at ht
  exact hpins n t ht

/-- Evictions do not touch the pins. -/
theorem Evicts.saysPinned_eq {gone : List Candidate} (hs : Evicts root gone h h')
    (hslash : ∀ b ∈ gone, '/' ∉ b.digest.toList) (hpins : PinsAreFiles root h) (d : String) :
    saysPinned root h' d = saysPinned root h d := by
  by_cases hformat : isDigestFormat (Text.trim d) = true
  · have hd := isDigestFormat_eq_true.1 hformat
    have hsame := hs.lookup_pin hslash ⟨_, hd.plain⟩
    have hfile : ∀ h : Fs, PinsAreFiles root h → (h.isFile (root ++ [Dir.pinned, ⟨_, hd.plain⟩]) = true ↔
        ∃ i, h.lookup (root ++ [Dir.pinned, ⟨_, hd.plain⟩]) = some (.file i)) := by
      intro h hpins
      rw [Fs.isFile, Option.isSome_iff_exists]
      simp only [Fs.fileAt_eq_some, Fs.final_eq_self (hpins _)]
    rw [saysPinned_of_format hformat, saysPinned_of_format hformat, pinFile_eq hd, Bool.eq_iff_iff,
      hfile h hpins, hfile h' (hs.pinsAreFiles hslash hpins), hsame]
  · rw [saysPinned_of_not_format hformat, saysPinned_of_not_format hformat]

/-! ### The loop -/

/-- The candidates that are not pinned. -/
def unpinned (root : Path) (h : Fs) (l : List Candidate) : List Candidate :=
  l.filter fun b => !saysPinned root h b.digest

/-- A stretch of candidates from the first on is the shortest that brings a total within a quota, or
is all there are. -/
structure ShortestPrefix (candidates : List Candidate) (total max : Nat) (evicted : List Candidate) : Prop where
  taken : evicted <+: candidates
  minimal : ∀ shorter, shorter <+: candidates → shorter.length < evicted.length →
    max < total - sizes shorter
  enough : evicted = candidates ∨ total - sizes evicted ≤ max

theorem ShortestPrefix.nil {candidates : List Candidate} {total : Nat} (h : total ≤ max) :
    ShortestPrefix candidates total max [] :=
  ⟨List.nil_prefix, fun _ _ hlen => absurd hlen (Nat.not_lt_zero _), .inr ((Nat.sub_le ..).trans h)⟩

theorem ShortestPrefix.cons {rest evicted : List Candidate} {total : Nat} (hmax : max < total)
    (hs : ShortestPrefix rest (total - b.size) max evicted) :
    ShortestPrefix (b :: rest) total max (b :: evicted) where
  taken := List.cons_prefix_cons.2 ⟨rfl, hs.taken⟩
  minimal shorter hshorter hlen := by
    cases shorter with
    | nil => exact hmax
    | cons c shorter =>
      obtain ⟨rfl, hprefix⟩ := List.cons_prefix_cons.1 hshorter
      rw [sizes_cons, ← Nat.sub_sub]
      exact hs.minimal shorter hprefix (Nat.lt_of_succ_lt_succ hlen)
  enough := by
    rw [sizes_cons, ← Nat.sub_sub]
    exact hs.enough.imp_left (congrArg (List.cons b))

theorem unpinned_cons (l : List Candidate) : unpinned root h (b :: l) =
    if saysPinned root h b.digest = true then unpinned root h l else b :: unpinned root h l := by
  unfold unpinned
  rw [List.filter_cons]
  cases saysPinned root h b.digest <;> rfl

/-- The loop removes the shortest stretch that is enough. -/
theorem run_evict_shortest (hpins : PinsAreFiles root h) (blobs : List Candidate)
    (total reclaimed : Nat) (hpresent : ∀ b ∈ blobs, Present root h b)
    (hdistinct : blobs.Pairwise fun a b => a.digest ≠ b.digest) (hreclaimed : u64 reclaimed = reclaimed) :
    let r := ((ofRoot root).evict ⟨root⟩ max blobs total reclaimed).run Fs.exec h
    ∃ evicted, ShortestPrefix (unpinned root h blobs) total max evicted ∧ Evicts root evicted h r.2 ∧
      r.1 = u64 (reclaimed + sizes evicted) := by
  induction blobs generalizing h total reclaimed with
  | nil => exact ⟨[], ⟨List.prefix_refl _, fun _ _ hlen => absurd hlen (Nat.not_lt_zero _), .inl rfl⟩, .refl,
      hreclaimed.symm⟩
  | cons b rest ih =>
    obtain ⟨hb, hrest⟩ := List.pairwise_cons.1 hdistinct
    have hpresent' := fun c hc => hpresent c (List.mem_cons_of_mem b hc)
    have hfirst := hpresent b (List.mem_cons_self ..)
    rw [evict]
    by_cases hle : total ≤ max
    · rw [if_pos hle]
      exact ⟨[], .nil hle, .refl, hreclaimed.symm⟩
    rw [if_neg hle, run_bind, run_isPinned_eq, unpinned_cons]
    dsimp only
    cases hpin : saysPinned root h b.digest with
    | true =>
      rw [if_pos rfl, if_pos rfl]
      exact ih hpins total reclaimed hpresent' hrest hreclaimed
    | false =>
      obtain ⟨hone, hok⟩ := @evicts_one root b h
      rw [if_neg Bool.false_ne_true, if_neg Bool.false_ne_true, Fs.run_removeFile, Fs.run_removeFile,
        if_pos (hok hfirst)]
      generalize ((h.removeFile ((CasStore.mk root).blobsDir.join b.digest)).2.removeFile
        ((CasStore.mk root).flatGguf b.digest)).2 = h₁ at *
      have hslash : ∀ c ∈ [b], '/' ∉ c.digest.toList := by
        intro c hc
        rw [List.mem_singleton.1 hc]
        exact hfirst.slash
      obtain ⟨evicted, hshortest, hevicts, hresult⟩ := ih (hone.pinsAreFiles hslash hpins) (total - b.size)
        (u64 (reclaimed + b.size)) (fun c hc => (hpresent' c hc).of_evicts hone hfirst.slash (hb c hc))
        hrest (u64_u64 _)
      have hsame : unpinned root h₁ rest = unpinned root h rest := by
        apply List.filter_congr
        intro c _
        rw [hone.saysPinned_eq hslash hpins]
      rw [hsame] at hshortest
      refine ⟨b :: evicted, .cons (Nat.lt_of_not_le hle) hshortest, hone.trans hevicts, ?_⟩
      rw [hresult, u64_add, sizes_cons, Nat.add_assoc]

/-! ### The order -/

/-- Oldest first, and entries of one time in the order that they had. -/
structure SortedByAge (entries order : List Candidate) : Prop where
  perm : order.Perm entries
  sorted : order.Pairwise fun a b => a.modified ≤ b.modified
  stable : ∀ t, order.filter (·.modified = t) = entries.filter (·.modified = t)

theorem sortedByAge_byAge (entries : List Candidate) : SortedByAge entries (byAge entries) := by
  have hperm : (byAge entries).Perm entries := List.perm_insertionSort ..
  have htotal : Std.Total fun a b : Candidate => a.modified ≤ b.modified :=
    ⟨fun a b => Nat.le_total a.modified b.modified⟩
  have htrans : IsTrans Candidate fun a b => a.modified ≤ b.modified := ⟨fun _ _ _ => Nat.le_trans⟩
  refine ⟨hperm, List.pairwise_insertionSort _ entries, fun t => ?_⟩
  -- The entries of one time are sorted as they stand, so the sort keeps them as they stand.
  have hkept : (entries.filter (·.modified = t)).Sublist (byAge entries) := by
    refine List.sublist_insertionSort ?_ List.filter_sublist
    refine (List.pairwise_of_forall_mem_list fun a ha c hc => ?_)
    rw [List.mem_filter, decide_eq_true_eq] at ha hc
    exact (ha.2.trans hc.2.symm).le
  have hsub := hkept.filter (·.modified = t)
  rw [List.filter_filter, show (fun a : Candidate => decide (a.modified = t) && decide (a.modified = t)) =
    fun a => decide (a.modified = t) from funext fun a => Bool.and_self _] at hsub
  exact (hsub.eq_of_length ((hperm.filter _).length_eq.symm)).symm

/-- Each digest counts once. -/
theorem pairwise_entriesOf (hblobs : h.readDir (CasStore.mk root).blobsDir = .ok blobs)
    (hcas : h.readDir (CasStore.mk root).casDir = .ok cas) :
    (entriesOf blobs cas).Pairwise fun a b => a.digest ≠ b.digest := by
  rw [entriesOf, List.pairwise_append]
  refine ⟨?_, ?_, fun a ha c hc heq => ?_⟩
  · rw [List.pairwise_map]
    refine ((Fs.pairwise_readDir hblobs).filter _).imp fun hne heq => hne (Name.ext heq)
  · refine (Fs.pairwise_readDir hcas).filterMap _ fun e e' hne a ha c hc heq => hne (Name.ext ?_)
    obtain ⟨-, -, hd, -⟩ := flatEntry_eq_some ha
    obtain ⟨-, -, hd', -⟩ := flatEntry_eq_some hc
    exact flatDigest_inj hd (heq ▸ hd')
  · obtain ⟨e, he, rfl⟩ := List.mem_map.1 ha
    obtain ⟨he, hfile⟩ := List.mem_filter.1 he
    obtain ⟨e', -, hentry⟩ := List.mem_filterMap.1 hc
    obtain ⟨-, hno, -⟩ := flatEntry_eq_some hentry
    exact hno ⟨e, he, hfile, heq⟩

/-- What was evicted has no file left, and everything else has the one it had. -/
theorem Evicts.mem_iff {entries evicted : List Candidate} (hs : Evicts root evicted h h')
    (hdistinct : entries.Pairwise fun a b => a.digest ≠ b.digest) (hsub : evicted ⊆ entries)
    (hpresent : ∀ b ∈ entries, Present root h b) (hb : b ∈ entries) :
    b ∈ evicted ↔ ∀ p i, FoundName root b.digest p → h'.lookup p ≠ some (.file i) := by
  constructor
  · intro hmem p i hp
    by_cases hdir : h.lookup p = some .dir
    · rw [hs.kept p (.inr hdir), hdir]
      nofun
    · rw [hs.removed p ⟨b, hmem, hp.pruned⟩ hdir]
      nofun
  · intro hgone
    by_contra hmem
    obtain ⟨p, i, hp, hi⟩ := (hpresent b hb).file
    refine hgone p i hp ((hs.kept p (.inl ?_)).trans hi)
    rintro ⟨c, hc, hpruned⟩
    have hne : b.digest ≠ c.digest := by
      intro heq
      have hinj := List.inj_on_of_nodup_map (List.nodup_iff_pairwise_ne.2 (List.pairwise_map.2 hdistinct))
      exact hmem (hinj hb (hsub hc) heq ▸ hc)
    exact hp.not_pruned (hpresent b hb).slash (hpresent c (hsub hc)).slash hne hpruned

/-- What `prune` removes are entries that it counted. -/
theorem evicts_prune (hblobs : h.readDir (CasStore.mk root).blobsDir = .ok blobs)
    (hcas : h.readDir (CasStore.mk root).casDir = .ok cas) (hpins : PinsAreFiles root h) (max : Nat) :
    ∃ evicted, Evicts root evicted h (((ofRoot root).prune ⟨root⟩ max).run Fs.exec h).2 ∧
      evicted ⊆ entriesOf blobs cas := by
  have hage := sortedByAge_byAge (entriesOf blobs cas)
  unfold prune
  rw [run_bind, run_scan_eq hblobs hcas]
  dsimp only
  split
  · exact ⟨[], .refl, List.nil_subset _⟩
  · obtain ⟨evicted, hshortest, hevicts, -⟩ := @run_evict_shortest root h max hpins
      (byAge (entriesOf blobs cas)) (u64 (sizes (entriesOf blobs cas))) 0
      (fun b hb => present_of_mem hblobs hcas (hage.perm.mem_iff.1 hb))
      ((hage.perm.pairwise_iff fun hab => hab.symm).2 (pairwise_entriesOf hblobs hcas)) rfl
    rw [run_bind]
    refine ⟨evicted, hevicts, fun b hb => hage.perm.mem_iff.1 ?_⟩
    exact (hshortest.taken.sublist.trans List.filter_sublist).subset hb

theorem pinsAreFiles_of_wellFormed (hw : WellFormed root h) : PinsAreFiles root h := by
  intro n t ht
  have hpin : root ++ [Dir.pinned] <+: root ++ [Dir.pinned, n] := by simp
  exact not_linkPlace_of_area hpin (by decide) (by decide) (hw.links _ t (under_root hpin) ht)

end EvictionManager

end Modeld
