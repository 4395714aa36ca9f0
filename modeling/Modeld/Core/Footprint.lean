import Modeld.Core.Layout

/-!
# Which calls the operations make

One lemma for each operation of the core: its calls satisfy every predicate that holds of the calls
named in the hypotheses. Callers instantiate the predicate and never unfold the operation.
-/

namespace Modeld

open Host Program

/-- Calls that change nothing. -/
def Reads : Call → Prop
  | .isFile _ | .isDir _ | .pathExists _ | .canonicalize _ | .metadata _ | .readDir _
  | .openFile _ | .read _ => True
  | _ => False

/-- Calls that look at an entry, or read from a file that is open. -/
def Looks : Call → Prop
  | .isFile _ | .isDir _ | .pathExists _ | .canonicalize _ | .metadata _ | .read _ => True
  | _ => False

theorem Looks.reads {o : Call} (ho : Looks o) : Reads o := by
  cases o <;> first | exact ho.elim | trivial

/-- A call that reads leaves everything as it is. -/
theorem Reads.answers {o : Call} {h h' : Fs} {r : Reply o} (ho : Reads o)
    (hs : Fs.Answers o h r h') : h' = h := by
  cases o <;> first | exact ho.elim | (rcases hs with hs | hf)
  all_goals first | exact (congrArg Prod.snd hs).symm | (cases hf; rfl)

/-- A program that only reads leaves everything as it is. -/
theorem Only.run_eq {α : Type} {p : Io α} (hp : Only Reads p) (h : Fs) :
    (p.run Fs.exec h).2 = h := by
  induction p with
  | done a => rfl
  | call o k ih =>
    rw [Only, keeps_call] at hp
    have heq : (Fs.exec o h).2 = h := hp.1.answers (r := (Fs.exec o h).1) (.inl rfl)
    rw [run_call, heq]
    exact ih _ (hp.2 _ trivial)

theorem reads_of_looks {α : Type} {p : Io α} (hp : Only Looks p) : Only Reads p :=
  hp.mono fun _ => Looks.reads

/-- Reading first does not move the state that the rest starts from. -/
theorem run_bind_of_reads {α β : Type} {p : Io α} (hp : Only Reads p) (f : α → Io β) (h : Fs) :
    (p >>= f).run Fs.exec h = (f (p.run Fs.exec h).1).run Fs.exec h := by
  rw [run_bind, Only.run_eq hp]

variable {may : Call → Prop}

namespace CasStore

variable {s : CasStore} {d : String}

/-- `CasStore::new` returns the store of its root. -/
theorem keeps_new {root : Path} {reply : (o : Call) → Reply o → Prop}
    (hblobs : may (.createDirAll (mk root).blobsDir))
    (hincoming : may (.createDirAll (mk root).incomingDir)) :
    Keeps may reply (new root) fun r => ∀ s, r = .ok s → s = ⟨root⟩ := by
  refine Keeps.perform hblobs fun r _ => ?_
  rcases r with e | -
  · exact (keeps_done _).2 nofun
  refine Keeps.perform hincoming fun r _ => ?_
  rcases r with e | -
  · exact (keeps_done _).2 nofun
  · exact (keeps_done _).2 fun s hs => (Except.ok.inj hs).symm

/-- `blob_path` returns one of the three names. -/
theorem keeps_blobPath {reply : (o : Call) → Reply o → Prop} (hlooks : ∀ o, Looks o → may o) :
    Keeps may reply (s.blobPath d) (s.Names d) := by
  unfold blobPath
  refine Keeps.perform (hlooks _ trivial) fun r _ => ?_
  split
  · exact (keeps_done _).2 (.inl rfl)
  refine Keeps.perform (hlooks _ trivial) fun r _ => ?_
  split
  · exact (keeps_done _).2 (.inr (.inl rfl))
  refine Keeps.perform (hlooks _ trivial) fun r _ => ?_
  split
  · exact (keeps_done _).2 (.inr (.inr rfl))
  · exact (keeps_done _).2 (.inl rfl)

theorem only_blobPath : Only Looks (s.blobPath d) :=
  (keeps_blobPath fun _ => id).mono (fun _ => id) fun _ _ => trivial

/-- `open_blob` opens one of the three names. -/
theorem keeps_openBlob {reply : (o : Call) → Reply o → Prop} (hlooks : ∀ o, Looks o → may o)
    (hopen : ∀ p, s.Names d p → may (.openFile p)) :
    Keeps may reply (s.openBlob d) fun _ => True := by
  refine (keeps_blobPath hlooks).bind fun path hpath => ?_
  refine Keeps.perform (hlooks _ trivial) fun r _ => ?_
  split
  · exact (keeps_done _).2 trivial
  refine Keeps.perform (hopen path hpath) fun r _ => ?_
  cases r <;> exact (keeps_done _).2 trivial

theorem only_openBlob : Only Reads (s.openBlob d) :=
  keeps_openBlob (fun _ => Looks.reads) fun _ _ => trivial

theorem only_blobSize : Only Looks (s.blobSize d) := by
  refine only_blobPath.bind fun path => ?_
  refine Only.perform trivial fun r => ?_
  cases r <;> exact only_done _

theorem keeps_storeLoop {reply : (o : Call) → Reply o → Prop} {file : Ino}
    (hwrite : ∀ off b, may (.writeAt file off b)) (reader : Reader) (hashed : Bytes) (total : Nat) :
    Keeps may reply (storeLoop file reader hashed total) fun _ => True := by
  induction reader generalizing hashed total with
  | nil => exact (keeps_done _).2 trivial
  | cons chunk reader ih =>
    rcases chunk with e | chunk
    · exact (keeps_done _).2 trivial
    unfold storeLoop
    split
    · exact (keeps_done _).2 trivial
    refine Keeps.perform (hwrite _ _) fun r _ => ?_
    rcases r with e | -
    · exact (keeps_done _).2 trivial
    · exact ih _ _

theorem keeps_storeStaged {reply : (o : Call) → Reply o → Prop} {temp : Path} {total : Nat}
    {expected : Option String} {N : Path → Prop} (hblob : Keeps may reply (s.blobPath d) N)
    (hremove : may (.removeFile temp)) (hrename : ∀ target, N target → may (.rename temp target)) :
    Keeps may reply (s.storeStaged temp d total expected) fun _ => True := by
  unfold storeStaged
  split
  · exact Keeps.perform hremove fun _ _ => (keeps_done _).2 trivial
  refine Keeps.bind hblob fun target htarget => ?_
  refine Keeps.perform (hrename target htarget) fun r _ => ?_
  cases r <;> exact (keeps_done _).2 trivial

/-- The staging path for a nonce. -/
def stagePath (s : CasStore) (nonce : String) : Path := s.incomingDir.join ("stage-" ++ nonce)

/-- The nonce that a value of the counter gives. -/
def nonceOf (pid : Pid) (counter : Nat) : String := Text.hex pid ++ "-" ++ Text.hex counter

/-- `store_blob` writes to the file that it has created, and renames it to what `blob_path` gives. -/
theorem keeps_storeBlob {reply : (o : Call) → Reply o → Prop} {sha : Sha256} {pid : Pid}
    {reader : Reader} {expected : Option String} {N : String → Path → Prop}
    (hblob : ∀ d, IsDigest d → Keeps may reply (s.blobPath d) (N d)) (hcounter : may (.fetchAdd pid)) (hcreate : ∀ n, may (.create (s.stagePath (nonceOf pid n))))
    (hwrite : ∀ n i off b, reply (.create (s.stagePath (nonceOf pid n))) (.ok i) →
      may (.writeAt i off b))
    (hremove : ∀ n, may (.removeFile (s.stagePath (nonceOf pid n))))
    (hrename : ∀ n d target, IsDigest d → N d target →
      may (.rename (s.stagePath (nonceOf pid n)) target)) :
    Keeps may reply (s.storeBlob sha pid reader expected) fun _ => True := by
  refine Keeps.perform hcounter fun n _ => ?_
  refine Keeps.perform (hcreate n) fun r hr => ?_
  rcases r with e | file
  · exact (keeps_done _).2 trivial
  refine (keeps_storeLoop (fun off b => hwrite n file off b hr) reader [] 0).bind fun r _ => ?_
  rcases r with e | ⟨hashed, total⟩
  · exact (keeps_done _).2 trivial
  · exact keeps_storeStaged (hblob _ (sha.isDigest_hash _)) (hremove n) fun target =>
      hrename n _ target (sha.isDigest_hash _)

end CasStore

namespace EvictionManager

variable {m : EvictionManager} {cas : CasStore} {d : String} {max : Nat}

theorem only_pin (hcreate : IsDigest (Text.trim d) → may (.create (m.pinnedDir.join (Text.trim d)))) :
    Only may (m.pin d) := by
  unfold pin
  by_cases hd : IsDigest (Text.trim d)
  · simp only [validateDigestFormat_of_isDigest hd]
    refine Only.perform (hcreate hd) fun r => ?_
    cases r <;> exact only_done _
  · obtain ⟨e, he⟩ := validateDigestFormat_of_not_isDigest hd
    simp only [he]
    exact only_done _

theorem only_unpin (hlooks : ∀ o, Looks o → may o)
    (hremove : IsDigest (Text.trim d) → may (.removeFile (m.pinnedDir.join (Text.trim d)))) :
    Only may (m.unpin d) := by
  unfold unpin
  by_cases hd : IsDigest (Text.trim d)
  · simp only [validateDigestFormat_of_isDigest hd]
    refine Only.perform (hlooks _ trivial) fun r => ?_
    split
    · refine Only.perform (hremove hd) fun r => ?_
      cases r <;> exact only_done _
    · exact only_done _
  · obtain ⟨e, he⟩ := validateDigestFormat_of_not_isDigest hd
    simp only [he]
    exact only_done _

theorem keeps_isPinned {reply : (o : Call) → Reply o → Prop} (hlooks : ∀ o, Looks o → may o) :
    Keeps may reply (m.isPinned d) fun _ => True := by
  unfold isPinned
  split
  · exact Keeps.perform (f := fun r => .done r) (hlooks _ trivial) fun _ _ => (keeps_done _).2 trivial
  · exact (keeps_done _).2 trivial

theorem only_isPinned : Only Looks (m.isPinned d) := keeps_isPinned fun _ => id

theorem keeps_listPinned {reply : (o : Call) → Reply o → Prop} (hlooks : ∀ o, Looks o → may o)
    (hdir : may (.readDir m.pinnedDir)) : Keeps may reply m.listPinned fun _ => True := by
  refine Keeps.perform (hlooks _ trivial) fun r _ => ?_
  split
  · exact (keeps_done _).2 trivial
  refine Keeps.perform hdir fun r _ => ?_
  cases r <;> exact (keeps_done _).2 trivial

theorem only_listPinned : Only Reads m.listPinned := keeps_listPinned (fun _ => Looks.reads) trivial

section Scan

variable {P : String → Prop} {found : List Candidate × Nat}

private theorem forall_scanBlob (hname : ∀ n : Name, P n.text) (hfound : ∀ b ∈ found.1, P b.digest)
    (e : DirEntry) : ∀ b ∈ (scanBlob found e).1, P b.digest := by
  unfold scanBlob
  split
  · intro b hb
    rcases List.mem_append.1 hb with hb | hb
    · exact hfound b hb
    · rw [List.mem_singleton.1 hb]
      exact hname e.name
  · exact hfound

private theorem forall_scanFlat {e : DirEntry}
    (hflat : e.metadata.isFile = true → ∀ d, flatDigest e.name.text = some d → P d)
    (hfound : ∀ b ∈ found.1, P b.digest) : ∀ b ∈ (scanFlat found e).1, P b.digest := by
  unfold scanFlat
  split
  · rename_i digest hfile hdigest
    split
    · exact hfound
    · intro b hb
      rcases List.mem_append.1 hb with hb | hb
      · exact hfound b hb
      · rw [List.mem_singleton.1 hb]
        exact hflat hfile digest hdigest
  · exact hfound

private theorem forall_foldl {f : List Candidate × Nat → DirEntry → List Candidate × Nat}
    (entries : List DirEntry) (found : List Candidate × Nat)
    (hf : ∀ e ∈ entries, ∀ found, (∀ b ∈ found.1, P b.digest) → ∀ b ∈ (f found e).1, P b.digest)
    (hfound : ∀ b ∈ found.1, P b.digest) : ∀ b ∈ (entries.foldl f found).1, P b.digest := by
  induction entries generalizing found with
  | nil => exact hfound
  | cons e entries ih =>
    exact ih _ (fun x hx => hf x (List.mem_cons_of_mem _ hx)) (hf e (List.mem_cons_self ..) _ hfound)

/-- The digest in the name of a flat file has no separator. -/
theorem flatDigest_slash {e : DirEntry} {d : String} (hd : flatDigest e.name.text = some d) :
    '/' ∉ d.toList := by
  obtain ⟨rest, hrest, hext⟩ := Option.bind_eq_some_iff.1 hd
  have hname := Text.stripPrefix_eq_some.1 hrest
  rw [Text.stripSuffix_eq_some.1 hext] at hname
  have hplain := e.name.plain.2.2.2
  rw [hname] at hplain
  simp only [String.toList_append, List.mem_append, not_or] at hplain
  exact hplain.2.1

/-- The digests that a scan finds are file names, or stand in the names of flat files. -/
theorem keeps_scan {reply : (o : Call) → Reply o → Prop} (hlooks : ∀ o, Looks o → may o)
    (hblobsDir : may (.readDir cas.blobsDir)) (hcasDir : may (.readDir cas.casDir))
    (hname : ∀ n : Name, P n.text)
    (hflat : ∀ flats, reply (.readDir cas.casDir) (.ok flats) → ∀ e ∈ flats,
      e.metadata.isFile = true → ∀ d, flatDigest e.name.text = some d → P d) :
    Keeps may reply (scan cas) fun r => ∀ found, r = .ok found → ∀ b ∈ found.1, P b.digest := by
  have hlist : Keeps may reply (listBlobs cas) fun _ => True := by
    refine Keeps.perform (hlooks _ trivial) fun r _ => ?_
    split
    · exact Keeps.perform (f := fun r => .done r) hblobsDir fun r _ => (keeps_done _).2 trivial
    · exact (keeps_done _).2 trivial
  refine hlist.bind fun r _ => ?_
  rcases r with e | entries
  · exact (keeps_done _).2 nofun
  have hblobs := forall_foldl (P := P) entries ([], 0)
    (fun e _ _ hfound => forall_scanBlob hname hfound e) (by simp)
  refine Keeps.perform (hlooks _ trivial) fun r _ => ?_
  split
  · refine Keeps.perform hcasDir fun r hr => ?_
    rcases r with e | flats
    · refine (keeps_done _).2 ?_
      rintro _ ⟨⟩
      exact hblobs
    · refine (keeps_done _).2 ?_
      rintro _ ⟨⟩
      exact forall_foldl flats _
        (fun e he _ hfound => forall_scanFlat (hflat flats hr e he) hfound) hblobs
  · refine (keeps_done _).2 ?_
    rintro _ ⟨⟩
    exact hblobs

end Scan

theorem only_scan : Only Reads (scan cas) :=
  (keeps_scan (P := fun _ => True) (fun _ => Looks.reads) trivial trivial (fun _ => trivial)
    fun _ _ _ _ _ _ _ => trivial).mono (fun _ => id) fun _ _ => trivial

/-- Of each candidate, `evict` removes the two paths, unless it is told that the digest is pinned. -/
theorem keeps_evict {reply : (o : Call) → Reply o → Prop} (hlooks : ∀ o, Looks o → may o)
    (blobs : List Candidate)
    (hblobs : ∀ b ∈ blobs, Keeps may reply (m.isPinned b.digest) (· = true) ∨
      (may (.removeFile (cas.blobsDir.join b.digest)) ∧ may (.removeFile (cas.flatGguf b.digest))))
    (total reclaimed : Nat) :
    Keeps may reply (m.evict cas max blobs total reclaimed) fun _ => True := by
  induction blobs generalizing total reclaimed with
  | nil => exact (keeps_done _).2 trivial
  | cons b rest ih =>
    have ih' := ih fun c hc => hblobs c (List.mem_cons_of_mem _ hc)
    unfold evict
    split
    · exact (keeps_done _).2 trivial
    rcases hblobs b (List.mem_cons_self ..) with hpinned | ⟨h1, h2⟩
    · refine hpinned.bind fun pinned heq => ?_
      rw [if_pos heq]
      exact ih' _ _
    refine (keeps_isPinned hlooks).bind fun pinned _ => ?_
    split
    · exact ih' _ _
    refine Keeps.perform h1 fun r1 _ => ?_
    refine Keeps.perform h2 fun r2 _ => ?_
    split
    · exact ih' _ _
    · exact ih' _ _

theorem keeps_prune {reply : (o : Call) → Reply o → Prop} {P : String → Prop}
    (hlooks : ∀ o, Looks o → may o)
    (hblobsDir : may (.readDir cas.blobsDir)) (hcasDir : may (.readDir cas.casDir))
    (hname : ∀ n : Name, P n.text)
    (hflat : ∀ flats, reply (.readDir cas.casDir) (.ok flats) → ∀ e ∈ flats,
      e.metadata.isFile = true → ∀ d, flatDigest e.name.text = some d → P d)
    (hblobs : ∀ x : String, P x → Keeps may reply (m.isPinned x) (· = true) ∨
      (may (.removeFile (cas.blobsDir.join x)) ∧ may (.removeFile (cas.flatGguf x)))) :
    Keeps may reply (m.prune cas max) fun _ => True := by
  refine (keeps_scan hlooks hblobsDir hcasDir hname hflat).bind fun found hfound => ?_
  rcases found with e | ⟨blobs, total⟩
  · exact (keeps_done _).2 trivial
  change Keeps may reply (if total ≤ max then _ else _) _
  split
  · exact (keeps_done _).2 trivial
  · refine (keeps_evict hlooks _ (fun b hb => hblobs _ ?_) _ _).bind fun _ _ => (keeps_done _).2 trivial
    exact hfound _ rfl b ((List.perm_insertionSort _ _).mem_iff.1 hb)

/-- Whatever the directories hold, the digests have no separator. -/
theorem keeps_prune_slash {reply : (o : Call) → Reply o → Prop} (hlooks : ∀ o, Looks o → may o)
    (hblobsDir : may (.readDir cas.blobsDir)) (hcasDir : may (.readDir cas.casDir))
    (hblobs : ∀ x : String, '/' ∉ x.toList → Keeps may reply (m.isPinned x) (· = true) ∨
      (may (.removeFile (cas.blobsDir.join x)) ∧ may (.removeFile (cas.flatGguf x)))) :
    Keeps may reply (m.prune cas max) fun _ => True :=
  keeps_prune hlooks hblobsDir hcasDir (fun n => n.plain.2.2.2)
    (fun _ _ _ _ _ _ hd => flatDigest_slash hd) hblobs

theorem only_prune (hlooks : ∀ o, Looks o → may o) (hblobsDir : may (.readDir cas.blobsDir))
    (hcasDir : may (.readDir cas.casDir))
    (hremove : ∀ x : String, '/' ∉ x.toList →
      may (.removeFile (cas.blobsDir.join x)) ∧ may (.removeFile (cas.flatGguf x))) :
    Only may (m.prune cas max) :=
  keeps_prune_slash hlooks hblobsDir hcasDir fun x hx => .inr (hremove x hx)

end EvictionManager

namespace TagRegistry

variable {t : TagRegistry} {name tag d id : String}

/-- `TagRegistry::new` returns the registry of its root. -/
theorem keeps_new {root : Path} {reply : (o : Call) → Reply o → Prop}
    (htags : may (.createDirAll (root.join "tags"))) :
    Keeps may reply (new root) fun r => ∀ t, r = .ok t → t = ⟨root.join "tags"⟩ := by
  refine Keeps.perform htags fun r _ => ?_
  rcases r with e | -
  · exact (keeps_done _).2 nofun
  · exact (keeps_done _).2 fun t ht => (Except.ok.inj ht).symm

theorem keeps_readTag {reply : (o : Call) → Reply o → Prop} {p : Path}
    (hlooks : ∀ o, Looks o → may o) (hopen : may (.openFile p)) :
    Keeps may reply (readTag p) fun _ => True := by
  refine Keeps.perform (hlooks _ trivial) fun r _ => ?_
  split
  · exact (keeps_done _).2 trivial
  refine Keeps.perform hopen fun r _ => ?_
  rcases r with e | file
  · exact (keeps_done _).2 trivial
  refine Keeps.perform (hlooks _ trivial) fun r _ => ?_
  rcases r with e | bytes
  · exact (keeps_done _).2 trivial
  · dsimp only
    split <;> exact (keeps_done _).2 trivial

/-- `get_tag` opens the file of a tag of valid segments. -/
theorem keeps_getTag {reply : (o : Call) → Reply o → Prop} (hlooks : ∀ o, Looks o → may o)
    (hopen : IsSegment name → IsSegment tag → may (.openFile ((t.tagsDir.join name).join tag))) :
    Keeps may reply (t.getTag name tag) fun _ => True := by
  unfold getTag
  rcases validateTagSegment_cases name with ⟨hname, h1⟩ | ⟨-, e, h1⟩
  swap
  · rw [h1]
    exact (keeps_done _).2 trivial
  rcases validateTagSegment_cases tag with ⟨htag, h2⟩ | ⟨-, e, h2⟩
  swap
  · rw [h1, h2]
    exact (keeps_done _).2 trivial
  · rw [h1, h2]
    exact keeps_readTag hlooks (hopen hname htag)

theorem only_getTag : Only Reads (t.getTag name tag) :=
  keeps_getTag (fun _ => Looks.reads) fun _ _ => trivial

theorem keeps_listModel {reply : (o : Call) → Reply o → Prop} (hlooks : ∀ o, Looks o → may o)
    (hopen : ∀ tag, IsSegment name → IsSegment tag →
      may (.openFile ((t.tagsDir.join name).join tag)))
    (entries : List DirEntry) (result : List ModelTag) :
    Keeps may reply (t.listModel name entries result) fun _ => True := by
  induction entries generalizing result with
  | nil => exact (keeps_done _).2 trivial
  | cons e entries ih =>
    unfold listModel
    split
    · refine (keeps_getTag hlooks (hopen _)).bind fun r _ => ?_
      rcases r with err | digest | digest
      · exact (keeps_done _).2 trivial
      · exact ih _
      · exact ih _
    · exact ih _

theorem only_listModel (entries : List DirEntry) (result : List ModelTag) :
    Only Reads (t.listModel name entries result) :=
  keeps_listModel (fun _ => Looks.reads) (fun _ _ _ => trivial) entries result

/-- The directories of models are opened, and in them the files of tags. -/
theorem keeps_listModels {reply : (o : Call) → Reply o → Prop} (hlooks : ∀ o, Looks o → may o)
    (hopen : ∀ name tag, IsSegment name → IsSegment tag →
      may (.openFile ((t.tagsDir.join name).join tag)))
    (entries : List DirEntry) (hdirs : ∀ e ∈ entries, may (.readDir (t.tagsDir ++ [e.name])))
    (result : List ModelTag) : Keeps may reply (t.listModels entries result) fun _ => True := by
  induction entries generalizing result with
  | nil => exact (keeps_done _).2 trivial
  | cons e entries ih =>
    have ih' := ih fun x hx => hdirs x (List.mem_cons_of_mem _ hx)
    unfold listModels
    split
    · refine Keeps.perform (hdirs e (List.mem_cons_self ..)) fun r _ => ?_
      rcases r with err | tagEntries
      · exact (keeps_done _).2 trivial
      refine (keeps_listModel hlooks (hopen _) _ _).bind fun r _ => ?_
      rcases r with err | result
      · exact (keeps_done _).2 trivial
      · exact ih' _
    · exact ih' _

theorem only_listModels (entries : List DirEntry) (result : List ModelTag) :
    Only Reads (t.listModels entries result) :=
  keeps_listModels (fun _ => Looks.reads) (fun _ _ _ _ => trivial) entries (fun _ _ => trivial) result

theorem keeps_listTags {reply : (o : Call) → Reply o → Prop} (hlooks : ∀ o, Looks o → may o)
    (hopen : ∀ name tag, IsSegment name → IsSegment tag →
      may (.openFile ((t.tagsDir.join name).join tag)))
    (hdir : may (.readDir t.tagsDir))
    (hdirs : ∀ entries, reply (.readDir t.tagsDir) (.ok entries) → ∀ e ∈ entries,
      may (.readDir (t.tagsDir ++ [e.name]))) :
    Keeps may reply t.listTags fun _ => True := by
  refine Keeps.perform (hlooks _ trivial) fun r _ => ?_
  split
  · exact (keeps_done _).2 trivial
  refine Keeps.perform hdir fun r hr => ?_
  rcases r with e | entries
  · exact (keeps_done _).2 trivial
  refine (keeps_listModels hlooks hopen entries (hdirs entries hr) _).bind fun r _ => ?_
  cases r <;> exact (keeps_done _).2 trivial

theorem only_listTags : Only Reads t.listTags :=
  keeps_listTags (fun _ => Looks.reads) (fun _ _ _ _ => trivial) trivial fun _ _ _ _ => trivial

theorem keeps_resolve {reply : (o : Call) → Reply o → Prop} (hlooks : ∀ o, Looks o → may o)
    (hopen : ∀ name tag, IsSegment name → IsSegment tag →
      may (.openFile ((t.tagsDir.join name).join tag))) :
    Keeps may reply (t.resolve id) fun _ => True := by
  unfold resolve
  dsimp only
  split
  · split <;> exact (keeps_done _).2 trivial
  split
  · exact (keeps_done _).2 trivial
  split
  · exact (keeps_done _).2 trivial
  · exact keeps_getTag hlooks (hopen _ _)

theorem only_resolve : Only Reads (t.resolve id) :=
  keeps_resolve (fun _ => Looks.reads) fun _ _ _ _ => trivial

theorem only_writeTag (hdirs : may (.createDirAll (t.tagsDir.join name)))
    (hcreate : may (.create ((t.tagsDir.join name).join tag)))
    (hwrite : ∀ i b, may (.writeAt i 0 b)) : Only may (t.writeTag name tag d) := by
  refine Only.perform hdirs fun r => ?_
  rcases r with e | -
  · exact only_done _
  refine Only.perform hcreate fun r => ?_
  rcases r with e | file
  · exact only_done _
  refine Only.perform (hwrite _ _) fun r => ?_
  cases r <;> exact only_done _

theorem only_setTag
    (hdirs : IsSegment name → may (.createDirAll (t.tagsDir.join name)))
    (hcreate : IsSegment name → IsSegment tag → may (.create ((t.tagsDir.join name).join tag)))
    (hwrite : ∀ i b, may (.writeAt i 0 b)) : Only may (t.setTag name tag d) := by
  unfold setTag
  rcases validateTagSegment_cases name with ⟨hname, h1⟩ | ⟨-, e, h1⟩
  · rcases validateTagSegment_cases tag with ⟨htag, h2⟩ | ⟨-, e, h2⟩
    · simp only [h1, h2]
      split
      · exact only_done _
      · exact only_writeTag (hdirs hname) (hcreate hname htag) hwrite
    · simp only [h1, h2]
      exact only_done _
  · simp only [h1]
    exact only_done _

end TagRegistry

/-! ### Where the calls go -/

theorem Reads.inArea {root : Path} {x : Name} {o : Call} (ho : Reads o) : InArea root x o := by
  cases o <;> first | exact ho.elim | exact ⟨trivial, fun _ _ => trivial⟩

/-- The call keeps to the layout and leaves the pins alone. -/
def KeepsPins (root : Path) (o : Call) : Prop := Tidy root o ∧ Avoids (root ++ [Dir.pinned]) o

theorem InArea.keepsPins {root : Path} {x : Name} {o : Call} (ho : InArea root x o)
    (hx : x ≠ Dir.pinned) : KeepsPins root o := ⟨ho.1, ho.2 _ hx.symm⟩

/-- What is under a directory in one area is not in another. -/
theorem not_under {root p : Path} {x y : Name} (hp : root ++ [x] <+: p) (hy : y ≠ x) :
    ¬ root ++ [y] <+: p :=
  fun h => hy (area_unique h hp)

namespace CasStore

variable {s : CasStore} {d : String} {pid : Pid} {n : Nat}

theorem plain_stage (pid : Pid) (n : Nat) : PlainName ("stage-" ++ nonceOf pid n) := by
  have hhex := fun k => Text.not_mem_hex k (c := '/') (by decide)
  exact PlainName.append (by decide) (by simp [nonceOf, hhex])

theorem stagePath_eq : s.stagePath (nonceOf pid n) =
    s.rootDir ++ [Dir.cas, Dir.incoming, ⟨"stage-" ++ nonceOf pid n, plain_stage pid n⟩] := by
  rw [stagePath, incomingDir_eq, Path.join_of_plain _ (plain_stage pid n)]
  simp

/-- No name of a digest is in the staging directory. -/
theorem not_names_incoming (hd : IsDigest d) (n : Name) :
    ¬ s.Names d (s.rootDir ++ [Dir.cas, Dir.incoming, n]) := by
  intro h
  rcases (names_iff hd).1 h with h | h | h <;> simp at h

/-- No name of a digest is on the way to the blobs directory. -/
theorem not_prefix_blobsDir (hd : IsDigest d) {p : Path} (hp : s.Names d p) :
    ¬ p <+: s.blobsDir := by
  intro h
  rw [blobsDir_eq] at h
  rcases (names_iff hd).1 hp with rfl | rfl | rfl <;>
    have h' := (List.prefix_append_right_inj _).1 h <;>
    simp [List.cons_prefix_cons, ← String.toList_inj] at h'

theorem inArea_blobsDir {root : Path} :
    InArea root Dir.cas (.createDirAll (CasStore.mk root).blobsDir) := by
  refine ⟨fun q hq d hd hnames => not_prefix_blobsDir hd hnames hq, fun y hy => not_under ?_ hy⟩
  rw [blobsDir_eq]
  simp

theorem inArea_incomingDir {root : Path} :
    InArea root Dir.cas (.createDirAll (CasStore.mk root).incomingDir) := by
  have hcas : root ++ [Dir.cas] <+: (CasStore.mk root).incomingDir := by
    rw [incomingDir_eq]
    simp
  refine ⟨fun q hq d hd hnames => ?_, fun y hy => not_under hcas hy⟩
  rw [incomingDir_eq] at hq
  have hlen := hq.length_le
  rcases (CasStore.names_iff hd).1 hnames with rfl | rfl | rfl
  · simp at hlen
  · have h' := (List.prefix_append_right_inj _).1 hq
    simp [List.cons_prefix_cons, ← String.toList_inj] at h'
  · have h' := (List.prefix_append_right_inj _).1 hq
    simp [List.cons_prefix_cons, ← String.toList_inj] at h'

theorem inArea_storeBlob {sha : Sha256} {reader : Reader} {expected : Option String} :
    Only (InArea s.rootDir Dir.cas) (s.storeBlob sha pid reader expected) := by
  have hcas : ∀ n, s.rootDir ++ [Dir.cas] <+: s.stagePath (nonceOf pid n) := fun n => by
    rw [stagePath_eq]
    simp
  have hlink : ∀ n, ¬ LinkPlace s.rootDir (s.stagePath (nonceOf pid n)) := fun n =>
    not_linkPlace_of_area (hcas n) (by decide) (by decide)
  refine keeps_storeBlob (fun _ _ => keeps_blobPath fun _ ho => ho.reads.inArea) ⟨trivial, fun _ _ => trivial⟩ (fun n => ?_)
    (fun _ _ _ _ _ => ⟨trivial, fun _ _ => trivial⟩) (fun n => ?_) (fun n d target hd htarget => ?_)
  · exact ⟨⟨under_root (hcas n), hlink n⟩, fun y hy => not_under (hcas n) hy⟩
  · exact ⟨trivial, fun y hy => not_under (hcas n) hy⟩
  · refine ⟨⟨under_root (hcas n), hlink n, htarget.not_linkPlace hd, fun e he => ?_⟩,
      fun y hy => ⟨not_under (hcas n) hy, not_under (htarget.in_cas hd) hy⟩⟩
    rw [stagePath_eq]
    exact not_names_incoming he _

end CasStore

namespace EvictionManager

variable {d : String} {root : Path} {max : Nat}

/-- The eviction manager of a storage root. -/
abbrev ofRoot (root : Path) : EvictionManager := ⟨root ++ [Dir.pinned]⟩

theorem pinFile_eq (hd : IsDigest d) :
    (ofRoot root).pinnedDir.join d = root ++ [Dir.pinned, ⟨d, hd.plain⟩] := by
  rw [Path.join_of_plain _ hd.plain]
  simp

theorem inArea_pin : Only (InArea root Dir.pinned) ((ofRoot root).pin d) := by
  refine only_pin fun hd => ?_
  have hp : root ++ [Dir.pinned] <+: (ofRoot root).pinnedDir.join (Text.trim d) := by
    rw [pinFile_eq hd]
    simp
  exact ⟨⟨under_root hp, not_linkPlace_of_area hp (by decide) (by decide)⟩,
    fun y hy => not_under hp hy⟩

theorem inArea_unpin : Only (InArea root Dir.pinned) ((ofRoot root).unpin d) := by
  refine only_unpin (fun _ ho => ho.reads.inArea) fun hd => ⟨trivial, fun y hy => not_under ?_ hy⟩
  rw [pinFile_eq hd]
  simp

/-- What `prune` removes is in the store, whatever the candidate is called. -/
theorem in_cas_candidate {x : String} (hx : '/' ∉ x.toList) :
    root ++ [Dir.cas] <+: (CasStore.mk root).blobsDir.join x := by
  by_cases hplain : PlainName x
  · rw [CasStore.blobsDir_join hplain]
    simp
  · rw [CasStore.blobsDir_eq]
    rcases Path.join_of_not_plain (root ++ [Dir.cas, Dir.blobs, Dir.sha256]) hx hplain with h | h
    · rw [h]
      simp
    · rw [h, List.dropLast_append_of_ne_nil (by simp)]
      simp

theorem inArea_prune : Only (InArea root Dir.cas) ((ofRoot root).prune ⟨root⟩ max) := by
  refine only_prune (fun _ ho => ho.reads.inArea) (Reads.inArea trivial) (Reads.inArea trivial) fun x hx =>
    ⟨⟨trivial, fun y hy => not_under (in_cas_candidate hx) hy⟩,
      ⟨trivial, fun y hy => not_under ?_ hy⟩⟩
  rw [CasStore.flatGguf_eq hx]
  simp

end EvictionManager

namespace TagRegistry

variable {root : Path} {name tag d : String}

/-- The tag registry of a storage root. -/
abbrev ofRoot (root : Path) : TagRegistry := ⟨root ++ [Dir.tags]⟩

theorem tagFile_eq (hname : IsSegment name) (htag : IsSegment tag) :
    ((ofRoot root).tagsDir.join name).join tag =
      root ++ [Dir.tags, ⟨name, hname.1⟩, ⟨tag, htag.1⟩] := by
  rw [Path.join_of_plain _ hname.1, Path.join_of_plain _ htag.1]
  simp

theorem inArea_tagsDir : InArea root Dir.tags (.createDirAll (root.join "tags")) := by
  rw [Path.join_name _ Dir.tags]
  refine ⟨fun q hq d hd hnames => ?_, fun y hy => not_under (x := Dir.tags) List.prefix_rfl hy⟩
  exact not_under (x := Dir.tags) List.prefix_rfl (by decide) ((hnames.in_cas hd).trans hq)

theorem inArea_setTag : Only (InArea root Dir.tags) ((ofRoot root).setTag name tag d) := by
  refine only_setTag (fun hname => ?_) (fun hname htag => ?_)
    (fun _ _ => ⟨trivial, fun _ _ => trivial⟩)
  · have hdir : (ofRoot root).tagsDir.join name = root ++ [Dir.tags, ⟨name, hname.1⟩] := by
      rw [Path.join_of_plain _ hname.1]
      simp
    rw [hdir]
    refine ⟨fun q hq d hd hnames => ?_, fun y hy => not_under (by simp) hy⟩
    exact not_under (x := Dir.tags) (y := Dir.cas) (by simp) (by decide) ((hnames.in_cas hd).trans hq)
  · rw [tagFile_eq hname htag]
    exact ⟨⟨List.prefix_append _ _, not_linkPlace_of_area (x := Dir.tags) (by simp) (by decide)
      (by decide)⟩, fun y hy => not_under (by simp) hy⟩

end TagRegistry

end Modeld
