import Modeld.Core.Grips

/-!
# Tasks that share a storage root

Any number of tasks, interleaved in any way, with calls that may fail at any time. Each operation has
one lemma that says what it returns in such company.
-/

namespace Modeld

open Host Program

variable {ι : Type} {sha : Sha256} {root : Path} {h h' s s' : Fs} {d : String} {p : Path} {i j : ι}
  {γ : ι → Grip} {g : Grip} {o : Call} {r : Reply o} {α β : Type} {pid : Pid} {n : Nat}

/-- The storage root is intact, every task holds what it believes to hold, and no two tasks have the
same number. -/
structure Shared (sha : Sha256) (root : Path) (γ : ι → Grip) (s : Fs) : Prop where
  intact : Intact sha root s
  holds : ∀ i, (γ i).Holds sha root s
  counted : ∀ i pid n, (γ i).claim = some (pid, n) → n < s.counters pid
  apart : ∀ i j c, (γ i).claim = some c → (γ j).claim = some c → i = j

namespace Shared

theorem wellFormed (hs : Shared sha root γ s) : WellFormed root s := hs.intact.sound.wellFormed

/-- A quiet call changes no grip. -/
theorem quiet (hs : Shared sha root γ s) (ho : Quiet root o) (ha : Fs.Answers o s r s') :
    Shared sha root γ s' := by
  refine ⟨ho.intact hs.intact ha, fun j => ?_, fun j pid n hj => ?_, hs.apart⟩
  · exact (hs.holds j).answers hs.wellFormed ha (ho.spared hs.wellFormed (hs.holds j))
  · exact (hs.counted j pid n hj).trans_le (counters_le ha pid)

variable [DecidableEq ι]

/-- A task gets another grip, with no number but its own. -/
theorem step (hs : Shared sha root γ s) (ha : Fs.Answers o s r s') (hintact : Intact sha root s')
    (hspared : ∀ j, j ≠ i → (γ j).Spared root s o) (hg : g.Holds sha root s')
    (hclaim : ∀ c, g.claim = some c → (γ i).claim = some c) :
    Shared sha root (Function.update γ i g) s' := by
  have hclaims : ∀ j c, (Function.update γ i g j).claim = some c → (γ j).claim = some c := by
    intro j c hj
    rcases eq_or_ne j i with rfl | hne
    · rw [Function.update_self] at hj
      exact hclaim c hj
    · rwa [Function.update_of_ne hne] at hj
  refine ⟨hintact, fun j => ?_, fun j pid n hj => ?_, fun j k c hj hk => ?_⟩
  · rcases eq_or_ne j i with rfl | hne
    · rwa [Function.update_self]
    · rw [Function.update_of_ne hne]
      exact (hs.holds j).answers hs.wellFormed ha (hspared j hne)
  · exact (hs.counted j pid n (hclaims j _ hj)).trans_le (counters_le ha pid)
  · exact hs.apart j k c (hclaims j c hj) (hclaims k c hk)

/-- A task takes a number from the counter of its process. -/
theorem fetchAdd (hs : Shared sha root γ s) (i : ι) (pid : Pid) :
    Shared sha root (Function.update γ i (.number pid (s.counters pid))) (s.fetchAdd pid).2 := by
  have ha : Fs.Answers (.fetchAdd pid) s (s.counters pid) (s.fetchAdd pid).2 := .inl rfl
  have hputs : PutsNoBlob root (.fetchAdd pid) := ⟨trivial, trivial⟩
  have hlt : ∀ j, (γ j).claim ≠ some (pid, s.counters pid) := fun j hj =>
    lt_irrefl _ (hs.counted j pid _ hj)
  refine ⟨hs.intact.of_not_makes hputs ha id fun _ => id, fun j => ?_, fun j pid' n hj => ?_,
    fun j k c hj hk => ?_⟩
  · rcases eq_or_ne j i with rfl | hne
    · rw [Function.update_self]
      exact trivial
    · rw [Function.update_of_ne hne]
      refine (hs.holds j).answers hs.wellFormed ha ?_
      cases γ j with
      | staging => exact ⟨id, id⟩
      | tag => exact id
      | blob =>
        refine ⟨id, ?_⟩
        rintro a b (heq | heq) <;> cases heq
      | _ => exact trivial
  · rcases eq_or_ne j i with rfl | hne
    · rw [Function.update_self] at hj
      cases hj
      change s.counters pid < Function.update s.counters pid (s.counters pid + 1) pid
      rw [Function.update_self]
      exact Nat.lt_succ_self _
    · rw [Function.update_of_ne hne] at hj
      exact (hs.counted j pid' n hj).trans_le (counters_le ha pid')
  · by_cases hji : j = i <;> by_cases hki : k = i
    · exact hji.trans hki.symm
    · rw [hji, Function.update_self] at hj
      rw [Function.update_of_ne hki, ← hj] at hk
      exact absurd hk (hlt k)
    · rw [hki, Function.update_self] at hk
      rw [Function.update_of_ne hji, ← hk] at hj
      exact absurd hj (hlt j)
    · rw [Function.update_of_ne hji] at hj
      rw [Function.update_of_ne hki] at hk
      exact hs.apart j k c hj hk

/-- A call on the staging file of a task. -/
theorem stage (hs : Shared sha root γ s) (ha : Fs.Answers o s r s')
    (hclaim : (γ i).claim = some (pid, n)) (ho : Stages root s pid n o)
    (hintact : Intact sha root s') (hg : g.Holds sha root s')
    (hg' : g.claim = none ∨ g.claim = some (pid, n)) :
    Shared sha root (Function.update γ i g) s' := by
  refine hs.step ha hintact (fun j hne => ?_) hg fun c hc => ?_
  · exact ho.spared hs.wellFormed (hs.holds j) fun hj => hne (hs.apart j i _ hj hclaim)
  · rcases hg' with hnone | hsame
    · rw [hnone] at hc
      cases hc
    · rw [hclaim, ← hsame, hc]

end Shared

/-! ### Programs in company -/

variable [DecidableEq ι]

/-- A program of task `i`, which starts with the grip `g`, in any company. -/
abbrev InCompany (sha : Sha256) (root : Path) (i : ι) (p : Io α) (Q : α → Grip → Prop) (g : Grip) :
    Prop :=
  Pool.Outline Fs.Answers (fun _ _ _ _ => True) (fun γ s _ => Shared sha root γ s)
    (fun _ _ _ _ => True) i p Q g

namespace InCompany

variable {Q : α → Grip → Prop} {R : β → Grip → Prop}

theorem done {a : α} (hq : Q a g) : InCompany sha root i (Program.done a : Io α) Q g :=
  (Pool.outline_done _).2 hq

/-- One call. -/
theorem call {o : Call} {f : Reply o → Io β}
    (hcall : ∀ γ s r s', γ i = g → Shared sha root γ s → Fs.Answers o s r s' →
      ∃ g', Shared sha root (Function.update γ i g') s' ∧ InCompany sha root i (f r) R g') :
    InCompany sha root i (Program.perform o >>= f) R g :=
  Pool.Outline.perform fun γ s _ hγ hs => ⟨trivial, fun r s' _ ha => hcall γ s r s' hγ hs ha⟩

/-- A quiet call, of whose answer the rest may know something. -/
theorem quiet {o : Call} {f : Reply o → Io β} (ho : Quiet root o)
    (hf : ∀ γ s r s', γ i = g → Shared sha root γ s → Fs.Answers o s r s' →
      InCompany sha root i (f r) R g) :
    InCompany sha root i (Program.perform o >>= f) R g := by
  refine call fun γ s r s' hγ hs ha => ⟨g, ?_, hf γ s r s' hγ hs ha⟩
  rw [← hγ, Function.update_eq_self]
  exact hs.quiet ho ha

/-- A program of quiet calls. -/
theorem of_keeps {p : Io α} {P : α → Prop} (hp : Keeps (Quiet root) (fun _ _ => True) p P) :
    InCompany sha root i p (fun a g' => P a ∧ g' = g) g :=
  Pool.outline_of_keeps hp fun _ _ _ _ ho _ hs =>
    ⟨trivial, fun _ _ _ ha => ⟨trivial, hs.quiet ho ha⟩⟩

theorem of_reads {p : Io α} (hp : Only Reads p) :
    InCompany sha root i p (fun _ g' => g' = g) g :=
  (of_keeps (hp.mono fun _ => Reads.quiet)).mono fun _ _ hq => hq.2

end InCompany

/-- What is opened is the file that the path leads to. -/
theorem lookup_of_openFile {k : Ino} (ha : Fs.Answers (.openFile p) s (.ok k) s') :
    s' = s ∧ s.lookup (s.final p) = some (.file k) := by
  rcases ha with hexec | hfault
  swap
  · cases hfault
  have hopen : s.openFile p = .ok k := congrArg Prod.fst hexec
  refine ⟨(congrArg Prod.snd hexec).symm, ?_⟩
  unfold Fs.openFile at hopen
  split at hopen
  · rename_i k' hk
    cases hopen
    exact hk
  all_goals cases hopen

/-! ### Storing -/

namespace CasStore

/-- The loop keeps what it has written. -/
theorem inCompany_storeLoop {k : Ino} (reader : Reader) (x : Bytes) (total : Nat) :
    InCompany sha root i (storeLoop k reader x total)
      (fun r g => ∀ y m, r = .ok (y, m) → g = .staging pid n k y) (.staging pid n k x) := by
  induction reader generalizing x total with
  | nil =>
    refine .done ?_
    rintro y m ⟨⟩
    rfl
  | cons chunk reader ih =>
    rcases chunk with e | chunk
    · refine .done ?_
      rintro y m ⟨⟩
    unfold storeLoop
    split
    · refine .done ?_
      rintro y m ⟨⟩
      rfl
    refine .call fun γ s r s' hγ hs ha => ?_
    have hst : Staged (stageOf root pid n) k x s := by
      have hi := hs.holds i
      rwa [hγ] at hi
    obtain ⟨hintact, hok⟩ := hs.intact.appendStage hst ha
    have hstage : Stages root s pid n (.writeAt k x.length chunk) := hst.lookup
    have hclaim : (γ i).claim = some (pid, n) := by rw [hγ]; rfl
    rcases r with e | u
    · refine ⟨.nothing, hs.stage ha hclaim hstage hintact trivial (.inl rfl), .done ?_⟩
      rintro y m ⟨⟩
    · exact ⟨.staging pid n k (x ++ chunk), hs.stage ha hclaim hstage hintact (hok rfl) (.inr rfl),
        ih _ _⟩

theorem inCompany_storeStaged {k : Ino} {x : Bytes} {total : Nat} {expected : Option String} :
    InCompany sha root i ((CasStore.mk root).storeStaged (stageOf root pid n) (sha.hash x) total expected)
      (fun r g => (∃ e, r = .error e) ∨ g = .nothing) (.staging pid n k x) := by
  have hheld : ∀ γ : ι → Grip, ∀ s, γ i = .staging pid n k x → Shared sha root γ s →
      Staged (stageOf root pid n) k x s ∧ (γ i).claim = some (pid, n) := by
    intro γ s hγ hs
    have hi := hs.holds i
    rw [hγ] at hi ⊢
    exact ⟨hi, rfl⟩
  unfold storeStaged
  split
  · refine .call fun γ s r s' hγ hs ha => ?_
    obtain ⟨-, hclaim⟩ := hheld γ s hγ hs
    have hputs : PutsNoBlob root (.removeFile (stageOf root pid n)) := ⟨trivial, trivial⟩
    have hintact := hs.intact.of_not_makes hputs ha id fun _ => id
    exact ⟨.nothing, hs.stage ha hclaim rfl hintact trivial (.inl rfl), .done (.inr rfl)⟩
  refine (InCompany.of_keeps (keeps_blobPath fun _ ho => ho.reads.quiet)).bind ?_
  rintro target g ⟨htarget, rfl⟩
  refine InCompany.call fun γ s r s' hγ hs ha => ?_
  obtain ⟨hst, hclaim⟩ := hheld γ s hγ hs
  have hintact := hs.intact.store hst (sha.isDigest_hash x) rfl htarget ha
  have hstage : Stages root s pid n (.rename (stageOf root pid n) target) :=
    ⟨rfl, _, sha.isDigest_hash x, htarget⟩
  refine ⟨.nothing, hs.stage ha hclaim hstage hintact trivial (.inl rfl), ?_⟩
  cases r <;> exact InCompany.done (.inr rfl)

/-- A store, which holds nothing when it is through. -/
theorem inCompany_storeBlob {reader : Reader} {expected : Option String} :
    InCompany sha root i ((CasStore.mk root).storeBlob sha pid reader expected)
      (fun r g => (∃ e, r = .error e) ∨ g = .nothing) g := by
  refine .call fun γ s n s' hγ hs ha => ?_
  have hexec : n = s.counters pid ∧ s' = (s.fetchAdd pid).2 := by
    rcases ha with hexec | hfault
    · obtain ⟨rfl, rfl⟩ := Prod.mk.inj hexec
      exact ⟨rfl, rfl⟩
    · cases hfault
  obtain ⟨rfl, rfl⟩ := hexec
  refine ⟨_, hs.fetchAdd i pid, ?_⟩
  generalize s.counters pid = n
  have hplace := stagePlace_stageOf root pid n
  refine .call fun γ s r s' hγ hs ha => ?_
  have hputs : PutsNoBlob root (.create (stageOf root pid n)) :=
    ⟨⟨hplace.under, hplace.not_linkPlace⟩, hplace.unnamed⟩
  have hintact := hs.intact.create hputs hplace.not_onShelf ha
  have hclaim : (γ i).claim = some (pid, n) := by rw [hγ]; rfl
  rcases r with e | k
  · exact ⟨.nothing, hs.stage ha hclaim rfl hintact trivial (.inl rfl), .done (.inl ⟨_, rfl⟩)⟩
  have hst := hplace.created hs.wellFormed ha
  refine ⟨.staging pid n k [], hs.stage ha hclaim rfl hintact hst (.inr rfl), ?_⟩
  refine (inCompany_storeLoop reader [] 0).bind fun r g hr => ?_
  rcases r with e | ⟨x, total⟩
  · exact InCompany.done (.inl ⟨_, rfl⟩)
  · obtain rfl := hr x total rfl
    exact inCompany_storeStaged

end CasStore

/-! ### Tags -/

/-- There is nothing in a trimmed text that was not in the text. -/
theorem mem_trim {c : Char} {t : String} (hc : c ∈ (Text.trim t).toList) : c ∈ t.toList := by
  rw [Text.trim, String.toList_ofList, List.mem_reverse] at hc
  have hmid := (List.dropWhile_suffix _).subset hc
  rw [List.mem_reverse] at hmid
  exact (List.dropWhile_suffix _).subset hmid

namespace TagRegistry

/-- What a tag says has no separator. -/
theorem inCompany_readTag (hp : root ++ [Dir.tags] <+: p) :
    InCompany sha root i (readTag p)
      (fun r _ => ∀ t, r = .ok (some t) → '/' ∉ t.toList) g := by
  have herror : ∀ {e : ModeldError} {g : Grip}, InCompany sha root i
      (Program.done (.error e) : Io (Except ModeldError (Option String)))
      (fun r _ => ∀ t, r = .ok (some t) → '/' ∉ t.toList) g := by
    intro e g
    refine .done ?_
    rintro t ⟨⟩
  refine .quiet trivial fun γ s r s' hγ hs ha => ?_
  split
  · refine .done ?_
    rintro t ⟨⟩
  refine .call fun γ s r s' hγ hs ha => ?_
  rcases r with e | k
  · refine ⟨g, ?_, herror⟩
    rw [← hγ, Function.update_eq_self]
    exact hs.quiet (o := .openFile p) trivial ha
  obtain ⟨rfl, hlookup⟩ := lookup_of_openFile ha
  rw [hs.wellFormed.final_eq (under_root hp) (not_linkPlace_of_area hp (by decide) (by decide))]
    at hlookup
  refine ⟨.tag p k, hs.step ha hs.intact (fun j _ => ?_) ⟨hp, hlookup⟩ ?_, ?_⟩
  · exact Quiet.spared (o := .openFile p) trivial hs.wellFormed (hs.holds j)
  · rintro c ⟨⟩
  refine .quiet trivial fun γ s r s' hγ hs ha => ?_
  rcases r with e | bytes
  · exact herror
  have hbytes : 0x2f ∉ bytes := by
    have hi := hs.holds i
    rw [hγ] at hi
    rcases ha with hexec | hfault
    · cases hexec
      exact hs.intact.tags p k hi.1 hi.2
    · cases hfault
  dsimp only
  split
  · exact herror
  · rename_i text htext
    refine .done ?_
    rintro t ⟨⟩ hslash
    rw [← Text.toBytes_of_ofBytes? htext] at hbytes
    exact hbytes (slash_mem_toBytes.2 (mem_trim hslash))

theorem inCompany_resolve {id : String} :
    InCompany sha root i ((ofRoot root).resolve id)
      (fun r _ => ∀ t, r = .ok (some t) → '/' ∉ t.toList) g := by
  have herror : ∀ {e : ModeldError}, InCompany sha root i
      (Program.done (.error e) : Io (Except ModeldError (Option String)))
      (fun r _ => ∀ t, r = .ok (some t) → '/' ∉ t.toList) g := by
    intro e
    refine .done ?_
    rintro t ⟨⟩
  unfold resolve
  dsimp only
  split
  · by_cases hd : IsDigest (Text.trim id)
    · rw [validateDigestFormat_of_isDigest hd]
      refine .done ?_
      rintro t ⟨⟩
      exact hd.plain.2.2.2
    · obtain ⟨e, he⟩ := validateDigestFormat_of_not_isDigest hd
      rw [he]
      exact herror
  rcases validateTagSegment_cases ((Text.splitOnce ':' (Text.trim id)).getD
    (Text.trim id, "latest")).1 with ⟨hname, h1⟩ | ⟨-, e, h1⟩
  swap
  · rw [h1]
    exact herror
  rcases validateTagSegment_cases ((Text.splitOnce ':' (Text.trim id)).getD
    (Text.trim id, "latest")).2 with ⟨htag, h2⟩ | ⟨-, e, h2⟩
  swap
  · rw [h1, h2]
    exact herror
  rw [h1, h2]
  dsimp only
  unfold getTag
  rw [h1, h2]
  dsimp only
  rw [tagFile_eq hname htag]
  exact inCompany_readTag (by simp)

/-- A tag is set, or not. -/
theorem inCompany_setTag {name tag : String} :
    InCompany sha root i ((ofRoot root).setTag name tag d) (fun _ _ => True) g := by
  unfold setTag
  rcases validateTagSegment_cases name with ⟨hname, h1⟩ | ⟨-, e, h1⟩
  swap
  · rw [h1]
    exact .done trivial
  rcases validateTagSegment_cases tag with ⟨htag, h2⟩ | ⟨-, e, h2⟩
  swap
  · rw [h1, h2]
    exact .done trivial
  rw [h1, h2]
  dsimp only
  by_cases hd : IsDigest (Text.trim d)
  swap
  · obtain ⟨e, he⟩ := validateDigestFormat_of_not_isDigest hd
    rw [he]
    exact .done trivial
  rw [validateDigestFormat_of_isDigest hd]
  dsimp only
  unfold writeTag
  dsimp only
  rw [tagFile_eq hname htag]
  generalize htagFile : root ++ [Dir.tags, ⟨name, hname.1⟩, ⟨tag, htag.1⟩] = p
  have hp : root ++ [Dir.tags] <+: p := by simp [← htagFile]
  have hdirs : Quiet root (.createDirAll ((ofRoot root).tagsDir.join name)) := by
    intro q hq e he hnames
    rw [Path.join_of_plain _ hname.1] at hq
    exact not_under (x := Dir.tags) (y := Dir.cas) (by simp) (by decide)
      ((hnames.in_cas he).trans hq)
  refine .quiet hdirs fun γ s r s' hγ hs ha => ?_
  rcases r with e | u
  · exact .done trivial
  refine .call fun γ s r s' hγ hs ha => ?_
  have hquiet : Quiet root (.create p) := .inl hp
  rcases r with e | k
  · refine ⟨g, ?_, .done trivial⟩
    rw [← hγ, Function.update_eq_self]
    exact hs.quiet hquiet ha
  have hlookup : s'.lookup p = some (.file k) := by
    have hlink := not_linkPlace_of_area hp (by decide) (by decide)
    rcases ha with hexec | hfault
    · exact (Fs.create_lookup hexec (hs.wellFormed.final_eq (under_root hp) hlink)).1
    · cases hfault
  refine ⟨.tag p k, hs.step ha (hquiet.intact hs.intact ha) (fun j _ => ?_) ⟨hp, hlookup⟩ ?_, ?_⟩
  · exact hquiet.spared hs.wellFormed (hs.holds j)
  · rintro c ⟨⟩
  refine .call fun γ s r s' hγ hs ha => ?_
  have hi : root ++ [Dir.tags] <+: p ∧ s.lookup p = some (.file k) := by
    have hi := hs.holds i
    rwa [hγ] at hi
  have hslash : 0x2f ∉ Text.toBytes (Text.trim d) := fun hmem =>
    hd.plain.2.2.2 (slash_mem_toBytes.1 hmem)
  refine ⟨.nothing, hs.step ha (hs.intact.writeTag hi.1 hi.2 hslash ha) (fun j _ => ?_) trivial ?_, ?_⟩
  · exact (hs.holds j).spared_writeTag hs.wellFormed hi.1 hi.2
  · rintro c ⟨⟩
  · cases r <;> exact .done trivial

end TagRegistry

/-! ### Reading blobs -/

namespace CasStore

/-- The size that is found is that of a content of the digest. -/
theorem inCompany_blobSize :
    InCompany sha root i ((CasStore.mk root).blobSize d)
      (fun r _ => IsDigest d → ∀ n, r = .ok n → ∃ x, sha.hash x = d ∧ x.length = n) g := by
  refine (InCompany.of_keeps (keeps_blobPath fun _ ho => ho.reads.quiet)).bind ?_
  rintro path g ⟨hpath, rfl⟩
  refine InCompany.quiet trivial fun γ s r s' hγ hs ha => ?_
  rcases r with e | found
  · refine InCompany.done ?_
    rintro hd n ⟨⟩
  refine InCompany.done ?_
  rintro hd n ⟨⟩
  have hw := hs.wellFormed
  have hmeta : s.metadata path = .ok found := by
    rcases ha with hexec | hfault
    · exact congrArg Prod.fst hexec
    · cases hfault
  rw [Fs.metadata, hw.final_eq (hpath.under hd) (hpath.not_linkPlace hd)] at hmeta
  split at hmeta
  · cases hmeta
  · rename_i e hnot hentry
    cases hmeta
    obtain ⟨k, rfl⟩ := hw.isFile_of_lookup (hpath.under hd) (hpath.not_linkPlace hd) hentry
      (fun hdir => hw.notDir d path hd hpath (hdir ▸ hentry))
    exact ⟨s.data k, hs.intact.sound.integral d path k hd hpath hentry, rfl⟩
  · cases hmeta

/-- A blob that is opened has the digest that was asked for, if that is one. -/
theorem inCompany_openBlob (hslash : '/' ∉ d.toList) :
    InCompany sha root i ((CasStore.mk root).openBlob d)
      (fun r g => ∀ k, r = .ok k → IsDigest d ∧ g = .blob d k) g := by
  refine (InCompany.of_keeps (keeps_blobPath fun _ ho => ho.reads.quiet)).bind ?_
  rintro path g ⟨hpath, rfl⟩
  refine InCompany.quiet trivial fun γ s r s' hγ hs ha => ?_
  split
  · refine InCompany.done ?_
    rintro k ⟨⟩
  refine InCompany.call fun γ s r s' hγ hs ha => ?_
  rcases r with e | k
  · refine ⟨g, ?_, InCompany.done ?_⟩
    · rw [← hγ, Function.update_eq_self]
      exact hs.quiet (o := .openFile path) trivial ha
    · rintro k ⟨⟩
  obtain ⟨rfl, hlookup⟩ := lookup_of_openFile ha
  have hd := hs.intact.isDigest_of_file hslash hpath hlookup
  have hreading := hs.intact.reading hd hpath hlookup
  refine ⟨.blob d k, hs.step ha hs.intact (fun j _ => ?_) hreading ?_, InCompany.done ?_⟩
  · exact Quiet.spared (o := .openFile path) trivial hs.wellFormed (hs.holds j)
  · rintro c ⟨⟩
  · rintro k' ⟨⟩
    exact ⟨hd, rfl⟩

end CasStore

end Modeld
