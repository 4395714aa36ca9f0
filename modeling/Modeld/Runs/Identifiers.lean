import Modeld.Core.Blobs
import Modeld.Runs.RegistryRuns

/-!
# How identifiers are classified

`Inspect`, `Pin` and `Unpin` resolve their identifier first, and what becomes of them depends on that
alone: the pin of a digest can always be written and removed.
-/

namespace Modeld

open Host Program

/-! ### Identifiers -/

/-- The text has the form of a digest, in digits of either case. -/
def IsHex (s : String) : Prop := s.toList.length = 64 ∧ s.toList.all TagRegistry.isHexDigit = true

instance (s : String) : Decidable (IsHex s) := inferInstanceAs (Decidable (_ ∧ _))

theorem IsDigest.isHex {d : String} (hd : IsDigest d) : IsHex d := by
  refine ⟨hd.length_eq, List.all_eq_true.2 fun c hc => ?_⟩
  have hchar := hd.isDigestChar_of_mem hc
  have hlower : Text.lowerAscii c = c := by
    unfold Text.lowerAscii
    rw [if_neg]
    rintro ⟨hA, hZ⟩
    simp only [isDigestChar, Bool.or_eq_true, Bool.and_eq_true, decide_eq_true_eq] at hchar
    rcases hchar with ⟨-, h9⟩ | ⟨ha, -⟩
    · exact absurd (Char.le_trans hA h9) (by decide)
    · exact absurd (Char.le_trans ha hZ) (by decide)
  rw [TagRegistry.isHexDigit, hlower]
  exact hchar

/-- The name and the tag that an identifier asks for. -/
def identifierParts (s : String) : String × String := (Text.splitOnce ':' s).getD (s, "latest")

/-- Both parts of the identifier are ones that the registry accepts. -/
def IsTagged (s : String) : Prop :=
  IsSegment (identifierParts s).1 ∧ IsSegment (identifierParts s).2

instance (s : String) : Decidable (IsTagged s) := inferInstanceAs (Decidable (_ ∧ _))

theorem IsTagged.isPlain_name (hs : IsTagged s) : PlainName (identifierParts s).1 := hs.1.1

theorem IsTagged.isPlain_tag (hs : IsTagged s) : PlainName (identifierParts s).2 := hs.2.1

/-- What an identifier without blanks around it stands for in a registry. -/
def Entries.classify (m : Entries) (s : String) : ResolveOutcome :=
  if IsHex s then
    if IsDigest s then .ok s else .invalid
  else if hs : IsTagged s then
    match m ⟨_, hs.1.1⟩ ⟨_, hs.2.1⟩ with
    | some digest => .ok digest
    | none => .notFound
  else .invalid

variable {root : Path} {h h' : Fs} {m : Entries} {d : String}

namespace TagRegistry

variable {t : TagRegistry}

/-- Resolving an identifier gives what it stands for, or an error. -/
theorem Holds.run_resolve (hm : Holds t h m) (hdigest : ∀ n v d, m n v = some d → IsDigest d)
    (id : String) :
    ((m.classify (Text.trim id) = .invalid ∧ ∃ e, (t.resolve id).run Fs.exec h = (.error e, h)) ∨
    (m.classify (Text.trim id) = .notFound ∧ (t.resolve id).run Fs.exec h = (.ok none, h)) ∨
    ∃ d, m.classify (Text.trim id) = .ok d ∧ (t.resolve id).run Fs.exec h = (.ok (some d), h)) := by
  unfold resolve
  generalize Text.trim id = s
  dsimp only
  by_cases hhex : IsHex s
  · have hbool : (decide (s.toList.length = 64) && s.toList.all isHexDigit) = true := by
      simpa [IsHex] using hhex
    rw [if_pos hbool, Entries.classify, if_pos hhex]
    by_cases hd : IsDigest s
    · rw [if_pos hd, validateDigestFormat_of_isDigest hd]
      exact .inr (.inr ⟨s, rfl, rfl⟩)
    · obtain ⟨msg, he⟩ := validateDigestFormat_of_not_isDigest hd
      rw [if_neg hd, he]
      exact .inl ⟨rfl, _, rfl⟩
  have hbool : ¬ (decide (s.toList.length = 64) && s.toList.all isHexDigit) = true := by
    simpa [IsHex] using hhex
  have hparts : (Text.splitOnce ':' s).getD (s, "latest") = identifierParts s := rfl
  rw [if_neg hbool, Entries.classify, if_neg hhex, hparts]
  rcases validateTagSegment_cases (identifierParts s).1 with ⟨hname, h1⟩ | ⟨hname, msg, h1⟩
  swap
  · rw [h1, dif_neg fun hs => hname hs.1]
    exact .inl ⟨rfl, _, rfl⟩
  rcases validateTagSegment_cases (identifierParts s).2 with ⟨htag, h2⟩ | ⟨htag, msg, h2⟩
  swap
  · rw [h1, h2, dif_neg fun hs => htag hs.2]
    exact .inl ⟨rfl, _, rfl⟩
  have hs : IsTagged s := ⟨hname, htag⟩
  rw [h1, h2, dif_pos hs]
  dsimp only
  rcases hm.run_getTag (identifierParts s).1 (identifierParts s).2 with ⟨_, _, hrun⟩ | ⟨hbad, -⟩
  swap
  · exact absurd hs hbad
  rw [hrun]
  cases hd : m ⟨_, hname.1⟩ ⟨_, htag.1⟩ with
  | none => exact .inr (.inl ⟨rfl, rfl⟩)
  | some d =>
    rw [Option.map_some, (hdigest _ _ d hd).trim_eq]
    exact .inr (.inr ⟨d, rfl, rfl⟩)

theorem Holds.run_resolveDigest (hm : Holds t h m) (hdigest : ∀ n v d, m n v = some d → IsDigest d)
    (id : String) :
    (resolveDigest t id).run Fs.exec h = (m.classify (Text.trim id), h) := by
  rw [resolveDigest, run_bind]
  rcases hm.run_resolve hdigest id with ⟨hc, e, hrun⟩ | ⟨hc, hrun⟩ | ⟨d, hc, hrun⟩ <;>
    rw [hrun, hc] <;> rfl

end TagRegistry

/-- What a digest that is classified is: the identifier itself, or an entry. -/
theorem Entries.isDigest_of_classify {s : String} (hdigest : ∀ n v d, m n v = some d → IsDigest d)
    (hc : m.classify s = .ok d) : IsDigest d := by
  unfold classify at hc
  split_ifs at hc with h1 h2 h3
  · obtain rfl : s = d := by simpa using hc
    exact h2
  · split at hc
    · rename_i e he
      obtain rfl : e = d := by simpa using hc
      exact hdigest _ _ _ he
    · cases hc

/-! ### Pins -/

/-- No directory is where the file of a pin belongs. -/
def PinFiles (root : Path) (h : Fs) : Prop :=
  ∀ n : Name, h.lookup (root ++ [Dir.pinned, n]) ≠ some .dir

/-- The call makes no directory among the pins. -/
def NoPinDirs (root : Path) (o : Call) : Prop :=
  ∀ p, o = .createDirAll p → ¬ root ++ [Dir.pinned] <+: p

theorem KeepsPins.noPinDirs {o : Call} (ho : KeepsPins root o) : NoPinDirs root o := by
  rintro p rfl
  exact ho.2

theorem Reads.noPinDirs {o : Call} (ho : Reads o) : NoPinDirs root o := by
  rintro p rfl
  exact ho.elim

/-- One call. -/
theorem NoPinDirs.exec {o : Call} (ho : NoPinDirs root o) (hp : PinFiles root h) :
    PinFiles root (Fs.exec o h).2 := by
  intro n hdir
  have hnone := hp n
  cases Fs.effect_exec o h with
  | keep _ hl => exact hnone ((hl _).symm.trans hdir)
  | newFile _ _ _ _ hl =>
    rw [hl] at hdir
    split at hdir
    · cases hdir
    · exact hnone hdir
  | newDirs p hl =>
    rcases hl (root ++ [Dir.pinned, n]) with hsame | ⟨-, -, hpre⟩
    · exact hnone (hsame.symm.trans hdir)
    · refine ho p rfl (List.IsPrefix.trans ?_ hpre)
      simp
  | link a b e _ he _ hl =>
    rw [hl] at hdir
    split at hdir
    · exact he (Option.some.inj hdir)
    · exact hnone hdir
  | symlink _ _ _ hl =>
    rw [hl] at hdir
    split at hdir
    · cases hdir
    · exact hnone hdir
  | remove _ _ _ _ hl =>
    rw [hl] at hdir
    split at hdir
    · cases hdir
    · exact hnone hdir
  | rename a b e _ he _ hl =>
    rw [hl] at hdir
    split_ifs at hdir
    · exact he (Option.some.inj hdir)
    · exact hnone hdir

namespace EvictionManager

/-- The file of a digest's pin. -/
theorem final_pinFile (hw : WellFormed root h) (hd : IsDigest d) :
    h.final ((ofRoot root).pinnedDir.join d) = (ofRoot root).pinnedDir.join d := by
  have harea : root ++ [Dir.pinned] <+: (ofRoot root).pinnedDir.join d := by
    rw [pinFile_eq hd]
    simp
  exact hw.final_eq (under_root harea) (not_linkPlace_of_area harea (by decide) (by decide))

/-- A digest can be pinned. -/
theorem pin_ok (hw : WellFormed root h) (hp : PinFiles root h) (hd : IsDigest d) :
    (((ofRoot root).pin d).run Fs.exec h).1 = .ok () := by
  have hlink : ∀ target, h.lookup ((ofRoot root).pinnedDir.join d) ≠ some (.symlink target) := by
    intro target htarget
    rw [pinFile_eq hd] at htarget
    exact not_linkPlace_of_area (x := Dir.pinned) (by simp) (by decide) (by decide)
      (hw.links _ target (List.prefix_append _ _) htarget)
  have hdir : h.lookup ((ofRoot root).pinnedDir.join d) ≠ some .dir := by
    rw [pinFile_eq hd]
    exact hp _
  have hparent : h.lookup ((ofRoot root).pinnedDir.join d).dropLast = some .dir := by
    rw [pinFile_eq hd]
    exact hw.base _ (.inr (by simp [baseDirs]))
  obtain ⟨i, h₁, hcreate⟩ := Fs.create_ok hlink hdir hparent
  rw [pin, hd.trim_eq, validateDigestFormat_of_isDigest hd]
  dsimp only
  rw [Fs.run_create, hcreate]
  rfl

/-- A digest can be unpinned. -/
theorem unpin_ok (hw : WellFormed root h) (hd : IsDigest d) :
    ∃ b, (((ofRoot root).unpin d).run Fs.exec h).1 = .ok b := by
  rw [unpin, hd.trim_eq, validateDigestFormat_of_isDigest hd]
  dsimp only
  rw [Fs.run_isFile]
  cases hfile : h.isFile ((ofRoot root).pinnedDir.join d) with
  | false => exact ⟨false, rfl⟩
  | true =>
    obtain ⟨i, hi⟩ := Option.isSome_iff_exists.1 hfile
    rw [Fs.fileAt_eq_some, final_pinFile hw hd] at hi
    have hremove : (h.removeFile ((ofRoot root).pinnedDir.join d)).1 = .ok () := by
      rw [Fs.removeFile, hi]
    rw [if_pos rfl, Fs.run_removeFile, hremove]
    exact ⟨true, rfl⟩

end EvictionManager

/-! ### Replies -/

/-- The error that an identifier is answered with. -/
def ResolveOutcome.error : ResolveOutcome → Option String
  | ok _ => none
  | invalid => some "io.syntrop.Model1.InvalidIdentifier"
  | notFound => some "io.syntrop.Model1.NoSuchModel"

section Replies

variable {json : JsonLibrary} {params : Option Json} {id : String} {ctx : ModelServiceContext}
  {outcome : ResolveOutcome}

theorem error_handleInspect (hid : textParam params "id" = some id)
    (hrun : ((resolveDigest ctx.tags id).run Fs.exec h).1 = outcome) :
    ((handleInspect json params ctx).run Fs.exec h).1.error = outcome.error := by
  rw [handleInspect, hid]
  dsimp only
  rw [run_bind, hrun]
  cases outcome with
  | ok d =>
    dsimp only
    rw [run_bind, run_bind, run_bind]
    rfl
  | invalid => rfl
  | notFound => rfl

/-- An operation that succeeds on what the identifier stands for. -/
theorem error_handleDigest {α : Type} {operation : EvictionManager → String → Io (Except ModeldError α)}
    (hid : textParam params "id" = some id)
    (hrun : ((resolveDigest ctx.tags id).run Fs.exec h).1 = outcome)
    (hok : ∀ d, outcome = .ok d → ∃ a, ((operation ctx.eviction d).run Fs.exec h).1 = .ok a) :
    ((handleDigest operation params ctx).run Fs.exec h).1.error = outcome.error := by
  rw [handleDigest, hid]
  dsimp only
  rw [run_bind_of_reads only_resolveDigest, hrun]
  cases outcome with
  | ok d =>
    obtain ⟨a, ha⟩ := hok d rfl
    dsimp only
    rw [run_bind, ha]
    rfl
  | invalid => rfl
  | notFound => rfl

end Replies

/-! ### Runs -/

variable {inst : Installation} {o : Operation}

namespace Operation

theorem Valid.noPinDirs (ho : o.Valid inst.root) :
    Only (NoPinDirs inst.root) (o.program inst) := by
  by_cases hcall : ∃ c, o = call c
  swap
  · exact (ho.keepsPins fun c hc => hcall ⟨c, hc⟩).mono fun _ ho => ho.noPinDirs
  obtain ⟨⟨method, params, more⟩, rfl⟩ := hcall
  refine Only.bind ?_ fun _ => only_done _
  by_cases hpin : method = "io.syntrop.Model1.Pin"
  · subst hpin
    rw [dispatchCall_pin]
    exact only_handleDigest (fun _ => Reads.noPinDirs) fun _ =>
      EvictionManager.only_pin fun _ => nofun
  by_cases hunpin : method = "io.syntrop.Model1.Unpin"
  · subst hunpin
    rw [dispatchCall_unpin]
    exact only_handleDigest (fun _ => Reads.noPinDirs) fun _ =>
      EvictionManager.only_unpin (fun _ ho => ho.reads.noPinDirs) fun _ => nofun
  · exact (keepsPins_dispatchCall _ hpin hunpin).mono fun _ ho => ho.noPinDirs

theorem pinFiles_afterAll {ops : List Operation} (hops : ∀ o ∈ ops, o.Valid inst.root)
    (hp : PinFiles inst.root h) : PinFiles inst.root (afterAll inst ops h) := by
  induction ops generalizing h with
  | nil => exact hp
  | cons o ops ih =>
    apply ih fun o' ho' => hops o' (List.mem_cons_of_mem _ ho')
    exact Only.run Fs.exec (fun _ _ ho hs => ho.exec hs) (hops o (List.mem_cons_self ..)).noPinDirs hp

end Operation

theorem Reachable.pinFiles (hh : Reachable inst h) : PinFiles inst.root h := by
  obtain ⟨hardLinks, clock, ops, hops, rfl⟩ := hh
  refine Operation.pinFiles_afterAll hops fun n hdir => ?_
  rw [lookup_openedFs] at hdir
  · cases hdir
  · intro q hq hpre
    have harea : inst.root ++ [Dir.pinned] <+: q := List.IsPrefix.trans (by simp) hpre
    simp only [openedDirs, List.mem_cons, List.not_mem_nil, or_false] at hq
    rcases hq with rfl | rfl | rfl | rfl
    · exact not_under (x := Dir.cas) (by simp) (by decide) harea
    · exact not_under (x := Dir.cas) (by simp) (by decide) harea
    · exact not_under (x := Dir.tags) (by simp) (by decide) harea
    · have := hpre.length_le
      simp at this

/-- The methods that take an identifier and nothing else. -/
def identifierMethods : List String :=
  ["io.syntrop.Model1.Inspect", "io.syntrop.Model1.Pin", "io.syntrop.Model1.Unpin"]

/-- The error of a call is that of what its identifier stands for. -/
theorem Reachable.error_eq (hh : Reachable inst h) {call : VarlinkCall}
    (hmethod : call.method ∈ identifierMethods) {id : String}
    (hid : textParam call.parameters "id" = some id)
    (hm : (TagRegistry.ofRoot inst.root).Holds h m) (hdigest : ∀ n v d, m n v = some d → IsDigest d) :
    ((dispatchCall inst.json call inst.ctx).run Fs.exec h).1.error =
      (m.classify (Text.trim id)).error := by
  obtain ⟨method, params, more⟩ := call
  have hvalid : ∀ d, m.classify (Text.trim id) = .ok d → IsDigest d :=
    fun d => Entries.isDigest_of_classify hdigest
  have hrun : ((resolveDigest inst.ctx.tags id).run Fs.exec h).1 = m.classify (Text.trim id) := by
    rw [hm.run_resolveDigest hdigest id]
  generalize m.classify (Text.trim id) = outcome at hvalid hrun ⊢
  simp only [identifierMethods, List.mem_cons, List.not_mem_nil, or_false] at hmethod
  rcases hmethod with rfl | rfl | rfl
  · rw [dispatchCall_inspect]
    exact error_handleInspect hid hrun
  · rw [dispatchCall_pin]
    exact error_handleDigest hid hrun fun d hd =>
      ⟨_, EvictionManager.pin_ok hh.wellFormed hh.pinFiles (hvalid d hd)⟩
  · rw [dispatchCall_unpin]
    exact error_handleDigest hid hrun fun d hd =>
      EvictionManager.unpin_ok hh.wellFormed (hvalid d hd)

/-! ### What an identifier is answered with -/

/-- The identifier is a digest, or names a tag that the registry accepts. Upper case is refused in
what has the form of a digest. -/
def IsIdentifier (s : String) : Prop := (IsHex s ∧ IsDigest s) ∨ (¬ IsHex s ∧ IsTagged s)

/-- The store has the blob of the digest, or the registry has the tag. -/
def MatchesModel (root : Path) (h : Fs) (s : String) : Prop :=
  (IsHex s ∧ (CasStore.mk root).Stored h s) ∨
    (¬ IsHex s ∧ ∃ (n v : Name) (i : Ino), identifierParts s = (n.text, v.text) ∧
      h.lookup (root ++ [Dir.tags] ++ [n, v]) = some (.file i))

theorem Entries.classify_cases (m : Entries) (s : String) :
    (¬ IsIdentifier s ∧ m.classify s = .invalid) ∨
    (IsHex s ∧ IsDigest s ∧ m.classify s = .ok s) ∨
    (¬ IsHex s ∧ ∃ n v : Name, IsTagged s ∧ identifierParts s = (n.text, v.text) ∧
      m.classify s = ((m n v).map ResolveOutcome.ok).getD .notFound) := by
  unfold classify
  split_ifs with h1 h2 h3
  · exact .inr (.inl ⟨h1, h2, rfl⟩)
  · refine .inl ⟨?_, rfl⟩
    rintro (hs | hs)
    · exact h2 hs.2
    · exact hs.1 h1
  · refine .inr (.inr ⟨h1, ⟨_, h3.1.1⟩, ⟨_, h3.2.1⟩, h3, rfl, ?_⟩)
    cases m ⟨_, h3.1.1⟩ ⟨_, h3.2.1⟩ <;> rfl
  · refine .inl ⟨?_, rfl⟩
    rintro (hs | hs)
    · exact h1 hs.1
    · exact h3 hs.2

/-- In every reachable state, the reply to an identifier tells whether it is one and whether a model
matches it, where a digest is taken to be that of a stored blob. -/
theorem identifiers_classified (inst : Installation) (h : Fs) (hh : Reachable inst h)
    (call : VarlinkCall) (hmethod : call.method ∈ identifierMethods) (id : String)
    (hid : textParam call.parameters "id" = some id)
    (hstored : IsDigest (Text.trim id) → inst.cas.Stored h (Text.trim id)) :
    let error := ((dispatchCall inst.json call inst.ctx).run Fs.exec h).1.error
    (error = some "io.syntrop.Model1.InvalidIdentifier" ↔ ¬ IsIdentifier (Text.trim id)) ∧
    (error = some "io.syntrop.Model1.NoSuchModel" ↔
      IsIdentifier (Text.trim id) ∧ ¬ MatchesModel inst.root h (Text.trim id)) ∧
    (error = none ↔ IsIdentifier (Text.trim id) ∧ MatchesModel inst.root h (Text.trim id)) := by
  intro error
  obtain ⟨m, hm, hdigest⟩ := hh.exists_holds
  have herror : error = (m.classify (Text.trim id)).error := hh.error_eq hmethod hid hm hdigest
  generalize Text.trim id = s at *
  rcases m.classify_cases s with ⟨hbad, hc⟩ | ⟨hhex, hd, hc⟩ | ⟨hhex, n, v, htagged, hparts, hc⟩
  · rw [herror, hc]
    simp [ResolveOutcome.error, hbad]
  · have hid' : IsIdentifier s := .inl ⟨hhex, hd⟩
    have hmatch : MatchesModel inst.root h s := .inl ⟨hhex, hstored hd⟩
    rw [herror, hc]
    simp [ResolveOutcome.error, hid', hmatch]
  · have hid' : IsIdentifier s := .inr ⟨hhex, htagged⟩
    cases hd : m n v with
    | none =>
      have hmatch : ¬ MatchesModel inst.root h s := by
        rintro (⟨hhex', -⟩ | ⟨-, n', v', i, hparts', hi⟩)
        · exact hhex hhex'
        · rw [hparts] at hparts'
          obtain rfl : n = n' := Name.ext (congrArg Prod.fst hparts')
          obtain rfl : v = v' := Name.ext (congrArg Prod.snd hparts')
          rw [hm.absent n v hd] at hi
          cases hi
      rw [herror, hc, hd]
      simp [ResolveOutcome.error, hid', hmatch]
    | some d =>
      obtain ⟨-, i, hi, -⟩ := hm.present n v d hd
      have hmatch : MatchesModel inst.root h s := .inr ⟨hhex, n, v, i, hparts, hi⟩
      rw [herror, hc, hd]
      simp [ResolveOutcome.error, hid', hmatch]

/-- One registered model. -/
def sampleNamed : Fs :=
  Operation.afterAll sampleInstallation
    [.call (modelCall "Register" [("id", .str "n"), ("digest", .str digestEmpty)])] (sampleFs true)

/-- A registered model is found by its name. -/
theorem sample_name_found :
    ((dispatchCall sampleInstallation.json (modelCall "Inspect" [("id", .str "n")])
      sampleInstallation.ctx).run Fs.exec sampleNamed).1.error = none := by
  have hreachable : Reachable sampleInstallation sampleNamed :=
    ⟨true, id, _, by simp [Operation.Valid], rfl⟩
  have hfile : sampleNamed.lookup (sampleRoot ++ [Dir.tags] ++
      [⟨"n", by decide⟩, ⟨"latest", by decide⟩]) = some (.file 0) := by
    decide +kernel
  have hall := identifiers_classified sampleInstallation sampleNamed hreachable
    (modelCall "Inspect" [("id", .str "n")]) (by decide) "n" (by decide +kernel)
    fun hd => absurd hd (by decide)
  have htrim : Text.trim "n" = "n" := by decide
  rw [htrim] at hall
  exact hall.2.2.2 ⟨.inr ⟨by decide, by decide⟩, .inr ⟨by decide, _, _, 0, rfl, hfile⟩⟩

/-- The digest of nothing in upper case. -/
def digestEmptyUpper : String := "E3B0C44298FC1C149AFBF4C8996FB92427AE41E4649B934CA495991B7852B855"

/-- The digest of a stored blob is refused when it is given in upper case. -/
theorem sample_upper_case_refused :
    let h := Operation.afterAll sampleInstallation [.store 7 [.ok [5, 6]] none] (sampleFs true)
    Reachable sampleInstallation h ∧ IsHex digestEmptyUpper ∧
      sampleInstallation.cas.content h (Text.toAsciiLowercase digestEmptyUpper) = some [5, 6] ∧
      ((dispatchCall emptyObjectLibrary (modelCall "Inspect" [("id", .str digestEmptyUpper)])
        sampleInstallation.ctx).run Fs.exec h).1.error =
          some "io.syntrop.Model1.InvalidIdentifier" := by
  refine ⟨⟨true, id, _, by simp [Operation.Valid], rfl⟩, by decide +kernel, ?_, ?_⟩
  · decide +kernel
  · decide +kernel

end Modeld
