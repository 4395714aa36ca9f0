import Modeld.Core.TagListing
import Modeld.Runs.Identifiers

/-!
# Which paths calls and imports touch

Text from a request becomes part of a path only after it was validated, or after it was looked up:
what a tag file holds is a digest in every state that calls and imports reach, and the directories of
models bear names that the registry accepts.
-/

namespace Modeld

open Host Program

variable {root : Path} {S : Set Path} {h : Fs} {α β : Type}

/-! ### Paths -/

/-- The directories that calls and imports list or make. -/
inductive DirPlace (root : Path) : Path → Prop
  | tags : DirPlace root (root ++ [Dir.tags])
  | model (n : Name) (hn : IsSegment n.text) : DirPlace root (root ++ [Dir.tags] ++ [n])
  | pinned : DirPlace root (root ++ [Dir.pinned])
  | cas : DirPlace root (root ++ [Dir.cas])
  | blobs : DirPlace root (root ++ [Dir.cas, Dir.blobs, Dir.sha256])
  | incoming : DirPlace root (root ++ [Dir.cas, Dir.incoming])

/-- The files that calls and imports create, open or remove. -/
inductive FilePlace (root : Path) : Path → Prop
  | tag (n v : Name) (hn : IsSegment n.text) (hv : IsSegment v.text) :
      FilePlace root (root ++ [Dir.tags, n, v])
  | pin (d : Name) (hd : IsDigest d.text) : FilePlace root (root ++ [Dir.pinned, d])
  | staged (n : Name) : FilePlace root (root ++ [Dir.cas, Dir.incoming, n])
  | blob (n : Name) : FilePlace root (root ++ [Dir.cas, Dir.blobs, Dir.sha256, n])
  | flat (d ext : String) (hd : PlainName d) (hn : PlainName ("sha256-" ++ d ++ ext)) :
      FilePlace root (root ++ [Dir.cas, ⟨"sha256-" ++ d ++ ext, hn⟩])

/-- The path is directly in the directory of the store. -/
def DirectlyInCas (root p : Path) : Prop := ∃ n : Name, p = root ++ [Dir.cas, n]

/-- The call touches the places above, and files in `S` that it opens. No file is made directly in
the directory of the store. -/
def Stays (root : Path) (S : Set Path) : Call → Prop
  | .openFile p => FilePlace root p ∨ p ∈ S
  | .create p => FilePlace root p ∧ ¬ DirectlyInCas root p
  | .removeFile p => FilePlace root p
  | .rename a b => FilePlace root a ∧ FilePlace root b ∧ ¬ DirectlyInCas root b
  | .readDir p | .createDirAll p => DirPlace root p
  | .write .. | .hardLink .. | .copy .. | .symlink .. => False
  | _ => True

/-- What is above a directory is there already. -/
theorem DirPlace.above {p q : Path} (hp : DirPlace root p) (hw : WellFormed root h) (hq : q <+: p)
    (hnone : h.lookup q = none) : q = p := by
  have hbase : ∀ {r}, q <+: r → r ∈ baseDirs root → False := by
    intro r hpre hr
    rw [hw.dir_of_prefix hr hpre] at hnone
    cases hnone
  cases hp with
  | model n hn =>
    rcases List.prefix_concat_iff.1 hq with heq | hpre
    · exact heq
    · exact (hbase hpre (by simp [baseDirs])).elim
  | tags => exact (hbase hq (by simp [baseDirs])).elim
  | pinned => exact (hbase hq (by simp [baseDirs])).elim
  | cas => exact (hbase hq (by simp [baseDirs])).elim
  | blobs => exact (hbase hq (by simp [baseDirs])).elim
  | incoming => exact (hbase hq (by simp [baseDirs])).elim

/-- The directories of models bear names that the registry accepts, and no file is directly in the
directory of the store. -/
structure Laid (root : Path) (h : Fs) : Prop where
  wellFormed : WellFormed root h
  models : ∀ n : Name, h.lookup (root ++ [Dir.tags] ++ [n]) ≠ none → IsSegment n.text
  flats : ∀ p i, DirectlyInCas root p → h.lookup p ≠ some (.file i)

/-- What calls and imports make of the storage. The tags hold digests. -/
structure Tame (root : Path) (h : Fs) : Prop where
  laid : Laid root h
  holds : ∃ m, (TagRegistry.ofRoot root).Holds h m ∧ ∀ n v d, m n v = some d → IsDigest d

/-- What such a state replies: no file is directly in the store, and the directories of models have
names that the registry accepts. -/
def Says (root : Path) : (o : Call) → Reply o → Prop
  | .isFile p, r => DirectlyInCas root p → r = false
  | .readDir p, r => ∀ l, r = .ok l →
    (p = root ++ [Dir.cas] → ∀ e ∈ l, e.metadata.isFile = false) ∧
      (p = root ++ [Dir.tags] → ∀ e ∈ l, IsSegment e.name.text)
  | _, _ => True

theorem FilePlace.area {p : Path} (hp : FilePlace root p) :
    root ++ [Dir.tags] <+: p ∨ root ++ [Dir.pinned] <+: p ∨ root ++ [Dir.cas] <+: p := by
  cases hp <;> simp

theorem FilePlace.not_linkPlace {p : Path} (hp : FilePlace root p) : ¬ LinkPlace root p := by
  rcases hp.area with h1 | h1 | h1 <;> exact not_linkPlace_of_area h1 (by decide) (by decide)

theorem FilePlace.under {p : Path} (hp : FilePlace root p) : root <+: p := by
  rcases hp.area with h1 | h1 | h1 <;> exact under_root h1

theorem FilePlace.ne_model {p : Path} (hp : FilePlace root p) (n : Name) :
    p ≠ root ++ [Dir.tags] ++ [n] := by
  cases hp <;> simp

theorem DirPlace.segment {n : Name} (hp : DirPlace root (root ++ [Dir.tags] ++ [n])) :
    IsSegment n.text := by
  generalize hq : root ++ [Dir.tags] ++ [n] = q at hp
  cases hp with
  | model k hk =>
    obtain rfl : n = k := by simpa using hq
    exact hk
  | _ => simp at hq

theorem DirectlyInCas.final_eq {p : Path} (hp : DirectlyInCas root p) (hw : WellFormed root h) :
    h.final p = p := by
  obtain ⟨n, rfl⟩ := hp
  exact hw.final_eq (List.prefix_append _ _)
    (not_linkPlace_of_area (x := Dir.cas) (by simp) (by decide) (by decide))

/-- What a path names after a call: what it named before, nothing, or something new that is where it
belongs. -/
theorem Stays.lookup_cases {o : Call} (ho : Stays root S o) (hw : WellFormed root h) (q : Path) :
    (Fs.exec o h).2.lookup q = h.lookup q ∨ (Fs.exec o h).2.lookup q = none ∨
    ((∃ i, (Fs.exec o h).2.lookup q = some (.file i)) ∧ FilePlace root q ∧ ¬ DirectlyInCas root q) ∨
    ((Fs.exec o h).2.lookup q = some .dir ∧ DirPlace root q) := by
  cases Fs.effect_exec o h with
  | keep _ hl => exact .inl (hl q)
  | newFile _ p hp hnone hl _ =>
    rcases hp with rfl | ⟨x, rfl⟩ | ⟨a, rfl⟩
    · rw [hl, hw.final_eq ho.1.under ho.1.not_linkPlace]
      split
      · rename_i hq
        subst hq
        exact .inr (.inr (.inl ⟨⟨_, rfl⟩, ho⟩))
      · exact .inl rfl
    · exact ho.elim
    · exact ho.elim
  | newDirs p hl =>
    rcases hl q with hsame | ⟨hnone, hnew, hpre⟩
    · exact .inl hsame
    · rw [DirPlace.above ho hw hpre hnone] at hnew ⊢
      exact .inr (.inr (.inr ⟨hnew, ho⟩))
  | link a b e _ _ _ _ => exact ho.elim
  | symlink t p _ _ => exact ho.elim
  | remove p e _ _ hl =>
    rw [hl]
    split
    · exact .inr (.inl rfl)
    · exact .inl rfl
  | rename a b e ha he _ hl =>
    obtain ⟨i, rfl⟩ := hw.isFile_of_lookup ho.1.under ho.1.not_linkPlace ha he
    rw [hl]
    split_ifs with hb ha'
    · subst hb
      exact .inr (.inr (.inl ⟨⟨i, rfl⟩, ho.2⟩))
    · exact .inr (.inl rfl)
    · exact .inl rfl

/-- One call. -/
theorem Stays.exec {o : Call} (ho : Stays root S o) (htidy : Tidy root o) (hl : Laid root h) :
    Says root o (Fs.exec o h).1 ∧ Laid root (Fs.exec o h).2 := by
  have hw := hl.wellFormed
  refine ⟨?_, hw.answers htidy (.inl rfl), ?_, ?_⟩
  · cases o with
    | isFile p =>
      intro hp
      by_contra hfile
      obtain ⟨i, hi⟩ := Option.isSome_iff_exists.1 (eq_true_of_ne_false hfile)
      rw [Fs.fileAt_eq_some, hp.final_eq hw] at hi
      exact hl.flats p i hp hi
    | readDir p =>
      intro l hlist
      constructor
      · rintro rfl e he
        obtain ⟨x, hx, hmeta⟩ := (Fs.mem_readDir hlist).1 he
        by_contra hfile
        rw [hmeta] at hfile
        obtain ⟨i, rfl⟩ := Fs.stat_isFile.1 (eq_true_of_ne_false hfile)
        exact hl.flats _ i ⟨e.name, List.append_assoc ..⟩ hx
      · rintro rfl e he
        obtain ⟨x, hx, -⟩ := (Fs.mem_readDir hlist).1 he
        exact hl.models e.name (by rw [hx]; exact nofun)
    | _ => exact trivial
  · intro n hn
    rcases ho.lookup_cases hw (root ++ [Dir.tags] ++ [n]) with hsame | hnone | ⟨-, hfile, -⟩ | ⟨-, hdir⟩
    · rw [hsame] at hn
      exact hl.models n hn
    · exact absurd hnone hn
    · exact absurd rfl (hfile.ne_model n)
    · exact hdir.segment
  · intro p i hp hi
    rcases ho.lookup_cases hw p with hsame | hnone | ⟨-, -, hdirect⟩ | ⟨hdir, -⟩
    · exact hl.flats p i hp (hsame.symm.trans hi)
    · rw [hnone] at hi
      cases hi
    · exact hdirect hp
    · rw [hdir] at hi
      cases hi

/-! ### Programs -/

/-- In every state that calls and imports reach, the program touches the places above only, leaves
such a state, and returns what has `Q`. -/
def Confined (root : Path) (S : Set Path) (p : Io α) (Q : α → Prop) : Prop :=
  ∀ h, Tame root h → (∀ x ∈ p.calls Fs.exec h, Stays root S x.1 ∧ WellFormed root x.2) ∧
    Tame root (p.run Fs.exec h).2 ∧ Q (p.run Fs.exec h).1

/-- Every call of the program stays, given what such states reply. -/
abbrev KeepsPlaces (root : Path) (S : Set Path) (p : Io α) : Prop :=
  Keeps (Stays root S) (Says root) p fun _ => True

namespace Confined

variable {p : Io α} {Q : α → Prop}

theorem of_keeps (hstays : KeepsPlaces root S p) (htidy : Only (Tidy root) p)
    (hregistry : KeepsRegistry root Segments p) (hQ : ∀ h, Tame root h → Q (p.run Fs.exec h).1) :
    Confined root S p Q := by
  intro h hh
  have hboth := hstays.and (Keeps.of_true htidy)
  have hcall : ∀ o s, (Stays root S o ∧ Tidy root o) → Laid root s →
      Says root o (Fs.exec o s).1 ∧ Laid root (Fs.exec o s).2 := fun _ _ ho hs => ho.1.exec ho.2 hs
  obtain ⟨m, hm, hdigest⟩ := hh.holds
  obtain ⟨m', -, hm', hext⟩ := hregistry h m hh.laid.wellFormed hm
  obtain ⟨-, hlaid'⟩ := Keeps.run Fs.exec hcall hboth hh.laid
  refine ⟨fun x hx => ?_, ⟨hlaid', m', hm', fun n v d hd => ?_⟩, hQ h hh⟩
  · obtain ⟨ho, hs⟩ := Keeps.calls Fs.exec hcall hboth hh.laid x hx
    exact ⟨ho.1, hs.wellFormed⟩
  · rcases hext n v d hd with hold | ⟨hnew, -⟩
    · exact hdigest n v d hold
    · exact hnew

/-- Reading touches no more than it is said to. -/
theorem of_reads (hreads : Only Reads p) (hstays : KeepsPlaces root S p)
    (hQ : ∀ h, Tame root h → Q (p.run Fs.exec h).1) : Confined root S p Q :=
  of_keeps hstays (hreads.mono fun _ ho => (ho.inArea (x := Dir.cas)).1) (.of_reads hreads) hQ

theorem bind {f : α → Io β} {R : β → Prop} (hp : Confined root S p Q)
    (hf : ∀ a, Q a → Confined root S (f a) R) : Confined root S (p >>= f) R := by
  intro h hh
  obtain ⟨hcalls, hh₁, hQ⟩ := hp h hh
  obtain ⟨hcalls', hh₂, hR⟩ := hf _ hQ _ hh₁
  rw [run_bind, calls_bind]
  refine ⟨fun x hx => ?_, hh₂, hR⟩
  rcases List.mem_append.1 hx with hx | hx
  · exact hcalls x hx
  · exact hcalls' x hx

theorem done {a : α} (hQ : Q a) : Confined root S (Program.done a : Io α) Q :=
  fun _ hh => ⟨nofun, hh, hQ⟩

end Confined

/-! ### The core -/

namespace CasStore

variable {d : String}

end CasStore

namespace EvictionManager

variable {d : String} {max : Nat}

end EvictionManager

namespace TagRegistry

variable {name tag d id : String}

end TagRegistry

/-! ### The daemon -/

section Daemon

variable {json : JsonLibrary} {params : Option Json} {digest name tag id : String}

end Daemon

namespace Operation

variable {inst : Installation}

end Operation

/-- Where the storage root keeps tags, pins and blobs. -/
inductive ItemPlace (root : Path) : Path → Prop
  | tags : ItemPlace root (root ++ [Dir.tags])
  | model (n : Name) (hn : IsSegment n.text) : ItemPlace root (root ++ [Dir.tags] ++ [n])
  | tag (n v : Name) (hn : IsSegment n.text) (hv : IsSegment v.text) :
      ItemPlace root (root ++ [Dir.tags, n, v])
  | pin (d : Name) (hd : IsDigest d.text) : ItemPlace root (root ++ [Dir.pinned, d])
  | inCas (n : Name) : ItemPlace root (root ++ [Dir.cas, n])
  | inIncoming (n : Name) : ItemPlace root (root ++ [Dir.cas, Dir.incoming, n])
  | inBlobs (n : Name) : ItemPlace root (root ++ [Dir.cas, Dir.blobs, Dir.sha256, n])

theorem FilePlace.item {p : Path} (hp : FilePlace root p) : ItemPlace root p := by
  cases hp with
  | tag n v hn hv => exact .tag n v hn hv
  | pin d hd => exact .pin d hd
  | staged n => exact .inIncoming n
  | blob n => exact .inBlobs n
  | flat d ext hd hn => exact .inCas _

/-- The directories that hold the items and are none themselves. -/
def holderDirs (root : Path) : List Path :=
  [root ++ [Dir.pinned], root ++ [Dir.cas], root ++ [Dir.cas, Dir.blobs, Dir.sha256]]

theorem DirPlace.item {p : Path} (hp : DirPlace root p) : ItemPlace root p ∨ p ∈ holderDirs root := by
  cases hp with
  | tags => exact .inl .tags
  | model n hn => exact .inl (.model n hn)
  | incoming => exact .inl (.inCas _)
  | pinned => exact .inr (by simp [holderDirs])
  | cas => exact .inr (by simp [holderDirs])
  | blobs => exact .inr (by simp [holderDirs])

end Modeld
