import Modeld.Core.Blobs
import Modeld.Core.Opening
import Modeld.Host.Pool

/-!
# Storing blobs at the same time

Any number of `storeBlob` calls on one store, in any number of processes, interleaved in any way.
A call owns its staging file because no other call has its process and its counter value; the final
rename is harmless whichever of the three names it lands on, since all names of a digest hold the
same content when the hash does not collide on the contents involved.
-/

namespace Modeld

open Host Program

/-- Calls of `storeBlob` on one store. Each has the number of its process, a stream without read
failures and possibly an expected digest. -/
structure Stores (ι : Type) where
  root : Path
  pid : ι → Pid
  reader : ι → Reader
  expected : ι → Option String
  content : ι → Bytes
  content_eq : ∀ i, (reader i).content = .ok (content i)

namespace Stores

variable {ι : Type} (stores : Stores ι) (sha : Sha256)

/-- The store. -/
abbrev cas : CasStore := ⟨stores.root⟩

/-- The digest of a call's content. -/
def digest (i : ι) : String := sha.hash (stores.content i)

/-- What a call is to return. -/
def result (i : ι) : Except ModeldError (String × Nat) :=
  match CasStore.mismatch (stores.digest sha i) (stores.expected i) with
  | some expected => .error (.digestMismatch expected (stores.digest sha i))
  | none => .ok (stores.digest sha i, (stores.content i).length)

/-- The contents involved: those of the calls and those in the store before. -/
def Involved (h : Fs) (x : Bytes) : Prop :=
  (∃ i, x = stores.content i) ∨
    ∃ d p i, IsDigest d ∧ stores.cas.Names d p ∧ h.lookup p = some (.file i) ∧ x = h.data i

/-- How far a call has come: its counter value, and its staging file with what was written to it. -/
inductive Phase
  | start
  | numbered (n : Nat)
  | staging (n : Nat) (file : Ino) (written : Bytes)
  | rejected
  | stored

/-- The counter value that the call still owns. -/
def Phase.number : Phase → Option Nat
  | numbered n => some n
  | staging n _ _ => some n
  | _ => none

/-- The staging path of a call. -/
def stage (i : ι) (n : Nat) : Path := stores.cas.stagePath (CasStore.nonceOf (stores.pid i) n)

variable {stores sha} {i j : ι} {m n : Nat} {d : String} {p : Path}

theorem isDigest_digest (i : ι) : IsDigest (stores.digest sha i) := sha.isDigest_hash _

theorem stage_in_cas (i : ι) (n : Nat) : stores.root ++ [Dir.cas] <+: stores.stage i n := by
  rw [stage, CasStore.stagePath_eq]
  simp

theorem stage_not_names (i : ι) (n : Nat) (hd : IsDigest d) :
    ¬ stores.cas.Names d (stores.stage i n) := by
  rw [stage, CasStore.stagePath_eq]
  exact CasStore.not_names_incoming hd _

theorem not_linkPlace_stage (i : ι) (n : Nat) : ¬ LinkPlace stores.root (stores.stage i n) :=
  not_linkPlace_of_area (stage_in_cas i n) (by decide) (by decide)

/-- Two numbers in hexadecimal can be read off with the dash between them. -/
theorem hex_append_inj {a b c e : Nat}
    (h : Text.hex a ++ "-" ++ Text.hex b = Text.hex c ++ "-" ++ Text.hex e) : a = c ∧ b = e := by
  have hdash := fun k => Text.not_mem_hex k (c := '-') (by decide)
  have hlist := congrArg String.toList h
  simp only [String.toList_append, List.append_assoc, String.reduceToSingleton,
    String.toList_singleton, List.cons_append, List.nil_append] at hlist
  obtain ⟨h1, -, h2⟩ := (List.append_cons_inj_of_notMem (hdash _) (hdash _)).1 hlist
  exact ⟨Text.hex_injective (String.toList_inj.1 h1), Text.hex_injective (String.toList_inj.1 h2)⟩

/-- Staging paths tell processes and counter values apart. -/
theorem stage_inj (h : stores.stage i m = stores.stage j n) : stores.pid i = stores.pid j ∧ m = n := by
  rw [stage, stage, CasStore.stagePath_eq, CasStore.stagePath_eq] at h
  simp only [List.append_cancel_left_eq, List.cons.injEq, Name.mk.injEq, Text.toList_append_inj,
    and_true, true_and] at h
  exact hex_append_inj h

/-! ### The invariant -/

variable (stores sha)

/-- What the store holds while the calls are at their phases. -/
structure Inv (h₀ : Fs) (γ : ι → Phase) (s : Fs) : Prop where
  wf : WellFormed stores.root s
  names : ∀ d p k, IsDigest d → stores.cas.Names d p → s.lookup p = some (.file k) →
    sha.hash (s.data k) = d ∧ stores.Involved h₀ (s.data k)
  kept : ∀ d, IsDigest d → stores.cas.Stored h₀ d → stores.cas.Stored s d
  stored : ∀ i, γ i = .stored → stores.cas.Stored s (stores.digest sha i)
  number : ∀ i n, (γ i).number = some n → n < s.counters (stores.pid i)
  number_inj : ∀ i j n, (γ i).number = some n → (γ j).number = some n →
    stores.pid i = stores.pid j → i = j
  staging : ∀ i n k w, γ i = .staging n k w →
    s.lookup (stores.stage i n) = some (.file k) ∧ s.data k = w
  free : ∀ i n, s.lookup (stores.stage i n) ≠ some .dir

variable {stores sha} {h₀ s s' : Fs} {γ : ι → Phase}

/-- The staging file of one call is none of another's. -/
theorem Inv.stage_ne (hInv : stores.Inv sha h₀ γ s) (hij : i ≠ j)
    (hi : (γ i).number = some m) (hj : (γ j).number = some n) :
    stores.stage i m ≠ stores.stage j n := fun h => by
  obtain ⟨hpid, rfl⟩ := stage_inj h
  exact hij (hInv.number_inj i j m hi hj hpid)

/-- A file with a name of a digest is no staging file. -/
theorem Inv.names_ne_staging (hInv : stores.Inv sha h₀ γ s) {k : Ino} {w : Bytes}
    (hi : γ i = .staging n k w) (hd : IsDigest d) (hp : stores.cas.Names d p) {k' : Ino}
    (hk' : s.lookup p = some (.file k')) : k' ≠ k := by
  rintro rfl
  have heq := hInv.wf.eq_of_shared (under_root (stage_in_cas i n)) (hp.under hd)
    (hInv.staging i n k' w hi).1 hk' fun d hd => stage_not_names i n hd
  exact stage_not_names i n hd (heq ▸ hp)

/-- A phase in which the call still owns the same counter value, or none. -/
private theorem Inv.number_of_le (hInv : stores.Inv sha h₀ γ s) {g : Phase}
    (hg : ∀ n, g.number = some n → (γ i).number = some n)
    (hcounters : ∀ c, s.counters c ≤ s'.counters c) (n : Nat) (hn : g.number = some n) :
    n < s'.counters (stores.pid i) ∧
      ∀ j, j ≠ i → (γ j).number = some n → stores.pid i ≠ stores.pid j :=
  ⟨(hInv.number i n (hg n hn)).trans_le (hcounters _), fun j hji hj hpid =>
    hji (hInv.number_inj i j n (hg n hn) hj hpid).symm⟩

/-- What creating the staging file of a call does to the rest. -/
theorem Inv.create_frame (hInv : stores.Inv sha h₀ γ s) {k : Ino} {s' : Fs}
    (hc : s.create (stores.stage i n) = (.ok k, s')) :
    s'.lookup (stores.stage i n) = some (.file k) ∧ s'.data k = [] ∧
      s'.counters = s.counters ∧ (∀ q, q ≠ stores.stage i n → s'.lookup q = s.lookup q) ∧
      ∀ q k', stores.root <+: q → q ≠ stores.stage i n → s.lookup q = some (.file k') →
        s'.data k' = s.data k' := by
  have hw := hInv.wf
  have hroot := under_root (@stage_in_cas _ stores i n)
  have hlink := @not_linkPlace_stage _ stores i n
  obtain ⟨hself, hother⟩ := Fs.create_lookup hc (hw.final_eq hroot hlink)
  obtain ⟨-, -, hempty, hdata⟩ := Fs.create_frame hc
  refine ⟨hself, hempty, Fs.counters_create hc, hother, fun q k' hq hne hk' => ?_⟩
  refine (hdata k' (hw.fresh q k' hq hk') fun hfile => hne ?_).2
  rw [hw.fileAt_eq_some hroot hlink] at hfile
  exact (hw.eq_of_shared hroot hq hfile hk' fun d hd => stage_not_names i n hd).symm

variable [DecidableEq ι]

/-- A step that changes the phase of one call and nothing under the names of digests. -/
private theorem Inv.of_same_names (hInv : stores.Inv sha h₀ γ s) {g : Phase}
    (hw : WellFormed stores.root s') (hg : g ≠ .stored)
    (hl : ∀ d p, IsDigest d → stores.cas.Names d p → s'.lookup p = s.lookup p)
    (hdata : ∀ d p k, IsDigest d → stores.cas.Names d p → s.lookup p = some (.file k) →
      s'.data k = s.data k)
    (hcounters : ∀ c, s.counters c ≤ s'.counters c)
    (hnumber : ∀ n, g.number = some n → n < s'.counters (stores.pid i) ∧
      ∀ j, j ≠ i → (γ j).number = some n → stores.pid i ≠ stores.pid j)
    (hstaging : ∀ j n k w, Function.update γ i g j = .staging n k w →
      s'.lookup (stores.stage j n) = some (.file k) ∧ s'.data k = w)
    (hfree : ∀ j n, s'.lookup (stores.stage j n) ≠ some .dir) :
    stores.Inv sha h₀ (Function.update γ i g) s' := by
  have hstored : ∀ d, IsDigest d → stores.cas.Stored s d → stores.cas.Stored s' d := by
    rintro d hd ⟨p, k, hp, hk⟩
    exact ⟨p, k, hp, (hl d p hd hp).trans hk⟩
  refine ⟨hw, fun d p k hd hp hk => ?_, fun d hd h => hstored d hd (hInv.kept d hd h),
    fun j hj => ?_, fun j n hj => ?_, fun j j' n hj hj' hpid => ?_, hstaging, hfree⟩
  · rw [hl d p hd hp] at hk
    rw [hdata d p k hd hp hk]
    exact hInv.names d p k hd hp hk
  · rcases eq_or_ne j i with rfl | hji
    · rw [Function.update_self] at hj
      exact absurd hj hg
    · rw [Function.update_of_ne hji] at hj
      exact hstored _ (isDigest_digest j) (hInv.stored j hj)
  · rcases eq_or_ne j i with rfl | hji
    · rw [Function.update_self] at hj
      exact (hnumber n hj).1
    · rw [Function.update_of_ne hji] at hj
      exact (hInv.number j n hj).trans_le (hcounters _)
  · by_cases hji : j = i <;> by_cases hji' : j' = i
    · exact hji.trans hji'.symm
    · rw [hji, Function.update_self] at hj
      rw [Function.update_of_ne hji'] at hj'
      exact absurd (hji ▸ hpid) ((hnumber n hj).2 j' hji' hj')
    · rw [hji', Function.update_self] at hj'
      rw [Function.update_of_ne hji] at hj
      exact absurd (hji' ▸ hpid).symm ((hnumber n hj').2 j hji hj)
    · rw [Function.update_of_ne hji] at hj
      rw [Function.update_of_ne hji'] at hj'
      exact hInv.number_inj j j' n hj hj' hpid

/-- The call takes a number from the counter of its process. -/
theorem Inv.fetchAdd (hInv : stores.Inv sha h₀ γ s) (hi : γ i = .start) :
    stores.Inv sha h₀ (Function.update γ i (.numbered (s.counters (stores.pid i))))
      (s.fetchAdd (stores.pid i)).2 := by
  have hle : ∀ c, s.counters c ≤ (s.fetchAdd (stores.pid i)).2.counters c := fun c => by
    rcases eq_or_ne c (stores.pid i) with rfl | hc
    · simp [Fs.fetchAdd]
    · simp [Fs.fetchAdd, hc]
  refine hInv.of_same_names (hInv.wf.answers (o := .fetchAdd (stores.pid i)) trivial (.inl rfl))
    nofun (fun _ _ _ _ => rfl) (fun _ _ _ _ _ _ => rfl) hle (fun n hn => ?_) (fun j n k w hj => ?_)
    hInv.free
  · obtain rfl : s.counters (stores.pid i) = n := Option.some.inj hn
    refine ⟨by simp [Fs.fetchAdd], fun j _ hj hpid => ?_⟩
    have := hInv.number j _ hj
    rw [← hpid] at this
    exact lt_irrefl _ this
  · have hji : j ≠ i := by
      rintro rfl
      simp at hj
    rw [Function.update_of_ne hji] at hj
    exact hInv.staging j n k w hj

/-- The staging file is created, or emptied when an earlier process left one of that name. -/
theorem Inv.create (hInv : stores.Inv sha h₀ γ s) (hi : γ i = .numbered n) :
    ∃ k s', Fs.exec (.create (stores.stage i n)) s = (.ok k, s') ∧
      stores.Inv sha h₀ (Function.update γ i (.staging n k [])) s' := by
  have hw := hInv.wf
  have hroot := under_root (@stage_in_cas _ stores i n)
  have hlink := @not_linkPlace_stage _ stores i n
  have hparent : s.lookup (stores.stage i n).dropLast = some .dir := by
    refine hw.base _ (.inr ?_)
    rw [stage, CasStore.stagePath_eq]
    simp [baseDirs]
  obtain ⟨k, s', hc⟩ := Fs.create_ok (fun t ht => hlink (hw.links _ t hroot ht)) (hInv.free i n)
    hparent
  obtain ⟨hself, hempty, hcounters, hother, hdata⟩ := hInv.create_frame hc
  have hnames : ∀ d p, IsDigest d → stores.cas.Names d p → p ≠ stores.stage i n := by
    rintro d _ hd hp rfl
    exact stage_not_names i n hd hp
  refine ⟨k, s', hc, hInv.of_same_names (hw.answers (o := .create (stores.stage i n))
    ⟨hroot, hlink⟩ (.inl hc)) (by rintro ⟨⟩) (fun d p hd hp => hother p (hnames d p hd hp))
    (fun d p k' hd hp => hdata p k' (hp.under hd) (hnames d p hd hp)) (fun c => by rw [hcounters])
    (hInv.number_of_le (fun m hm => by rw [hi]; exact hm) fun c => by rw [hcounters])
    (fun j m k' w hj => ?_) fun j m => ?_⟩
  · rcases eq_or_ne j i with rfl | hji
    · rw [Function.update_self] at hj
      cases hj
      exact ⟨hself, hempty⟩
    · rw [Function.update_of_ne hji] at hj
      have hne := hInv.stage_ne hji (i := j) (j := i) (by rw [hj]; rfl) (by rw [hi]; rfl)
      obtain ⟨hlookup, hw⟩ := hInv.staging j m k' w hj
      exact ⟨(hother _ hne).trans hlookup,
        (hdata _ k' (under_root (stage_in_cas j m)) hne hlookup).trans hw⟩
  · by_cases heq : stores.stage j m = stores.stage i n
    · rw [heq, hself]
      rintro ⟨⟩
    · rw [hother _ heq]
      exact hInv.free j m

/-- A chunk is appended to the staging file. -/
theorem Inv.append (hInv : stores.Inv sha h₀ γ s) {k : Ino} {w : Bytes}
    (hi : γ i = .staging n k w) (chunk : Bytes) :
    stores.Inv sha h₀ (Function.update γ i (.staging n k (w ++ chunk)))
      (s.writeAt k w.length chunk) := by
  obtain ⟨hself, hdata⟩ := hInv.staging i n k w hi
  refine hInv.of_same_names (hInv.wf.answers (o := .writeAt k w.length chunk) trivial (.inl rfl))
    nofun (fun _ _ _ _ => rfl)
    (fun d p k' hd hp hk' => Fs.data_setData_of_ne (hInv.names_ne_staging hi hd hp hk'))
    (fun _ => le_rfl) (hInv.number_of_le (fun m hm => by rw [hi]; exact hm) fun _ => le_rfl)
    (fun j m k' w' hj => ?_) hInv.free
  rcases eq_or_ne j i with rfl | hji
  · rw [Function.update_self] at hj
    cases hj
    refine ⟨hself, ?_⟩
    rw [Fs.writeAt, Fs.data_setData_self, hdata, Fs.patch_length]
  · rw [Function.update_of_ne hji] at hj
    have hne := hInv.stage_ne hji (i := j) (j := i) (by rw [hj]; rfl) (by rw [hi]; rfl)
    obtain ⟨hlookup, hw⟩ := hInv.staging j m k' w' hj
    refine ⟨hlookup, (Fs.data_setData_of_ne ?_).trans hw⟩
    rintro rfl
    exact hne (hInv.wf.eq_of_shared (under_root (stage_in_cas j m)) (under_root (stage_in_cas i n))
      hlookup hself fun d hd => stage_not_names j m hd)

/-- The staging file of a call whose content is not what was expected is removed. -/
theorem Inv.reject (hInv : stores.Inv sha h₀ γ s) {k : Ino} {w : Bytes}
    (hi : γ i = .staging n k w) :
    stores.Inv sha h₀ (Function.update γ i .rejected)
      (Fs.exec (.removeFile (stores.stage i n)) s).2 := by
  obtain ⟨hself, -⟩ := hInv.staging i n k w hi
  have hexec : Fs.exec (.removeFile (stores.stage i n)) s = (.ok (), s.unlink (stores.stage i n)) := by
    simp [Fs.exec, Fs.removeFile, hself]
  have hwf := hInv.wf.answers (o := .removeFile (stores.stage i n)) trivial (.inl hexec)
  rw [hexec]
  have hother := fun q (hq : q ≠ stores.stage i n) => Fs.lookup_unlink_of_ne (h := s) hq
  refine hInv.of_same_names hwf (by rintro ⟨⟩) (fun d p hd hp => hother p ?_)
    (fun _ _ _ _ _ _ => rfl) (fun _ => le_rfl) (by rintro _ ⟨⟩) (fun j m k' w' hj => ?_) fun j m => ?_
  · rintro rfl
    exact stage_not_names i n hd hp
  · rcases eq_or_ne j i with rfl | hji
    · simp at hj
    · rw [Function.update_of_ne hji] at hj
      have hne := hInv.stage_ne hji (i := j) (j := i) (by rw [hj]; rfl) (by rw [hi]; rfl)
      exact (hInv.staging j m k' w' hj).imp_left (hother _ hne).trans
  · have hne : stores.stage i n ≠ [] := Fs.ne_nil_of_lookup_ne_dir (h := s) (by simp [hself])
    rw [Fs.lookup_unlink hne]
    split
    · rintro ⟨⟩
    · exact hInv.free j m

/-- The staged content gets one of the names of its digest. -/
theorem Inv.store (hInv : stores.Inv sha h₀ γ s) {k : Ino}
    (hi : γ i = .staging n k (stores.content i)) {target : Path}
    (ht : stores.cas.Names (stores.digest sha i) target) :
    ∃ s', Fs.exec (.rename (stores.stage i n) target) s = (.ok (), s') ∧
      stores.Inv sha h₀ (Function.update γ i .stored) s' := by
  have hw := hInv.wf
  have hd := @isDigest_digest _ stores sha i
  obtain ⟨hself, hcontent⟩ := hInv.staging i n k _ hi
  have hren := Fs.rename_ok hself (hw.notDir _ _ hd ht)
    (fun h => hInv.names_ne_staging hi hd ht h rfl) (hw.parent_of_names hd ht)
  have hwf := hw.answers (o := .rename (stores.stage i n) target)
    ⟨under_root (stage_in_cas i n), not_linkPlace_stage i n, ht.not_linkPlace hd,
      fun d hd => stage_not_names i n hd⟩ (.inl hren)
  have hl : ∀ q, ((s.unlink (stores.stage i n)).setEntry target (.file k)).lookup q =
      if q = target then some (.file k) else if q = stores.stage i n then none else s.lookup q := by
    intro q
    rw [Fs.lookup_setEntry (Fs.ne_nil_of_lookup_ne_dir (hw.notDir _ _ hd ht)),
      Fs.lookup_unlink (Fs.ne_nil_of_lookup_ne_dir (h := s) (by simp [hself]))]
  have hkeep : ∀ d, IsDigest d → stores.cas.Stored s d →
      stores.cas.Stored ((s.unlink (stores.stage i n)).setEntry target (.file k)) d := by
    rintro e he ⟨p, k', hp, hk'⟩
    by_cases hpt : p = target
    · exact ⟨p, k, hp, by rw [hl, if_pos hpt]⟩
    · refine ⟨p, k', hp, ?_⟩
      rw [hl, if_neg hpt, if_neg, hk']
      rintro rfl
      exact stage_not_names i n he hp
  refine ⟨_, hren, hwf, fun e p k' he hp hk' => ?_, fun e he h => hkeep e he (hInv.kept e he h),
    fun j hj => ?_, fun j m hj => ?_, fun j j' m hj hj' hpid => ?_, fun j m k' w hj => ?_,
    fun j m => ?_⟩
  · rw [hl] at hk'
    split_ifs at hk' with h1 h2
    · cases hk'
      obtain rfl := ht.digest_eq hd he (h1 ▸ hp)
      change sha.hash (s.data k) = _ ∧ stores.Involved h₀ (s.data k)
      rw [hcontent]
      exact ⟨rfl, .inl ⟨i, rfl⟩⟩
    · exact hInv.names e p k' he hp hk'
  · rcases eq_or_ne j i with rfl | hji
    · exact ⟨target, k, ht, by rw [hl, if_pos rfl]⟩
    · rw [Function.update_of_ne hji] at hj
      exact hkeep _ (isDigest_digest j) (hInv.stored j hj)
  · rcases eq_or_ne j i with rfl | hji
    · simp [Phase.number] at hj
    · rw [Function.update_of_ne hji] at hj
      exact hInv.number j m hj
  · have hji : j ≠ i := by
      rintro rfl
      simp [Phase.number] at hj
    have hji' : j' ≠ i := by
      rintro rfl
      simp [Phase.number] at hj'
    rw [Function.update_of_ne hji] at hj
    rw [Function.update_of_ne hji'] at hj'
    exact hInv.number_inj j j' m hj hj' hpid
  · have hji : j ≠ i := by
      rintro rfl
      simp at hj
    rw [Function.update_of_ne hji] at hj
    have hne := hInv.stage_ne hji (i := j) (j := i) (by rw [hj]; rfl) (by rw [hi]; rfl)
    obtain ⟨hlookup, hw⟩ := hInv.staging j m k' w hj
    refine ⟨?_, hw⟩
    rw [hl, if_neg, if_neg hne, hlookup]
    rintro rfl
    exact stage_not_names j m hd ht
  · rw [hl]
    split_ifs
    · nofun
    · nofun
    · exact hInv.free j m

/-! ### Every order of steps -/

/-- What holds of a call that has returned. -/
def Returned (stores : Stores ι) (sha : Sha256) (i : ι) (r : Except ModeldError (String × Nat))
    (g : Phase) : Prop :=
  r = stores.result sha i ∧
    (CasStore.mismatch (stores.digest sha i) (stores.expected i) = none → g = .stored)

variable (sha h₀) in
/-- A program of call `i`, in any company. -/
private abbrev Runs {α : Type} (stores : Stores ι) (i : ι) (p : Io α) (Q : α → Phase → Prop)
    (g : Phase) : Prop :=
  Pool.Outline Fs.reliable (fun _ _ _ _ => True) (fun γ s _ => stores.Inv sha h₀ γ s)
    (fun _ _ _ _ => True) i p Q g

/-- The loop writes what is left of the stream behind what it has written. -/
private theorem runs_storeLoop {k : Ino} (reader : Reader) (rest written : Bytes) (total : Nat)
    (hreader : reader.content = .ok rest) :
    Runs sha h₀ stores i (CasStore.storeLoop k reader written total)
      (fun r g => r = .ok (written ++ rest, total + rest.length) ∧
        g = .staging n k (written ++ rest)) (.staging n k written) := by
  induction reader generalizing rest written total with
  | nil =>
    obtain rfl : [] = rest := by simpa [Reader.content] using hreader
    exact (Pool.outline_done _).2 (by simp)
  | cons chunk reader ih =>
    rcases chunk with e | chunk
    · cases hreader
    unfold CasStore.storeLoop
    by_cases hchunk : chunk = []
    · rw [if_pos hchunk]
      obtain rfl : [] = rest := by simpa [Reader.content, hchunk] using hreader
      exact (Pool.outline_done _).2 (by simp)
    rw [if_neg hchunk]
    obtain ⟨rest, hrest, rfl⟩ : ∃ tail, Reader.content reader = .ok tail ∧ rest = chunk ++ tail := by
      rw [Reader.content, if_neg hchunk] at hreader
      cases htail : Reader.content reader with
      | error e => simp [htail, Except.map] at hreader
      | ok tail =>
        rw [htail] at hreader
        exact ⟨tail, rfl, (Except.ok.inj hreader).symm⟩
    refine Pool.Outline.perform fun γ s hist hγ hInv => ⟨trivial, fun r s' _ hs => ?_⟩
    obtain ⟨rfl, rfl⟩ := Prod.mk.inj hs
    refine ⟨_, hInv.append hγ chunk, (ih rest (written ++ chunk) (total + chunk.length)
      hrest).mono fun r g hr => ?_⟩
    simpa [List.append_assoc, Nat.add_assoc] using hr

private theorem runs_storeStaged {k : Ino} (i : ι) (n : Nat) :
    Runs sha h₀ stores i (stores.cas.storeStaged (stores.stage i n) (stores.digest sha i)
      (stores.content i).length (stores.expected i)) (stores.Returned sha i)
      (.staging n k (stores.content i)) := by
  unfold CasStore.storeStaged
  split
  · rename_i expected hmismatch
    refine Pool.Outline.perform fun γ s hist hγ hInv => ⟨trivial, fun r s' _ hs => ?_⟩
    have hInv' := hInv.reject hγ
    rw [hs] at hInv'
    refine ⟨_, hInv', (Pool.outline_done _).2 ⟨?_, ?_⟩⟩
    · simp [result, hmismatch]
    · simp [hmismatch]
  · rename_i hmismatch
    refine (Pool.outline_of_keeps (CasStore.keeps_blobPath fun _ => Looks.reads)
      fun o γ s hist ho hγ hInv => ⟨trivial, fun r s' _ hs => ⟨trivial, ?_⟩⟩).bind ?_
    · rw [ho.answers (.inl hs)]
      exact hInv
    rintro target g ⟨htarget, rfl⟩
    refine Pool.Outline.perform fun γ s hist hγ hInv => ⟨trivial, fun r s' _ hs => ?_⟩
    obtain ⟨s₁, hexec, hInv'⟩ := hInv.store hγ htarget
    obtain ⟨rfl, rfl⟩ := Prod.mk.inj (hs.symm.trans hexec)
    exact ⟨_, hInv', (Pool.outline_done _).2 ⟨by simp [result, hmismatch], fun _ => rfl⟩⟩

/-- One call, in any company. -/
theorem runs_storeBlob (i : ι) :
    Runs sha h₀ stores i (stores.cas.storeBlob sha (stores.pid i) (stores.reader i)
      (stores.expected i)) (stores.Returned sha i) .start := by
  refine Pool.Outline.perform fun γ s hist hγ hInv => ⟨trivial, fun n s' _ hs => ?_⟩
  obtain ⟨rfl, rfl⟩ := Prod.mk.inj hs
  refine ⟨_, hInv.fetchAdd hγ, ?_⟩
  refine Pool.Outline.perform fun γ s hist hγ hInv => ⟨trivial, fun r s' _ hs => ?_⟩
  obtain ⟨k, s₁, hexec, hInv'⟩ := hInv.create hγ
  obtain ⟨rfl, rfl⟩ := Prod.mk.inj (hs.symm.trans hexec)
  refine ⟨_, hInv', ?_⟩
  refine (runs_storeLoop (stores.reader i) (stores.content i) [] 0 (stores.content_eq i)).bind ?_
  rintro r g ⟨rfl, rfl⟩
  rw [Nat.zero_add]
  exact runs_storeStaged i _

/-- Where the calls start: the blobs in the store are good, the hash tells the contents involved
apart, and there is no directory in the way of a staging file. -/
structure Ready (stores : Stores ι) (sha : Sha256) (h : Fs) : Prop where
  wf : WellFormed stores.root h
  integral : Integral sha stores.root h
  injective : ∀ x y, stores.Involved h x → stores.Involved h y → sha.hash x = sha.hash y → x = y
  free : ∀ i n, h.lookup (stores.stage i n) ≠ some .dir

/-- All calls, from a state of the store. -/
def pool (stores : Stores ι) (sha : Sha256) (h : Fs) :
    Pool ι Fs Reply (Except ModeldError (String × Nat)) where
  state := h
  threads i := stores.cas.storeBlob sha (stores.pid i) (stores.reader i) (stores.expected i)

omit [DecidableEq ι] in
theorem Ready.inv (hready : stores.Ready sha h₀) : stores.Inv sha h₀ (fun _ => .start) h₀ where
  wf := hready.wf
  names d p k hd hp hk := ⟨hready.integral d p k hd hp hk, .inr ⟨d, p, k, hd, hp, hk, rfl⟩⟩
  kept _ _ h := h
  stored _ hi := nomatch hi
  number _ _ hi := nomatch hi
  number_inj _ _ _ hi := nomatch hi
  staging _ _ _ _ hi := nomatch hi
  free := hready.free

omit [DecidableEq ι] in
/-- Every stored digest yields the one content involved that hashes to it. -/
theorem Inv.content_eq (hready : stores.Ready sha h₀) (hInv : stores.Inv sha h₀ γ s)
    (hd : IsDigest d) (hs : stores.cas.Stored s d) {x : Bytes} (hx : stores.Involved h₀ x)
    (hhash : sha.hash x = d) : stores.cas.content s d = some x := by
  refine CasStore.content_of_forall hInv.wf hd hs fun p k hp hk => ?_
  obtain ⟨hk1, hk2⟩ := hInv.names d p k hd hp hk
  exact hready.injective _ _ hk2 hx (hk1.trans hhash.symm)

omit [DecidableEq ι] in
/-- A blob that was in the store before is there unchanged. -/
theorem Inv.content_kept (hready : stores.Ready sha h₀) (hInv : stores.Inv sha h₀ γ s)
    (hd : IsDigest d) (hs : stores.cas.Stored h₀ d) :
    stores.cas.content s d = stores.cas.content h₀ d := by
  rcases CasStore.content_cases hready.wf hd with ⟨p, k, hp, hk, hc⟩ | ⟨hns, -⟩
  · rw [hc]
    exact hInv.content_eq hready hd (hInv.kept d hd hs) (.inr ⟨d, p, k, hd, hp, hk, rfl⟩)
      (hready.integral d p k hd hp hk)
  · exact absurd hs hns

/-- Whatever the order of their steps, all calls return what they are to return; each can always be
run to its end; and once they have returned, every returned digest yields the content of its call,
and every blob that was there before is unchanged. -/
theorem all_stored (stores : Stores ι) (sha : Sha256) (h₀ : Fs) (hready : stores.Ready sha h₀)
    (pool' : Pool ι Fs Reply (Except ModeldError (String × Nat)))
    (hrun : Pool.Steps Fs.reliable (fun _ _ _ _ => True) (stores.pool sha h₀) pool') :
    (∀ i r, pool'.threads i = .done r → r = stores.result sha i) ∧
    (∀ i, ∃ pool'', Pool.Steps Fs.reliable (fun _ _ _ _ => True) pool' pool'' ∧
      pool''.threads i = .done (stores.result sha i)) ∧
    ((∀ i, ∃ r, pool'.threads i = .done r) →
      (∀ i digest len, pool'.threads i = .done (.ok (digest, len)) →
        stores.cas.content pool'.state digest = some (stores.content i)) ∧
      ∀ d, IsDigest d → stores.cas.Stored h₀ d →
        stores.cas.content pool'.state d = stores.cas.content h₀ d) := by
  have hstart : Pool.Outlined Fs.reliable (fun _ _ _ _ => True) (fun γ s _ => stores.Inv sha h₀ γ s)
      (fun _ _ _ _ => True) (stores.Returned sha) (stores.pool sha h₀) :=
    ⟨fun _ => .start, hready.inv, fun i => runs_storeBlob i⟩
  have hreturned : ∀ pool', Pool.Steps Fs.reliable (fun _ _ _ _ => True) (stores.pool sha h₀) pool' →
      ∀ i r, pool'.threads i = .done r → r = stores.result sha i := by
    intro pool' hrun i r hr
    obtain ⟨γ, -, hthreads⟩ := hrun.outlined hstart
    have hi := hthreads i
    rw [hr, Pool.outline_done] at hi
    exact hi.1
  refine ⟨hreturned pool' hrun, fun i => ?_, fun _ => ?_⟩
  · obtain ⟨pool'', hsteps, hthreads, -⟩ := Pool.Steps.finish Fs.exec
      (fun _ _ _ _ => True) (fun _ => True) (i := i) _ pool' rfl (only_true _) fun _ _ _ _ => trivial
    have hdone : pool''.threads i = .done ((pool'.threads i).run Fs.exec pool'.state).1 := by
      rw [hthreads, Function.update_self]
    refine ⟨pool'', hsteps, hdone.trans ?_⟩
    rw [hreturned pool'' (hrun.trans hsteps) i _ hdone]
  · obtain ⟨γ, hInv, hthreads⟩ := hrun.outlined hstart
    refine ⟨fun i digest len hi => ?_, fun d hd hs => hInv.content_kept hready hd hs⟩
    have hdone := hthreads i
    rw [hi, Pool.outline_done] at hdone
    obtain ⟨hresult, hstored⟩ := hdone
    unfold result at hresult
    split at hresult
    · cases hresult
    · rename_i hmismatch
      cases hresult
      exact hInv.content_eq hready (isDigest_digest i) (hInv.stored i (hstored hmismatch))
        (.inl ⟨i, rfl⟩) rfl

/-! ### Sample calls -/

/-- Two calls from two processes: a byte in a chunk of its own, and an empty stream that was to be
something else. -/
def sampleStores : Stores Bool where
  root := sampleRoot
  pid i := cond i 8 7
  reader i := cond i [] [.ok [1], .ok []]
  expected i := cond i (some digestTwo) none
  content i := cond i [] [1]
  content_eq i := by cases i <;> rfl

theorem ready_sampleStores : sampleStores.Ready sampleSha (sampleFs true) := by
  have hnofile := lookup_openedFs_ne_file sampleRoot true id
  refine ⟨wellFormed_openedFs .., fun d p i _ _ hi => absurd hi (hnofile p i), fun x y hx hy h => ?_,
    fun i n => ?_⟩
  · have hcontent : ∀ x, sampleStores.Involved (sampleFs true) x → x = [1] ∨ x = [] := by
      rintro x (⟨i, rfl⟩ | ⟨d, p, i, -, -, hi, -⟩)
      · cases i
        · exact .inl rfl
        · exact .inr rfl
      · exact absurd hi (hnofile p i)
    rcases hcontent x hx with rfl | rfl <;> rcases hcontent y hy with rfl | rfl
    · rfl
    · simp [sampleSha, digestOne, digestEmpty] at h
    · simp [sampleSha, digestOne, digestEmpty] at h
    · rfl
  · rw [stage, CasStore.stagePath_eq, sampleFs, lookup_openedFs]
    · nofun
    · simp [sampleStores, openedDirs, List.cons_prefix_cons]

/-- One sample call returns the digest of its content, which is then in the store, and the other a
mismatch. -/
theorem sample_calls_stored : ∃ pool',
    Pool.Steps Fs.reliable (fun _ _ _ _ => True) (sampleStores.pool sampleSha (sampleFs true)) pool' ∧
    pool'.threads false = .done (.ok (digestOne, 1)) ∧
    pool'.threads true = .done (.error (.digestMismatch digestTwo digestEmpty)) ∧
    sampleStores.cas.content pool'.state digestOne = some [1] := by
  have hall := all_stored sampleStores sampleSha (sampleFs true) ready_sampleStores
  have hresult : sampleStores.result sampleSha false = .ok (digestOne, 1) := by rfl
  have hresult' : sampleStores.result sampleSha true =
      .error (.digestMismatch digestTwo digestEmpty) := by decide
  obtain ⟨pool₁, hrun₁, hfalse⟩ := (hall _ .refl).2.1 false
  obtain ⟨pool₂, hrun₂, htrue⟩ := (hall pool₁ hrun₁).2.1 true
  rw [hresult] at hfalse
  rw [hresult'] at htrue
  have hfalse₂ := hrun₂.done_stable hfalse
  obtain ⟨hcontent, -⟩ := (hall pool₂ (hrun₁.trans hrun₂)).2.2 fun i => by
    cases i
    · exact ⟨_, hfalse₂⟩
    · exact ⟨_, htrue⟩
  exact ⟨pool₂, hrun₁.trans hrun₂, hfalse₂, htrue, hcontent false _ _ hfalse₂⟩

end Stores

end Modeld
