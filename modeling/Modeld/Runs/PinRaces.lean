import Modeld.Core.Opening
import Modeld.Core.PinnedBlobs
import Modeld.Daemon.DaemonCalls
import Modeld.Host.Pool

/-!
# A pin during a `Prune`

`prune` asks for the pin of a blob and then removes the two names of the blob, each in a step of its
own. A `Pin` that lands between the question and the removals has replied success, and the blob goes
all the same. Anywhere else it protects the blob: `Guards` says that `prune`, wherever it stands,
removes no name of a digest without having been told that there is no pin.
-/

namespace Modeld

open Host Program

variable {root : Path} {d : String} {α β : Type}

/-! ### What `prune` does between a question and the next -/

/-- The file of the pin. -/
abbrev pinFile (root : Path) (d : String) : Path := (EvictionManager.ofRoot root).pinnedDir.join d

/-- The reply says that the digest has no pin. -/
def tellsUnpinned (root : Path) (d : String) : (o : Call) → Reply o → Bool
  | .isFile p, r => decide (p = pinFile root d) && !r
  | _, _ => false

theorem tells_of_saysPinned {o : Call} {r : Reply o} (h : SaysPinned root d o r) :
    tellsUnpinned root d o r = false := by
  cases o
  case isFile p =>
    by_cases hp : p = pinFile root d
    · have hr : r = true := h hp
      simp [tellsUnpinned, hr]
    · simp [tellsUnpinned, hp]
  all_goals rfl

/-- The program spares the digest, but for the next `n` calls, and for two calls after each reply
that there is no pin. -/
def Guards (root : Path) (d : String) : Io α → Nat → Prop
  | .done _, _ => True
  | .call o k, n => (n = 0 → Spares root d o) ∧
      ∀ r, Guards root d (k r) (if tellsUnpinned root d o r then 2 else n - 1)

theorem guards_done (a : α) (n : Nat) : Guards root d (.done a : Io α) n := trivial

theorem guards_call {o : Call} {k : Reply o → Io α} {n : Nat} :
    Guards root d (.call o k) n ↔ (n = 0 → Spares root d o) ∧
      ∀ r, Guards root d (k r) (if tellsUnpinned root d o r then 2 else n - 1) := Iff.rfl

attribute [irreducible] Guards

theorem guards_perform {o : Call} {f : Reply o → Io α} {n : Nat} :
    Guards root d (perform o >>= f) n ↔ (n = 0 → Spares root d o) ∧
      ∀ r, Guards root d (f r) (if tellsUnpinned root d o r then 2 else n - 1) := by
  rw [perform_bind, guards_call]

theorem guards_mono {p : Io α} (h : Guards root d p 0) (n : Nat) : Guards root d p n := by
  induction p generalizing n with
  | done a => exact guards_done a n
  | call o k ih =>
    rw [guards_call] at h ⊢
    refine ⟨fun _ => h.1 rfl, fun r => ?_⟩
    have hr := h.2 r
    split at hr
    · rename_i htells
      rwa [if_pos htells]
    · rename_i htells
      rw [if_neg htells]
      exact ih r hr _

/-- After a program that spares the digest, whatever it is told. -/
theorem guards_bind {p : Io α} {f : α → Io β} {Q : α → Prop}
    (hp : Keeps (Spares root d) (fun _ _ => True) p Q) (hf : ∀ a, Q a → Guards root d (f a) 0)
    (n : Nat) : Guards root d (p >>= f) n := by
  induction p generalizing n with
  | done a => exact guards_mono (hf a ((keeps_done a).1 hp)) n
  | call o k ih =>
    rw [keeps_call] at hp
    rw [call_bind, guards_call]
    exact ⟨fun _ => hp.1, fun r => ih r (hp.2 r trivial) _⟩

theorem guards_bind_done {p : Io α} {f : α → Io β} (hf : ∀ a n, Guards root d (f a) n) {n : Nat}
    (hp : Guards root d p n) : Guards root d (p >>= f) n := by
  induction p generalizing n with
  | done a => exact hf a n
  | call o k ih =>
    rw [guards_call] at hp
    rw [call_bind, guards_call]
    exact ⟨hp.1, fun r => ih r (hp.2 r)⟩

/-- Outside the window, the program spares the digest as long as it is told of the pin. -/
theorem Guards.keeps {p : Io α} (h : Guards root d p 0) :
    Keeps (Spares root d) (SaysPinned root d) p fun _ => True := by
  induction p with
  | done a => exact (keeps_done a).2 trivial
  | call o k ih =>
    rw [guards_call] at h
    rw [keeps_call]
    refine ⟨h.1 rfl, fun r hr => ih r ?_⟩
    have hnext := h.2 r
    rwa [tells_of_saysPinned hr, if_neg (by decide)] at hnext

namespace EvictionManager

variable {max : Nat}

theorem guards_evict (hd : IsDigest d) (blobs : List Candidate)
    (hblobs : ∀ b ∈ blobs, '/' ∉ b.digest.toList) (total reclaimed : Nat) :
    Guards root d ((ofRoot root).evict ⟨root⟩ max blobs total reclaimed) 0 := by
  induction blobs generalizing total reclaimed with
  | nil => exact guards_done _ _
  | cons b rest ih =>
    have ih' := ih fun c hc => hblobs c (List.mem_cons_of_mem _ hc)
    have hslash := hblobs b (List.mem_cons_self ..)
    unfold evict
    split
    · exact guards_done _ _
    -- What follows the two removals, however they end.
    have hafter : ∀ r1 r2 : Except IoError Unit, ∀ n, Guards root d
        (if r1.isOk || r2.isOk then
          (ofRoot root).evict ⟨root⟩ max rest (total - b.size) (u64 (reclaimed + b.size))
        else (ofRoot root).evict ⟨root⟩ max rest total reclaimed) n := by
      intro r1 r2 n
      split
      · exact guards_mono (ih' _ _) n
      · exact guards_mono (ih' _ _) n
    by_cases htrim : Text.trim b.digest = d
    · -- The question is about this digest, and two removals may follow the answer.
      rw [isPinned, htrim, if_pos (isDigestFormat_eq_true.2 hd), guards_perform]
      refine ⟨fun _ => .inl trivial, fun pinned => ?_⟩
      cases pinned with
      | true =>
        rw [if_pos rfl]
        exact guards_mono (ih' _ _) _
      | false =>
        have htells : tellsUnpinned root d (.isFile (pinFile root d)) false = true := by
          simp [tellsUnpinned]
        rw [if_pos htells, if_neg (by decide), guards_perform]
        refine ⟨by rintro ⟨⟩, fun r1 => ?_⟩
        rw [guards_perform]
        exact ⟨by rintro ⟨⟩, fun r2 => hafter r1 r2 _⟩
    · have hne : b.digest ≠ d := by
        intro heq
        exact htrim (heq ▸ hd.trim_eq)
      obtain ⟨h1, h2⟩ := not_names_candidate root hd hslash hne
      have hflat : root ++ [Dir.cas] <+: (CasStore.mk root).flatGguf b.digest := by
        rw [CasStore.flatGguf_eq hslash]
        simp
      refine guards_bind (Q := fun _ => True) (keeps_isPinned fun _ ho => .inl ho.reads) ?_ 0
      intro pinned _
      split
      · exact ih' _ _
      rw [guards_perform]
      refine ⟨fun _ => .inr ⟨_, rfl, in_cas_candidate hslash, h1⟩, fun r1 => ?_⟩
      rw [guards_perform]
      exact ⟨fun _ => .inr ⟨_, rfl, hflat, h2⟩, fun r2 => hafter r1 r2 _⟩

theorem guards_prune (hd : IsDigest d) : Guards root d ((ofRoot root).prune ⟨root⟩ max) 0 := by
  have hscan : Keeps (Spares root d) (fun _ _ => True) (scan ⟨root⟩) fun r =>
      ∀ found, r = .ok found → ∀ b ∈ found.1, '/' ∉ b.digest.toList :=
    keeps_scan (fun _ ho => .inl ho.reads) (.inl trivial) (.inl trivial)
      (fun n => n.plain.2.2.2) fun _ _ _ _ _ _ hd => flatDigest_slash hd
  refine guards_bind hscan (fun found hfound => ?_) 0
  rcases found with e | ⟨blobs, total⟩
  · exact guards_done _ _
  change Guards root d (if total ≤ max then _ else _) 0
  split
  · exact guards_done _ _
  refine guards_bind_done (fun _ _ => guards_done _ _) (guards_evict hd _ ?_ _ _)
  intro b hb
  exact hfound _ rfl b ((List.perm_insertionSort _ _).mem_iff.1 hb)

end EvictionManager

/-! ### A `Prune` and any number of `Pin` calls -/

/-- The calls, by their parameters: one `Prune`, and a `Pin` for each index. -/
structure PinRace (κ : Type) where
  root : Path
  quota : Option Json
  pins : κ → Option Json

namespace PinRace

variable {κ : Type} [DecidableEq κ] (race : PinRace κ)

/-- What each call runs. -/
def program : Option κ → Io VarlinkReply
  | none => handlePrune race.quota (.ofRoot race.root)
  | some k => handlePin (race.pins k) (.ofRoot race.root)

/-- All calls together. -/
def pool (h : Fs) : Pool (Option κ) Fs Reply VarlinkReply where
  state := h
  threads := race.program

end PinRace

/-- How many removals `Prune` may still make for an answer that it got before. -/
def exposed {κ : Type} (root : Path) (d : String) : List (Event (Option κ) Reply) → Nat
  | [] => 0
  | ⟨some _, _, _⟩ :: hist => exposed root d hist
  | ⟨none, o, r⟩ :: hist => if tellsUnpinned root d o r then 2 else exposed root d hist - 1

/-- No `Pin` makes the file of the pin while `Prune` stands between the question and a removal. -/
def PinsOutside {κ : Type} (root : Path) (d : String) : Condition (Option κ) Fs Reply :=
  fun _ hist i o => i ≠ none → o = .create (pinFile root d) → exposed root d hist = 0

deriving instance DecidableEq for Call

instance {κ : Type} (root : Path) (d : String) (s : Fs) (hist : List (Event (Option κ) Reply))
    (i : Option κ) [DecidableEq κ] (o : Call) : Decidable (PinsOutside root d s hist i o) :=
  inferInstanceAs (Decidable (i ≠ none → o = .create (pinFile root d) → exposed root d hist = 0))

/-- A `Pin` makes the file of the pin. -/
def makesPin {κ : Type} (root : Path) (d : String) : Event (Option κ) Reply → Bool
  | ⟨some _, .create p, .ok _⟩ => decide (p = pinFile root d)
  | _ => false

/-- A `Pin` of the digest has made its file. -/
def PinMade {κ : Type} (root : Path) (d : String) (hist : List (Event (Option κ) Reply)) : Prop :=
  ∃ e ∈ hist, makesPin root d e = true

instance {κ : Type} (root : Path) (d : String) (hist : List (Event (Option κ) Reply)) :
    Decidable (PinMade root d hist) :=
  inferInstanceAs (Decidable (∃ e ∈ hist, makesPin root d e = true))

/-- What a `Pin` does: it reads, or it makes the file of a pin. -/
def PinCall (root : Path) (o : Call) : Prop :=
  Reads o ∨ ∃ e, IsDigest e ∧ o = .create (pinFile root e)

section PinCall

variable {h h' : Fs}

theorem PinCall.inArea {o : Call} (ho : PinCall root o) : InArea root Dir.pinned o := by
  rcases ho with hreads | ⟨e, he, rfl⟩
  · exact hreads.inArea
  · have hp : root ++ [Dir.pinned] <+: pinFile root e := by
      rw [pinFile, EvictionManager.pinFile_eq he]
      simp
    exact ⟨⟨under_root hp, not_linkPlace_of_area hp (by decide) (by decide)⟩,
      fun y hy => not_under hp hy⟩

/-- A pin stays when another is made. -/
theorem PinCall.pinned {o : Call} {r : Reply o} (ho : PinCall root o) (hp : Pinned root h d)
    (ha : Fs.exec o h = (r, h')) : Pinned root h' d := by
  rcases ho with hreads | ⟨e, -, rfl⟩
  · rwa [hreads.answers (.inl ha)]
  · obtain ⟨i, hi⟩ := hp
    have hstate : h' = (h.create (pinFile root e)).2 := (congrArg Prod.snd ha).symm
    exact ⟨i, hstate ▸ Fs.lookup_create_of_some hi⟩

/-- And the store stays as it is. -/
theorem PinCall.spared {h₀ : Fs} {o : Call} {r : Reply o} (ho : PinCall root o) (hd : IsDigest d)
    (hs : Spared root d h₀ h) (ha : Fs.exec o h = (r, h')) : Spared root d h₀ h' := by
  have harea := ho.inArea
  have havoid := harea.2 Dir.cas (by decide)
  have hwrite : ∀ i off b, o ≠ .writeAt i off b := by
    rintro i off b rfl
    rcases ho with hreads | ⟨e, -, heq⟩
    · exact hreads
    · cases heq
  refine ⟨hs.wellFormed.answers harea.1 (.inl ha), ho.pinned hs.pinned ha, fun p hp => ?_,
    fun p i hp hi => ?_⟩
  · rw [← hs.lookup p hp]
    exact havoid.lookup_eq harea.1 hs.wellFormed (.inl ha) (hp.in_cas hd)
  · rw [← hs.data p i hp hi]
    exact havoid.data_eq harea.1 hs.wellFormed (.inl ha) (hp.in_cas hd)
      ((hs.lookup p hp).trans hi) (hwrite i)

end PinCall

namespace PinRace

variable {κ : Type} [DecidableEq κ] {race : PinRace κ}
  {pool pool' : Pool (Option κ) Fs Reply VarlinkReply}

/-- What holds at every point of a run: `Prune` guards the digest, and once a `Pin` has made its
file there is no question open. -/
structure Inv (race : PinRace κ) (d : String) (pool : Pool (Option κ) Fs Reply VarlinkReply) :
    Prop where
  wellFormed : WellFormed race.root pool.state
  prune : Only (KeepsPins race.root) (pool.threads none)
  guards : Guards race.root d (pool.threads none) (exposed race.root d pool.history)
  pins : ∀ k, Only (PinCall race.root) (pool.threads (some k))
  pinned : PinMade race.root d pool.history → Pinned race.root pool.state d ∧
    Keeps (Spares race.root d) (SaysPinned race.root d) (pool.threads none) fun _ => True

/-- Whoever asks is told of a pin that is there. -/
theorem saysPinned_exec {o : Call} {h h' : Fs} {r : Reply o} (hp : Pinned root h d)
    (ha : Fs.exec o h = (r, h')) : SaysPinned root d o r := by
  cases o
  case isFile p =>
    rintro rfl
    exact (congrArg Prod.fst ha).symm.trans hp.isFile
  all_goals trivial

omit [DecidableEq κ] in
theorem pinned_of_makesPin (hd : IsDigest d) {h h' : Fs} (hw : WellFormed root h) {k : κ} {o : Call}
    {r : Reply o} (ha : Fs.exec o h = (r, h'))
    (hmakes : makesPin root d (⟨some k, o, r⟩ : Event (Option κ) Reply) = true) :
    o = .create (pinFile root d) ∧ Pinned root h' d := by
  cases o
  case create p =>
    cases r with
    | error e => cases hmakes
    | ok ino =>
      obtain rfl : p = pinFile root d := of_decide_eq_true hmakes
      have hp : root ++ [Dir.pinned] <+: pinFile root d := by
        rw [pinFile, EvictionManager.pinFile_eq hd]
        simp
      have hfinal := hw.final_eq (under_root hp)
        (not_linkPlace_of_area hp (by decide) (by decide))
      exact ⟨rfl, ino, (Fs.create_lookup ha hfinal).1⟩
  all_goals cases hmakes

theorem inv_step (hd : IsDigest d) (hInv : race.Inv d pool)
    (hstep : Pool.Step Fs.reliable (PinsOutside race.root d) pool pool') : race.Inv d pool' := by
  obtain ⟨i, o, k, r, s', hthread, hallowed, hsys⟩ := hstep
  have ha : Fs.exec o pool.state = (r, s') := hsys
  cases i with
  | none =>
    have hprune := hInv.prune
    have hguards := hInv.guards
    rw [hthread, Only, keeps_call] at hprune
    rw [hthread, guards_call] at hguards
    have hmade : ∀ {hist : List (Event (Option κ) Reply)},
        PinMade race.root d (⟨none, o, r⟩ :: hist) → PinMade race.root d hist := by
      rintro hist ⟨e, hmem, hmakes⟩
      rcases List.mem_cons.1 hmem with rfl | hmem
      · cases hmakes
      · exact ⟨e, hmem, hmakes⟩
    refine ⟨hInv.wellFormed.answers hprune.1.1 (.inl ha), ?_, ?_, fun j => ?_, fun hpin => ?_⟩
    · rw [Pool.advance_threads_self]
      exact hprune.2 r trivial
    · rw [Pool.advance_threads_self]
      exact hguards.2 r
    · rw [Pool.advance_threads_of_ne _ (by simp)]
      exact hInv.pins j
    · obtain ⟨hp, hkeeps⟩ := hInv.pinned (hmade hpin)
      rw [hthread, keeps_call] at hkeeps
      rw [Pool.advance_threads_self]
      exact ⟨hp.of_keepsPins hd hprune.1 hInv.wellFormed (.inl ha),
        hkeeps.2 r (saysPinned_exec hp ha)⟩
  | some j =>
    have hpins := hInv.pins j
    rw [hthread, Only, keeps_call] at hpins
    have hnone : (pool.advance (some j) o r s' (k r)).threads none = pool.threads none :=
      Pool.advance_threads_of_ne _ (by simp) ..
    refine ⟨hInv.wellFormed.answers hpins.1.inArea.1 (.inl ha), ?_, ?_, fun j' => ?_,
      fun hpin => ?_⟩
    · rw [hnone]
      exact hInv.prune
    · rw [hnone]
      exact hInv.guards
    · by_cases hj : j' = j
      · rw [hj, Pool.advance_threads_self]
        exact hpins.2 r trivial
      · rw [Pool.advance_threads_of_ne _ (by simpa using hj)]
        exact hInv.pins j'
    · rw [hnone]
      obtain ⟨e, hmem, hmakes⟩ := hpin
      rcases List.mem_cons.1 hmem with rfl | hmem
      · -- The file of the pin was just made, and `Prune` stands outside of the window.
        obtain ⟨rfl, hp⟩ := pinned_of_makesPin hd hInv.wellFormed ha hmakes
        have hzero := hallowed (by simp) rfl
        have hguards := hInv.guards
        rw [hzero] at hguards
        exact ⟨hp, hguards.keeps⟩
      · obtain ⟨hp, hkeeps⟩ := hInv.pinned ⟨e, hmem, hmakes⟩
        exact ⟨hpins.1.pinned hp ha, hkeeps⟩

omit [DecidableEq κ] in
theorem inv_start {h : Fs} (hw : WellFormed race.root h) (hd : IsDigest d) :
    race.Inv d (race.pool h) where
  wellFormed := hw
  prune := only_handlePrune <|
    EvictionManager.inArea_prune.mono fun _ ho => ho.keepsPins (by decide)
  guards := by
    change Guards race.root d (handlePrune race.quota (.ofRoot race.root)) 0
    unfold handlePrune
    split
    · exact guards_done _ _
    · refine guards_bind_done (fun r n => ?_) (EvictionManager.guards_prune hd)
      cases r <;> exact guards_done _ _
  pins k := only_handleDigest (fun _ ho => .inl ho) fun e =>
    EvictionManager.only_pin fun he => .inr ⟨_, he, rfl⟩
  pinned := by
    rintro ⟨e, hmem, -⟩
    cases hmem

/-- The reply does not say that `Pin` number `k` made the file of a pin. -/
def NotMade (root : Path) (k : κ) (o : Call) (r : Reply o) : Prop :=
  ∀ e, IsDigest e → makesPin root e (⟨some k, o, r⟩ : Event (Option κ) Reply) = false

omit [DecidableEq κ] in
/-- A `Pin` that makes no file replies an error. -/
theorem fails_of_notMade (params : Option Json) (k : κ) :
    Keeps (fun _ => True) (NotMade root k) (handlePin params (.ofRoot root))
      fun reply => reply.error ≠ none := by
  unfold handlePin handleDigest
  split
  · exact (keeps_done _).2 nofun
  refine Keeps.bind ((only_resolveDigest.mono fun _ _ => trivial).of_true) fun outcome _ => ?_
  cases outcome with
  | ok digest =>
    refine Keeps.bind (Q := fun r => ∃ e, r = .error e) ?_ fun r hr => ?_
    · unfold EvictionManager.pin
      by_cases hd : IsDigest (Text.trim digest)
      · simp only [validateDigestFormat_of_isDigest hd]
        refine Keeps.perform trivial fun r hr => ?_
        cases r with
        | error e => exact (keeps_done _).2 ⟨_, rfl⟩
        | ok ino =>
          have hmakes : makesPin root (Text.trim digest) (⟨some k, .create _, .ok ino⟩ :
              Event (Option κ) Reply) = true := decide_eq_true rfl
          exact absurd ((hr _ hd).symm.trans hmakes) (by decide)
      · obtain ⟨e, he⟩ := validateDigestFormat_of_not_isDigest hd
        simp only [he]
        exact (keeps_done _).2 ⟨_, rfl⟩
    · obtain ⟨e, rfl⟩ := hr
      exact (keeps_done _).2 nofun
  | invalid => exact (keeps_done _).2 nofun
  | notFound => exact (keeps_done _).2 nofun

/-- A `Pin` that has replied success has made the file of a pin. -/
theorem pin_replied {allowed : Condition (Option κ) Fs Reply} {h : Fs}
    (hrun : Pool.Steps Fs.reliable allowed (race.pool h) pool) {k : κ} {reply : VarlinkReply}
    (hreply : pool.threads (some k) = .done reply) (hok : reply.error = none) :
    ∃ d, IsDigest d ∧ PinMade race.root d pool.history := by
  have hInv : (∃ d, IsDigest d ∧ PinMade race.root d pool.history) ∨
      Keeps (fun _ => True) (NotMade race.root k) (pool.threads (some k))
        fun reply => reply.error ≠ none := by
    refine hrun.preserves (fun pool => (∃ d, IsDigest d ∧ PinMade race.root d pool.history) ∨
      Keeps (fun _ => True) (NotMade race.root k) (pool.threads (some k))
        fun reply => reply.error ≠ none) ?_ (.inr (fails_of_notMade (race.pins k) k))
    rintro pool _ (⟨d, hd, e, hmem, hmakes⟩ | hkeeps) ⟨i, o, f, r, s', hthread, -, -⟩
    · exact .inl ⟨d, hd, e, List.mem_cons_of_mem _ hmem, hmakes⟩
    · by_cases hi : i = some k
      · subst hi
        rw [hthread, keeps_call] at hkeeps
        by_cases hmade : NotMade race.root k o r
        · rw [Pool.advance_threads_self]
          exact .inr (hkeeps.2 r hmade)
        · simp only [NotMade, not_forall, Bool.not_eq_false] at hmade
          obtain ⟨d, hd, hmakes⟩ := hmade
          exact .inl ⟨d, hd, _, List.mem_cons_self .., hmakes⟩
      · rw [Pool.advance_threads_of_ne _ fun heq => hi heq.symm]
        exact .inr hkeeps
  rcases hInv with hmade | hkeeps
  · exact hmade
  · rw [hreply, keeps_done] at hkeeps
    exact absurd hok hkeeps

/-- Once a `Pin` of a digest has made its file, at a moment when `Prune` was not between its
question and a removal, no later step changes what the names of the digest lead to. -/
theorem pinned_stays (race : PinRace κ) (h : Fs) (hw : WellFormed race.root h) (d : String)
    (hd : IsDigest d) (pool₁ pool₂ : Pool (Option κ) Fs Reply VarlinkReply)
    (hrun₁ : Pool.Steps Fs.reliable (PinsOutside race.root d) (race.pool h) pool₁)
    (hpin : PinMade race.root d pool₁.history)
    (hrun₂ : Pool.Steps Fs.reliable (fun _ _ _ _ => True) pool₁ pool₂) :
    ∀ p, (CasStore.mk race.root).Names d p →
      pool₂.state.lookup p = pool₁.state.lookup p ∧
        ∀ i, pool₁.state.lookup p = some (.file i) → pool₂.state.data i = pool₁.state.data i := by
  have hInv : race.Inv d pool₁ :=
    hrun₁.preserves _ (fun _ _ hInv hstep => inv_step hd hInv hstep) (inv_start hw hd)
  obtain ⟨hp, hkeeps⟩ := hInv.pinned hpin
  have hstart : Spared race.root d pool₁.state pool₁.state :=
    ⟨hInv.wellFormed, hp, fun _ _ => rfl, fun _ _ _ _ => rfl⟩
  have hthreads : ∀ i, Keeps (fun o => Spares race.root d o ∨ PinCall race.root o)
      (SaysPinned race.root d) (pool₁.threads i) fun _ => True := by
    intro i
    cases i with
    | none => exact hkeeps.mono (fun _ ho => .inl ho) fun _ ha => ha
    | some k => exact (hInv.pins k).of_true.mono (fun _ ho => .inr ho) fun _ ha => ha
  have hcall : ∀ o s r s', (Spares race.root d o ∨ PinCall race.root o) →
      Spared race.root d pool₁.state s → Fs.reliable o s r s' →
      SaysPinned race.root d o r ∧ Spared race.root d pool₁.state s' := by
    intro o s r s' ho hs hsys
    refine ⟨saysPinned_exec hs.pinned hsys, ?_⟩
    rcases ho with ho | ho
    · exact hs.answers hd ho (.inl hsys)
    · exact ho.spared hd hs hsys
  have hend := (hrun₂.keeps (Q := fun _ _ => True) hcall hstart hthreads).1
  intro p hnames
  exact ⟨hend.lookup p hnames, fun i hi => hend.data p i hnames hi⟩

end PinRace

/-! ### Sample races -/

/-- One `Prune` and one `Pin` of the same blob. -/
def samplePinRace : PinRace Unit where
  root := sampleRoot
  quota := some (.object [("max_bytes", .ofNat 2)])
  pins _ := some (.object [("id", .str digestEmpty)])

/-- The name of that blob. -/
def sampleBlob : Path := (CasStore.mk sampleRoot).blobsDir.join digestEmpty

/-- A store with one blob of three bytes. -/
def sampleStored : Fs := ((sampleFs true).write sampleBlob [1, 2, 3]).2

private theorem wellFormed_sampleStored : WellFormed sampleRoot sampleStored := by
  have hp : sampleRoot ++ [Dir.cas] <+: sampleBlob := by
    rw [sampleBlob, CasStore.blobsDir_join (IsDigest.plain (by decide))]
    simp
  exact (wellFormed_openedFs sampleRoot true id).answers (o := .write sampleBlob [1, 2, 3])
    (r := _) ⟨under_root hp, not_linkPlace_of_area hp (by decide) (by decide)⟩ (.inl rfl)

/-- A `Pin` while `Prune` scans: the blob stays. -/
theorem sample_pin_stays : ∃ pool₁ pool₂,
    Pool.Steps Fs.reliable (PinsOutside sampleRoot digestEmpty) (samplePinRace.pool sampleStored)
      pool₁ ∧ PinMade sampleRoot digestEmpty pool₁.history ∧
    Pool.Steps Fs.reliable (fun _ _ _ _ => True) pool₁ pool₂ ∧
    (pool₂.threads none).value?.map VarlinkReply.error = some none ∧
    ∀ p, (CasStore.mk sampleRoot).Names digestEmpty p →
      pool₂.state.lookup p = pool₁.state.lookup p ∧
        ∀ i, pool₁.state.lookup p = some (.file i) → pool₂.state.data i = pool₁.state.data i := by
  have hvalue : ((Pool.follow Fs.exec (PinsOutside sampleRoot digestEmpty)
      [none, some ()] (samplePinRace.pool sampleStored)).bind fun pool₁ =>
        (Pool.follow Fs.exec (fun _ _ _ _ => True) [none, none, none, none] pool₁).map fun pool₂ =>
          (decide (PinMade sampleRoot digestEmpty pool₁.history),
            (pool₂.threads none).value?.map VarlinkReply.error)) = some (true, some none) := by
    decide +kernel
  obtain ⟨pool₁, hpool₁, hrest⟩ := Option.bind_eq_some_iff.1 hvalue
  obtain ⟨pool₂, hpool₂, heq⟩ := Option.map_eq_some_iff.1 hrest
  have hmade := of_decide_eq_true (congrArg Prod.fst heq)
  have hrun₁ := Pool.steps_of_follow hpool₁
  have hrun₂ := Pool.steps_of_follow hpool₂
  exact ⟨pool₁, pool₂, hrun₁, hmade, hrun₂, congrArg Prod.snd heq,
    PinRace.pinned_stays samplePinRace sampleStored wellFormed_sampleStored digestEmpty (by decide)
      pool₁ pool₂ hrun₁ hmade hrun₂⟩

/-- A `Pin` between the question of `Prune` and the removals replies success, and the blob goes. -/
theorem sample_pin_in_window : ∃ pool₁ pool₂,
    Pool.Steps Fs.reliable (fun _ _ _ _ => True) (samplePinRace.pool sampleStored) pool₁ ∧
    (pool₁.threads (some ())).value?.map VarlinkReply.error = some none ∧
    PinMade sampleRoot digestEmpty pool₁.history ∧
    Pool.Steps Fs.reliable (fun _ _ _ _ => True) pool₁ pool₂ ∧
    (CasStore.mk sampleRoot).Names digestEmpty sampleBlob ∧
    pool₁.state.isFile sampleBlob = true ∧ pool₂.state.isFile sampleBlob = false := by
  have hvalue : ((Pool.follow Fs.exec (fun _ _ _ _ => True)
      [none, none, none, none, none, some ()] (samplePinRace.pool sampleStored)).bind fun pool₁ =>
        (Pool.follow Fs.exec (fun _ _ _ _ => True) [none, none] pool₁).map fun pool₂ =>
          ((pool₁.threads (some ())).value?.map VarlinkReply.error,
            decide (PinMade sampleRoot digestEmpty pool₁.history), pool₁.state.isFile sampleBlob,
            pool₂.state.isFile sampleBlob)) = some (some none, true, true, false) := by
    decide +kernel
  obtain ⟨pool₁, hpool₁, hrest⟩ := Option.bind_eq_some_iff.1 hvalue
  obtain ⟨pool₂, hpool₂, heq⟩ := Option.map_eq_some_iff.1 hrest
  injection heq with hreply heq
  injection heq with hmade heq
  injection heq with hthere hgone
  exact ⟨pool₁, pool₂, Pool.steps_of_follow hpool₁, hreply, of_decide_eq_true hmade,
    Pool.steps_of_follow hpool₂, .inl rfl, hthere, hgone⟩

end Modeld
