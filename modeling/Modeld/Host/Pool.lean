import Modeld.Host.Program

/-!
# Interleaving programs

A pool runs any number of programs on one shared state. A step picks a program, makes its next call
and moves that program on with the reply; every order of steps is a run. The history lists the
calls made so far, newest first, so that a condition on the steps of a run can speak of what
happened before. `Steps` takes such a condition, `allowed`; `fun _ _ _ _ => True` allows everything.

The proof rule is that of auxiliary variables: every program carries a ghost value that says how far
it has come, an invariant relates all ghosts to the state, and an `Outline` shows for one program at
a time that each of its calls keeps the invariant for a suitable next ghost.
-/

namespace Host

open Program

variable {ι σ α : Type} {Op : Type} {Resp : Op → Type}

/-- A call that was made: by which program, and what it replied. -/
structure Event (ι : Type) {Op : Type} (Resp : Op → Type) where
  thread : ι
  op : Op
  reply : Resp op

/-- Programs sharing a state. -/
structure Pool (ι σ : Type) {Op : Type} (Resp : Op → Type) (α : Type) where
  state : σ
  threads : ι → Program Resp α
  history : List (Event ι Resp) := []

/-- A condition on the next call of a program, given the state and what happened so far. -/
abbrev Condition (ι σ : Type) {Op : Type} (Resp : Op → Type) :=
  σ → List (Event ι Resp) → ι → Op → Prop

namespace Pool

variable [DecidableEq ι]

/-- The pool after program `i` made the call `o`, got the reply `r` and goes on as `p`. -/
def advance (pool : Pool ι σ Resp α) (i : ι) (o : Op) (r : Resp o) (s' : σ)
    (p : Program Resp α) : Pool ι σ Resp α where
  state := s'
  threads := Function.update pool.threads i p
  history := ⟨i, o, r⟩ :: pool.history

@[simp] theorem advance_state (pool : Pool ι σ Resp α) (i : ι) (o : Op) (r : Resp o) (s' : σ)
    (p : Program Resp α) : (pool.advance i o r s' p).state = s' := rfl

@[simp] theorem advance_history (pool : Pool ι σ Resp α) (i : ι) (o : Op) (r : Resp o) (s' : σ)
    (p : Program Resp α) :
    (pool.advance i o r s' p).history = ⟨i, o, r⟩ :: pool.history := rfl

@[simp] theorem advance_threads_self (pool : Pool ι σ Resp α) (i : ι) (o : Op) (r : Resp o)
    (s' : σ) (p : Program Resp α) : (pool.advance i o r s' p).threads i = p :=
  Function.update_self ..

theorem advance_threads_of_ne (pool : Pool ι σ Resp α) {i j : ι} (h : j ≠ i) (o : Op)
    (r : Resp o) (s' : σ) (p : Program Resp α) :
    (pool.advance i o r s' p).threads j = pool.threads j :=
  Function.update_of_ne h ..

variable (sys : System Resp σ) (allowed : Condition ι σ Resp)

/-- One allowed step of some program of the pool. -/
inductive Step (pool : Pool ι σ Resp α) : Pool ι σ Resp α → Prop
  | call (i : ι) (o : Op) (k : Resp o → Program Resp α) (r : Resp o)
      (s' : σ) (hthread : pool.threads i = .call o k)
      (hallowed : allowed pool.state pool.history i o) (hsys : sys o pool.state r s') :
      Step pool (pool.advance i o r s' (k r))

/-- A run: any number of allowed steps. -/
abbrev Steps : Pool ι σ Resp α → Pool ι σ Resp α → Prop := Relation.ReflTransGen (Step sys allowed)

variable {sys allowed} {pool pool' : Pool ι σ Resp α}

/-- What every allowed step preserves holds after every run. -/
theorem Steps.preserves (Inv : Pool ι σ Resp α → Prop)
    (hstep : ∀ pool pool', Inv pool → Step sys allowed pool pool' → Inv pool')
    (h : Steps sys allowed pool pool') (hInv : Inv pool) : Inv pool' := by
  induction h with
  | refl => exact hInv
  | tail _ hlast ih => exact hstep _ _ ih hlast

/-- A program that is done stays as it is. -/
theorem Steps.done_stable {i : ι} {a : α} (h : Steps sys allowed pool pool')
    (hdone : pool.threads i = .done a) : pool'.threads i = .done a := by
  refine h.preserves (fun pool => pool.threads i = .done a) ?_ hdone
  rintro pool _ hdone ⟨j, o, k, r, s', hthread, -, -⟩
  have hne : i ≠ j := by
    rintro rfl
    rw [hdone] at hthread
    cases hthread
  rw [advance_threads_of_ne _ hne, hdone]

/-! ### Runs of one program after another -/

section

variable {exec : (o : Op) → σ → Resp o × σ} {i : ι}

/-- One call of program `i`, on a system that answers by `exec`. -/
theorem Steps.call {o : Op} {k : Resp o → Program Resp α} {r : Resp o} {s' : σ}
    (hthread : pool.threads i = .call o k) (hexec : exec o pool.state = (r, s'))
    (hallowed : allowed pool.state pool.history i o) :
    Steps (reliable exec) allowed pool (pool.advance i o r s' (k r)) :=
  .single (.call i o k r s' hthread hallowed hexec)

/-- Program `i` can run to its end while the others wait, when all its calls are allowed. -/
theorem Steps.finish (exec : (o : Op) → σ → Resp o × σ) (allowed : Condition ι σ Resp)
    (may : Op → Prop) (p : Program Resp α) (pool : Pool ι σ Resp α) (hthread : pool.threads i = p)
    (hp : Only may p) (hallowed : ∀ s hist o, may o → allowed s hist i o) :
    ∃ pool', Steps (reliable exec) allowed pool pool' ∧
      pool'.threads = Function.update pool.threads i (.done (p.run exec pool.state).1) ∧
      pool'.state = (p.run exec pool.state).2 := by
  induction p generalizing pool with
  | done a => exact ⟨pool, .refl, by rw [run_done, ← hthread, Function.update_eq_self], rfl⟩
  | call o k ih =>
    rw [Only, keeps_call] at hp
    obtain ⟨pool', hsteps, hthreads, hstate⟩ := ih (exec o pool.state).1
      (pool.advance i o _ (exec o pool.state).2 (k (exec o pool.state).1)) (by simp)
      (hp.2 _ trivial)
    refine ⟨pool', (Steps.call hthread rfl (hallowed _ _ _ hp.1)).trans hsteps, ?_, hstate⟩
    rw [hthreads]
    exact Function.update_idem ..

/-- The pool after the next calls of the programs of a list, one after the other, unless one of them
is not allowed. -/
def follow (exec : (o : Op) → σ → Resp o × σ) (allowed : Condition ι σ Resp)
    [∀ s hist i o, Decidable (allowed s hist i o)] :
    List ι → Pool ι σ Resp α → Option (Pool ι σ Resp α)
  | [], pool => some pool
  | i :: order, pool =>
    match pool.threads i with
    | .done _ => none
    | .call o k =>
      if allowed pool.state pool.history i o then
        follow exec allowed order (pool.advance i o (exec o pool.state).1 (exec o pool.state).2
          (k (exec o pool.state).1))
      else none

theorem steps_of_follow [∀ s hist i o, Decidable (allowed s hist i o)] {order : List ι}
    (h : follow exec allowed order pool = some pool') :
    Steps (reliable exec) allowed pool pool' := by
  induction order generalizing pool with
  | nil =>
    obtain rfl := Option.some.inj h
    exact .refl
  | cons i order ih =>
    rw [follow] at h
    split at h
    · cases h
    · rename_i o k hthread
      split at h
      · rename_i hallowed
        exact (Steps.call hthread rfl hallowed).trans (ih h)
      · cases h

end

/-- When all programs keep a discipline, an invariant that the discipline protects holds after
every run. -/
theorem Steps.keeps {may : Op → Prop} {reply : (o : Op) → Resp o → Prop} {I : σ → Prop}
    {Q : ι → α → Prop}
    (hcall : ∀ o s r s', may o → I s → sys o s r s' → reply o r ∧ I s')
    (h : Steps sys allowed pool pool') (hI : I pool.state)
    (hthreads : ∀ i, Keeps may reply (pool.threads i) (Q i)) :
    I pool'.state ∧ ∀ i, Keeps may reply (pool'.threads i) (Q i) := by
  refine h.preserves (fun pool => I pool.state ∧
    ∀ i, Keeps may reply (pool.threads i) (Q i)) ?_ ⟨hI, hthreads⟩
  rintro pool _ ⟨hI, hthreads⟩ ⟨i, o, k, r, s', hthread, -, hsys⟩
  have hi := hthreads i
  rw [hthread, keeps_call] at hi
  obtain ⟨hr, hI'⟩ := hcall o _ r s' hi.1 hI hsys
  refine ⟨hI', fun j => ?_⟩
  rcases eq_or_ne j i with rfl | hne
  · rw [advance_threads_self]
    exact hi.2 r hr
  · rw [advance_threads_of_ne _ hne]
    exact hthreads j

/-! ### Proof outlines -/

variable {G : Type}

/-- What the ghosts `γ` of all programs say about the state and the history. -/
abbrev Global (ι G σ : Type) {Op : Type} (Resp : Op → Type) :=
  (ι → G) → σ → List (Event ι Resp) → Prop

variable (sys allowed) in
/-- Program `i`, come as far as ghost `g`, may go on as `p`: whenever the invariant holds, its next
call is one that it `may` make, and each reply takes it to a ghost with which the invariant holds
again. -/
def Outline (Inv : Global ι G σ Resp) (may : (ι → G) → σ → ι → Op → Prop) (i : ι)
    (p : Program Resp α) (Q : α → G → Prop) : G → Prop :=
  p.wp (l := G → Prop) (fun o k g => ∀ γ s hist, γ i = g → Inv γ s hist →
    may γ s i o ∧ ∀ r s', allowed s hist i o → sys o s r s' →
      ∃ g', Inv (Function.update γ i g') s' (⟨i, o, r⟩ :: hist) ∧ k r g') Q

section Outline

variable {Inv : Global ι G σ Resp} {may : (ι → G) → σ → ι → Op → Prop} {i : ι} {g : G}
  {β : Type} {Q : α → G → Prop}

@[simp] theorem outline_done (a : α) :
    Outline sys allowed Inv may i (done a : Program Resp α) Q g ↔ Q a g := Iff.rfl

theorem outline_call (o : Op) (k : Resp o → Program Resp α) :
    Outline sys allowed Inv may i (call o k) Q g ↔ ∀ γ s hist, γ i = g → Inv γ s hist →
      may γ s i o ∧ ∀ r s', allowed s hist i o → sys o s r s' →
        ∃ g', Inv (Function.update γ i g') s' (⟨i, o, r⟩ :: hist) ∧
          Outline sys allowed Inv may i (k r) Q g' := Iff.rfl

theorem outline_bind (p : Program Resp α) (f : α → Program Resp β) (R : β → G → Prop) :
    Outline sys allowed Inv may i (p >>= f) R g ↔
      Outline sys allowed Inv may i p
        (fun a => Outline sys allowed Inv may i (f a) R) g :=
  iff_of_eq (congrFun (wp_bind (l := G → Prop) _ p f R) g)

theorem Outline.mono {p : Program Resp α} {Q' : α → G → Prop}
    (h : Outline sys allowed Inv may i p Q g) (hQ : ∀ a g, Q a g → Q' a g) :
    Outline sys allowed Inv may i p Q' g := by
  induction p generalizing g with
  | done a => exact hQ a g h
  | call o k ih =>
    intro γ s hist hγ hInv
    obtain ⟨hmay, hnext⟩ := h γ s hist hγ hInv
    refine ⟨hmay, fun r s' hallowed hsys => ?_⟩
    obtain ⟨g', hInv', hk⟩ := hnext r s' hallowed hsys
    exact ⟨g', hInv', ih r hk⟩

theorem Outline.perform {o : Op} {f : Resp o → Program Resp β} {R : β → G → Prop}
    (h : ∀ γ s hist, γ i = g → Inv γ s hist → may γ s i o ∧ ∀ r s', allowed s hist i o →
      sys o s r s' → ∃ g', Inv (Function.update γ i g') s' (⟨i, o, r⟩ :: hist) ∧
        Outline sys allowed Inv may i (f r) R g') :
    Outline sys allowed Inv may i (perform o >>= f) R g := h

theorem Outline.bind {p : Program Resp α} {f : α → Program Resp β} {R : β → G → Prop}
    (h : Outline sys allowed Inv may i p Q g)
    (hf : ∀ a g, Q a g → Outline sys allowed Inv may i (f a) R g) :
    Outline sys allowed Inv may i (p >>= f) R g :=
  (outline_bind p f R).2 (h.mono hf)

/-- A program that keeps a discipline moves no ghost, when calls of that discipline keep the
invariant as the ghosts stand. -/
theorem outline_of_keeps {harmless : Op → Prop} {reply : (o : Op) → Resp o → Prop} {Q : α → Prop}
    {p : Program Resp α} (hp : Keeps harmless reply p Q)
    (hcall : ∀ o γ s hist, harmless o → γ i = g → Inv γ s hist → may γ s i o ∧
      ∀ r s', allowed s hist i o → sys o s r s' → reply o r ∧ Inv γ s' (⟨i, o, r⟩ :: hist)) :
    Outline sys allowed Inv may i p (fun a g' => Q a ∧ g' = g) g := by
  induction p with
  | done a => exact ⟨(keeps_done a).1 hp, rfl⟩
  | call o k ih =>
    rw [keeps_call] at hp
    intro γ s hist hγ hInv
    obtain ⟨hmay, hnext⟩ := hcall o γ s hist hp.1 hγ hInv
    refine ⟨hmay, fun r s' hallowed hsys => ?_⟩
    obtain ⟨hr, hInv'⟩ := hnext r s' hallowed hsys
    refine ⟨g, ?_, ih r (hp.2 r hr)⟩
    rwa [← hγ, Function.update_eq_self]

/-- All programs are where their ghosts say they are. -/
def Outlined (sys : System Resp σ) (allowed : Condition ι σ Resp) (Inv : Global ι G σ Resp)
    (may : (ι → G) → σ → ι → Op → Prop) (Q : ι → α → G → Prop) (pool : Pool ι σ Resp α) : Prop :=
  ∃ γ, Inv γ pool.state pool.history ∧
    ∀ i, Outline sys allowed Inv may i (pool.threads i) (Q i) (γ i)

/-- One step of a pool whose programs have outlines. -/
theorem Step.outlined {Q : ι → α → G → Prop} (h : Step sys allowed pool pool')
    (hpool : Outlined sys allowed Inv may Q pool) : Outlined sys allowed Inv may Q pool' := by
  obtain ⟨γ, hInv, hthreads⟩ := hpool
  obtain ⟨i, o, k, r, s', hthread, hallowed, hsys⟩ := h
  have hi := hthreads i
  rw [hthread, outline_call] at hi
  obtain ⟨g', hInv', hk⟩ := (hi γ _ _ rfl hInv).2 r s' hallowed hsys
  refine ⟨Function.update γ i g', hInv', fun j => ?_⟩
  rcases eq_or_ne j i with rfl | hne
  · rw [advance_threads_self, Function.update_self]
    exact hk
  · rw [advance_threads_of_ne _ hne, Function.update_of_ne hne]
    exact hthreads j

/-- Every run of a pool whose programs have outlines. -/
theorem Steps.outlined {Q : ι → α → G → Prop} (h : Steps sys allowed pool pool')
    (hpool : Outlined sys allowed Inv may Q pool) : Outlined sys allowed Inv may Q pool' :=
  h.preserves _ (fun _ _ hpool hstep => hstep.outlined hpool) hpool

end Outline

attribute [irreducible] Outline

end Pool

end Host
