import Modeld.Host.Pool

/-!
# One system in place of another

Where two systems answer every call alike, as far as a relation between their states goes, no program
can tell them apart: it returns the same and makes the same calls, and so do programs that share them.
-/

namespace Host

namespace Program

variable {Op : Type} {Resp : Op → Type} {α σ τ : Type}

/-- The systems answer alike in related states, and their states stay related. -/
def Simulates (R : σ → τ → Prop) (exec : (o : Op) → σ → Resp o × σ)
    (exec' : (o : Op) → τ → Resp o × τ) : Prop :=
  ∀ o s t, R s t → (exec o s).1 = (exec' o t).1 ∧ R (exec o s).2 (exec' o t).2

variable {R : σ → τ → Prop} {exec : (o : Op) → σ → Resp o × σ} {exec' : (o : Op) → τ → Resp o × τ}

/-- A program returns the same on both. -/
theorem Simulates.run (h : Simulates R exec exec') (p : Program Resp α) {s : σ} {t : τ} (hR : R s t) :
    (p.run exec s).1 = (p.run exec' t).1 ∧ R (p.run exec s).2 (p.run exec' t).2 := by
  induction p generalizing s t with
  | done a => exact ⟨rfl, hR⟩
  | call o k ih =>
    obtain ⟨hreply, hR'⟩ := h o s t hR
    rw [run_call, run_call, hreply]
    exact ih _ hR'

/-- A program makes the same calls on both. -/
theorem Simulates.calls (h : Simulates R exec exec') (p : Program Resp α) {s : σ} {t : τ}
    (hR : R s t) : (p.calls exec s).map (·.1) = (p.calls exec' t).map (·.1) := by
  induction p generalizing s t with
  | done a => rfl
  | call o k ih =>
    obtain ⟨hreply, hR'⟩ := h o s t hR
    rw [Program.calls, Program.calls, List.map_cons, List.map_cons, hreply]
    exact congrArg (List.cons o) (ih _ hR')

/-- Programs that share the one make the steps of programs that share the other. -/
theorem Simulates.steps {ι : Type} [DecidableEq ι] (h : Simulates R exec exec')
    {pool pool' : Pool ι σ Resp α} (hsteps : Pool.Steps (reliable exec) (fun _ _ _ _ => True) pool pool')
    {other : Pool ι τ Resp α} (hR : R pool.state other.state) (hthreads : pool.threads = other.threads) :
    ∃ other', Pool.Steps (reliable exec') (fun _ _ _ _ => True) other other' ∧
      R pool'.state other'.state ∧ pool'.threads = other'.threads := by
  induction hsteps with
  | refl => exact ⟨other, .refl, hR, hthreads⟩
  | tail _ hlast ih =>
    obtain ⟨other₁, hsteps₁, hR₁, hthreads₁⟩ := ih
    cases hlast with
    | call i o k r s' hthread _ hsys =>
      obtain ⟨hreply, hR'⟩ := h o _ _ hR₁
      have hr : (exec' o other₁.state).1 = r := hreply.symm.trans (congrArg Prod.fst hsys)
      have hs : s' = (exec o _).2 := (congrArg Prod.snd hsys).symm
      rw [hthreads₁] at hthread
      refine ⟨other₁.advance i o r (exec' o other₁.state).2 (k r),
        hsteps₁.trans (Pool.Steps.call hthread (Prod.ext hr rfl) trivial), ?_, ?_⟩
      · rw [Pool.advance_state, Pool.advance_state, hs]
        exact hR'
      · funext j
        rcases eq_or_ne j i with rfl | hne
        · rw [Pool.advance_threads_self, Pool.advance_threads_self]
        · rw [Pool.advance_threads_of_ne _ hne, Pool.advance_threads_of_ne _ hne, hthreads₁]

end Program

end Host
