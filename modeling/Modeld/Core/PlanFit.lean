import Modeld.Core.Envelope

/-!
# Which plans fit the memory

Some of the bounds from which on a plan has a target lie below the size of the target. Between the two
the target is planned and does not fit.
-/

namespace Modeld

namespace BootstrapPlan

/-- The targets that run on the GPU. -/
def gpuTargets (p : BootstrapPlan) : List ModelTarget :=
  p.primary.toList ++ p.deepReasoner.toList ++ p.visionTower.toList

/-- No plan of the family has a smaller draft. -/
def SmallestDraft (p : BootstrapPlan) : Prop :=
  ∀ budget, p.draft.estimatedBytes ≤ (planFamily p.family budget).draft.estimatedBytes

/-- All that runs on the GPU fits in its memory, and the draft fits in the memory of the host if it
could be smaller. -/
structure FitsMemory (p : BootstrapPlan) : Prop where
  gpu : ∀ t ∈ p.gpuTargets, t.estimatedBytes ≤ p.budget.vramBudgetBytes
  draft : p.draft.estimatedBytes ≤ p.budget.ramBudgetBytes ∨ p.SmallestDraft

end BootstrapPlan

/-- At least one number of tenths of a GiB, and less than another. -/
def Between (low high bytes : UInt64) : Prop := gibTenths low ≤ bytes ∧ bytes < gibTenths high

/-- The family plans a target for this much memory of GPUs that is larger. -/
def ModelFamily.VramGap : ModelFamily → UInt64 → Prop
  | qwen, vram => Between 50 52 vram
  | granite, vram => Between 50 55 vram
  | phi, vram => Between 90 91 vram
  | gemma, vram => Between 60 62 vram ∨ Between 170 175 vram
  | bitNet, _ => False

/-- The family plans a draft for this much memory of the host that is larger, though it has a smaller
one. -/
def ModelFamily.RamGap : ModelFamily → UInt64 → Prop
  | gemma, ram => Between 20 22 ram
  | _, _ => False

/-! ### The targets on the GPU -/

variable {budget : MemoryBudget}

/-- A bound on the memory is a bound on a GPU. -/
theorem hasGpu_and_iff {bound : UInt64} (hbound : 0 < bound) :
    (budget.hasGpu && bound ≤ budget.vramBudgetBytes) = true ↔ bound ≤ budget.vramBudgetBytes := by
  simp only [MemoryBudget.hasGpu, Bool.and_eq_true, decide_eq_true_eq, and_iff_right_iff_imp]
  intro hle
  rw [UInt64.lt_iff_toNat_lt] at hbound ⊢
  rw [UInt64.le_iff_toNat_le] at hle
  omega

/-- A target with a bound fits if it fits wherever it is planned. -/
theorem forall_mem_toList_ite {α : Type} {p : Prop} [Decidable p] {a : α} {Q : α → Prop} :
    (∀ t ∈ (if p then some a else none).toList, Q t) ↔ (p → Q a) := by
  split <;> simp_all

namespace BootstrapPlan

/-- Each GPU target on its own. -/
theorem forall_gpuTargets {p : BootstrapPlan} {Q : ModelTarget → Prop} :
    (∀ t ∈ p.gpuTargets, Q t) ↔ (∀ t ∈ p.primary.toList, Q t) ∧ (∀ t ∈ p.deepReasoner.toList, Q t) ∧
      ∀ t ∈ p.visionTower.toList, Q t := by
  rw [gpuTargets, List.forall_mem_append, List.forall_mem_append, and_assoc]

end BootstrapPlan

/-- A target of so many tenths of a GiB that is planned from another number on. -/
theorem planned_fits {low high memory : UInt64} :
    (gibTenths low ≤ memory → gibTenths high ≤ memory) ↔ ¬ Between low high memory := by
  unfold Between
  rw [not_and]
  refine imp_congr_right fun _ => ?_
  rw [UInt64.le_iff_toNat_le, UInt64.lt_iff_toNat_lt]
  omega

namespace ModelFamily

theorem fits_qwen : (∀ t ∈ (planQwen budget).gpuTargets, t.estimatedBytes ≤ budget.vramBudgetBytes) ↔
    ¬ VramGap .qwen budget.vramBudgetBytes := by
  have hdeep : ∀ t ∈ (planQwen budget).deepReasoner.toList,
      t.estimatedBytes ≤ budget.vramBudgetBytes := by
    unfold planQwen
    dsimp only
    split
    · simp [*]
    split
    · simp [*]
    · simp
  rw [BootstrapPlan.forall_gpuTargets, and_iff_left ⟨hdeep, by simp [planQwen]⟩, planQwen]
  dsimp only
  rw [forall_mem_toList_ite, hasGpu_and_iff (by decide)]
  exact planned_fits

theorem fits_granite :
    (∀ t ∈ (planGranite budget).gpuTargets, t.estimatedBytes ≤ budget.vramBudgetBytes) ↔
      ¬ VramGap .granite budget.vramBudgetBytes := by
  rw [BootstrapPlan.forall_gpuTargets, and_iff_left (by simp [planGranite]), planGranite]
  dsimp only
  rw [forall_mem_toList_ite, hasGpu_and_iff (by decide)]
  exact planned_fits

theorem fits_phi : (∀ t ∈ (planPhi budget).gpuTargets, t.estimatedBytes ≤ budget.vramBudgetBytes) ↔
    ¬ VramGap .phi budget.vramBudgetBytes := by
  rw [BootstrapPlan.forall_gpuTargets, and_iff_left (by simp [planPhi]), planPhi]
  dsimp only
  rw [forall_mem_toList_ite, hasGpu_and_iff (by decide)]
  exact planned_fits

theorem fits_gemma :
    (∀ t ∈ (planGemma budget).gpuTargets, t.estimatedBytes ≤ budget.vramBudgetBytes) ↔
      ¬ VramGap .gemma budget.vramBudgetBytes := by
  -- The vision tower is small enough wherever it is planned.
  have hvision : gibTenths 60 ≤ budget.vramBudgetBytes → mib 600 ≤ budget.vramBudgetBytes := by
    have hsmall : mib 600 ≤ gibTenths 60 := by decide
    simp only [UInt64.le_iff_toNat_le] at hsmall ⊢
    omega
  rw [BootstrapPlan.forall_gpuTargets, planGemma]
  dsimp only
  simp only [forall_mem_toList_ite]
  rw [hasGpu_and_iff (by decide), and_iff_left hvision, planned_fits, planned_fits, VramGap, not_or]

theorem fits_bitnet :
    (∀ t ∈ (planBitnet budget).gpuTargets, t.estimatedBytes ≤ budget.vramBudgetBytes) ↔
      ¬ VramGap .bitNet budget.vramBudgetBytes := by
  simp [BootstrapPlan.forall_gpuTargets, planBitnet, VramGap]

end ModelFamily

/-! ### The draft -/

namespace BootstrapPlan

/-- The smaller of two drafts is planned for want of memory. -/
theorem smallestDraft_of_lt {p : BootstrapPlan} {bound : UInt64} {large small : ModelTarget}
    (hdraft : ∀ b, (planFamily p.family b).draft = if bound ≤ b.ramBudgetBytes then large else small)
    (hsmall : small.estimatedBytes ≤ large.estimatedBytes) (hp : p.draft = small) :
    p.SmallestDraft := by
  intro b
  rw [hdraft, hp]
  split
  · exact hsmall
  · exact UInt64.le_refl _

/-- A draft that is planned only where it fits. -/
theorem draft_fits_of_bound {p : BootstrapPlan} {bound : UInt64} {large small : ModelTarget}
    (hdraft : ∀ b, (planFamily p.family b).draft = if bound ≤ b.ramBudgetBytes then large else small)
    (hp : p = planFamily p.family p.budget) (hlarge : large.estimatedBytes = bound)
    (hsmall : small.estimatedBytes ≤ large.estimatedBytes) :
    p.draft.estimatedBytes ≤ p.budget.ramBudgetBytes ∨ p.SmallestDraft := by
  have hown : p.draft = if bound ≤ p.budget.ramBudgetBytes then large else small :=
    (congrArg draft hp).trans (hdraft _)
  by_cases hbound : bound ≤ p.budget.ramBudgetBytes
  · left
    rw [hown, if_pos hbound, hlarge]
    exact hbound
  · right
    exact smallestDraft_of_lt hdraft hsmall (by rw [hown, if_neg hbound])

end BootstrapPlan

/-- The larger draft of the Gemma family is planned where it may not fit. -/
theorem draft_fits_gemma : ((planGemma budget).draft.estimatedBytes ≤ budget.ramBudgetBytes ∨
    (planGemma budget).SmallestDraft) ↔ ¬ Between 20 22 budget.ramBudgetBytes := by
  by_cases hbound : gibTenths 20 ≤ budget.ramBudgetBytes
  · have hnot : ¬ (planGemma budget).SmallestDraft := by
      intro hsmallest
      have hle := hsmallest { budget with ramBudgetBytes := 0 }
      have hzero : ¬ gibTenths 20 ≤ 0 := by decide
      simp only [planGemma, planFamily, if_pos hbound, if_neg hzero] at hle
      exact absurd hle (by decide)
    have hsize : (planGemma budget).draft.estimatedBytes = gibTenths 22 := by
      simp [planGemma, if_pos hbound]
    rw [or_iff_left hnot, hsize, ← planned_fits]
    exact ⟨fun hle _ => hle, fun hle => hle hbound⟩
  · have hsmallest : (planGemma budget).SmallestDraft := by
      have hsmall : (planGemma budget).draft = (planGemma ⟨0, 0, 0, 0, 0⟩).draft := by
        have hzero : ¬ gibTenths 20 ≤ 0 := by decide
        simp only [planGemma, if_neg hbound, if_neg hzero]
      exact BootstrapPlan.smallestDraft_of_lt (fun _ => rfl) (by decide) hsmall
    refine ⟨fun _ hbetween => hbound hbetween.1, fun _ => .inr hsmallest⟩

/-- A plan fits unless the memory is between a bound of its family and the size of what is planned from
that bound on. -/
theorem plan_fits_iff (family : ModelFamily) (budget : MemoryBudget) :
    (planFamily family budget).FitsMemory ↔
      ¬ family.VramGap budget.vramBudgetBytes ∧ ¬ family.RamGap budget.ramBudgetBytes := by
  have hsplit : (planFamily family budget).FitsMemory ↔
      (∀ t ∈ (planFamily family budget).gpuTargets, t.estimatedBytes ≤ budget.vramBudgetBytes) ∧
        ((planFamily family budget).draft.estimatedBytes ≤ budget.ramBudgetBytes ∨
          (planFamily family budget).SmallestDraft) := by
    have hbudget : (planFamily family budget).budget = budget := by cases family <;> rfl
    constructor
    · rintro ⟨hgpu, hdraft⟩
      rw [hbudget] at hgpu hdraft
      exact ⟨hgpu, hdraft⟩
    · rintro ⟨hgpu, hdraft⟩
      refine ⟨?_, ?_⟩
      · rw [hbudget]
        exact hgpu
      · rw [hbudget]
        exact hdraft
  rw [hsplit]
  cases family with
  | qwen =>
    rw [show planFamily .qwen budget = planQwen budget from rfl, ModelFamily.fits_qwen]
    exact and_congr_right fun _ => iff_of_true
      (BootstrapPlan.draft_fits_of_bound (p := planQwen budget) (fun _ => rfl) rfl rfl (by decide)) id
  | granite =>
    rw [show planFamily .granite budget = planGranite budget from rfl, ModelFamily.fits_granite]
    exact and_congr_right fun _ => iff_of_true
      (BootstrapPlan.draft_fits_of_bound (p := planGranite budget) (fun _ => rfl) rfl rfl (by decide)) id
  | phi =>
    rw [show planFamily .phi budget = planPhi budget from rfl, ModelFamily.fits_phi]
    exact and_congr_right fun _ => iff_of_true
      (BootstrapPlan.draft_fits_of_bound (p := planPhi budget) (fun _ => rfl) rfl rfl (by decide)) id
  | gemma =>
    rw [show planFamily .gemma budget = planGemma budget from rfl, ModelFamily.fits_gemma,
      draft_fits_gemma]
    rfl
  | bitNet =>
    rw [show planFamily .bitNet budget = planBitnet budget from rfl, ModelFamily.fits_bitnet]
    exact and_congr_right fun _ => iff_of_true (.inr fun _ => UInt64.le_refl _) id

/-- A machine whose GPU budget is just large enough for the primary target of the Qwen family to be
planned. -/
def fiveGib : MemoryBudget := ⟨gibTenths 50, mib 398, gibTenths 60, mib 796, 4⟩

/-- The primary target is planned and does not fit. -/
theorem fiveGib_does_not_fit : ¬ (planFamily .qwen fiveGib).FitsMemory := by
  intro hfits
  have htarget := hfits.gpu _ (List.mem_append_left _ (List.mem_append_left _
    (Option.mem_toList.2 (show (planFamily .qwen fiveGib).primary = some _ from rfl))))
  exact absurd htarget (by decide)

end Modeld
