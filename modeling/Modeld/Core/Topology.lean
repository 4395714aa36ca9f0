import Modeld.Core.Envelope
import Modeld.Host.Json

/-!
# From the hardware to a plan

The topology that the inference daemon reports, the budget that is computed from it, and the plan
for that budget. A larger budget never shrinks a plan. The sum of the memory of the GPUs wraps
around, though, and a GPU that takes it past 2^64 leaves a smaller budget than before.
-/

namespace Modeld

open Host

/-- `GpuPlaneInfo`. -/
structure GpuPlaneInfo where
  id : String
  name : String
  kind : String
  totalMemory : UInt64
  availableMemory : UInt64

/-- `HardwareTopology`. -/
structure HardwareTopology where
  gpuPlanes : List GpuPlaneInfo
  totalRam : UInt64
  availableRam : UInt64
  cpuCores : Nat

/-- Not memory that the GPU shares with the host. -/
def GpuPlaneInfo.isDedicated (g : GpuPlaneInfo) : Bool :=
  let k := Text.toAsciiLowercase g.kind
  k ≠ "integrateduma" && k ≠ "integrated_uma"

/-- The sum of 64-bit numbers as a release build has it. -/
def sumU64 (l : List UInt64) : UInt64 := l.foldl (· + ·) 0

/-- `HardwareTopology::sum_gpu_vram`. -/
def HardwareTopology.sumGpuVram (topo : HardwareTopology) : UInt64 :=
  sumU64 ((topo.gpuPlanes.filter GpuPlaneInfo.isDedicated).map (·.totalMemory))

/-! ### The reply -/

/-- A text in a plane, empty when there is none. -/
def planeText (p : Json) (key : String) : String := ((p.get key).bind Json.asStr).getD ""

/-- A number in an object. -/
def numberField (p : Json) (key : String) : Option UInt64 :=
  ((p.get key).bind Json.asU64).map UInt64.ofNat

/-- One plane of the reply. The host itself is none. -/
def readPlane (p : Json) : Option GpuPlaneInfo :=
  if planeText p "kind" = "CpuMatrixExtension" ∨ planeText p "id" = "cpu-host" then none
  else some ⟨planeText p "id", planeText p "name", planeText p "kind",
    (numberField p "total_memory").getD 0, (numberField p "available_memory").getD 0⟩

/-- The planes that the reply lists. -/
def reportedPlanes (params : Json) : List Json := ((params.get "planes").bind Json.asArray).getD []

/-- The parameters of a reply of `query_varlink_topology`. -/
def replyParameters (resp : Json) : Except String Json :=
  match (resp.get "error").bind Json.asStr with
  | some err => .error ("Varlink error: " ++ err)
  | none =>
    match resp.get "parameters" with
    | none => .error "Missing parameters in GetTopology reply"
    | some params => .ok params

/-- The topology that `query_varlink_topology` reads from these. -/
def topologyOf (params : Json) : HardwareTopology where
  gpuPlanes := (reportedPlanes params).filterMap readPlane
  totalRam := (numberField params "total_ram").getD 0
  availableRam := (numberField params "available_ram").getD 0
  cpuCores := ((params.get "cpu_cores").bind Json.asU64).getD 1

/-! ### The budget -/

/-- How `MemoryBudget::from_topology` scales memory to what is used of it. -/
structure Scaling where
  vram : UInt64 → UInt64
  ram : UInt64 → UInt64
  vram_mono : ∀ a b, a ≤ b → vram a ≤ vram b
  ram_mono : ∀ a b, a ≤ b → ram a ≤ ram b

/-- `MemoryBudget::from_topology`. -/
def MemoryBudget.fromTopology (scaling : Scaling) (topo : HardwareTopology) : MemoryBudget where
  vramBudgetBytes := scaling.vram topo.sumGpuVram
  ramBudgetBytes := scaling.ram topo.availableRam
  totalGpuVramBytes := topo.sumGpuVram
  availableRamBytes := topo.availableRam
  cpuCores := topo.cpuCores

/-- The plan of a family for what a reply reports. -/
def planOfReply (scaling : Scaling) (family : ModelFamily) (resp : Json) :
    Except String BootstrapPlan := do
  let params ← replyParameters resp
  return planFamily family (.fromTopology scaling (topologyOf params))

/-! ### Larger plans -/

theorem le_max (a : UInt64) : a ≤ 0xffffffffffffffff := by
  have hlt := a.toNat_lt
  rw [UInt64.le_iff_toNat_le]
  change a.toNat ≤ 0xffffffffffffffff
  omega

/-- Each role of a plan is filled in another, with a target that is as large. -/
def BootstrapPlan.CoveredBy (p p' : BootstrapPlan) : Prop :=
  ∀ t ∈ p.allTargets, ∃ t' ∈ p'.allTargets, t'.role = t.role ∧ t.estimatedBytes ≤ t'.estimatedBytes

/-- The same of one place in a plan. -/
def Covers (o' o : Option ModelTarget) : Prop :=
  ∀ t ∈ o, ∃ t' ∈ o', t'.role = t.role ∧ t.estimatedBytes ≤ t'.estimatedBytes

theorem Covers.refl (o : Option ModelTarget) : Covers o o :=
  fun t ht => ⟨t, ht, rfl, UInt64.le_refl _⟩

theorem Covers.none {o : Option ModelTarget} : Covers o none := nofun

/-- A target with a bound on the memory. -/
theorem Covers.ite {P Q : Prop} [Decidable P] [Decidable Q] (hPQ : P → Q) (t : ModelTarget) :
    Covers (if Q then some t else Option.none) (if P then some t else Option.none) := by
  by_cases hP : P
  · rw [if_pos hP, if_pos (hPQ hP)]
    exact .refl _
  · rw [if_neg hP]
    exact .none

/-- Two targets, the larger one from a higher bound on. -/
theorem Covers.ladder {P Q P' Q' : Prop} [Decidable P] [Decidable Q] [Decidable P'] [Decidable Q']
    (hPQ : P → Q) (hPQ' : P' → Q') {large small : ModelTarget} (hrole : large.role = small.role)
    (hsize : small.estimatedBytes ≤ large.estimatedBytes) :
    Covers (if Q then some large else if Q' then some small else Option.none)
      (if P then some large else if P' then some small else Option.none) := by
  by_cases hP : P
  · rw [if_pos hP, if_pos (hPQ hP)]
    exact .refl _
  rw [if_neg hP]
  by_cases hQ : Q
  · rw [if_pos hQ]
    by_cases hP' : P'
    · rw [if_pos hP']
      intro t ht
      obtain rfl : small = t := Option.some.inj ht
      exact ⟨large, rfl, hrole, hsize⟩
    · rw [if_neg hP']
      exact .none
  · rw [if_neg hQ]
    exact .ite hPQ' small

theorem BootstrapPlan.coveredBy_of_places {p p' : BootstrapPlan}
    (hdraft : Covers (some p'.draft) (some p.draft)) (hprimary : Covers p'.primary p.primary)
    (hvision : Covers p'.visionTower p.visionTower) (hembedder : Covers p'.embedder p.embedder)
    (hdeep : Covers p'.deepReasoner p.deepReasoner) : p.CoveredBy p' := by
  intro t ht
  simp only [allTargets, List.mem_cons, List.mem_append, Option.mem_toList] at ht ⊢
  rcases ht with rfl | ((ht | ht) | ht) | ht
  · obtain ⟨t', ht', hcovers⟩ := hdraft _ rfl
    exact ⟨t', .inl (Option.some.inj ht').symm, hcovers⟩
  · obtain ⟨t', ht', hcovers⟩ := hprimary t ht
    exact ⟨t', .inr (.inl (.inl (.inl ht'))), hcovers⟩
  · obtain ⟨t', ht', hcovers⟩ := hvision t ht
    exact ⟨t', .inr (.inl (.inl (.inr ht'))), hcovers⟩
  · obtain ⟨t', ht', hcovers⟩ := hembedder t ht
    exact ⟨t', .inr (.inl (.inr ht')), hcovers⟩
  · obtain ⟨t', ht', hcovers⟩ := hdeep t ht
    exact ⟨t', .inr (.inr ht'), hcovers⟩

section

variable {budget budget' : MemoryBudget}

/-- A bound that is met stays met. -/
theorem bound_mono (hvram : budget.vramBudgetBytes ≤ budget'.vramBudgetBytes) {bound : UInt64}
    (hbound : bound ≤ budget.vramBudgetBytes) : bound ≤ budget'.vramBudgetBytes :=
  UInt64.le_trans hbound hvram

theorem hasGpu_mono (hvram : budget.vramBudgetBytes ≤ budget'.vramBudgetBytes)
    (hgpu : budget.hasGpu = true) : budget'.hasGpu = true := by
  rw [MemoryBudget.hasGpu, decide_eq_true_eq] at hgpu ⊢
  exact UInt64.lt_of_lt_of_le hgpu hvram

theorem gpuBound_mono (hvram : budget.vramBudgetBytes ≤ budget'.vramBudgetBytes) {bound : UInt64}
    (hbound : (budget.hasGpu && decide (bound ≤ budget.vramBudgetBytes)) = true) :
    (budget'.hasGpu && decide (bound ≤ budget'.vramBudgetBytes)) = true := by
  rw [Bool.and_eq_true, decide_eq_true_eq] at hbound ⊢
  exact ⟨hasGpu_mono hvram hbound.1, bound_mono hvram hbound.2⟩

/-- With more memory on the GPUs and the same on the host, no plan shrinks. -/
theorem planFamily_mono (family : ModelFamily)
    (hvram : budget.vramBudgetBytes ≤ budget'.vramBudgetBytes)
    (hram : budget.ramBudgetBytes = budget'.ramBudgetBytes) :
    (planFamily family budget).CoveredBy (planFamily family budget') := by
  cases family with
  | qwen =>
    refine BootstrapPlan.coveredBy_of_places ?_ (.ite (gpuBound_mono hvram) _) .none .none
      (.ladder (bound_mono hvram) (bound_mono hvram) rfl (by decide))
    simp only [planFamily, planQwen, hram]
    exact .refl _
  | granite =>
    refine BootstrapPlan.coveredBy_of_places ?_ (.ite (gpuBound_mono hvram) _) .none .none .none
    simp only [planFamily, planGranite, hram]
    exact .refl _
  | phi =>
    refine BootstrapPlan.coveredBy_of_places ?_ (.ite (gpuBound_mono hvram) _) .none .none .none
    simp only [planFamily, planPhi, hram]
    exact .refl _
  | gemma =>
    refine BootstrapPlan.coveredBy_of_places ?_ (.ite (gpuBound_mono hvram) _)
      (.ite (gpuBound_mono hvram) _) (.refl _) (.ite (bound_mono hvram) _)
    simp only [planFamily, planGemma, hram]
    exact .refl _
  | bitNet =>
    exact BootstrapPlan.coveredBy_of_places (.refl _) .none .none .none .none

theorem role_of_mem_ite {P : Prop} [Decidable P] {t t' : ModelTarget}
    (h : t' ∈ if P then some t else none) : t'.role = t.role := by
  by_cases hP : P
  · rw [if_pos hP] at h
    rw [← Option.some.inj h]
  · rw [if_neg hP] at h
    cases h

/-- The targets of a plan without GPU have other roles than the primary one. -/
theorem role_ne_gpuPrimary (family : ModelFamily) (hgpu : budget.hasGpu = false) :
    ∀ t ∈ (planFamily family budget).allTargets, t.role ≠ .gpuPrimary := by
  intro t ht
  simp only [BootstrapPlan.allTargets, List.mem_cons, List.mem_append, Option.mem_toList] at ht
  have hdraft : (planFamily family budget).draft.role = .cpuDraft := by
    cases family with
    | bitNet => rfl
    | qwen => exact apply_ite ModelTarget.role .. |>.trans (ite_self _)
    | granite => exact apply_ite ModelTarget.role .. |>.trans (ite_self _)
    | phi => exact apply_ite ModelTarget.role .. |>.trans (ite_self _)
    | gemma => exact apply_ite ModelTarget.role .. |>.trans (ite_self _)
  rcases ht with rfl | ((ht | ht) | ht) | ht
  · rw [hdraft]
    decide
  · cases family <;> simp [planFamily, planQwen, planGranite, planPhi, planGemma, planBitnet, hgpu]
      at ht
  · cases family with
    | gemma =>
      rw [role_of_mem_ite ht]
      decide
    | _ => cases ht
  · cases family with
    | gemma =>
      rw [← Option.some.inj ht]
      decide
    | _ => cases ht
  · cases family with
    | gemma =>
      rw [role_of_mem_ite ht]
      decide
    | qwen =>
      simp only [planFamily, planQwen] at ht
      split at ht
      · rw [← Option.some.inj ht]
        decide
      · rw [role_of_mem_ite ht]
        decide
    | _ => cases ht

theorem hasGpu_eq_false (hnone : budget.vramBudgetBytes = 0) : budget.hasGpu = false := by
  rw [MemoryBudget.hasGpu, hnone]
  rfl

/-- A primary target is lost with the GPU. -/
theorem not_coveredBy_of_primary {family : ModelFamily} {t : ModelTarget}
    (ht : (planFamily family budget).primary = some t) (hgpu : budget'.hasGpu = false) :
    ¬ (planFamily family budget).CoveredBy (planFamily family budget') := by
  have hrole : t.role = .gpuPrimary := by
    cases family with
    | bitNet => cases ht
    | _ => rw [role_of_mem_ite ht]
  intro hcovered
  obtain ⟨t', ht', hrole', -⟩ := hcovered t (by simp [BootstrapPlan.allTargets, ht])
  exact role_ne_gpuPrimary family hgpu t' ht' (hrole'.trans hrole)

/-- With enough memory on the GPUs every family but one plans a primary target. -/
theorem exists_primary {family : ModelFamily} (hfamily : family ≠ .bitNet)
    (hlarge : budget.vramBudgetBytes = 0xffffffffffffffff) :
    ∃ t, (planFamily family budget).primary = some t := by
  have hgpu : budget.hasGpu = true := by
    rw [MemoryBudget.hasGpu, hlarge]
    rfl
  have hbound : ∀ bound, (budget.hasGpu && decide (bound ≤ budget.vramBudgetBytes)) = true := by
    intro bound
    rw [hgpu, hlarge, Bool.true_and, decide_eq_true_eq]
    exact le_max bound
  cases family with
  | bitNet => exact absurd rfl hfamily
  | qwen => exact ⟨_, if_pos (hbound _)⟩
  | granite => exact ⟨_, if_pos (hbound _)⟩
  | phi => exact ⟨_, if_pos (hbound _)⟩
  | gemma => exact ⟨_, if_pos (hbound _)⟩

end

/-! ### One plane more -/

theorem foldl_add (l : List UInt64) (a : UInt64) : l.foldl (· + ·) a = a + sumU64 l := by
  induction l generalizing a with
  | nil => exact (UInt64.add_zero a).symm
  | cons b l ih => rw [sumU64, List.foldl_cons, List.foldl_cons, ih, ih, UInt64.zero_add,
      UInt64.add_assoc]

theorem sumU64_cons (a : UInt64) (l : List UInt64) : sumU64 (a :: l) = a + sumU64 l := by
  rw [sumU64, List.foldl_cons, foldl_add, UInt64.zero_add]

/-- Where a number stands does not matter. -/
theorem sumU64_insert (l l' : List UInt64) (a : UInt64) :
    sumU64 (l ++ a :: l') = sumU64 (l ++ l') + a := by
  induction l with
  | nil => rw [List.nil_append, List.nil_append, sumU64_cons, UInt64.add_comm]
  | cons b l ih => rw [List.cons_append, List.cons_append, sumU64_cons, sumU64_cons, ih,
      UInt64.add_assoc]

theorem toNat_sumU64 (l : List UInt64) : (sumU64 l).toNat = (l.map UInt64.toNat).sum % 2 ^ 64 := by
  induction l with
  | nil => rfl
  | cons a l ih => rw [sumU64_cons, UInt64.toNat_add, ih, List.map_cons, List.sum_cons,
      Nat.add_mod_mod]

/-- The memory of a plane, if it counts. -/
def countedMemory (p : Json) : Option UInt64 :=
  match readPlane p with
  | some g => if g.isDedicated then some g.totalMemory else none
  | none => none

/-- The memory of all planes that count. -/
def countedTotal (params : Json) : Nat :=
  (((reportedPlanes params).filterMap countedMemory).map UInt64.toNat).sum

theorem sumGpuVram_topologyOf (params : Json) :
    (topologyOf params).sumGpuVram = sumU64 ((reportedPlanes params).filterMap countedMemory) := by
  rw [HardwareTopology.sumGpuVram, topologyOf]
  dsimp only
  congr 1
  induction reportedPlanes params with
  | nil => rfl
  | cons p l ih =>
    rw [List.filterMap_cons, List.filterMap_cons, countedMemory]
    cases readPlane p with
    | none => exact ih
    | some g =>
      dsimp only
      rw [List.filter_cons]
      by_cases hg : g.isDedicated = true
      · rw [if_pos hg, if_pos hg, List.map_cons, ih]
      · rw [if_neg hg, if_neg hg]
        exact ih

/-- The second reply lists one plane more, somewhere, and is the same otherwise. -/
structure AddsPlane (plane params params' : Json) : Prop where
  planes : ∃ before after, reportedPlanes params = before ++ after ∧
    reportedPlanes params' = before ++ plane :: after
  other : ∀ key, key ≠ "planes" → params'.get key = params.get key

variable {plane params params' : Json}

theorem AddsPlane.availableRam (h : AddsPlane plane params params') :
    (topologyOf params').availableRam = (topologyOf params).availableRam := by
  have hother := h.other "available_ram" (by decide)
  have hfield : numberField params' "available_ram" = numberField params "available_ram" := by
    rw [numberField, numberField, hother]
  exact congrArg (·.getD 0) hfield

theorem AddsPlane.sumGpuVram (h : AddsPlane plane params params') :
    (topologyOf params').sumGpuVram =
      (topologyOf params).sumGpuVram + (countedMemory plane).getD 0 := by
  obtain ⟨before, after, hplanes, hplanes'⟩ := h.planes
  rw [sumGpuVram_topologyOf, sumGpuVram_topologyOf, hplanes, hplanes', List.filterMap_append,
    List.filterMap_append, List.filterMap_cons]
  cases countedMemory plane with
  | none => exact (UInt64.add_zero _).symm
  | some m => exact sumU64_insert _ _ m

/-- A scaling that leaves nothing of so much memory or less, and the most of what is above. -/
def thresholdScaling (bound : UInt64) : Scaling where
  vram x := if x ≤ bound then 0 else 0xffffffffffffffff
  ram x := x
  vram_mono a b hab := by
    by_cases hb : b ≤ bound
    · rw [if_pos hb, if_pos (UInt64.le_trans hab hb)]
      exact UInt64.le_refl _
    · rw [if_neg hb]
      exact le_max _
  ram_mono _ _ hab := hab

theorem planOfReply_eq {resp : Json} (h : replyParameters resp = .ok params) (scaling : Scaling)
    (family : ModelFamily) : planOfReply scaling family resp =
      .ok (planFamily family (.fromTopology scaling (topologyOf params))) := by
  rw [planOfReply, h]
  rfl

/-- One plane more shrinks no plan, whatever the scaling, exactly when the family has no target for
the GPU, the plane does not count, or its memory does not take the sum over the edge. -/
theorem plan_grows_iff (family : ModelFamily) {resp resp' : Json}
    (hresp : replyParameters resp = .ok params) (hresp' : replyParameters resp' = .ok params')
    (hadds : AddsPlane plane params params') :
    (∀ scaling, ∃ p p', planOfReply scaling family resp = .ok p ∧
        planOfReply scaling family resp' = .ok p' ∧ p.CoveredBy p') ↔
      family = .bitNet ∨ ∀ m, countedMemory plane = some m →
        countedTotal params % 2 ^ 64 + m.toNat < 2 ^ 64 := by
  have htotal : (topologyOf params).sumGpuVram.toNat = countedTotal params % 2 ^ 64 := by
    rw [sumGpuVram_topologyOf, toNat_sumU64, countedTotal]
  have hsum := hadds.sumGpuVram
  rw [← htotal]
  constructor
  · intro hgrows
    by_contra hbad
    rw [not_or] at hbad
    obtain ⟨hfamily, hwraps⟩ := hbad
    rw [not_forall] at hwraps
    obtain ⟨m, hwraps⟩ := hwraps
    rw [Classical.not_imp, Nat.not_lt] at hwraps
    obtain ⟨hm, hwraps⟩ := hwraps
    -- The budgets of the two replies are on different sides of the new total.
    obtain ⟨p, p', hp, hp', hcovered⟩ := hgrows (thresholdScaling (topologyOf params').sumGpuVram)
    rw [planOfReply_eq hresp] at hp
    rw [planOfReply_eq hresp'] at hp'
    obtain rfl := Except.ok.inj hp
    obtain rfl := Except.ok.inj hp'
    have hgpu : (MemoryBudget.fromTopology (thresholdScaling (topologyOf params').sumGpuVram)
        (topologyOf params')).hasGpu = false :=
      hasGpu_eq_false (if_pos (UInt64.le_refl _))
    have hless : ¬ (topologyOf params).sumGpuVram ≤ (topologyOf params').sumGpuVram := by
      have hlt := m.toNat_lt
      have hlt' := (topologyOf params).sumGpuVram.toNat_lt
      rw [hsum, hm, Option.getD_some, UInt64.le_iff_toNat_le, UInt64.toNat_add]
      omega
    have hlarge : (MemoryBudget.fromTopology (thresholdScaling (topologyOf params').sumGpuVram)
        (topologyOf params)).vramBudgetBytes = 0xffffffffffffffff := if_neg hless
    obtain ⟨t, ht⟩ := exists_primary hfamily hlarge
    exact not_coveredBy_of_primary ht hgpu hcovered
  · intro h scaling
    refine ⟨_, _, planOfReply_eq hresp scaling family, planOfReply_eq hresp' scaling family, ?_⟩
    rcases h with rfl | hfits
    · exact BootstrapPlan.coveredBy_of_places (.refl _) .none .none .none .none
    · refine planFamily_mono family (scaling.vram_mono _ _ ?_) (congrArg scaling.ram
        hadds.availableRam.symm)
      rw [hsum]
      cases hm : countedMemory plane with
      | none =>
        rw [Option.getD_none, UInt64.add_zero]
        exact UInt64.le_refl _
      | some m =>
        have hfits := hfits m hm
        rw [Option.getD_some, UInt64.le_iff_toNat_le, UInt64.toNat_add]
        omega

/-! ### Sample replies -/

/-- The parameters of a reply that lists planes. -/
def sampleParameters (planes : List Json) : Json :=
  .obj [("available_ram", .ofNat 0xc00000000), ("cpu_cores", .ofNat 32), ("planes", .arr planes),
    ("total_ram", .ofNat 0x1000000000)]

def sampleReply (planes : List Json) : Json := .obj [("parameters", sampleParameters planes)]

/-- A GPU with so much memory. -/
def samplePlane (memory : Nat) : Json :=
  .obj [("available_memory", .ofNat memory), ("id", .str "gpu0"), ("kind", .str "DiscreteGpu"),
    ("name", .str "GPU"), ("total_memory", .ofNat memory)]

private theorem addsPlane_sample (planes : List Json) (plane : Json) :
    AddsPlane plane (sampleParameters planes) (sampleParameters (planes ++ [plane])) := by
  refine ⟨⟨planes, [], (List.append_nil _).symm, rfl⟩, fun key hkey => ?_⟩
  simp only [sampleParameters, Json.get, List.find?_cons, decide_eq_false hkey.symm]

/-- A second GPU of 24 GiB. -/
theorem second_gpu :
    (∀ scaling, ∃ p p', planOfReply scaling .qwen (sampleReply [samplePlane 0x600000000]) = .ok p ∧
        planOfReply scaling .qwen
          (sampleReply [samplePlane 0x600000000, samplePlane 0x600000000]) = .ok p' ∧
        p.CoveredBy p') ↔
      ModelFamily.qwen = .bitNet ∨ ∀ m, countedMemory (samplePlane 0x600000000) = some m →
        countedTotal (sampleParameters [samplePlane 0x600000000]) % 2 ^ 64 + m.toNat < 2 ^ 64 :=
  plan_grows_iff .qwen rfl rfl (addsPlane_sample [samplePlane 0x600000000] _)

/-- 85 percent of the memory of GPUs and half of that of the host, in whole numbers. -/
def wholeScaling : Scaling where
  vram x := x / 20 * 17
  ram x := x / 2
  vram_mono a b hab := by
    have hexact : ∀ x : UInt64, (x / 20 * 17).toNat = x.toNat / 20 * 17 := by
      intro x
      have hlt := x.toNat_lt
      simp only [UInt64.toNat_mul, UInt64.toNat_div, UInt64.reduceToNat]
      exact Nat.mod_eq_of_lt (by omega)
    rw [UInt64.le_iff_toNat_le] at hab ⊢
    rw [hexact, hexact]
    omega
  ram_mono a b hab := by
    rw [UInt64.le_iff_toNat_le] at hab ⊢
    simp only [UInt64.toNat_div, UInt64.reduceToNat]
    omega

/-- With a plane that claims 2^64 bytes less 24 GiB, the GPU of 24 GiB counts for nothing. -/
theorem plan_shrinks : ¬ ∃ p p',
    planOfReply wholeScaling .qwen (sampleReply [samplePlane 0x600000000]) = .ok p ∧
      planOfReply wholeScaling .qwen (sampleReply
        [samplePlane 0x600000000, samplePlane 0xfffffffa00000000]) = .ok p' ∧ p.CoveredBy p' := by
  rintro ⟨p, p', hp, hp', hcovered⟩
  rw [@planOfReply_eq (sampleParameters [samplePlane 0x600000000]) _ rfl] at hp
  rw [@planOfReply_eq (sampleParameters
    [samplePlane 0x600000000, samplePlane 0xfffffffa00000000]) _ rfl] at hp'
  obtain rfl := Except.ok.inj hp
  obtain rfl := Except.ok.inj hp'
  have hprimary : (planFamily .qwen (.fromTopology wholeScaling
      (topologyOf (sampleParameters [samplePlane 0x600000000])))).primary.isSome = true := by
    decide +kernel
  obtain ⟨t, ht⟩ := Option.isSome_iff_exists.1 hprimary
  exact not_coveredBy_of_primary ht (by decide +kernel) hcovered

end Modeld
