import Mathlib

/-!
# Model families and their plans

For each family, which model files fit the memory of a machine. A plan lists the files to download;
the sizes of models and the bounds on memory are the constants of the source, those that it writes as
a number of GiB with one digit after the point in tenths of a GiB, rounded down.
-/

namespace Modeld

/-- Calculated memory budgets for model allocation. -/
structure MemoryBudget where
  vramBudgetBytes : UInt64
  ramBudgetBytes : UInt64
  totalGpuVramBytes : UInt64
  availableRamBytes : UInt64
  cpuCores : Nat

/-- `MemoryBudget::has_gpu`. -/
def MemoryBudget.hasGpu (b : MemoryBudget) : Bool := 0 < b.vramBudgetBytes

/-- `ModelFamily`. -/
inductive ModelFamily
  | gemma
  | qwen
  | granite
  | phi
  | bitNet
deriving DecidableEq

/-- `ModelRole`. -/
inductive ModelRole
  | cpuDraft
  | gpuPrimary
  | deepReasoner
  | visionTower
  | embedder
deriving DecidableEq

/-- `ModelTarget`: an artifact to download and commit. -/
structure ModelTarget where
  role : ModelRole
  name : String
  tag : String
  repo : String
  file : String
  quant : String
  estimatedBytes : UInt64
deriving DecidableEq

/-- `BootstrapPlan`. -/
structure BootstrapPlan where
  family : ModelFamily
  budget : MemoryBudget
  draft : ModelTarget
  primary : Option ModelTarget
  deepReasoner : Option ModelTarget
  visionTower : Option ModelTarget
  embedder : Option ModelTarget

/-- `BootstrapPlan::all_targets`. -/
def BootstrapPlan.allTargets (p : BootstrapPlan) : List ModelTarget :=
  p.draft :: (p.primary.toList ++ p.visionTower.toList ++ p.embedder.toList ++
    p.deepReasoner.toList)

/-- A number of MiB. -/
def mib (n : UInt64) : UInt64 := n * 1024 * 1024

/-- Tenths of a GiB. -/
def gibTenths (n : UInt64) : UInt64 := n * 1024 * 1024 * 1024 / 10

/-- `plan_qwen`. -/
def planQwen (budget : MemoryBudget) : BootstrapPlan where
  family := .qwen
  budget := budget
  draft :=
    if mib 650 ≤ budget.ramBudgetBytes then
      ⟨.cpuDraft, "qwen2.5", "0.5b", "Qwen/Qwen2.5-0.5B-Instruct-GGUF",
        "qwen2.5-0.5b-instruct-q8_0.gguf", "Q8_0", mib 650⟩
    else
      ⟨.cpuDraft, "qwen2.5", "0.5b", "Qwen/Qwen2.5-0.5B-Instruct-GGUF",
        "qwen2.5-0.5b-instruct-q4_k_m.gguf", "Q4_K_M", mib 398⟩
  primary :=
    if budget.hasGpu && gibTenths 50 ≤ budget.vramBudgetBytes then
      some ⟨.gpuPrimary, "qwen2.5", "7b", "bartowski/Qwen2.5-7B-Instruct-GGUF",
        "Qwen2.5-7B-Instruct-Q4_K_M.gguf", "Q4_K_M", gibTenths 52⟩
    else none
  deepReasoner :=
    if gibTenths 205 ≤ budget.vramBudgetBytes then
      some ⟨.deepReasoner, "qwen2.5", "32b", "bartowski/Qwen2.5-32B-Instruct-GGUF",
        "Qwen2.5-32B-Instruct-Q4_K_M.gguf", "Q4_K_M", gibTenths 205⟩
    else if gibTenths 95 ≤ budget.vramBudgetBytes then
      some ⟨.deepReasoner, "qwen2.5", "14b", "bartowski/Qwen2.5-14B-Instruct-GGUF",
        "Qwen2.5-14B-Instruct-Q4_K_M.gguf", "Q4_K_M", gibTenths 95⟩
    else none
  visionTower := none
  embedder := none

/-- `plan_granite`. -/
def planGranite (budget : MemoryBudget) : BootstrapPlan where
  family := .granite
  budget := budget
  draft :=
    if mib 850 ≤ budget.ramBudgetBytes then
      ⟨.cpuDraft, "granite-3.0", "1b", "bartowski/granite-3.0-1b-a400m-instruct-GGUF",
        "granite-3.0-1b-a400m-instruct-Q8_0.gguf", "Q8_0", mib 850⟩
    else
      ⟨.cpuDraft, "granite-3.0", "1b", "bartowski/granite-3.0-1b-a400m-instruct-GGUF",
        "granite-3.0-1b-a400m-instruct-Q4_K_M.gguf", "Q4_K_M", mib 550⟩
  primary :=
    if budget.hasGpu && gibTenths 50 ≤ budget.vramBudgetBytes then
      some ⟨.gpuPrimary, "granite-3.0", "8b", "bartowski/granite-3.0-8b-instruct-GGUF",
        "granite-3.0-8b-instruct-Q4_K_M.gguf", "Q4_K_M", gibTenths 55⟩
    else none
  deepReasoner := none
  visionTower := none
  embedder := none

/-- `plan_phi`. -/
def planPhi (budget : MemoryBudget) : BootstrapPlan where
  family := .phi
  budget := budget
  draft :=
    if gibTenths 25 ≤ budget.ramBudgetBytes then
      ⟨.cpuDraft, "phi-3.5-mini", "3.8b", "bartowski/Phi-3.5-mini-instruct-GGUF",
        "Phi-3.5-mini-instruct-Q8_0.gguf", "Q8_0", gibTenths 25⟩
    else
      ⟨.cpuDraft, "phi-3.5-mini", "3.8b", "bartowski/Phi-3.5-mini-instruct-GGUF",
        "Phi-3.5-mini-instruct-Q4_K_M.gguf", "Q4_K_M", gibTenths 18⟩
  primary :=
    if budget.hasGpu && gibTenths 90 ≤ budget.vramBudgetBytes then
      some ⟨.gpuPrimary, "phi-4", "14b", "bartowski/phi-4-GGUF", "phi-4-Q4_K_M.gguf", "Q4_K_M",
        gibTenths 91⟩
    else none
  deepReasoner := none
  visionTower := none
  embedder := none

/-- `plan_gemma`. -/
def planGemma (budget : MemoryBudget) : BootstrapPlan where
  family := .gemma
  budget := budget
  draft :=
    if gibTenths 20 ≤ budget.ramBudgetBytes then
      ⟨.cpuDraft, "gemma", "2b", "bartowski/gemma-2-2b-it-GGUF", "gemma-2-2b-it-Q8_0.gguf", "Q8_0",
        gibTenths 22⟩
    else
      ⟨.cpuDraft, "gemma", "2b", "bartowski/gemma-2-2b-it-GGUF", "gemma-2-2b-it-Q4_K_M.gguf",
        "Q4_K_M", gibTenths 16⟩
  primary :=
    if budget.hasGpu && gibTenths 60 ≤ budget.vramBudgetBytes then
      some ⟨.gpuPrimary, "gemma", "9b", "bartowski/gemma-2-9b-it-GGUF",
        "gemma-2-9b-it-Q4_K_M.gguf", "Q4_K_M", gibTenths 62⟩
    else none
  visionTower :=
    if budget.hasGpu && gibTenths 60 ≤ budget.vramBudgetBytes then
      some ⟨.visionTower, "gemma", "mmproj-f16", "unsloth/gemma-4-E2B-it-GGUF", "mmproj-F16.gguf",
        "F16", mib 600⟩
    else none
  deepReasoner :=
    if gibTenths 170 ≤ budget.vramBudgetBytes then
      some ⟨.deepReasoner, "gemma", "27b", "bartowski/gemma-2-27b-it-GGUF",
        "gemma-2-27b-it-Q4_K_M.gguf", "Q4_K_M", gibTenths 175⟩
    else none
  embedder :=
    some ⟨.embedder, "embeddinggemma", "270m", "unsloth/embeddinggemma-2-GGUF",
      "embeddinggemma-2-UD-Q4_K_XL.gguf", "Q4_K_XL", mib 168⟩

/-- `plan_bitnet`. -/
def planBitnet (budget : MemoryBudget) : BootstrapPlan where
  family := .bitNet
  budget := budget
  draft :=
    ⟨.cpuDraft, "bitnet", "2b", "1bitLLM/bitnet_b1_58-2B4T", "bitnet_b1_58-2B4T.gguf", "TL1",
      mib 550⟩
  primary := none
  deepReasoner := none
  visionTower := none
  embedder := none

/-- `plan_family`. -/
def planFamily (family : ModelFamily) (budget : MemoryBudget) : BootstrapPlan :=
  match family with
  | .qwen => planQwen budget
  | .granite => planGranite budget
  | .phi => planPhi budget
  | .gemma => planGemma budget
  | .bitNet => planBitnet budget

end Modeld
