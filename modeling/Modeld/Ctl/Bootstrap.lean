import Mathlib
import Modeld.Core.Envelope
import Modeld.Ctl.Resolve

/-!
# Which file a bootstrap downloads

A plan names the file of each of its targets, but the download is a pull from the repository by
quantization, which looks for a file again.
-/

namespace Modeld

open Host

/-! ### The selection -/

section Select

variable {files : List String} {f q : String}

theorem findM?_eq_ok {α : Type} {p : α → Except String Bool} {l : List α} {a : α}
    (h : l.findM? p = .ok (some a)) : p a = .ok true := by
  induction l with
  | nil => cases h
  | cons b l ih =>
    rw [List.findM?] at h
    cases hb : p b with
    | error e =>
      rw [hb] at h
      cases h
    | ok found =>
      rw [hb] at h
      cases found with
      | true =>
        cases h
        exact hb
      | false => exact ih h

/-- What is found before anything else of its kind. -/
theorem find?_eq_some_iff_takeWhile {α : Type} [DecidableEq α] {p : α → Bool} {l : List α} {a : α}
    (ha : a ∈ l) (hp : p a = true) :
    l.find? p = some a ↔ ∀ x ∈ l.takeWhile (· ≠ a), p x = false := by
  induction l with
  | nil => cases ha
  | cons b l ih =>
    by_cases hb : b = a
    · subst hb
      simp [hp]
    · have hmem : a ∈ l := (List.mem_cons.1 ha).resolve_left (Ne.symm hb)
      cases hpb : p b with
      | true => simp [hpb, hb]
      | false => simp [hpb, hb, ih hmem]

/-- A strict match is selected before anything else. -/
theorem selectQuant_of_strict (h : files.find? (fun g =>
      matchesQuantStrict (Text.toAsciiUppercase g) (Text.toAsciiUppercase q)) = some f) :
    selectQuant files q = .ok f := by
  rw [selectQuant, h]
  rfl

/-- What is selected matches in one of three ways. -/
theorem matches_of_selectQuant (h : selectQuant files q = .ok f) :
    matchesQuantStrict (Text.toAsciiUppercase f) (Text.toAsciiUppercase q) = true ∨
      matchesQuantDelimited (Text.toAsciiUppercase f) (Text.toAsciiUppercase q) = .ok true ∨
      Text.contains (Text.toAsciiUppercase f) (Text.toAsciiUppercase q) = true := by
  unfold selectQuant at h
  dsimp only at h
  split at h
  · rename_i found hfound
    cases h
    have := List.find?_some hfound
    exact .inl this
  · generalize hsearch : files.findM? (fun g =>
      matchesQuantDelimited (Text.toAsciiUppercase g) (Text.toAsciiUppercase q)) = found at h
    rcases found with e | - | found
    · cases h
    · simp only [bind, Except.bind] at h
      split at h
      · rename_i found hfound
        cases h
        have := List.find?_some hfound
        simp only [Bool.and_eq_true] at this
        exact .inr (.inr this.2)
      · cases h
    · cases h
      have := findM?_eq_ok hsearch
      exact .inr (.inl this)

/-- From a listing, the first strict match among its files is selected. -/
theorem find?_filter_map {entries : List HfTreeEntry} {g : HfTreeEntry → Bool}
    {p : String → Bool} :
    ((entries.filter g).map (·.path)).find? p =
      (entries.find? fun e => g e && p e.path).map (·.path) := by
  rw [List.find?_map, List.find?_filter]
  congr 2
  funext e
  simp

end Select

/-- No alias has a slash in it. -/
theorem findAlias_of_slash {spec : String} (h : '/' ∈ spec.toList) : findAlias spec = none := by
  have haliases : ∀ a ∈ aliases, '/' ∉ (Text.toAsciiLowercase a.aliasSpec).toList := by
    decide +kernel
  have hspec : '/' ∈ (Text.toAsciiLowercase spec).toList := by
    rw [Text.toAsciiLowercase, String.toList_ofList]
    exact List.mem_map.2 ⟨'/', h, by decide⟩
  rw [findAlias, List.find?_eq_none]
  intro a ha heq
  simp only [Text.eqIgnoreAsciiCase, decide_eq_true_eq] at heq
  exact haliases a ha (heq ▸ hspec)

/-! ### The targets of the plans -/

namespace ModelTarget

/-- What the pull of a target in `run_bootstrap` resolves to: the pull asks for the repository of the
target by its quantization. -/
def resolve (hub : HfHub) (t : ModelTarget) : Except String ResolvedModel :=
  resolveModelWithFormat hub t.repo "gguf" (some t.quant) (some (t.name ++ ":" ++ t.tag))

/-- The file is a strict match for its quantization. -/
def isStrict (t : ModelTarget) : Bool :=
  matchesQuantStrict (Text.toAsciiUppercase t.file) (Text.toAsciiUppercase t.quant)

/-- The file matches its quantization in no way. -/
def isUnmatched (t : ModelTarget) : Bool :=
  let fileUpper := Text.toAsciiUppercase t.file
  let qUpper := Text.toAsciiUppercase t.quant
  !matchesQuantStrict fileUpper qUpper && !Text.contains fileUpper qUpper &&
    decide (matchesQuantDelimited fileUpper qUpper = .ok false)

/-- The repository is written plainly, the file is a GGUF file, and it is a strict match for its
quantization, except in the plan for BitNet. -/
def wellNamed (family : ModelFamily) (t : ModelTarget) : Bool :=
  Text.trim t.repo = t.repo && t.repo.toList.contains '/' && Text.endsWith t.file ".gguf" &&
    if family = .bitNet then t.isUnmatched else t.isStrict

end ModelTarget

theorem BootstrapPlan.mem_allTargets {p : BootstrapPlan} {t : ModelTarget} :
    t ∈ p.allTargets ↔ t = p.draft ∨ p.primary = some t ∨ p.visionTower = some t ∨
      p.embedder = some t ∨ p.deepReasoner = some t := by
  simp [allTargets]

theorem wellNamed_of_mem_allTargets {family : ModelFamily} {budget : MemoryBudget}
    {t : ModelTarget} (ht : t ∈ (planFamily family budget).allTargets) :
    t.wellNamed family = true := by
  rw [BootstrapPlan.mem_allTargets] at ht
  cases family <;>
    simp only [planFamily, planGemma, planQwen, planGranite, planPhi, planBitnet] at ht <;>
    rcases ht with rfl | ht | ht | ht | ht
  -- A target is missing, or it is always the same, or it depends on the budget.
  all_goals first
    | (cases ht <;> decide +kernel)
    | decide +kernel
    | (split_ifs at ht <;> cases ht <;> decide +kernel)
    | (split_ifs <;> decide +kernel)

/-- A pull in GGUF by quantization takes its file from the files of the listing. -/
theorem resolveHfRepo_gguf {hub : HfHub} {repo q f : String} {tagOverride : Option String}
    {listing : List HfTreeEntry} (hlisting : hub.tree repo = .ok listing)
    (hne : (listing.filter (·.isFileWith ".gguf")).map (·.path) ≠ []) :
    (∃ m, resolveHfRepo hub repo "gguf" (some q) tagOverride = .ok m ∧ m.filename = f) ↔
      selectQuant ((listing.filter (·.isFileWith ".gguf")).map (·.path)) q = .ok f := by
  have hformat : Text.eqIgnoreAsciiCase "gguf" "safetensors" = false := by decide
  have hselect : selectFile ((listing.filter (·.isFileWith ".gguf")).map (·.path)) "gguf" (some q) =
      selectQuant ((listing.filter (·.isFileWith ".gguf")).map (·.path)) q := by
    unfold selectFile
    split
    · rename_i hnil
      exact absurd hnil hne
    · rfl
  simp only [resolveHfRepo, hlisting, hformat, ggufFiles, if_neg hne, bind, Except.bind,
    Bool.false_eq_true, if_false, hselect]
  generalize selectQuant _ q = selected
  cases selected with
  | error e => simp
  | ok found =>
    simp only [pure, Except.pure, Except.ok.injEq]
    constructor
    · rintro ⟨m, rfl, hm⟩
      exact hm
    · intro h
      exact ⟨_, rfl, h⟩

namespace ModelTarget

variable {hub : HfHub} {family : ModelFamily} {t : ModelTarget} {listing : List HfTreeEntry}

theorem wellNamed_iff : t.wellNamed family = true ↔
    Text.trim t.repo = t.repo ∧ '/' ∈ t.repo.toList ∧ Text.endsWith t.file ".gguf" = true ∧
      if family = .bitNet then t.isUnmatched = true else t.isStrict = true := by
  simp [wellNamed, and_assoc]

theorem resolve_eq (ht : t.wellNamed family = true) : t.resolve hub =
    resolveHfRepo hub t.repo "gguf" (some t.quant) (some (t.name ++ ":" ++ t.tag)) := by
  obtain ⟨htrim, hslash, -⟩ := wellNamed_iff.1 ht
  have hlower : Text.toAsciiLowercase "gguf" = "gguf" := by decide
  simp only [resolve, resolveModelWithFormat, htrim, hlower, if_true, findAlias_of_slash hslash,
    List.contains_iff_mem.2 hslash]

/-- The pull of a target takes the file of the target when that is what the search finds. -/
theorem resolve_filename (ht : t.wellNamed family = true) (hlisting : hub.tree t.repo = .ok listing)
    (hfile : ⟨t.file, "file"⟩ ∈ listing) :
    (∃ m, t.resolve hub = .ok m ∧ m.filename = t.file) ↔
      selectQuant ((listing.filter (·.isFileWith ".gguf")).map (·.path)) t.quant = .ok t.file := by
  obtain ⟨-, -, hend, -⟩ := wellNamed_iff.1 ht
  have hmem : (⟨t.file, "file"⟩ : HfTreeEntry) ∈ listing.filter (·.isFileWith ".gguf") :=
    List.mem_filter.2 ⟨hfile, by simp [HfTreeEntry.isFileWith, hend]⟩
  rw [resolve_eq ht]
  exact resolveHfRepo_gguf hlisting (List.ne_nil_of_mem (List.mem_map_of_mem hmem))

/-- Outside the plan for BitNet, the search finds the file when no other strict match is listed before
it. -/
theorem selectQuant_iff_of_isStrict (ht : t.isStrict = true)
    (hend : Text.endsWith t.file ".gguf" = true) (hfile : ⟨t.file, "file"⟩ ∈ listing) :
    selectQuant ((listing.filter (·.isFileWith ".gguf")).map (·.path)) t.quant = .ok t.file ↔
      ∀ e ∈ listing.takeWhile (· ≠ ⟨t.file, "file"⟩), e.isFileWith ".gguf" = true →
        matchesQuantStrict (Text.toAsciiUppercase e.path) (Text.toAsciiUppercase t.quant) =
          false := by
  let p : String → Bool := fun f =>
    matchesQuantStrict (Text.toAsciiUppercase f) (Text.toAsciiUppercase t.quant)
  let g : HfTreeEntry → Bool := fun e => e.isFileWith ".gguf" && p e.path
  have hg : g ⟨t.file, "file"⟩ = true := by
    simp only [g, HfTreeEntry.isFileWith, hend]
    exact ht
  obtain ⟨first, hfirst⟩ := Option.isSome_iff_exists.1 (List.find?_isSome.2 ⟨_, hfile, hg⟩)
  have hselect : selectQuant ((listing.filter (·.isFileWith ".gguf")).map (·.path)) t.quant =
      .ok first.path := selectQuant_of_strict (by rw [find?_filter_map, hfirst, Option.map_some])
  have htype : first.type = "file" := by
    have := List.find?_some hfirst
    simp only [g, HfTreeEntry.isFileWith, Bool.and_eq_true, decide_eq_true_eq] at this
    exact this.1.1
  have heq : first.path = t.file ↔ listing.find? g = some ⟨t.file, "file"⟩ := by
    rw [hfirst, Option.some.injEq, HfTreeEntry.mk.injEq]
    simp [htype]
  rw [hselect, Except.ok.injEq, heq, find?_eq_some_iff_takeWhile hfile hg]
  apply forall₂_congr
  intro e _
  simp only [g, p, Bool.and_eq_false_imp]

/-- The file of the target in the plan for BitNet is never found. -/
theorem selectQuant_ne_of_isUnmatched {files : List String} (ht : t.isUnmatched = true) :
    selectQuant files t.quant ≠ .ok t.file := by
  intro h
  simp only [isUnmatched, Bool.and_eq_true, Bool.not_eq_true', decide_eq_true_eq] at ht
  obtain ⟨⟨hstrict, hcontains⟩, hdelimited⟩ := ht
  rcases matches_of_selectQuant h with hs | hd | hc
  · rw [hstrict] at hs
    cases hs
  · rw [hdelimited] at hd
    cases hd
  · rw [hcontains] at hc
    cases hc

end ModelTarget

/-! ### A bootstrap and its plan -/

/-- The bootstrap pulls the file that its plan names exactly if the family is not BitNet and no other
strict match for the quantization is listed before the file. -/
theorem bootstrap_pulls_planned_file_iff {family : ModelFamily} {budget : MemoryBudget}
    {t : ModelTarget} (ht : t ∈ (planFamily family budget).allTargets) {hub : HfHub}
    {listing : List HfTreeEntry} (hlisting : hub.tree t.repo = .ok listing)
    (hfile : ⟨t.file, "file"⟩ ∈ listing) :
    (∃ m, t.resolve hub = .ok m ∧ m.filename = t.file) ↔
      family ≠ .bitNet ∧ ∀ e ∈ listing.takeWhile (· ≠ ⟨t.file, "file"⟩),
        e.isFileWith ".gguf" = true →
          matchesQuantStrict (Text.toAsciiUppercase e.path) (Text.toAsciiUppercase t.quant) =
            false := by
  have hnamed := wellNamed_of_mem_allTargets ht
  obtain ⟨-, -, hend, hmatch⟩ := ModelTarget.wellNamed_iff.1 hnamed
  rw [ModelTarget.resolve_filename hnamed hlisting hfile]
  by_cases hfamily : family = .bitNet
  · rw [if_pos hfamily] at hmatch
    simp [hfamily, ModelTarget.selectQuant_ne_of_isUnmatched hmatch]
  · rw [if_neg hfamily] at hmatch
    rw [ModelTarget.selectQuant_iff_of_isStrict hmatch hend hfile]
    simp [hfamily]

/-- A machine without a GPU. -/
def sampleBudget : MemoryBudget := ⟨0, mib 300, 0, mib 600, 4⟩

/-- A hub that has a card and one file in every repository. -/
def sampleHub (file : String) : HfHub := ⟨fun _ => .ok [⟨"README.md", "file"⟩, ⟨file, "file"⟩]⟩

theorem sample_bootstrap_pulls : ∃ m, (planFamily .qwen sampleBudget).draft.resolve
      (sampleHub "qwen2.5-0.5b-instruct-q4_k_m.gguf") = .ok m ∧
    m.filename = (planFamily .qwen sampleBudget).draft.file := by
  have hmem : (planFamily .qwen sampleBudget).draft ∈ (planFamily .qwen sampleBudget).allTargets :=
    List.mem_cons_self
  apply (bootstrap_pulls_planned_file_iff hmem rfl (by decide)).2
  exact ⟨by decide, by decide +kernel⟩

/-- The repository of BitNet may hold just the file that the plan names: the pull refuses it. -/
theorem sample_planned_file_refused : ¬ ∀ (family : ModelFamily) (budget : MemoryBudget),
    ∀ t ∈ (planFamily family budget).allTargets, ∀ (hub : HfHub) (listing : List HfTreeEntry),
      hub.tree t.repo = .ok listing → ⟨t.file, "file"⟩ ∈ listing →
        ∃ m, t.resolve hub = .ok m ∧ m.filename = t.file := by
  intro h
  have hmem : (planBitnet sampleBudget).draft ∈ (planFamily .bitNet sampleBudget).allTargets :=
    List.mem_cons_self
  have hnamed := wellNamed_of_mem_allTargets hmem
  have hunmatched : (planBitnet sampleBudget).draft.isUnmatched = true := by decide +kernel
  have hpull := h .bitNet sampleBudget _ hmem (sampleHub "bitnet_b1_58-2B4T.gguf") _ rfl (by decide)
  rw [ModelTarget.resolve_filename hnamed rfl (by decide)] at hpull
  exact ModelTarget.selectQuant_ne_of_isUnmatched hunmatched hpull

end Modeld
