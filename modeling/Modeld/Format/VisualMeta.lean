import Modeld.Format.Safetensors
import Modeld.Host.FloatParse
import Modeld.Host.Folds

/-!
# Visual models

`analyzeVisualAttributes` tells a UNet from a DiT and a base model from a LoRA by the names of the
attributes, and takes the rank and the alpha of a LoRA from their values. It goes over the attributes
in the order in which the map happens to be iterated, which is an argument here.
-/

namespace Modeld

open Host

/-- `DiffusionArchitecture`. -/
inductive DiffusionArchitecture
  | unet
  | dit
  | unknown
deriving DecidableEq

/-- `VisualModelKind`, with the bits of the alpha. -/
inductive VisualModelKind
  | baseModel (architecture : DiffusionArchitecture) (latentChannels : Nat)
  | lora (rank : Nat) (alpha : Nat) (targetArchitecture : DiffusionArchitecture)
  | unknown
deriving DecidableEq

/-- `VisualModelMetadata`. -/
structure VisualModelMetadata where
  kind : VisualModelKind
  tensorCount : Nat
  parameterCount : Nat
deriving DecidableEq

/-- One of the parts is in the text. -/
def containsAny (s : String) (parts : List String) : Bool := parts.any (Text.contains s)

/-- The blocks of a DiT. -/
def ditBlocks : List String := ["double_blocks", "single_blocks", "transformer_blocks", "joint_blocks"]

/-- The blocks of a UNet. -/
def unetBlocks : List String := ["down_blocks", "up_blocks", "input_blocks", "middle_block"]

/-- The matrices of a LoRA. -/
def loraParts : List String := ["lora_down", "lora_up", "lora_a", "lora_b"]

/-- What has been found so far. -/
structure Detected where
  isLora : Bool
  rank : Nat
  alpha : Nat
  isDit : Bool
  isUnet : Bool
  latentChannels : Nat

/-- The alpha is one, until there is another. -/
def defaultAlpha : Nat := 0x3ff0000000000000

namespace Detected

/-- Nothing has been found. -/
def start : Detected := ⟨false, 0, defaultAlpha, false, false, 4⟩

/-- The blocks that a name speaks of. -/
def scanBlocks (lk : String) (d : Detected) : Detected :=
  if containsAny lk ditBlocks then { d with isDit := true, latentChannels := 16 }
  else if containsAny lk unetBlocks then { d with isUnet := true }
  else d

/-- The matrices of a LoRA, with their alpha. -/
def scanLora (lk v : String) (d : Detected) : Detected :=
  if containsAny lk loraParts then
    { d with
      isLora := true
      alpha := if Text.endsWith lk ".alpha" then (parseFloat .double v).getD d.alpha else d.alpha }
  else d

/-- The rank. -/
def scanRank (lk v : String) (d : Detected) : Detected :=
  if Text.contains lk "rank" || Text.contains lk "network_dim" then
    { d with rank := (Text.parseUnsigned 64 v).getD d.rank }
  else d

/-- The alpha of the network. -/
def scanAlpha (lk v : String) (d : Detected) : Detected :=
  if Text.contains lk "network_alpha" then { d with alpha := (parseFloat .double v).getD d.alpha }
  else d

/-- One attribute. -/
def scan (d : Detected) (attr : String × String) : Detected :=
  let lk := Text.toAsciiLowercase attr.1
  (((d.scanBlocks lk).scanLora lk attr.2).scanRank lk attr.2).scanAlpha lk attr.2

/-- The architecture that the names speak for. -/
def architecture (d : Detected) : DiffusionArchitecture :=
  if d.isDit then .dit else if d.isUnet then .unet else .unknown

/-- What the model is. -/
def kind (d : Detected) : VisualModelKind :=
  if d.isLora then .lora (if d.rank = 0 then 16 else d.rank) d.alpha d.architecture
  else if d.architecture ≠ .unknown then .baseModel d.architecture d.latentChannels
  else .unknown

end Detected

/-- `analyze_visual_attributes`, on the attributes in the order of their iteration. -/
def analyzeVisualAttributes (attrs : List (String × String)) (tensorCount parameterCount : Nat) :
    VisualModelMetadata :=
  ⟨(attrs.foldl Detected.scan .start).kind, tensorCount, parameterCount⟩

/-- `inspect_visual_metadata`, where `iterate` lists a map in the order of its iteration. -/
def inspectVisualMetadata (json : JsonLibrary)
    (iterate : (AList fun _ : String => String) → List (String × String)) (stream : Bytes) :
    Except ModeldError VisualModelMetadata :=
  (parseSafetensorsHeader json stream).map fun raw =>
    analyzeVisualAttributes (iterate raw.attributes) raw.tensorCount raw.parameterCount

/-! ### What is found -/

/-- The name is one of a LoRA. -/
def isLoraName (k : String) : Bool := containsAny (Text.toAsciiLowercase k) loraParts

/-- The name is one of a DiT. -/
def isDitName (k : String) : Bool := containsAny (Text.toAsciiLowercase k) ditBlocks

/-- The name is one of a UNet. -/
def isUnetName (k : String) : Bool := containsAny (Text.toAsciiLowercase k) unetBlocks

/-- The rank that an attribute gives. -/
def rankOf (attr : String × String) : Option Nat :=
  if Text.contains (Text.toAsciiLowercase attr.1) "rank" ||
      Text.contains (Text.toAsciiLowercase attr.1) "network_dim" then
    Text.parseUnsigned 64 attr.2
  else none

/-- The alpha that an attribute gives. -/
def alphaOf (attr : String × String) : Option Nat :=
  if (isLoraName attr.1 && Text.endsWith (Text.toAsciiLowercase attr.1) ".alpha") ||
      Text.contains (Text.toAsciiLowercase attr.1) "network_alpha" then
    parseFloat .double attr.2
  else none

/-- The number of channels that an attribute gives. -/
def channelsOf (attr : String × String) : Option Nat := if isDitName attr.1 then some 16 else none

theorem lastValue_channelsOf (attrs : List (String × String)) :
    lastValue channelsOf 4 attrs = if attrs.any (isDitName ·.1) then 16 else 4 := by
  rcases lastValue_cases channelsOf 4 attrs with ⟨hnil, hstart⟩ | ⟨attr, hattr, hvalue⟩
  · have hnone : attrs.any (isDitName ·.1) = false := by
      rw [List.any_eq_false]
      intro attr hattr hdit
      have hchannels := List.filterMap_eq_nil_iff.1 hnil attr hattr
      rw [channelsOf, if_pos hdit] at hchannels
      cases hchannels
    rw [hstart, hnone]
    rfl
  · by_cases hdit : isDitName attr.1
    · rw [channelsOf, if_pos hdit, Option.some.injEq] at hvalue
      have hany : attrs.any (isDitName ·.1) = true := List.any_eq_true.2 ⟨attr, hattr, hdit⟩
      rw [← hvalue, hany]
      rfl
    · rw [channelsOf, if_neg hdit] at hvalue
      cases hvalue

namespace Detected

variable (d : Detected) (attr : String × String) (lk v : String)

theorem scanBlocks_eq : d.scanBlocks lk = { d with
    isDit := d.isDit || containsAny lk ditBlocks
    isUnet := d.isUnet || (containsAny lk unetBlocks && !containsAny lk ditBlocks)
    latentChannels := (if containsAny lk ditBlocks then some 16 else none).getD d.latentChannels } := by
  rw [scanBlocks]
  cases containsAny lk ditBlocks
  · cases containsAny lk unetBlocks <;> simp
  · simp

theorem scanLora_eq : d.scanLora lk v = { d with
    isLora := d.isLora || containsAny lk loraParts
    alpha := if containsAny lk loraParts && Text.endsWith lk ".alpha" then
        (parseFloat .double v).getD d.alpha
      else d.alpha } := by
  rw [scanLora]
  cases containsAny lk loraParts <;> simp

/-- One attribute changes each part of what was found by what it says itself. -/
theorem scan_eq : d.scan attr = {
    isLora := d.isLora || isLoraName attr.1
    rank := (rankOf attr).getD d.rank
    alpha := (alphaOf attr).getD d.alpha
    isDit := d.isDit || isDitName attr.1
    isUnet := d.isUnet || (isUnetName attr.1 && !isDitName attr.1)
    latentChannels := (channelsOf attr).getD d.latentChannels } := by
  rw [scan, rankOf, alphaOf, channelsOf, isLoraName, isDitName, isUnetName, scanBlocks_eq,
    scanLora_eq]
  generalize Text.toAsciiLowercase attr.1 = lk
  rw [scanAlpha, scanRank]
  cases Text.contains lk "rank" || Text.contains lk "network_dim" <;>
    cases Text.contains lk "network_alpha" <;>
      cases containsAny lk loraParts && Text.endsWith lk ".alpha" <;>
        -- Where two rules for the alpha apply, they take the same value.
        cases parseFloat .double attr.2 <;> rfl

/-- What is found in all attributes. -/
theorem foldl_scan (attrs : List (String × String)) : attrs.foldl scan start = {
    isLora := attrs.any (isLoraName ·.1)
    rank := lastValue rankOf 0 attrs
    alpha := lastValue alphaOf defaultAlpha attrs
    isDit := attrs.any (isDitName ·.1)
    isUnet := attrs.any fun attr => isUnetName attr.1 && !isDitName attr.1
    latentChannels := if attrs.any (isDitName ·.1) then 16 else 4 } := by
  have hlora := @foldl_flag Detected _ scan isLora (fun a => isLoraName a.1)
    (fun d a => by rw [scan_eq]) attrs start
  have hrank := @foldl_lastValue Detected _ _ scan rank rankOf (fun d a => by rw [scan_eq]) attrs start
  have halpha := @foldl_lastValue Detected _ _ scan alpha alphaOf
    (fun d a => by rw [scan_eq]) attrs start
  have hdit := @foldl_flag Detected _ scan isDit (fun a => isDitName a.1)
    (fun d a => by rw [scan_eq]) attrs start
  have hunet := @foldl_flag Detected _ scan isUnet (fun a => isUnetName a.1 && !isDitName a.1)
    (fun d a => by rw [scan_eq]) attrs start
  have hchannels := @foldl_lastValue Detected _ _ scan latentChannels channelsOf
    (fun d a => by rw [scan_eq]) attrs start
  rw [← lastValue_channelsOf]
  generalize attrs.foldl scan start = found at *
  cases found
  dsimp only [start, Bool.false_or] at *
  rw [hlora, hrank, halpha, hdit, hunet, hchannels]
  simp only [Bool.false_or]

end Detected

/-! ### The order of the iteration -/

/-- The rank that is reported. -/
def shownRank (rank : Nat) : Nat := if rank = 0 then 16 else rank

/-- The architecture that is reported. -/
def shownArchitecture (attrs : List (String × String)) : DiffusionArchitecture :=
  if attrs.any (isDitName ·.1) then .dit
  else if attrs.any fun attr => isUnetName attr.1 && !isDitName attr.1 then .unet
  else .unknown

theorem analyze_of_lora {attrs : List (String × String)} (h : attrs.any (isLoraName ·.1) = true)
    (tensorCount parameterCount : Nat) : analyzeVisualAttributes attrs tensorCount parameterCount =
      ⟨.lora (shownRank (lastValue rankOf 0 attrs)) (lastValue alphaOf defaultAlpha attrs)
        (shownArchitecture attrs), tensorCount, parameterCount⟩ := by
  rw [analyzeVisualAttributes, Detected.foldl_scan, Detected.kind, if_pos h]
  rfl

theorem analyze_of_not_lora {attrs : List (String × String)}
    (h : attrs.any (isLoraName ·.1) = false) (tensorCount parameterCount : Nat) :
    analyzeVisualAttributes attrs tensorCount parameterCount =
      ⟨if shownArchitecture attrs ≠ .unknown then
          .baseModel (shownArchitecture attrs) (if attrs.any (isDitName ·.1) then 16 else 4)
        else .unknown, tensorCount, parameterCount⟩ := by
  rw [analyzeVisualAttributes, Detected.foldl_scan, Detected.kind, h]
  rfl

theorem shownArchitecture_perm {attrs attrs' : List (String × String)} (h : attrs.Perm attrs') :
    shownArchitecture attrs = shownArchitecture attrs' := by
  rw [shownArchitecture, shownArchitecture, h.any_eq, h.any_eq]

/-- All ranks are reported as the same, and all alphas are. -/
def ValuesAgree (attrs : List (String × String)) : Prop :=
  (∀ a ∈ attrs, ∀ a' ∈ attrs, ∀ r r', rankOf a = some r → rankOf a' = some r' →
      shownRank r = shownRank r') ∧
    ∀ a ∈ attrs, ∀ a' ∈ attrs, ∀ x x', alphaOf a = some x → alphaOf a' = some x' → x = x'

/-- The result is the same in every order of the attributes exactly when no attribute is one of a LoRA,
or the ranks and the alphas that the attributes give are the same. -/
theorem analyze_order_iff (attrs : List (String × String)) (tensorCount parameterCount : Nat) :
    (∀ order order', order.Perm attrs → order'.Perm attrs →
        analyzeVisualAttributes order tensorCount parameterCount =
          analyzeVisualAttributes order' tensorCount parameterCount) ↔
      ((∃ a ∈ attrs, isLoraName a.1 = true) → ValuesAgree attrs) := by
  rw [← List.any_eq_true]
  cases hlora : attrs.any (isLoraName ·.1) with
  | false =>
    simp only [Bool.false_eq_true, false_imp_iff, iff_true]
    intro order order' horder horder'
    have hany := horder.any_eq (f := (isLoraName ·.1))
    have hany' := horder'.any_eq (f := (isLoraName ·.1))
    rw [analyze_of_not_lora (hany.trans hlora), analyze_of_not_lora (hany'.trans hlora),
      shownArchitecture_perm (horder.trans horder'.symm), (horder.trans horder'.symm).any_eq]
  | true =>
    have hranks := lastValue_perm_iff rankOf shownRank 0 attrs
    have halphas := lastValue_perm_iff alphaOf id defaultAlpha attrs
    have hkind : ∀ order order', order.Perm attrs → order'.Perm attrs →
        (analyzeVisualAttributes order tensorCount parameterCount =
            analyzeVisualAttributes order' tensorCount parameterCount ↔
          shownRank (lastValue rankOf 0 order) = shownRank (lastValue rankOf 0 order') ∧
            lastValue alphaOf defaultAlpha order = lastValue alphaOf defaultAlpha order') := by
      intro order order' horder horder'
      have hany := horder.any_eq (f := (isLoraName ·.1))
      have hany' := horder'.any_eq (f := (isLoraName ·.1))
      rw [analyze_of_lora (hany.trans hlora), analyze_of_lora (hany'.trans hlora),
        shownArchitecture_perm (horder.trans horder'.symm)]
      simp only [VisualModelMetadata.mk.injEq, VisualModelKind.lora.injEq, and_true]
    constructor
    · intro h _
      constructor
      · exact hranks.1 fun order order' ho ho' => ((hkind order order' ho ho').1 (h order order' ho ho')).1
      · exact halphas.1 fun order order' ho ho' => ((hkind order order' ho ho').1 (h order order' ho ho')).2
    · intro h order order' ho ho'
      have hagree := h rfl
      exact (hkind order order' ho ho').2
        ⟨hranks.2 hagree.1 order order' ho ho', halphas.2 hagree.2 order order' ho ho'⟩

/-- A LoRA whose metadata gives two ranks. -/
def twoRanks : List (String × String) :=
  [("lora_up", "tensor"), ("network_dim", "32"), ("rank", "8")]

/-- The rank of such a LoRA depends on the order of the iteration. -/
theorem twoRanks_depends : (twoRanks.map (·.1)).Nodup ∧ twoRanks.reverse.Perm twoRanks ∧
    (analyzeVisualAttributes twoRanks 1 1).kind = .lora 8 defaultAlpha .unknown ∧
    (analyzeVisualAttributes twoRanks.reverse 1 1).kind = .lora 32 defaultAlpha .unknown := by
  refine ⟨by decide, List.reverse_perm _, ?_, ?_⟩
  · decide
  · decide

/-! ### Models with UNet blocks -/

/-- The attributes of a UNet: one speaks of its blocks, none of the blocks of a DiT only, and attention
layers stand inside the blocks of the UNet. -/
structure HasUnetBlocks (attrs : List (String × String)) : Prop where
  blocks : ∃ a ∈ attrs, isUnetName a.1 = true
  noDit : ∀ a ∈ attrs, containsAny (Text.toAsciiLowercase a.1)
    ["double_blocks", "single_blocks", "joint_blocks"] = false
  inside : ∀ a ∈ attrs, Text.contains (Text.toAsciiLowercase a.1) "transformer_blocks" = true →
    isUnetName a.1 = true

/-- The architecture of a kind of model. -/
def VisualModelKind.architecture : VisualModelKind → DiffusionArchitecture
  | baseModel architecture _ => architecture
  | lora _ _ target => target
  | unknown => .unknown

theorem isDitName_iff {k : String} (h : containsAny (Text.toAsciiLowercase k)
    ["double_blocks", "single_blocks", "joint_blocks"] = false) :
    isDitName k = Text.contains (Text.toAsciiLowercase k) "transformer_blocks" := by
  rw [isDitName]
  generalize Text.toAsciiLowercase k = lk at h ⊢
  simp only [containsAny, ditBlocks, List.any_cons, List.any_nil, Bool.or_false,
    Bool.or_eq_false_iff] at h ⊢
  obtain ⟨hdouble, hsingle, hjoint⟩ := h
  rw [hdouble, hsingle, hjoint, Bool.false_or, Bool.false_or, Bool.or_false]

theorem analyze_architecture (attrs : List (String × String)) (tensorCount parameterCount : Nat) :
    (analyzeVisualAttributes attrs tensorCount parameterCount).kind.architecture =
      shownArchitecture attrs := by
  cases hlora : attrs.any (isLoraName ·.1) with
  | true =>
    rw [analyze_of_lora hlora]
    rfl
  | false =>
    rw [analyze_of_not_lora hlora]
    dsimp only
    cases shownArchitecture attrs <;> rfl

theorem shownArchitecture_of_dit {attrs : List (String × String)}
    (h : attrs.any (isDitName ·.1) = true) : shownArchitecture attrs = .dit := by
  rw [shownArchitecture, if_pos h]

theorem shownArchitecture_of_unet {attrs : List (String × String)}
    (hdit : attrs.any (isDitName ·.1) = false) (hunet : ∃ a ∈ attrs, isUnetName a.1 = true) :
    shownArchitecture attrs = .unet := by
  obtain ⟨a, ha, hname⟩ := hunet
  have hnot : isDitName a.1 = false := by
    have hall := List.any_eq_false.1 hdit a ha
    simpa using hall
  have hany : (attrs.any fun attr => isUnetName attr.1 && !isDitName attr.1) = true := by
    rw [List.any_eq_true]
    exact ⟨a, ha, by rw [hname, hnot]; rfl⟩
  rw [shownArchitecture, hdit, hany]
  rfl

/-- A UNet is reported as one, with four channels when it is no LoRA, exactly when none of its
attributes speaks of transformer blocks. -/
theorem unet_reported_iff (attrs : List (String × String)) (tensorCount parameterCount : Nat)
    (hunet : HasUnetBlocks attrs) :
    ((analyzeVisualAttributes attrs tensorCount parameterCount).kind.architecture = .unet ∧
        ((∀ a ∈ attrs, isLoraName a.1 = false) →
          (analyzeVisualAttributes attrs tensorCount parameterCount).kind = .baseModel .unet 4)) ↔
      ∀ a ∈ attrs, Text.contains (Text.toAsciiLowercase a.1) "transformer_blocks" = false := by
  rw [analyze_architecture]
  constructor
  · intro h a ha
    by_contra htransformer
    have hdit : attrs.any (isDitName ·.1) = true := by
      rw [List.any_eq_true]
      refine ⟨a, ha, ?_⟩
      rw [isDitName_iff (hunet.noDit a ha)]
      simpa using htransformer
    rw [shownArchitecture_of_dit hdit] at h
    exact absurd h.1 (by decide)
  · intro h
    have hdit : attrs.any (isDitName ·.1) = false := by
      rw [List.any_eq_false]
      intro a ha
      rw [isDitName_iff (hunet.noDit a ha), h a ha]
      decide
    have hshown := shownArchitecture_of_unet hdit hunet.blocks
    refine ⟨hshown, fun hlora => ?_⟩
    have hnone : attrs.any (isLoraName ·.1) = false := by
      rw [List.any_eq_false]
      intro a ha
      rw [hlora a ha]
      decide
    rw [analyze_of_not_lora hnone, hshown, hdit]
    rfl

theorem unet_reported_input_blocks :
    ((analyzeVisualAttributes [("input_blocks.0.0.weight", "tensor")] 1 1).kind.architecture = .unet ∧
        ((∀ a ∈ [("input_blocks.0.0.weight", "tensor")], isLoraName a.1 = false) →
          (analyzeVisualAttributes [("input_blocks.0.0.weight", "tensor")] 1 1).kind =
            .baseModel .unet 4)) ↔
      ∀ a ∈ [("input_blocks.0.0.weight", "tensor")],
        Text.contains (Text.toAsciiLowercase a.1) "transformer_blocks" = false :=
  unet_reported_iff [("input_blocks.0.0.weight", "tensor")] 1 1
    ⟨⟨_, List.mem_singleton_self _, by decide⟩, by decide, by decide⟩

/-- The attention layers of a UNet. -/
def attentionLayers : List (String × String) :=
  [("up_blocks.1.transformer_blocks.0", "tensor")]

/-- A UNet with attention layers is reported as a DiT. -/
theorem attentionLayers_dit : HasUnetBlocks attentionLayers ∧
    (analyzeVisualAttributes attentionLayers 1 1).kind = .baseModel .dit 16 := by
  refine ⟨⟨⟨_, List.mem_singleton_self _, ?_⟩, ?_, ?_⟩, ?_⟩
  · decide +kernel
  · decide +kernel
  · decide +kernel
  · decide +kernel

end Modeld
