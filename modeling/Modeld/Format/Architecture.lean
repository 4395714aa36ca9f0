import Mathlib
import Modeld.Format.HeaderCounts
import Modeld.Host.Pairs

/-!
# Where the architecture of a SafeTensors file comes from

The parser writes the names of tensors and the keys of the metadata into one map and looks the
architecture up there. The results below say what each key of that map holds, and exactly when what
is reported is what the metadata says.
-/

namespace Modeld

open Host

/-! ### What the map holds -/

/-- The attributes of the metadata. -/
def metadataOf (json : JsonLibrary) (fields : List (String × Json)) : List (String × String) :=
  match (Json.obj fields).get "__metadata__" with
  | some (.obj entries) => entries.map fun f => (f.1, metadataText json f.2)
  | _ => []

/-- The names of the tensors. -/
def tensorNames (fields : List (String × Json)) : List String := (tensors fields).map (·.1)

/-- The names of the tensors that come behind the metadata. -/
def tensorsBehind (fields : List (String × Json)) : List String :=
  ((fields.dropWhile (·.1 ≠ "__metadata__")).drop 1).map (·.1)

/-- A header lists each key once, and so does its metadata. -/
structure KeysOnce (fields : List (String × Json)) : Prop where
  header : (fields.map (·.1)).Nodup
  metadata : ∀ k entries, (k, Json.obj entries) ∈ fields → (entries.map (·.1)).Nodup

/-- The objects that the library reads list each key once. -/
def JsonLibrary.KeysOnce (json : JsonLibrary) : Prop :=
  ∀ text fields, json.fromSlice text = .ok (.obj fields) → Modeld.KeysOnce fields

/-- What one field writes into the map. -/
def fieldWrites (json : JsonLibrary) (field : String × Json) : List (String × String) :=
  if field.1 = "__metadata__" then
    match field.2 with
    | .obj entries => entries.map fun f => (f.1, metadataText json f.2)
    | _ => []
  else [(field.1, "tensor")]

variable {json : JsonLibrary} {fields : List (String × Json)}

theorem scanField_attributes (found : SafeTensorsMetadata) (field : String × Json) :
    (scanField json found field).attributes =
      (fieldWrites json field).foldl (fun attrs w => attrs.insert w.1 w.2) found.attributes := by
  obtain ⟨k, v⟩ := field
  rw [scanField, fieldWrites]
  split_ifs with hk
  · cases v with
    | obj entries =>
      have hmap := @List.foldl_map _ _ _ (fun f : String × Json => (f.1, metadataText json f.2))
        (fun attrs w => attrs.insert w.1 w.2) entries found.attributes
      exact hmap.symm
    | _ => rfl
  · rfl

theorem foldl_scanField_attributes (fields : List (String × Json)) (found : SafeTensorsMetadata) :
    (fields.foldl (scanField json) found).attributes =
      (fields.flatMap (fieldWrites json)).foldl (fun attrs w => attrs.insert w.1 w.2)
        found.attributes := by
  induction fields generalizing found with
  | nil => rfl
  | cons field fields ih =>
    rw [List.foldl_cons, ih, scanField_attributes, List.flatMap_cons, List.foldl_append]

theorem scanHeader_lookup (k : String) : (scanHeader json fields).attributes.lookup k =
    valueAt (fields.flatMap (fieldWrites json)).reverse k := by
  have hattributes := @foldl_scanField_attributes json fields ⟨0, 0, none, ∅⟩
  rw [scanHeader]
  dsimp only
  rw [hattributes, lookup_foldl_insert]
  exact Option.or_none

theorem scanHeader_architecture : (scanHeader json fields).architecture =
    architectureKeys.findSome? (scanHeader json fields).attributes.lookup := rfl

/-- Tensors write their names. -/
theorem flatMap_fieldWrites_of_tensors {fields : List (String × Json)}
    (h : "__metadata__" ∉ fields.map (·.1)) :
    fields.flatMap (fieldWrites json) = fields.map fun t => (t.1, "tensor") := by
  rw [List.map_eq_flatMap]
  refine List.flatMap_congr fun t ht => ?_
  rw [fieldWrites, if_neg]
  intro hname
  exact h (List.mem_map.2 ⟨t, ht, hname⟩)

theorem valueAt_tensors (fields : List (String × Json)) (k : String) :
    valueAt (fields.map fun t => (t.1, "tensor")).reverse k =
      if k ∈ fields.map (·.1) then some "tensor" else none := by
  have hkeys : (fields.map fun t => (t.1, "tensor")).reverse.map (·.1) = (fields.map (·.1)).reverse := by
    rw [List.map_reverse, List.map_map]
    rfl
  split_ifs with hk
  · rw [← List.mem_reverse, ← hkeys, List.mem_map] at hk
    obtain ⟨w, hw, hname⟩ := hk
    have hsome : ((fields.map fun t => (t.1, "tensor")).reverse.find? (·.1 = k)).isSome = true := by
      rw [List.find?_isSome]
      exact ⟨w, hw, by simpa using hname⟩
    obtain ⟨x, hx⟩ := Option.isSome_iff_exists.1 hsome
    obtain ⟨t, -, rfl⟩ := List.mem_map.1 (List.mem_reverse.1 (List.mem_of_find?_eq_some hx))
    rw [valueAt, hx]
    rfl
  · refine valueAt_eq_none_iff.2 ?_
    rw [hkeys, List.mem_reverse]
    exact hk

theorem tensorNames_eq_self (h : "__metadata__" ∉ fields.map (·.1)) :
    tensorNames fields = fields.map (·.1) := by
  rw [tensorNames, tensors, List.filter_eq_self.2]
  intro t ht
  refine decide_eq_true fun hname => h (List.mem_map.2 ⟨t, ht, hname⟩)

/-- A header without metadata, or the metadata between the tensors. -/
theorem KeysOnce.cases (hkeys : KeysOnce fields) : "__metadata__" ∉ fields.map (·.1) ∨
    ∃ before v after, fields = before ++ ("__metadata__", v) :: after ∧
      "__metadata__" ∉ before.map (·.1) ∧ "__metadata__" ∉ after.map (·.1) := by
  by_cases hmeta : "__metadata__" ∈ fields.map (·.1)
  · obtain ⟨⟨k, v⟩, hfield, rfl⟩ := List.mem_map.1 hmeta
    obtain ⟨before, after, rfl⟩ := List.append_of_mem hfield
    have hnodup := hkeys.header
    rw [List.map_append, List.map_cons, List.nodup_append, List.nodup_cons] at hnodup
    obtain ⟨-, ⟨hafter, -⟩, hdisjoint⟩ := hnodup
    refine .inr ⟨before, v, after, rfl, fun hmem => ?_, hafter⟩
    exact hdisjoint _ hmem _ (List.mem_cons_self ..) rfl
  · exact .inl hmeta

theorem metadataOf_eq_fieldWrites {before after : List (String × Json)} {v : Json}
    (hkeys : KeysOnce (before ++ ("__metadata__", v) :: after)) :
    metadataOf json (before ++ ("__metadata__", v) :: after) =
      fieldWrites json ("__metadata__", v) := by
  have hget : (Json.obj (before ++ ("__metadata__", v) :: after)).get "__metadata__" = some v :=
    valueAt_eq_some hkeys.header (List.mem_append_right _ (List.mem_cons_self ..))
  rw [metadataOf, hget, fieldWrites, if_pos rfl]
  cases v <;> rfl

theorem metadataOf_nodup (hkeys : KeysOnce fields) : ((metadataOf json fields).map (·.1)).Nodup := by
  rw [metadataOf]
  split
  · rename_i entries hget
    have hmem : ("__metadata__", Json.obj entries) ∈ fields := by
      obtain ⟨f, hfind, hvalue⟩ := Option.map_eq_some_iff.1 hget
      have hname : f.1 = "__metadata__" := by simpa using List.find?_some hfind
      rw [← hname, ← hvalue]
      exact List.mem_of_find?_eq_some hfind
    rw [List.map_map]
    exact hkeys.metadata _ _ hmem
  · exact List.nodup_nil

theorem tensorsBehind_eq {before after : List (String × Json)} {v : Json}
    (hbefore : "__metadata__" ∉ before.map (·.1)) :
    tensorsBehind (before ++ ("__metadata__", v) :: after) = after.map (·.1) := by
  have hnames : ∀ t ∈ before, decide (t.1 ≠ "__metadata__") = true := fun t ht =>
    decide_eq_true fun hname => hbefore (List.mem_map.2 ⟨t, ht, hname⟩)
  rw [tensorsBehind, List.dropWhile_append_of_pos hnames, List.dropWhile_cons_of_neg (by simp),
    List.drop_succ_cons, List.drop_zero]

theorem tensorNames_eq {before after : List (String × Json)} {v : Json}
    (hbefore : "__metadata__" ∉ before.map (·.1)) (hafter : "__metadata__" ∉ after.map (·.1)) :
    tensorNames (before ++ ("__metadata__", v) :: after) = before.map (·.1) ++ after.map (·.1) := by
  rw [← tensorNames_eq_self hbefore, ← tensorNames_eq_self hafter, tensorNames, tensorNames, tensorNames,
    tensors, tensors, tensors, ← List.map_append, List.filter_append,
    List.filter_cons_of_neg (by simp)]

/-- What the map holds: the names of the tensors behind the metadata, then what the metadata says, then
the names of the other tensors. -/
theorem scanHeader_lookup_eq (hkeys : KeysOnce fields) (k : String) :
    (scanHeader json fields).attributes.lookup k =
      if k ∈ tensorsBehind fields then some "tensor"
      else (valueAt (metadataOf json fields) k).or
        (if k ∈ tensorNames fields then some "tensor" else none) := by
  rw [scanHeader_lookup]
  rcases hkeys.cases with hmeta | ⟨before, v, after, rfl, hbefore, hafter⟩
  · have hall : ∀ t ∈ fields, decide (t.1 ≠ "__metadata__") = true := fun t ht =>
      decide_eq_true fun hname => hmeta (List.mem_map.2 ⟨t, ht, hname⟩)
    have hbehind : tensorsBehind fields = [] := by
      rw [tensorsBehind, List.dropWhile_eq_nil_iff.2 hall]
      rfl
    have hnone : metadataOf json fields = [] := by
      have hget : (Json.obj fields).get "__metadata__" = none := valueAt_eq_none_iff.2 hmeta
      rw [metadataOf, hget]
    rw [flatMap_fieldWrites_of_tensors hmeta, valueAt_tensors, hbehind, hnone, tensorNames_eq_self hmeta,
      if_neg List.not_mem_nil]
    exact Option.none_or.symm
  · have hnodup : ((fieldWrites json ("__metadata__", v)).map (·.1)).Nodup := by
      rw [← metadataOf_eq_fieldWrites hkeys]
      exact metadataOf_nodup hkeys
    rw [List.flatMap_append, List.flatMap_cons, flatMap_fieldWrites_of_tensors hbefore,
      flatMap_fieldWrites_of_tensors hafter, List.reverse_append, List.reverse_append, valueAt_append,
      valueAt_append, valueAt_tensors, valueAt_tensors, valueAt_reverse hnodup,
      metadataOf_eq_fieldWrites hkeys, tensorsBehind_eq hbefore, tensorNames_eq hbefore hafter]
    by_cases hk : k ∈ after.map (·.1)
    · rw [if_pos hk, if_pos hk, Option.some_or, Option.some_or]
    · rw [if_neg hk, if_neg hk, Option.none_or]
      simp only [List.mem_append, hk, or_false]

/-! ### When the metadata decides -/

/-- What is reported is what the metadata says: its attributes are in the map as they are, and the
architecture is that of the first key that the metadata has. -/
structure FollowsMetadata (json : JsonLibrary) (fields : List (String × Json))
    (found : SafeTensorsMetadata) : Prop where
  attributes : ∀ k text, (k, text) ∈ metadataOf json fields → found.attributes.lookup k = some text
  architecture : found.architecture = architectureKeys.findSome? (valueAt (metadataOf json fields))

/-- The names of the tensors keep apart from the metadata. -/
structure NamesApart (json : JsonLibrary) (fields : List (String × Json)) : Prop where
  /-- No tensor behind the metadata is called like one of its attributes, unless that says `tensor`. -/
  kept : ∀ k text, (k, text) ∈ metadataOf json fields → k ∈ tensorsBehind fields → text = "tensor"
  /-- No tensor is called like a key of the architecture that the metadata has neither itself nor an
  earlier key for, unless what the metadata says with a later key is `tensor`. -/
  unnamed : ∀ before k after, architectureKeys = before ++ k :: after → k ∈ tensorNames fields →
    (∀ k' ∈ before ++ [k], k' ∉ (metadataOf json fields).map (·.1)) →
    architectureKeys.findSome? (valueAt (metadataOf json fields)) = some "tensor"

theorem tensorsBehind_subset (hkeys : KeysOnce fields) {k : String} (hk : k ∈ tensorsBehind fields) :
    k ∈ tensorNames fields := by
  rcases hkeys.cases with hmeta | ⟨before, v, after, rfl, hbefore, hafter⟩
  · have hall : ∀ t ∈ fields, decide (t.1 ≠ "__metadata__") = true := fun t ht =>
      decide_eq_true fun hname => hmeta (List.mem_map.2 ⟨t, ht, hname⟩)
    rw [tensorsBehind, List.dropWhile_eq_nil_iff.2 hall] at hk
    exact absurd hk List.not_mem_nil
  · rw [tensorsBehind_eq hbefore] at hk
    rw [tensorNames_eq hbefore hafter]
    exact List.mem_append_right _ hk

theorem followsMetadata_iff (hkeys : KeysOnce fields) :
    FollowsMetadata json fields (scanHeader json fields) ↔ NamesApart json fields := by
  have hnodup := @metadataOf_nodup json _ hkeys
  have hkept : (∀ k text, (k, text) ∈ metadataOf json fields →
      (scanHeader json fields).attributes.lookup k = some text) ↔
      ∀ k text, (k, text) ∈ metadataOf json fields → k ∈ tensorsBehind fields → text = "tensor" := by
    refine forall_congr' fun k => forall_congr' fun text => forall_congr' fun hmem => ?_
    rw [scanHeader_lookup_eq hkeys, valueAt_eq_some hnodup hmem, Option.some_or]
    by_cases hk : k ∈ tensorsBehind fields
    · simp only [hk, if_true, forall_true_left, Option.some.injEq, eq_comm]
    · simp only [hk, if_false, false_imp_iff]
  have hlookup : (∀ k text, (k, text) ∈ metadataOf json fields → k ∈ tensorsBehind fields →
      text = "tensor") → ∀ k, (scanHeader json fields).attributes.lookup k =
        (valueAt (metadataOf json fields) k).or
          (if k ∈ tensorNames fields then some "tensor" else none) := by
    intro h k
    rw [scanHeader_lookup_eq hkeys]
    by_cases hk : k ∈ tensorsBehind fields
    · rw [if_pos hk, if_pos (tensorsBehind_subset hkeys hk)]
      cases hvalue : valueAt (metadataOf json fields) k with
      | none => rfl
      | some text =>
        obtain ⟨w, hfind, rfl⟩ := Option.map_eq_some_iff.1 hvalue
        have hname : w.1 = k := by simpa using List.find?_some hfind
        have hmem : (k, w.2) ∈ metadataOf json fields := by
          rw [← hname]
          exact List.mem_of_find?_eq_some hfind
        rw [h k w.2 hmem hk]
        rfl
    · rw [if_neg hk]
  have hfound : ∀ h : ∀ k text, (k, text) ∈ metadataOf json fields → k ∈ tensorsBehind fields →
      text = "tensor", (scanHeader json fields).architecture =
        architectureKeys.findSome? (valueAt (metadataOf json fields)) ↔
      ∀ before k after, architectureKeys = before ++ k :: after → k ∈ tensorNames fields →
        (∀ k' ∈ before ++ [k], k' ∉ (metadataOf json fields).map (·.1)) →
        architectureKeys.findSome? (valueAt (metadataOf json fields)) = some "tensor" := by
    intro h
    rw [scanHeader_architecture, funext (hlookup h), findSome?_or_iff]
    simp only [valueAt_eq_none_iff]
  constructor
  · intro h
    have hk := hkept.1 h.attributes
    exact ⟨hk, (hfound hk).1 h.architecture⟩
  · intro h
    exact ⟨hkept.2 h.kept, (hfound h.kept).2 h.unnamed⟩

/-- Two headers with the same metadata: both report what the metadata says, and so the same
architecture, exactly when the names of the tensors keep apart from the metadata in both. -/
theorem architecture_iff (json : JsonLibrary) (hjson : json.KeysOnce) (stream stream' : Bytes)
    (fields fields' : List (String × Json)) (hheader : HasHeader json stream fields)
    (hheader' : HasHeader json stream' fields')
    (hsame : (Json.obj fields).get "__metadata__" = (Json.obj fields').get "__metadata__") :
    (∃ found found', parseSafetensorsHeader json stream = .ok found ∧
        parseSafetensorsHeader json stream' = .ok found' ∧
        found.architecture = found'.architecture ∧
        FollowsMetadata json fields found ∧ FollowsMetadata json fields' found') ↔
      NamesApart json fields ∧ NamesApart json fields' := by
  have hkeys := hjson _ _ hheader.object
  have hkeys' := hjson _ _ hheader'.object
  have hmetadata : metadataOf json fields = metadataOf json fields' := by
    rw [metadataOf, hsame]
    rfl
  rw [hheader.parse_eq, hheader'.parse_eq, ← followsMetadata_iff hkeys, ← followsMetadata_iff hkeys']
  constructor
  · intro h
    obtain ⟨found, found', hfound, hfound', -, hfollows, hfollows'⟩ := h
    cases hfound
    cases hfound'
    exact ⟨hfollows, hfollows'⟩
  · intro h
    obtain ⟨hfollows, hfollows'⟩ := h
    refine ⟨_, _, rfl, rfl, ?_, hfollows, hfollows'⟩
    rw [hfollows.architecture, hfollows'.architecture, hmetadata]

/-- A header whose metadata names an architecture, with one tensor. -/
def llamaFields (tensor : String) : List (String × Json) :=
  [("__metadata__", .obj [("architecture", .str "llama")]), (tensor, shapedTensor [1])]

/-- A library that knows two such headers. -/
def llamaLibrary : JsonLibrary := knownHeaders [llamaFields "architecture", llamaFields "weight"]

/-- The file with such a header. -/
def llamaStream (tensor : String) : Bytes := safetensorsStream (headerText (llamaFields tensor)) []

private theorem keysOnce_llama (tensor : String) (h : "__metadata__" ≠ tensor) :
    KeysOnce (llamaFields tensor) := by
  constructor
  · simpa [llamaFields] using h
  · intro k entries hmem
    simp only [llamaFields, List.mem_cons, List.not_mem_nil, or_false, Prod.mk.injEq] at hmem
    rcases hmem with ⟨-, hobj⟩ | ⟨-, hobj⟩
    · cases hobj
      exact List.nodup_singleton _
    · cases hobj
      exact List.nodup_singleton _

private theorem keysOnce_llamaLibrary : llamaLibrary.KeysOnce := by
  intro text fields h
  rw [llamaLibrary, knownHeaders] at h
  dsimp only at h
  split at h
  · rename_i found hfind
    cases h
    have hmem := List.mem_of_find?_eq_some hfind
    simp only [List.mem_cons, List.not_mem_nil, or_false] at hmem
    rcases hmem with rfl | rfl
    · exact keysOnce_llama _ (by decide)
    · exact keysOnce_llama _ (by decide)
  · cases h

private theorem hasHeader_llama : HasHeader llamaLibrary (llamaStream "architecture")
      (llamaFields "architecture") ∧
    HasHeader llamaLibrary (llamaStream "weight") (llamaFields "weight") := by
  have hlength : (headerText (llamaFields "architecture")).length ≠
      (headerText (llamaFields "weight")).length := by decide +kernel
  constructor
  · apply hasHeader_knownHeaders
    · rw [List.find?_cons_of_pos (by simp)]
    · decide +kernel
    · decide +kernel
  · apply hasHeader_knownHeaders
    · rw [List.find?_cons_of_neg, List.find?_cons_of_pos (by simp)]
      simp only [decide_eq_true_eq]
      intro h
      exact hlength (congrArg List.length h)
    · decide +kernel
    · decide +kernel

/-- A tensor called `architecture` takes the place of the architecture. -/
theorem tensor_overrides_architecture : llamaLibrary.KeysOnce ∧
    HasHeader llamaLibrary (llamaStream "architecture") (llamaFields "architecture") ∧
    HasHeader llamaLibrary (llamaStream "weight") (llamaFields "weight") ∧
    (Json.obj (llamaFields "architecture")).get "__metadata__" =
      (Json.obj (llamaFields "weight")).get "__metadata__" ∧
    ∃ found found', parseSafetensorsHeader llamaLibrary (llamaStream "architecture") = .ok found ∧
      parseSafetensorsHeader llamaLibrary (llamaStream "weight") = .ok found' ∧
      found.architecture = some "tensor" ∧ found'.architecture = some "llama" := by
  obtain ⟨hheader, hheader'⟩ := hasHeader_llama
  refine ⟨keysOnce_llamaLibrary, hheader, hheader', rfl, _, _, hheader.parse_eq, hheader'.parse_eq, ?_, ?_⟩
  · decide
  · decide

theorem architecture_iff_llama :
    (∃ found found', parseSafetensorsHeader llamaLibrary (llamaStream "weight") = .ok found ∧
        parseSafetensorsHeader llamaLibrary (llamaStream "architecture") = .ok found' ∧
        found.architecture = found'.architecture ∧
        FollowsMetadata llamaLibrary (llamaFields "weight") found ∧
        FollowsMetadata llamaLibrary (llamaFields "architecture") found') ↔
      NamesApart llamaLibrary (llamaFields "weight") ∧
        NamesApart llamaLibrary (llamaFields "architecture") :=
  architecture_iff llamaLibrary keysOnce_llamaLibrary _ _ _ _ hasHeader_llama.2 hasHeader_llama.1 rfl

end Modeld
