import Modeld.Format.Safetensors
import Modeld.Host.Saturating

/-!
# What a SafeTensors header counts

The parser accepts exactly the streams with a header, and the number of parameters that it reports
is the sum of the products of all shapes, cut off at the largest 64-bit number, although it cuts off
at every step on the way there.
-/

namespace Modeld

open Host

/-- The length that a stream begins with. -/
def headerLen (stream : Bytes) : Nat := ofLe (stream.take 8)

/-- The stream has a header with these fields. -/
structure HasHeader (json : JsonLibrary) (stream : Bytes) (fields : List (String × Json)) : Prop where
  long : 8 ≤ stream.length
  positive : 1 ≤ headerLen stream
  capped : headerLen stream ≤ 8 * 1024 * 1024
  follows : headerLen stream ≤ (stream.drop 8).length
  object : json.fromSlice ((stream.drop 8).take (headerLen stream)) = .ok (.obj fields)

/-- The fields that are tensors. -/
def tensors (fields : List (String × Json)) : List (String × Json) :=
  fields.filter (·.1 ≠ "__metadata__")

/-- The shape of a tensor, when it has one. -/
def tensorShape (tensor : Json) : Option (List Json) := (tensor.get "shape").bind Json.asArray

/-- The number of elements of a shape. -/
def exactProduct (dims : List Json) : Nat := (dims.map fun dim => dim.asU64.getD 0).prod

/-- The number of elements of all tensors that have a shape. -/
def exactParameters (fields : List (String × Json)) : Nat :=
  ((tensors fields).filterMap fun t => (tensorShape t.2).map exactProduct).sum

/-- All dimensions of a tensor are integers of 64 bits. -/
def HasDims (tensor : Json) : Prop :=
  ∀ dims, tensorShape tensor = some dims → ∀ dim ∈ dims, ∃ n < 2 ^ 64, dim = .num (.nat n)

variable {json : JsonLibrary} {stream : Bytes} {fields : List (String × Json)}

/-! ### Which streams are accepted -/

theorem HasHeader.parse_eq (h : HasHeader json stream fields) :
    parseSafetensorsHeader json stream = .ok (scanHeader json fields) := by
  have hlong := h.long
  have hpositive := h.positive
  have hcapped := h.capped
  have hfollows := h.follows
  have hmax : MAX_SAFETENSORS_HEADER = 8 * 1024 * 1024 := rfl
  have hobject := h.object
  rw [headerLen] at hpositive hcapped hfollows hobject
  unfold parseSafetensorsHeader
  dsimp only
  rw [if_neg (by omega), if_neg (by omega), if_neg (by omega), if_neg (by omega), hobject]
  rfl

theorem exists_hasHeader (h : (parseSafetensorsHeader json stream).isOk = true) :
    ∃ fields, HasHeader json stream fields := by
  unfold parseSafetensorsHeader at h
  dsimp only at h
  split_ifs at h with hshort hzero hlarge hcut
  · cases h
  · cases h
  · cases h
  · cases h
  split at h
  · cases h
  · rename_i value hvalue
    cases value with
    | obj fields =>
      exact ⟨fields, by omega, Nat.pos_of_ne_zero hzero, Nat.le_of_not_lt hlarge,
        Nat.le_of_not_lt hcut, hvalue⟩
    | _ => cases h

theorem parse_isOk_iff :
    (parseSafetensorsHeader json stream).isOk = true ↔ ∃ fields, HasHeader json stream fields := by
  constructor
  · exact exists_hasHeader
  · intro h
    obtain ⟨fields, hfields⟩ := h
    rw [hfields.parse_eq]
    rfl

/-! ### The counts -/

theorem shapeProduct_eq {dims : List Json}
    (hdims : ∀ dim ∈ dims, ∃ n < 2 ^ 64, dim = .num (.nat n)) :
    shapeProduct dims = min (exactProduct dims) U64_MAX := by
  have hfold := Saturating.foldl_mul (dims.map fun dim => dim.asU64.getD 0)
    (show 1 ≤ U64_MAX by decide)
  rw [List.foldl_map] at hfold
  rw [exactProduct, ← hfold, shapeProduct]
  refine List.foldl_ext _ _ _ fun prod dim hmem => ?_
  obtain ⟨n, -, rfl⟩ := hdims dim hmem
  rfl

/-- What one field adds to the number of parameters. -/
def fieldParameters (field : String × Json) : Nat :=
  if field.1 = "__metadata__" then 0 else ((tensorShape field.2).map exactProduct).getD 0

theorem scanField_parameterCount (found : SafeTensorsMetadata) (field : String × Json)
    (hdims : ∀ t ∈ tensors [field], HasDims t.2) (hfound : found.parameterCount ≤ U64_MAX) :
    (scanField json found field).parameterCount =
      min (found.parameterCount + fieldParameters field) U64_MAX := by
  obtain ⟨k, v⟩ := field
  rw [scanField, fieldParameters]
  split_ifs with hk
  · rw [Nat.add_zero, Nat.min_eq_left hfound]
    cases v.asObject <;> rfl
  · have hshape : ((v.asObject.bind fun _ => v.get "shape").bind Json.asArray) = tensorShape v := by
      cases v <;> rfl
    have hv : HasDims v := hdims (k, v) (by simpa [tensors] using hk)
    dsimp only
    rw [hshape]
    cases hdims : tensorShape v with
    | none => exact (Nat.min_eq_left hfound).symm
    | some dims =>
      dsimp only
      rw [shapeProduct_eq (hv dims hdims), Option.map_some, Option.getD_some]
      omega

theorem scanField_tensorCount (found : SafeTensorsMetadata) (field : String × Json) :
    (scanField json found field).tensorCount = found.tensorCount + (tensors [field]).length := by
  obtain ⟨k, v⟩ := field
  rw [scanField]
  split_ifs with hk
  · rw [tensors, List.filter_cons_of_neg (by simpa using hk)]
    cases v.asObject <;> rfl
  · rw [tensors, List.filter_cons_of_pos (by simpa using hk)]
    rfl

theorem exactParameters_eq_sum (fields : List (String × Json)) :
    exactParameters fields = (fields.map fieldParameters).sum := by
  induction fields with
  | nil => rfl
  | cons field fields ih =>
    rw [List.map_cons, List.sum_cons, ← ih, fieldParameters, exactParameters, exactParameters, tensors,
      tensors]
    split_ifs with hk
    · rw [List.filter_cons_of_neg (by simpa using hk), Nat.zero_add]
    · rw [List.filter_cons_of_pos (by simpa using hk)]
      rw [List.filterMap_cons]
      cases (tensorShape field.2).map exactProduct with
      | none => rw [Option.getD_none, Nat.zero_add]
      | some n => rw [List.sum_cons, Option.getD_some]

theorem tensors_cons (field : String × Json) (fields : List (String × Json)) :
    tensors (field :: fields) = tensors [field] ++ tensors fields := by
  rw [tensors, tensors, tensors, ← List.filter_append]
  rfl

/-- The scan of all fields, from any state of the scan on. -/
theorem foldl_scanField_parameterCount (fields : List (String × Json)) (found : SafeTensorsMetadata)
    (hdims : ∀ t ∈ tensors fields, HasDims t.2) (hfound : found.parameterCount ≤ U64_MAX) :
    (fields.foldl (scanField json) found).parameterCount =
      min (found.parameterCount + (fields.map fieldParameters).sum) U64_MAX := by
  induction fields generalizing found with
  | nil => exact (Nat.min_eq_left hfound).symm
  | cons field fields ih =>
    rw [tensors_cons field fields] at hdims
    have hstep := @scanField_parameterCount json found field
      (fun t ht => hdims t (List.mem_append_left _ ht)) hfound
    have hrest := ih (scanField json found field)
      (fun t ht => hdims t (List.mem_append_right _ ht)) (by omega)
    rw [List.foldl_cons, hrest, hstep, List.map_cons, List.sum_cons]
    omega

theorem foldl_scanField_tensorCount (fields : List (String × Json)) (found : SafeTensorsMetadata) :
    (fields.foldl (scanField json) found).tensorCount =
      found.tensorCount + (tensors fields).length := by
  induction fields generalizing found with
  | nil => rfl
  | cons field fields ih =>
    rw [List.foldl_cons, ih, scanField_tensorCount, tensors_cons field fields, List.length_append,
      Nat.add_assoc]

theorem scanHeader_parameterCount (json : JsonLibrary) {fields : List (String × Json)}
    (hdims : ∀ t ∈ tensors fields, HasDims t.2) :
    (scanHeader json fields).parameterCount = min U64_MAX (exactParameters fields) := by
  have hcount := @foldl_scanField_parameterCount json fields ⟨0, 0, none, ∅⟩ hdims
    (Nat.zero_le _)
  rw [Nat.zero_add] at hcount
  rw [scanHeader, exactParameters_eq_sum, Nat.min_comm]
  exact hcount

theorem scanHeader_tensorCount (json : JsonLibrary) (fields : List (String × Json)) :
    (scanHeader json fields).tensorCount = (tensors fields).length := by
  have hcount := @foldl_scanField_tensorCount json fields ⟨0, 0, none, ∅⟩
  rw [Nat.zero_add] at hcount
  exact hcount

/-! ### The order makes no difference -/

theorem exactParameters_perm {fields' : List (String × Json)} (h : fields.Perm fields') :
    exactParameters fields = exactParameters fields' :=
  ((h.filter _).filterMap _).sum_nat

theorem exactProduct_perm {dims dims' : List Json} (h : dims.Perm dims') :
    exactProduct dims = exactProduct dims' :=
  (h.map _).prod_eq

/-- A stream is accepted exactly when it has a header. The tensors are counted, and the parameters
are the exact sum of the exact products, cut off at the largest number, in whatever order tensors and
dimensions come. -/
theorem header_counts (json : JsonLibrary) (stream : Bytes) :
    ((parseSafetensorsHeader json stream).isOk = true ↔ ∃ fields, HasHeader json stream fields) ∧
      ∀ fields, HasHeader json stream fields →
        (∀ t ∈ tensors fields, HasDims t.2) →
        ∃ found, parseSafetensorsHeader json stream = .ok found ∧
          found.tensorCount = ((fields.map (·.1)).filter (· ≠ "__metadata__")).length ∧
          found.parameterCount = min (2 ^ 64 - 1) (exactParameters fields) ∧
          (∀ fields', fields.Perm fields' → exactParameters fields = exactParameters fields') ∧
          ∀ dims dims', dims.Perm dims' → exactProduct dims = exactProduct dims' := by
  constructor
  · exact parse_isOk_iff
  · intro fields hheader hdims
    refine ⟨scanHeader json fields, hheader.parse_eq, ?_, ?_, ?_, ?_⟩
    · rw [scanHeader_tensorCount, List.filter_map, List.length_map]
      rfl
    · exact scanHeader_parameterCount json hdims
    · intro fields' hperm
      exact exactParameters_perm hperm
    · intro dims dims' hperm
      exact exactProduct_perm hperm

/-! ### A sample header -/

/-- The text of a header. -/
def headerText (fields : List (String × Json)) : Bytes :=
  Text.toBytes ((Json.obj fields).text fun _ => "")

/-- A library that knows the texts of some headers. -/
def knownHeaders (headers : List (List (String × Json))) : JsonLibrary where
  fromSlice text :=
    match headers.find? (fun fields => headerText fields = text) with
    | some fields => .ok (.obj fields)
    | none => .error "other text"
  floatText _ := ""

theorem hasHeader_knownHeaders {headers : List (List (String × Json))} {fields : List (String × Json)}
    (hfind : headers.find? (fun f => headerText f = headerText fields) = some fields)
    (hpositive : 1 ≤ (headerText fields).length)
    (hcapped : (headerText fields).length ≤ 8 * 1024 * 1024) (tensors : Bytes) :
    HasHeader (knownHeaders headers) (safetensorsStream (headerText fields) tensors) fields := by
  have hlen : headerLen (safetensorsStream (headerText fields) tensors) = (headerText fields).length := by
    rw [headerLen, stream_take, ofLe_toLe_of_lt (by omega)]
  constructor
  · rw [safetensorsStream, List.length_append, List.length_append, length_toLe]
    omega
  · rw [hlen]
    exact hpositive
  · rw [hlen]
    exact hcapped
  · rw [hlen, stream_drop, List.length_append]
    omega
  · rw [hlen, stream_drop, List.take_left, knownHeaders]
    dsimp only
    rw [hfind]

/-- A tensor with a shape. -/
def shapedTensor (dims : List Nat) : Json := .obj [("shape", .arr (dims.map Json.ofNat))]

/-- A product that is cut off before a zero, one that is cut off, and a small one. -/
def largeFields : List (String × Json) :=
  [("a", shapedTensor [2 ^ 40, 2 ^ 40, 0]), ("b", shapedTensor [2 ^ 63, 4]), ("c", shapedTensor [3])]

theorem header_counts_large : HasHeader (knownHeaders [largeFields])
      (safetensorsStream (headerText largeFields) []) largeFields ∧
    ∃ found, parseSafetensorsHeader (knownHeaders [largeFields])
        (safetensorsStream (headerText largeFields) []) = .ok found ∧
      found.tensorCount = 3 ∧ found.parameterCount = 2 ^ 64 - 1 := by
  have hheader : HasHeader (knownHeaders [largeFields])
      (safetensorsStream (headerText largeFields) []) largeFields := by
    apply hasHeader_knownHeaders
    · rw [List.find?_cons_of_pos (by simp)]
    · decide +kernel
    · decide +kernel
  have hdims : ∀ t ∈ tensors largeFields, HasDims t.2 := by
    have hshaped : ∀ dims : List Nat, (∀ n ∈ dims, n < 2 ^ 64) → HasDims (shapedTensor dims) := by
      intro dims hlt items hitems dim hdim
      cases hitems
      obtain ⟨n, hn, rfl⟩ := List.mem_map.1 hdim
      exact ⟨n, hlt n hn, rfl⟩
    intro t ht
    simp only [tensors, largeFields, List.mem_filter, List.mem_cons, List.not_mem_nil, or_false] at ht
    rcases ht with ⟨rfl | rfl | rfl, -⟩
    · exact hshaped _ (by decide)
    · exact hshaped _ (by decide)
    · exact hshaped _ (by decide)
  obtain ⟨found, hparse, htensors, hparameters, -⟩ := (header_counts _ _).2 largeFields hheader hdims
  exact ⟨hheader, found, hparse, htensors.trans (by decide), hparameters.trans (by decide)⟩

end Modeld
