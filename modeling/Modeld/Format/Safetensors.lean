import Mathlib
import Modeld.Format.Validator
import Modeld.Host.Json

/-!
# SafeTensors headers

`parseSafetensorsHeader` reads the length and the JSON text of a header, and the detector agrees
with it except on two kinds of header that it takes for something else: lengths whose two low bytes
look like a pickle, and JSON text with the character `DEL` among the bytes that it peeks at.
-/

namespace Modeld

open Host

/-- The library that reads and writes JSON. -/
structure JsonLibrary where
  /-- `serde_json::from_slice`, with the text of an error. -/
  fromSlice : Bytes → Except String Json
  /-- The text of a floating-point number. -/
  floatText : UInt64 → String

/-- Extracted SafeTensors metadata. -/
structure SafeTensorsMetadata where
  tensorCount : Nat
  parameterCount : Nat
  architecture : Option String
  attributes : AList fun _ : String => String

/-- The largest 64-bit number, at which `saturating_add` and `saturating_mul` stop. -/
def U64_MAX : Nat := 2 ^ 64 - 1

/-- The product of a shape's dimensions. -/
def shapeProduct (dims : List Json) : Nat :=
  dims.foldl (fun prod dim => match dim.asU64 with
    | some d => min (prod * d) U64_MAX
    | none => prod) 1

/-- The text of a metadata value. -/
def metadataText (json : JsonLibrary) : Json → String
  | .str s => s
  | other => other.text json.floatText

/-- One field of the header. -/
def scanField (json : JsonLibrary) (found : SafeTensorsMetadata) :
    String × Json → SafeTensorsMetadata
  | (k, v) =>
    if k = "__metadata__" then
      match v.asObject with
      | some fields => { found with
          attributes := fields.foldl (fun attrs f => attrs.insert f.1 (metadataText json f.2))
            found.attributes }
      | none => found
    else { found with
      tensorCount := found.tensorCount + 1
      attributes := found.attributes.insert k "tensor"
      parameterCount :=
        match (v.asObject.bind fun _ => v.get "shape").bind Json.asArray with
        | some dims => min (found.parameterCount + shapeProduct dims) U64_MAX
        | none => found.parameterCount }

/-- The attributes that name an architecture, the first of them first. -/
def architectureKeys : List String :=
  ["architecture", "models.model_type", "model_type", "general.architecture"]

/-- What the fields of a header say. -/
def scanHeader (json : JsonLibrary) (fields : List (String × Json)) : SafeTensorsMetadata :=
  let found := fields.foldl (scanField json) ⟨0, 0, none, ∅⟩
  { found with architecture := architectureKeys.findSome? found.attributes.lookup }

/-- `parse_safetensors_header`, on the bytes of the stream. -/
def parseSafetensorsHeader (json : JsonLibrary) (stream : Bytes) :
    Except ModeldError SafeTensorsMetadata :=
  if stream.length < 8 then .error (.io .unexpectedEof)
  else
    let headerLen := ofLe (stream.take 8)
    if headerLen = 0 then .error (.invalidFormat "SafeTensors header length is zero")
    else if MAX_SAFETENSORS_HEADER < headerLen then
      .error (.invalidFormat ("SafeTensors header length " ++ toString headerLen ++ " exceeds " ++
        toString MAX_SAFETENSORS_HEADER ++ " byte safety cap"))
    else if (stream.drop 8).length < headerLen then .error (.io .unexpectedEof)
    else
      match json.fromSlice ((stream.drop 8).take headerLen) with
      | .error e => .error (.invalidFormat ("Malformed SafeTensors JSON: " ++ e))
      | .ok value =>
        match value.asObject with
        | none => .error (.invalidFormat "SafeTensors header is not a JSON object")
        | some fields => .ok (scanHeader json fields)

/-- A SafeTensors stream: the length of the JSON text, the text, and the tensors. -/
def safetensorsStream (text tensors : Bytes) : Bytes := toLe 8 text.length ++ text ++ tensors

variable {json : JsonLibrary} {text tensors : Bytes} {n : Nat}

theorem stream_take : (safetensorsStream text tensors).take 8 = toLe 8 text.length := by
  rw [safetensorsStream, List.append_assoc, List.take_append_of_le_length (by simp),
    List.take_of_length_le (by simp)]

theorem stream_drop : (safetensorsStream text tensors).drop 8 = text ++ tensors := by
  rw [safetensorsStream, List.append_assoc, List.drop_left' (by simp)]

/-- What the parser accepts is JSON text of an object. -/
theorem fromSlice_of_parse (hlen : text.length < 256 ^ 8)
    (h : (parseSafetensorsHeader json (safetensorsStream text tensors)).isOk = true) :
    ∃ fields, json.fromSlice text = .ok (.obj fields) := by
  have htext : ((safetensorsStream text tensors).drop 8).take text.length = text := by
    rw [stream_drop, List.take_left]
  unfold parseSafetensorsHeader at h
  simp only [stream_take, ofLe_toLe_of_lt hlen, htext] at h
  split_ifs at h
  · cases h
  · cases h
  · cases h
  · cases h
  split at h
  · cases h
  · rename_i value hvalue
    cases value with
    | obj fields => exact ⟨fields, hvalue⟩
    | _ => cases h

/-! ### Agreement with the detector -/

/-- Text that the library accepts has no control character but white space. -/
def JsonLibrary.RejectsControls (json : JsonLibrary) : Prop :=
  ∀ text value, json.fromSlice text = .ok value → ∀ b ∈ text, b < 0x20 →
    b = 0x09 ∨ b = 0x0a ∨ b = 0x0d

/-- The first two bytes of the length look like a pickle. -/
def LengthIsPickle (len : Nat) : Prop :=
  len % 256 = 0x80 ∧ 2 ≤ len / 256 % 256 ∧ len / 256 % 256 ≤ 5

instance (len : Nat) : Decidable (LengthIsPickle len) := inferInstanceAs (Decidable (_ ∧ _ ∧ _))

/-- The JSON text as far as the detector peeks at it, when its read returns `n` bytes. -/
private theorem take_stream (hn : 8 ≤ n) (hpeek : n - 8 ≤ text.length) :
    (safetensorsStream text tensors).take n = toLe 8 text.length ++ text.take (n - 8) := by
  rw [safetensorsStream, List.append_assoc, List.take_append, length_toLe,
    List.take_of_length_le (by simpa using hn), List.take_append_of_le_length hpeek]

private theorem isPickleHead_iff (len : Nat) (rest : Bytes) :
    isPickleHead (toLe 8 len ++ rest) = true ↔ LengthIsPickle len := by
  have hbyte : ∀ k, (UInt8.ofNat (k % 256)).toNat = k % 256 := fun k => by
    simp [Nat.mod_eq_of_lt (Nat.mod_lt k (by decide : 0 < 256))]
  simp only [toLe, List.cons_append, isPickleHead, Bool.and_eq_true, decide_eq_true_eq,
    UInt8.le_iff_toNat_le, ← UInt8.toNat_inj, hbyte, LengthIsPickle, and_assoc]
  rfl

/-- The magic numbers of the other formats are longer lengths than the detector allows. -/
private theorem take_four_ne {len : Nat} (hmax : len ≤ MAX_SAFETENSORS_HEADER) (rest magic : Bytes)
    (hmagic : MAX_SAFETENSORS_HEADER < ofLe magic) : (toLe 8 len ++ rest).take 4 ≠ magic := by
  rw [List.take_append_of_le_length (by simp), take_toLe 4 4]
  rintro rfl
  have hcap : MAX_SAFETENSORS_HEADER < 256 ^ 4 := by decide
  rw [ofLe_toLe_of_lt (by omega)] at hmagic
  omega

private theorem isJsonHeadByte_iff {b : UInt8}
    (hb : b < 0x20 → b = 0x09 ∨ b = 0x0a ∨ b = 0x0d) : isJsonHeadByte b = true ↔ b ≠ 0x7f := by
  by_cases hcontrol : b < 0x20
  · rcases hb hcontrol with rfl | rfl | rfl <;> decide
  · have hle : ¬ b ≤ 0x1f := by
      simp only [UInt8.lt_iff_toNat_lt, UInt8.le_iff_toNat_le] at hcontrol ⊢
      simp at hcontrol ⊢
      omega
    simp only [isJsonHeadByte, hle, decide_false, Bool.false_or, Bool.or_eq_true, decide_eq_true_eq,
      Bool.not_eq_true', decide_eq_false_iff_not]
    refine ⟨fun h => h.elim (fun hmem => ?_) id, .inr⟩
    rintro rfl
    revert hmem
    decide

/-- On a stream that the parser accepts, the detector finds SafeTensors exactly when its read gets
as far as the JSON text, the length does not look like a pickle, and no `DEL` is among the bytes
of text that it peeks at. -/
theorem detectSafeFormat_iff (json : JsonLibrary) (hjson : json.RejectsControls)
    (text tensors : Bytes) (n : Nat) (hn : n ≤ 16) (hmin : 8 ≤ text.length)
    (hmax : text.length ≤ MAX_SAFETENSORS_HEADER) (hbrace : text.head? = some 0x7b)
    (haccepts : (parseSafetensorsHeader json (safetensorsStream text tensors)).isOk = true) :
    detectSafeFormat ((safetensorsStream text tensors).take n) = .ok .safeTensors ↔
      9 ≤ n ∧ ¬ LengthIsPickle text.length ∧ 0x7f ∉ text.take (n - 8) := by
  have hcap : MAX_SAFETENSORS_HEADER < 256 ^ 8 := by decide
  obtain ⟨fields, hfields⟩ := fromSlice_of_parse (by omega) haccepts
  by_cases h9 : 9 ≤ n
  swap
  · -- The read stops before the JSON text.
    have hshort : ((safetensorsStream text tensors).take n).length < 9 := by
      rw [List.length_take]
      omega
    have hhead : isSafetensorsHead ((safetensorsStream text tensors).take n) = false := by
      simp only [isSafetensorsHead, Bool.and_eq_false_iff, decide_eq_false_iff_not]
      exact .inl (.inl (.inl (.inl (by omega))))
    simp only [h9, false_and, iff_false]
    unfold detectSafeFormat
    split_ifs <;> simp_all
  have hpeek : n - 8 ≤ text.length := by omega
  rw [take_stream (by omega) hpeek]
  have hhead : isSafetensorsHead (toLe 8 text.length ++ text.take (n - 8)) = true ↔
      0x7f ∉ text.take (n - 8) := by
    have hbyte : (toLe 8 text.length ++ text.take (n - 8))[8]? = some 0x7b := by
      rw [List.getElem?_append_right (by simp), length_toLe, Nat.sub_self, List.getElem?_take,
        if_pos (by omega), ← List.head?_eq_getElem?, hbrace]
    have hlength : (toLe 8 text.length ++ text.take (n - 8)).length = n := by
      rw [List.length_append, length_toLe, List.length_take]
      omega
    have hall : looksLikeSafetensorsJsonHead (text.take (n - 8)) = true ↔
        0x7f ∉ text.take (n - 8) := by
      rw [looksLikeSafetensorsJsonHead, List.all_eq_true]
      have hiff := fun b (hb : b ∈ text.take (n - 8)) =>
        isJsonHeadByte_iff (hjson text _ hfields b (List.mem_of_mem_take hb))
      exact ⟨fun h hmem => (hiff _ hmem).1 (h _ hmem) rfl,
        fun h b hb => (hiff b hb).2 fun heq => h (heq ▸ hb)⟩
    rw [isSafetensorsHead, hbyte, hlength, List.take_left' (length_toLe ..),
      ofLe_toLe_of_lt (by omega), List.drop_left' (length_toLe ..)]
    simp [h9, hmin, hmax, hall]
  have hlong : ¬ (toLe 8 text.length ++ text.take (n - 8)).length < 4 := by
    rw [List.length_append, length_toLe]
    omega
  have hgguf := take_four_ne hmax (text.take (n - 8)) GGUF_MAGIC (by decide)
  have hzip := take_four_ne hmax (text.take (n - 8)) ZIP_MAGIC (by decide)
  rw [← isPickleHead_iff text.length (text.take (n - 8)), ← hhead]
  unfold detectSafeFormat
  rw [if_neg hlong, if_neg hgguf, if_neg hzip]
  split_ifs <;> simp_all

/-! ### Sample headers -/

/-- An empty object, padded with spaces to a length. -/
def emptyObjectText (len : Nat) : Bytes := 0x7b :: (List.replicate (len - 2) 0x20 ++ [0x7d])

/-- A library that knows empty objects only. -/
def emptyObjectLibrary : JsonLibrary where
  fromSlice text := if text = emptyObjectText text.length then .ok (.obj []) else .error "other text"
  floatText _ := ""

theorem rejectsControls_emptyObjectLibrary : emptyObjectLibrary.RejectsControls := by
  intro text value hvalue b hb hcontrol
  simp only [emptyObjectLibrary] at hvalue
  split at hvalue
  · rename_i htext
    rw [htext] at hb
    simp only [emptyObjectText, List.mem_cons, List.mem_append, List.mem_replicate,
      List.not_mem_nil, or_false] at hb
    rcases hb with rfl | ⟨-, rfl⟩ | rfl <;> exact absurd hcontrol (by decide)
  · cases hvalue

private theorem length_emptyObjectText {len : Nat} (h : 2 ≤ len) :
    (emptyObjectText len).length = len := by
  simp [emptyObjectText]
  omega

/-- The parser accepts an empty object of any length up to its limit. -/
theorem parse_emptyObjectText {len : Nat} (hmin : 2 ≤ len) (hmax : len ≤ MAX_SAFETENSORS_HEADER)
    (tensors : Bytes) :
    (parseSafetensorsHeader emptyObjectLibrary
      (safetensorsStream (emptyObjectText len) tensors)).isOk = true := by
  have hcap : MAX_SAFETENSORS_HEADER < 256 ^ 8 := by decide
  have hlen := length_emptyObjectText hmin
  have hstream : (emptyObjectText len ++ tensors).take len = emptyObjectText len :=
    List.take_left' hlen
  have hparse : emptyObjectLibrary.fromSlice (emptyObjectText len) = .ok (.obj []) := by
    simp [emptyObjectLibrary, hlen]
  have h1 : ¬ (safetensorsStream (emptyObjectText len) tensors).length < 8 := by
    simp [safetensorsStream]
  have h2 : ¬ (emptyObjectText len ++ tensors).length < len := by simp [hlen]
  unfold parseSafetensorsHeader
  simp only [stream_take, hlen, ofLe_toLe_of_lt (show len < 256 ^ 8 by omega), stream_drop, hstream,
    hparse, h1, h2, show ¬ len = 0 by omega, show ¬ MAX_SAFETENSORS_HEADER < len by omega, if_false]
  rfl

/-- A header of 16 bytes is found. -/
theorem detectSafeFormat_sixteen :
    detectSafeFormat ((safetensorsStream (emptyObjectText 16) []).take 16) = .ok .safeTensors :=
  (detectSafeFormat_iff emptyObjectLibrary rejectsControls_emptyObjectLibrary (emptyObjectText 16) []
    16 (by decide) (by decide) (by decide) (by decide)
    (parse_emptyObjectText (by decide) (by decide) _)).2 (by decide)

/-- A header of 640 bytes is accepted by the parser and rejected by the detector as a pickle. -/
theorem detectSafeFormat_six_hundred_forty :
    emptyObjectLibrary.RejectsControls ∧ (emptyObjectText 640).length = 640 ∧
    (emptyObjectText 640).head? = some 0x7b ∧
    (parseSafetensorsHeader emptyObjectLibrary
      (safetensorsStream (emptyObjectText 640) [])).isOk = true ∧
    detectSafeFormat ((safetensorsStream (emptyObjectText 640) []).take 16) =
      .error (.securityRejection "Detected Python pickle protocol header opcode") := by
  have hlen : (emptyObjectText 640).length = 640 := length_emptyObjectText (by decide)
  refine ⟨rejectsControls_emptyObjectLibrary, hlen, rfl,
    parse_emptyObjectText (by decide) (by decide) _, ?_⟩
  rw [take_stream (by decide) (by rw [hlen]; decide), hlen]
  rfl

end Modeld
