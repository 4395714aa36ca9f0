import Mathlib
import Modeld.Format.Validator

/-!
# The detector and the reader

`detect_safe_format` reads once, and the reader chooses how many bytes it returns. What the detector
sees of a stream is its first piece, up to sixteen bytes, and its verdict depends on where that ends.
-/

namespace Modeld

open Host

/-- A reader of a stream: the pieces in which it delivers the stream, none of them empty. -/
structure Delivery (stream : Bytes) where
  pieces : List Bytes
  nonempty : ∀ piece ∈ pieces, piece ≠ []
  whole : pieces.flatten = stream

namespace Delivery

variable {stream : Bytes} (d : Delivery stream)

/-- What one read into a buffer of sixteen bytes returns. -/
def firstRead : Bytes := (d.pieces.headD []).take 16

/-- How many bytes that is. -/
def seen : Nat := d.firstRead.length

/-- `detect_safe_format` on the reader. -/
def detect : Except ModeldError SafeFormat := detectSafeFormat d.firstRead

theorem firstRead_prefix : d.firstRead <+: stream := by
  have hwhole := d.whole
  rw [firstRead]
  cases hpieces : d.pieces with
  | nil => exact List.nil_prefix
  | cons piece pieces =>
    rw [hpieces, List.flatten_cons] at hwhole
    rw [← hwhole]
    exact (List.take_prefix 16 piece).trans (List.prefix_append piece pieces.flatten)

theorem firstRead_eq : d.firstRead = stream.take d.seen := List.prefix_iff_eq_take.1 d.firstRead_prefix

theorem seen_le : d.seen ≤ stream.length := d.firstRead_prefix.length_le

end Delivery

/-! ### What the detector makes of the bytes it sees -/

/-- The stream begins like a pickle or a zip archive. -/
def IsDangerous (stream : Bytes) : Prop := isPickleHead stream = true ∨ stream.take 4 = ZIP_MAGIC

/-- The first four bytes decide. -/
def HasMagic (stream : Bytes) : Prop := stream.take 4 = GGUF_MAGIC ∨ IsDangerous stream

/-- The first nine bytes are the length of a SafeTensors header and its first brace. -/
def IsPlausible (stream : Bytes) : Prop :=
  8 ≤ ofLe (stream.take 8) ∧ ofLe (stream.take 8) ≤ MAX_SAFETENSORS_HEADER ∧ stream[8]? = some 0x7b

/-- The first `n` bytes reach the JSON text, and what they hold of it has no control character. -/
def SeesJson (stream : Bytes) (n : Nat) : Prop :=
  9 ≤ n ∧ ∀ b ∈ (stream.take n).drop 8, isJsonHeadByte b = true

variable {stream : Bytes} {n : Nat}

theorem isSafetensorsHead_take (hn : n ≤ stream.length) :
    isSafetensorsHead (stream.take n) = true ↔ IsPlausible stream ∧ SeesJson stream n := by
  have hlength : (stream.take n).length = n := by
    rw [List.length_take]
    omega
  rw [isSafetensorsHead, hlength, looksLikeSafetensorsJsonHead, IsPlausible, SeesJson]
  simp only [Bool.and_eq_true, decide_eq_true_eq, List.all_eq_true]
  by_cases h9 : 9 ≤ n
  · rw [List.take_take, Nat.min_eq_left (by omega), List.getElem?_take, if_pos (by omega)]
    tauto
  · simp only [h9, false_and, and_false]

theorem isPickleHead_take (hn : 2 ≤ n) : isPickleHead (stream.take n) = isPickleHead stream := by
  obtain ⟨k, rfl⟩ := Nat.exists_eq_add_of_le hn
  rw [Nat.add_comm]
  match stream with
  | [] => rfl
  | [_] => rfl
  | _ :: _ :: _ => rfl

/-- The verdict on the first `n` bytes of a stream. -/
theorem detectSafeFormat_take (hn : n ≤ stream.length) : detectSafeFormat (stream.take n) =
    if n < 4 then .error (.invalidFormat "Stream too short for header")
    else if stream.take 4 = GGUF_MAGIC then .ok .gguf
    else if isPickleHead stream then
      .error (.securityRejection "Detected Python pickle protocol header opcode")
    else if stream.take 4 = ZIP_MAGIC then
      .error (.securityRejection "Detected PyTorch PK zip header containing pickle bytecode")
    else if isSafetensorsHead (stream.take n) then .ok .safeTensors
    else if stream.head? = some 0x08 then .ok .onnx
    else .error (.invalidFormat "Unrecognized or unsupported model format header") := by
  have hlength : (stream.take n).length = n := by
    rw [List.length_take]
    omega
  rw [detectSafeFormat, hlength]
  by_cases h4 : n < 4
  · rw [if_pos h4, if_pos h4]
  · have hhead : (stream.take n).head? = stream.head? := by
      rw [List.head?_take, if_neg (by omega)]
    rw [if_neg h4, if_neg h4, List.take_take, Nat.min_eq_left (by omega), isPickleHead_take (by omega),
      hhead]

theorem detect_short (h : n < 4) (hn : n ≤ stream.length) : detectSafeFormat (stream.take n) =
    .error (.invalidFormat "Stream too short for header") := by
  rw [detectSafeFormat_take hn, if_pos h]

theorem detect_ne_short (h : 4 ≤ n) (hn : n ≤ stream.length) : detectSafeFormat (stream.take n) ≠
    .error (.invalidFormat "Stream too short for header") := by
  rw [detectSafeFormat_take hn, if_neg (by omega)]
  split_ifs <;> simp

theorem IsDangerous.not_gguf (h : IsDangerous stream) : stream.take 4 ≠ GGUF_MAGIC := by
  intro hgguf
  rcases h with hpickle | hzip
  · rw [← @isPickleHead_take _ 4 (by decide), hgguf] at hpickle
    exact absurd hpickle (by decide)
  · rw [hgguf] at hzip
    exact absurd hzip (by decide)

theorem IsDangerous.detect (hd : IsDangerous stream) (h : 4 ≤ n) (hn : n ≤ stream.length) :
    ∃ reason, detectSafeFormat (stream.take n) = .error (.securityRejection reason) := by
  rw [detectSafeFormat_take hn, if_neg (by omega), if_neg hd.not_gguf]
  by_cases hpickle : isPickleHead stream = true
  · rw [if_pos hpickle]
    exact ⟨_, rfl⟩
  · rw [if_neg hpickle, if_pos (hd.resolve_left hpickle)]
    exact ⟨_, rfl⟩

theorem HasMagic.detect_eq {n' : Nat} (hm : HasMagic stream) (h : 4 ≤ n) (h' : 4 ≤ n')
    (hn : n ≤ stream.length) (hn' : n' ≤ stream.length) :
    detectSafeFormat (stream.take n) = detectSafeFormat (stream.take n') := by
  rw [detectSafeFormat_take hn, detectSafeFormat_take hn', if_neg (show ¬ n < 4 by omega),
    if_neg (show ¬ n' < 4 by omega)]
  rcases hm with hgguf | hdangerous
  · rw [if_pos hgguf, if_pos hgguf]
  · rw [if_neg hdangerous.not_gguf, if_neg hdangerous.not_gguf]
    rcases hdangerous with hpickle | hzip
    · rw [if_pos hpickle, if_pos hpickle]
    · rw [if_pos hzip, if_pos hzip]

/-- Without one of the magic numbers, the verdict depends on what is seen of the JSON text. -/
theorem detect_eq_iff_sees {n' : Nat} (hm : ¬ HasMagic stream) (h : 4 ≤ n) (h' : 4 ≤ n')
    (hn : n ≤ stream.length) (hn' : n' ≤ stream.length) :
    detectSafeFormat (stream.take n) = detectSafeFormat (stream.take n') ↔
      (IsPlausible stream → (SeesJson stream n ↔ SeesJson stream n')) := by
  have hgguf : stream.take 4 ≠ GGUF_MAGIC := fun hgguf => hm (.inl hgguf)
  have hpickle : isPickleHead stream ≠ true := fun hpickle => hm (.inr (.inl hpickle))
  have hzip : stream.take 4 ≠ ZIP_MAGIC := fun hzip => hm (.inr (.inr hzip))
  have hheads : (isSafetensorsHead (stream.take n) = isSafetensorsHead (stream.take n')) ↔
      (IsPlausible stream → (SeesJson stream n ↔ SeesJson stream n')) := by
    rw [Bool.eq_iff_iff, isSafetensorsHead_take hn, isSafetensorsHead_take hn', and_congr_right_iff]
  rw [← hheads, detectSafeFormat_take hn, detectSafeFormat_take hn', if_neg (show ¬ n < 4 by omega),
    if_neg (show ¬ n' < 4 by omega)]
  simp only [if_neg hgguf, if_neg hpickle, if_neg hzip]
  have hother : (if stream.head? = some 0x08 then Except.ok SafeFormat.onnx else
      .error (ModeldError.invalidFormat "Unrecognized or unsupported model format header")) ≠
      .ok .safeTensors := by
    split_ifs <;> simp
  generalize (if stream.head? = some 0x08 then Except.ok SafeFormat.onnx else
      .error (ModeldError.invalidFormat "Unrecognized or unsupported model format header")) = other
    at hother ⊢
  cases isSafetensorsHead (stream.take n) <;> cases isSafetensorsHead (stream.take n') <;>
    simp [hother, hother.symm]

/-! ### When two readers make no difference -/

/-- Two first reads, of `n` and of `n'` bytes, show the detector the same. -/
structure SameView (stream : Bytes) (n n' : Nat) : Prop where
  /-- Both reach the four bytes of the magic numbers, or neither does. -/
  reach : 4 ≤ n ↔ 4 ≤ n'
  /-- Where these are of a dangerous format, they are reached. -/
  dangerous : 4 ≤ stream.length → IsDangerous stream → 4 ≤ n
  /-- Where the stream looks like SafeTensors, both see JSON text, or neither does. -/
  json : 4 ≤ n → ¬ HasMagic stream → IsPlausible stream → (SeesJson stream n ↔ SeesJson stream n')

/-- Two readers of a stream lead to the same verdict, which is a rejection where the stream is
dangerous, exactly when their first reads show the same. -/
theorem detect_same_iff {stream : Bytes} (d d' : Delivery stream) :
    (d.detect = d'.detect ∧ (4 ≤ stream.length → IsDangerous stream →
        (∃ reason, d.detect = .error (.securityRejection reason)) ∧
          ∃ reason, d'.detect = .error (.securityRejection reason))) ↔
      SameView stream d.seen d'.seen := by
  have hle := d.seen_le
  have hle' := d'.seen_le
  rw [Delivery.detect, Delivery.detect, d.firstRead_eq, d'.firstRead_eq]
  generalize d.seen = n at hle ⊢
  generalize d'.seen = n' at hle' ⊢
  constructor
  · intro h
    obtain ⟨hsame, hrejected⟩ := h
    constructor
    · constructor
      · intro h4
        by_contra hshort
        exact detect_ne_short h4 hle (hsame.trans (detect_short (by omega) hle'))
      · intro h4
        by_contra hshort
        exact detect_ne_short h4 hle' (hsame.symm.trans (detect_short (by omega) hle))
    · intro hlong hdangerous
      by_contra hshort
      obtain ⟨⟨reason, hreason⟩, -⟩ := hrejected hlong hdangerous
      rw [detect_short (by omega) hle] at hreason
      cases hreason
    · intro h4 hmagic
      have h4' : 4 ≤ n' := by
        by_contra hshort
        exact detect_ne_short h4 hle (hsame.trans (detect_short (by omega) hle'))
      exact (detect_eq_iff_sees hmagic h4 h4' hle hle').1 hsame
  · intro h
    constructor
    · by_cases h4 : 4 ≤ n
      · have h4' := h.reach.1 h4
        by_cases hmagic : HasMagic stream
        · exact hmagic.detect_eq h4 h4' hle hle'
        · exact (detect_eq_iff_sees hmagic h4 h4' hle hle').2 (h.json h4 hmagic)
      · have h4' : ¬ 4 ≤ n' := fun h4' => h4 (h.reach.2 h4')
        rw [detect_short (by omega) hle, detect_short (by omega) hle']
    · intro hlong hdangerous
      have h4 := h.dangerous hlong hdangerous
      exact ⟨hdangerous.detect h4 hle, hdangerous.detect (h.reach.1 h4) hle'⟩

/-- The start of a pickle. -/
def pickleStream : Bytes := [0x80, 0x04, 0x95, 0x00, 0x00, 0x00, 0x00, 0x00]

/-- All of it at once. -/
def wholePickle : Delivery pickleStream := ⟨[pickleStream], by decide, rfl⟩

/-- One byte, and then the others. -/
def splitPickle : Delivery pickleStream :=
  ⟨[[0x80], [0x04, 0x95, 0x00, 0x00, 0x00, 0x00, 0x00]], by decide, rfl⟩

/-- A pickle is not rejected as one by a reader that delivers it in two pieces. -/
theorem splitPickle_not_rejected : 4 ≤ pickleStream.length ∧ IsDangerous pickleStream ∧
    wholePickle.detect =
      .error (.securityRejection "Detected Python pickle protocol header opcode") ∧
    splitPickle.detect = .error (.invalidFormat "Stream too short for header") := by
  exact ⟨by decide, .inl rfl, rfl, rfl⟩

end Modeld
