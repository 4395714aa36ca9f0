import Mathlib
import Modeld.Core.Digest
import Modeld.Host.Cursor
import Modeld.Host.FloatText

/-!
# GGUF headers

`parseGgufHeader` reads the key-value pairs of a header. A value is read or skipped by
`skipOrReadValue`, which calls itself for the elements of arrays; it returns only after it has
consumed a byte, so it comes to an end on every stream.
-/

namespace Modeld

open Host Cursor

/-- Extracted GGUF model metadata. -/
structure GgufMetadata where
  version : Nat
  tensorCount : Nat
  architecture : Option String
  contextLength : Option Nat
  fileType : Option Nat
  attributes : AList fun _ : String => String

/-- `read_string`. Text that is not UTF-8 is an error of its kind. -/
def readString (c : Cursor) : Read c String :=
  match c.readLe 7 with
  | .error e => .error e
  | .ok (len, ⟨c₁, h₁⟩) =>
    if 1024 < len then .error (.custom "Key string exceeds limit")
    else
      match c₁.readExact len with
      | .error e => .error e
      | .ok (buf, ⟨c₂, h₂⟩) =>
        match Text.ofBytes? buf with
        | none => .error .invalidData
        | some s => .ok (s, ⟨c₂, by omega⟩)

/-- `item_byte_size`. -/
def itemByteSize : Nat → Option Nat
  | 0 | 1 | 7 => some 1
  | 2 | 3 => some 2
  | 4 | 5 | 6 => some 4
  | 10 | 11 | 12 => some 8
  | _ => none

/-- A number of `bits` bits in two's complement. -/
def signedText (bits n : Nat) : String := toString (if n < 2 ^ (bits - 1) then (n : Int) else n - 2 ^ bits)

/-- A number and its text. -/
def readNumber (c : Cursor) (width : Nat) (text : Nat → String) : Read c String :=
  match c.readLe width with
  | .error e => .error e
  | .ok (n, c') => .ok (text n, c')

/-- What stands for an array. -/
def arrayText (count : Nat) : String := "[array: " ++ toString count ++ " items]"

/-- Elements of a variable size are skipped one by one, at most this many. -/
def maxSkippedItems : Nat := 64 * 1024

mutual

/-- `skip_or_read_value`. -/
def skipOrReadValue (c : Cursor) (valType : Nat) : Read c String :=
  match valType with
  | 0 => readNumber c 0 toString
  | 1 => readNumber c 0 (signedText 8)
  | 2 => readNumber c 1 toString
  | 3 => readNumber c 1 (signedText 16)
  | 4 => readNumber c 3 toString
  | 5 => readNumber c 3 (signedText 32)
  | 6 => readNumber c 3 (fixedText .single 4)
  | 7 => readNumber c 0 fun n => if n ≠ 0 then "true" else "false"
  | 8 => readString c
  | 9 =>
    match c.readLe 3 with
    | .error e => .error e
    | .ok (itemType, ⟨c₁, h₁⟩) =>
      match c₁.readLe 7 with
      | .error e => .error e
      | .ok (count, ⟨c₂, h₂⟩) =>
        match itemByteSize itemType with
        | some width =>
          if 2 ^ 64 ≤ count * width then .error (.custom "GGUF array length overflows u64")
          else if 2 ^ 64 ≤ c₂.pos + count * width then
            .error (.custom "GGUF array seek end overflows u64")
          else .ok (arrayText count, ⟨c₂.skip (count * width), by
            rw [left_skip]
            omega⟩)
        | none =>
          match skipItems c₂ itemType (min count maxSkippedItems) with
          | .error e => .error e
          | .ok ⟨c₃, h₃⟩ =>
            if maxSkippedItems < count then
              .error (.custom "GGUF array exceeds safety skip cap; refusing to skip")
            else .ok (arrayText count, ⟨c₃, by omega⟩)
  | 10 => readNumber c 7 toString
  | 11 => readNumber c 7 (signedText 64)
  | 12 => readNumber c 7 (fixedText .double 4)
  | _ => .error (.custom "Unknown GGUF type")
termination_by (c.left, 0)

/-- The elements of an array, from one position on. -/
def skipItems (c : Cursor) (itemType : Nat) :
    (n : Nat) → Except IoError {c' : Cursor // c'.left ≤ c.left}
  | 0 => .ok ⟨c, le_rfl⟩
  | n + 1 =>
    match skipOrReadValue c itemType with
    | .error e => .error e
    | .ok (_, ⟨c', h⟩) =>
      match skipItems c' itemType n with
      | .error e => .error e
      | .ok ⟨c'', h'⟩ => .ok ⟨c'', by omega⟩
termination_by n => (c.left, n + 1)

end

/-- One key-value pair. -/
def scanPair (found : GgufMetadata) (key val : String) : GgufMetadata :=
  let found := { found with attributes := found.attributes.insert key val }
  if key = "general.architecture" then { found with architecture := some val }
  else if Text.endsWith key ".context_length" then
    { found with contextLength := Text.parseUnsigned 64 val }
  else if key = "general.file_type" then { found with fileType := Text.parseUnsigned 32 val }
  else found

/-- The key-value pairs. -/
def readPairs (c : Cursor) (found : GgufMetadata) : Nat → Except IoError GgufMetadata
  | 0 => .ok found
  | n + 1 =>
    match readString c with
    | .error e => .error e
    | .ok (key, ⟨c₁, _⟩) =>
      match c₁.readLe 3 with
      | .error e => .error e
      | .ok (valType, ⟨c₂, _⟩) =>
        match skipOrReadValue c₂ valType with
        | .error e => .error e
        | .ok (val, ⟨c₃, _⟩) => readPairs c₃ (scanPair found key val) n

/-- `parse_gguf_header`, on the bytes of the stream. -/
def parseGgufHeader (stream : Bytes) : Except ModeldError GgufMetadata :=
  match Cursor.readExact ⟨stream, 0⟩ 4 with
  | .error e => .error (.io e)
  | .ok (magic, ⟨c₀, _⟩) =>
    if magic ≠ [0x47, 0x47, 0x55, 0x46] then .error (.invalidFormat "Missing GGUF magic bytes")
    else
      match c₀.readLe 3 with
      | .error e => .error (.io e)
      | .ok (version, ⟨c₁, _⟩) =>
        if version < 2 ∨ 3 < version then
          .error (.invalidFormat ("Unsupported GGUF version: " ++ toString version))
        else
          match c₁.readLe 7 with
          | .error e => .error (.io e)
          | .ok (tensorCount, ⟨c₂, _⟩) =>
            match c₂.readLe 7 with
            | .error e => .error (.io e)
            | .ok (kvCount, ⟨c₃, _⟩) =>
              if 4096 < kvCount then
                .error (.invalidFormat "GGUF metadata count exceeds safe threshold")
              else
                match readPairs c₃ ⟨version, tensorCount, none, none, none, ∅⟩ kvCount with
                | .error e => .error (.io e)
                | .ok found => .ok found

end Modeld
