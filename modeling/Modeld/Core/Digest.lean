import Modeld.Host.Text

/-!
# Errors and digests

`ModeldError` with its texts, and the check that everything which becomes part of a path in the
store has to pass: a digest is 64 lowercase hexadecimal characters, so it is one ordinary path
component and no white space can be trimmed from it.
-/

namespace Modeld

open Host

/-- Primary error enumeration for modeld operations. -/
inductive ModeldError
  | io (e : IoError)
  | digestMismatch (expected computed : String)
  | invalidFormat (msg : String)
  | securityRejection (msg : String)
  | notFound (msg : String)
deriving DecidableEq

/-- The text of an error. -/
def ModeldError.toText : ModeldError → String
  | io e => "Filesystem I/O failure: " ++ e.text
  | digestMismatch expected computed =>
    "Cryptographic digest mismatch: expected " ++ expected ++ ", computed " ++ computed
  | invalidFormat msg => "Invalid model format header: " ++ msg
  | securityRejection msg => "Insecure model format rejected by policy: " ++ msg
  | notFound msg => "Model not found: " ++ msg

/-- Expected length of a SHA-256 hex digest. -/
def DIGEST_LEN : Nat := 64

/-- A character of a digest: an ASCII digit or one of `a` to `f`. -/
def isDigestChar (c : Char) : Bool := ('0' ≤ c && c ≤ '9') || ('a' ≤ c && c ≤ 'f')

/-- Exactly 64 lowercase hexadecimal characters. Text of such characters has as many bytes as
characters. -/
def isDigestFormat (digest : String) : Bool :=
  digest.toList.length = DIGEST_LEN && digest.toList.all isDigestChar

/-- `validate_digest_format`. -/
def validateDigestFormat (digest : String) : Except ModeldError Unit :=
  if isDigestFormat digest then .ok ()
  else .error (.invalidFormat ("digest must be exactly " ++ toString DIGEST_LEN ++
    " lowercase hex characters, got " ++ Text.debug digest))

/-- Text in the format of a digest. -/
def IsDigest (digest : String) : Prop := isDigestFormat digest = true

instance (d : String) : Decidable (IsDigest d) := inferInstanceAs (Decidable (_ = true))

@[simp] theorem isDigestFormat_eq_true {d : String} : isDigestFormat d = true ↔ IsDigest d :=
  Iff.rfl

theorem validateDigestFormat_of_isDigest {d : String} (h : IsDigest d) :
    validateDigestFormat d = .ok () := by
  simp [validateDigestFormat, h]

theorem validateDigestFormat_of_not_isDigest {d : String} (h : ¬ IsDigest d) :
    ∃ msg, validateDigestFormat d = .error (.invalidFormat msg) := by
  simp [validateDigestFormat, h]

private theorem not_isWhitespace_of_isDigestChar {c : Char} (hc : isDigestChar c = true) :
    Text.isWhitespace c = false := by
  have h0 : ('0' : Char).toNat = 48 := rfl
  have h9 : ('9' : Char).toNat = 57 := rfl
  have ha : ('a' : Char).toNat = 97 := rfl
  have hf : ('f' : Char).toNat = 102 := rfl
  simp only [isDigestChar, Bool.or_eq_true, Bool.and_eq_true, decide_eq_true_eq, Char.le_def,
    UInt32.le_iff_toNat_le, Char.toNat_val] at hc
  simp only [Text.isWhitespace, Bool.or_eq_false_iff, Bool.and_eq_false_iff,
    decide_eq_false_iff_not]
  omega

namespace IsDigest

variable {d : String}

theorem length_eq (h : IsDigest d) : d.toList.length = 64 := by
  simp only [IsDigest, isDigestFormat, Bool.and_eq_true, decide_eq_true_eq] at h
  exact h.1

theorem isDigestChar_of_mem (h : IsDigest d) {c : Char} (hc : c ∈ d.toList) :
    isDigestChar c = true := by
  simp only [IsDigest, isDigestFormat, Bool.and_eq_true, List.all_eq_true] at h
  exact h.2 c hc

theorem not_mem (h : IsDigest d) {c : Char} (hc : isDigestChar c = false) : c ∉ d.toList :=
  fun hmem => by simp [h.isDigestChar_of_mem hmem] at hc

/-- A digest is one ordinary path component. -/
theorem plain (h : IsDigest d) : PlainName d := by
  have hlen := h.length_eq
  refine ⟨?_, ?_, ?_, h.not_mem (by decide)⟩
  all_goals
    rintro rfl
    simp at hlen

theorem length_toBytes (h : IsDigest d) : (Text.toBytes d).length = 64 := by
  rw [Text.length_toBytes_of_ascii, h.length_eq]
  intro c hc
  have hchar := h.isDigestChar_of_mem hc
  simp only [isDigestChar, Bool.or_eq_true, Bool.and_eq_true, decide_eq_true_eq, Char.le_def] at hchar
  rcases hchar with ⟨-, hle⟩ | ⟨-, hle⟩
  · exact UInt32.le_trans hle (by decide)
  · exact UInt32.le_trans hle (by decide)

/-- There is nothing to trim from a digest. -/
theorem trim_eq (h : IsDigest d) : Text.trim d = d :=
  Text.trim_eq_self fun _ hc => not_isWhitespace_of_isDigestChar (h.isDigestChar_of_mem hc)

end IsDigest

/-- SHA-256 with the digest written in lowercase hexadecimal. -/
structure Sha256 where
  hash : Bytes → String
  isDigest_hash : ∀ b, IsDigest (hash b)

end Modeld
