import Mathlib
import Modeld.Host.Fs

/-!
# Text

The functions of `str` that programs use on names, digests and identifiers, on Lean's strings.
-/

namespace Host

namespace Text

/-- `char::is_whitespace`: the Unicode property White_Space. -/
def isWhitespace (c : Char) : Bool :=
  (0x09 ≤ c.toNat && c.toNat ≤ 0x0d) || c.toNat = 0x20 || c.toNat = 0x85 || c.toNat = 0xa0 ||
  c.toNat = 0x1680 || (0x2000 ≤ c.toNat && c.toNat ≤ 0x200a) || c.toNat = 0x2028 ||
  c.toNat = 0x2029 || c.toNat = 0x202f || c.toNat = 0x205f || c.toNat = 0x3000

/-- `str::trim`. -/
def trim (s : String) : String :=
  String.ofList (((s.toList.dropWhile isWhitespace).reverse.dropWhile isWhitespace).reverse)

/-- `str::strip_prefix`. -/
def stripPrefix (s start : String) : Option String :=
  if start.toList <+: s.toList then some (String.ofList (s.toList.drop start.toList.length))
  else none

/-- `str::strip_suffix`. -/
def stripSuffix (s ending : String) : Option String :=
  if ending.toList <:+ s.toList then
    some (String.ofList (s.toList.take (s.toList.length - ending.toList.length)))
  else none

/-- `str::starts_with`. -/
def startsWith (s start : String) : Bool := start.toList <+: s.toList

/-- `str::ends_with`. -/
def endsWith (s ending : String) : Bool := ending.toList <:+ s.toList

/-- `str::split_once` at a character. -/
def splitOnce (c : Char) (s : String) : Option (String × String) :=
  if c ∈ s.toList then
    some (String.ofList (s.toList.takeWhile (· ≠ c)),
      String.ofList ((s.toList.dropWhile (· ≠ c)).drop 1))
  else none

/-- `str::replace` of a character by text. -/
def replaceChar (s : String) (c : Char) (t : String) : String :=
  String.ofList (s.toList.flatMap fun x => if x = c then t.toList else [x])

/-- `char::to_ascii_lowercase`. -/
def lowerAscii (c : Char) : Char :=
  if 'A' ≤ c ∧ c ≤ 'Z' then Char.ofNat (c.toNat + 32) else c

/-- `str::to_ascii_lowercase`. -/
def toAsciiLowercase (s : String) : String := String.ofList (s.toList.map lowerAscii)

/-- `str::eq_ignore_ascii_case`. -/
def eqIgnoreAsciiCase (s t : String) : Bool := toAsciiLowercase s = toAsciiLowercase t

/-- `char::to_ascii_uppercase`. -/
def upperAscii (c : Char) : Char :=
  if 'a' ≤ c ∧ c ≤ 'z' then Char.ofNat (c.toNat - 32) else c

/-- `str::to_ascii_uppercase`. -/
def toAsciiUppercase (s : String) : String := String.ofList (s.toList.map upperAscii)

/-- `str::contains` of text. -/
def contains (s part : String) : Bool := part.toList <:+: s.toList

/-- `str::split` at a character, and the last piece of it. -/
def lastPiece (c : Char) (s : String) : String :=
  String.ofList ((s.toList.reverse.takeWhile (· ≠ c)).reverse)

/-- `str::to_lowercase` as far as text that comes out as ASCII is concerned: outside ASCII, the
Kelvin sign alone has a lower case in ASCII. -/
def toLowercase (s : String) : String :=
  String.ofList (s.toList.map fun c => if c.toNat = 0x212a then 'k' else lowerAscii c)

/-- `{:x}` of a number. -/
def hex (n : Nat) : String := String.ofList (Nat.toDigits 16 n)

/-- One character as `{:?}` shows it in a string. Characters outside ASCII stand as they are. -/
def debugChar (c : Char) : String :=
  if c = '\x00' then "\\0"
  else if c = '\t' then "\\t"
  else if c = '\n' then "\\n"
  else if c = '\r' then "\\r"
  else if c = '"' then "\\\""
  else if c = '\\' then "\\\\"
  else if c.toNat < 0x20 ∨ c.toNat = 0x7f then "\\u\x7b" ++ hex c.toNat ++ "\x7d"
  else String.ofList [c]

/-- `{:?}` of a string. -/
def debug (s : String) : String :=
  "\"" ++ String.ofList (s.toList.flatMap fun c => (debugChar c).toList) ++ "\""

/-- `str::as_bytes`. -/
def toBytes (s : String) : Bytes := s.toUTF8.data.toList

/-- `str::from_utf8`. -/
def ofBytes? (b : Bytes) : Option String := String.fromUTF8? ⟨b.toArray⟩

/-- `str::parse` for an unsigned number of `bits` bits. -/
def parseUnsigned (bits : Nat) (s : String) : Option Nat :=
  let digits := if s.toList.head? = some '+' then s.toList.drop 1 else s.toList
  let n := digits.foldl (fun n c => 10 * n + (c.toNat - '0'.toNat)) 0
  if digits ≠ [] ∧ digits.all Char.isDigit ∧ n < 2 ^ bits then some n else none

/-- `Path::extension` of a file name. -/
def extension (name : String) : Option String :=
  match (name.toList.reverse.span (· ≠ '.')) with
  | (ext, '.' :: stem) =>
    if stem = [] ∨ name = ".." then none else some (String.ofList ext.reverse)
  | _ => none

/-! ### How the pieces fit together -/

theorem stripPrefix_eq_some {s start rest : String} :
    stripPrefix s start = some rest ↔ s = start ++ rest := by
  unfold stripPrefix
  constructor
  · intro h
    split at h
    · rename_i hp
      obtain ⟨t, ht⟩ := hp
      cases h
      rw [← String.toList_inj]
      simp [← ht]
    · cases h
  · rintro rfl
    simp

theorem stripSuffix_eq_some {s ending rest : String} :
    stripSuffix s ending = some rest ↔ s = rest ++ ending := by
  unfold stripSuffix
  constructor
  · intro h
    split at h
    · rename_i hp
      obtain ⟨t, ht⟩ := hp
      cases h
      rw [← String.toList_inj]
      simp [← ht]
    · cases h
  · rintro rfl
    simp

theorem ofBytes?_toBytes (s : String) : ofBytes? (toBytes s) = some s := by
  have hbytes : (⟨(toBytes s).toArray⟩ : ByteArray) = s.toUTF8 := by
    simp [toBytes]
  rw [ofBytes?, hbytes, String.fromUTF8?, String.toUTF8_eq_toByteArray, dif_pos s.isValidUTF8]
  rfl

/-- Text that was read is written as the bytes it was read from. -/
theorem toBytes_of_ofBytes? {b : Bytes} {s : String} (h : ofBytes? b = some s) : toBytes s = b := by
  rw [ofBytes?, String.fromUTF8?] at h
  split at h
  · cases h
    simp [toBytes, String.fromUTF8]
  · cases h

theorem toBytes_injective : Function.Injective toBytes := fun s t h => by
  have := congrArg ofBytes? h
  simpa [ofBytes?_toBytes] using this

private theorem zero_not_mem_utf8EncodeChar {c : Char} (hc : c ≠ '\x00') :
    0 ∉ String.utf8EncodeChar c := by
  have hval : c.val.toNat = c.toNat := rfl
  have hpos : c.toNat ≠ 0 := fun h => hc (Char.ext (UInt32.toNat_inj.1 (hval.trans h)))
  unfold String.utf8EncodeChar
  simp only
  split_ifs <;>
    simp only [List.mem_cons, List.not_mem_nil, or_false, ← UInt8.toNat_inj, not_or] <;>
    simp <;> omega

theorem toBytes_eq_flatMap (s : String) : toBytes s = s.toList.flatMap String.utf8EncodeChar := by
  have hencode : s.toByteArray = s.toList.utf8Encode := by
    rw [← String.toByteArray_ofList, String.ofList_toList]
  simp [toBytes, hencode, List.utf8Encode]

/-- Text without the character NUL has no zero among its bytes. -/
theorem zero_not_mem_toBytes {s : String} (h : '\x00' ∉ s.toList) : 0 ∉ toBytes s := by
  rw [toBytes_eq_flatMap, List.mem_flatMap]
  rintro ⟨c, hc, hzero⟩
  refine zero_not_mem_utf8EncodeChar ?_ hzero
  rintro rfl
  exact h hc

/-- In ASCII, characters are bytes. -/
theorem length_toBytes_of_ascii {s : String} (h : ∀ c ∈ s.toList, c.val ≤ 127) :
    (toBytes s).length = s.toList.length := by
  rw [toBytes_eq_flatMap]
  generalize s.toList = cs at h
  induction cs with
  | nil => rfl
  | cons c cs ih =>
    have hc := Char.utf8Size_eq_one_iff.2 (h c (List.mem_cons_self ..))
    rw [List.flatMap_cons, List.length_append, String.length_utf8EncodeChar, hc,
      ih fun d hd => h d (List.mem_cons_of_mem _ hd), List.length_cons, Nat.add_comm]

/-- A character has at least one byte. -/
theorem length_le_toBytes (s : String) : s.toList.length ≤ (toBytes s).length := by
  rw [toBytes_eq_flatMap]
  induction s.toList with
  | nil => exact Nat.le_refl _
  | cons c cs ih =>
    have hc := Char.utf8Size_pos c
    rw [List.flatMap_cons, List.length_append, String.length_utf8EncodeChar, List.length_cons]
    omega

private theorem dropWhile_eq_self {l : List Char} (h : ∀ c ∈ l, isWhitespace c = false) :
    l.dropWhile isWhitespace = l := by
  cases l with
  | nil => rfl
  | cons c l => simp [h c (by simp)]

/-- Text without white space is its own trimmed form. -/
theorem trim_eq_self {s : String} (h : ∀ c ∈ s.toList, isWhitespace c = false) : trim s = s := by
  rw [trim, dropWhile_eq_self h, dropWhile_eq_self fun c hc => h c (by simpa using hc),
    List.reverse_reverse, String.ofList_toList]

@[simp] theorem toList_append_inj {s t u : String} : s ++ t = s ++ u ↔ t = u := by
  rw [← String.toList_inj]
  simp [String.toList_inj]

@[simp] theorem append_right_inj {s t u : String} : t ++ s = u ++ s ↔ t = u := by
  rw [← String.toList_inj]
  simp [String.toList_inj]

/-! ### Numbers in hexadecimal -/

private theorem exists_digit_of_mem (n : Nat) {c : Char} (hc : c ∈ Nat.toDigits 16 n) :
    ∃ d < 16, c = Nat.digitChar d := by
  induction n using Nat.strongRecOn with
  | ind n ih =>
    rw [Nat.toDigits_eq_if (by decide)] at hc
    split at hc
    · rename_i hn
      exact ⟨n, hn, by simpa using hc⟩
    · rename_i hn
      rcases List.mem_append.1 hc with hc | hc
      · exact ih (n / 16) (Nat.div_lt_self (by omega) (by decide)) hc
      · exact ⟨n % 16, Nat.mod_lt _ (by decide), by simpa using hc⟩

theorem not_mem_hex (n : Nat) {c : Char} (hc : ∀ d < 16, c ≠ Nat.digitChar d) :
    c ∉ (hex n).toList := by
  rw [hex, String.toList_ofList]
  intro hmem
  obtain ⟨d, hd, rfl⟩ := exists_digit_of_mem n hmem
  exact hc d hd rfl

private theorem digitChar_inj : ∀ a < 16, ∀ b < 16, Nat.digitChar a = Nat.digitChar b → a = b := by
  decide

private theorem toDigits_inj (m n : Nat) (h : Nat.toDigits 16 m = Nat.toDigits 16 n) : m = n := by
  induction m using Nat.strongRecOn generalizing n with
  | ind m ih =>
    rw [Nat.toDigits_eq_if (by decide), Nat.toDigits_eq_if (n := n) (by decide)] at h
    split at h <;> split at h
    · rename_i hm hn
      exact digitChar_inj m hm n hn (by simpa using h)
    · have := congrArg List.length h
      simp at this
    · have := congrArg List.length h
      simp at this
    · obtain ⟨hdiv, hmod⟩ := List.append_inj' h rfl
      have h1 := ih (m / 16) (Nat.div_lt_self (by omega) (by decide)) (n / 16) hdiv
      have h2 := digitChar_inj (m % 16) (Nat.mod_lt _ (by decide)) (n % 16)
        (Nat.mod_lt _ (by decide)) (by simpa using hmod)
      omega

theorem hex_injective : Function.Injective hex := fun m n h => by
  refine toDigits_inj m n ?_
  have := congrArg String.toList h
  simpa [hex] using this

end Text

end Host
