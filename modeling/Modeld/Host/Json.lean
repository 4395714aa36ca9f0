import Mathlib
import Modeld.Host.Text

/-!
# JSON values

Values as `serde_json` has them, and their text. A number keeps the kind that its text had; an
object lists its fields in the order in which they are iterated, each key once.
-/

namespace Host

/-- A number in a JSON value. -/
inductive JsonNumber
  | nat (n : Nat)
  /-- The negative number `-(n + 1)`. -/
  | neg (n : Nat)
  | float (bits : UInt64)
deriving DecidableEq

/-- A JSON value. -/
inductive Json
  | null
  | bool (b : Bool)
  | num (n : JsonNumber)
  | str (s : String)
  | arr (items : List Json)
  | obj (fields : List (String × Json))

namespace Json

/-- `Value::get` with a key. -/
def get : Json → String → Option Json
  | obj fields, key => (fields.find? (·.1 = key)).map (·.2)
  | _, _ => none

/-- `Value::as_str`. -/
def asStr : Json → Option String
  | str s => some s
  | _ => none

/-- `Value::as_u64`. -/
def asU64 : Json → Option Nat
  | num (.nat n) => some n
  | _ => none

/-- `Value::as_array`. -/
def asArray : Json → Option (List Json)
  | arr items => some items
  | _ => none

/-- `Value::as_object`. -/
def asObject : Json → Option (List (String × Json))
  | obj fields => some fields
  | _ => none

/-- An object. Its fields are kept in the order of their keys. -/
def object (fields : List (String × Json)) : Json :=
  obj (fields.insertionSort fun a b => a.1 ≤ b.1)

/-- A field of an object whose keys differ. -/
theorem get_object {fields : List (String × Json)} {key : String} {value : Json}
    (hkeys : (fields.map (·.1)).Nodup) (hmem : (key, value) ∈ fields) :
    (object fields).get key = some value := by
  have hperm := List.perm_insertionSort (fun a b : String × Json => a.1 ≤ b.1) fields
  have hfind : ∃ x, (fields.insertionSort fun a b => a.1 ≤ b.1).find? (·.1 = key) = some x := by
    rw [← Option.isSome_iff_exists, List.find?_isSome]
    exact ⟨(key, value), hperm.mem_iff.2 hmem, by simp⟩
  obtain ⟨x, hx⟩ := hfind
  have hxkey : x.1 = key := by simpa using List.find?_some hx
  have hxmem : x ∈ fields := hperm.mem_iff.1 (List.mem_of_find?_eq_some hx)
  obtain rfl : x = (key, value) := List.inj_on_of_nodup_map hkeys hxmem hmem hxkey
  rw [object, get, hx]
  rfl

/-- Looking up a key does not depend on the order of the fields. -/
theorem get_object_eq {fields : List (String × Json)} (hkeys : (fields.map (·.1)).Nodup)
    (key : String) : (object fields).get key = (obj fields).get key := by
  cases hfind : fields.find? (·.1 = key) with
  | some x =>
    have hkey : x.1 = key := by simpa using List.find?_some hfind
    have hmem : (key, x.2) ∈ fields := by
      rw [← hkey]
      exact List.mem_of_find?_eq_some hfind
    rw [get_object hkeys hmem, get, hfind]
    rfl
  | none =>
    have hperm := List.perm_insertionSort (fun a b : String × Json => a.1 ≤ b.1) fields
    have hnone : (fields.insertionSort fun a b => a.1 ≤ b.1).find? (·.1 = key) = none := by
      rw [List.find?_eq_none] at hfind ⊢
      exact fun x hx => hfind x (hperm.mem_iff.1 hx)
    rw [object, get, get, hnone, hfind]

/-- A number as a value. -/
def ofNat (n : Nat) : Json := num (.nat n)

/-- Four hexadecimal digits. -/
private def hex4 (n : Nat) : String :=
  let digits := Nat.toDigits 16 n
  String.ofList (List.replicate (4 - digits.length) '0' ++ digits)

/-- One character as it stands in a string. -/
def escape (c : Char) : String :=
  if c = '"' then "\\\""
  else if c = '\\' then "\\\\"
  else if c.toNat = 0x08 then "\\b"
  else if c.toNat = 0x0c then "\\f"
  else if c = '\n' then "\\n"
  else if c = '\r' then "\\r"
  else if c = '\t' then "\\t"
  else if c.toNat < 0x20 then "\\u" ++ hex4 c.toNat
  else String.ofList [c]

/-- A string in quotes. -/
def quote (s : String) : String :=
  "\"" ++ String.ofList (s.toList.flatMap fun c => (escape c).toList) ++ "\""

/-- `Number::to_string`, where `floatText` is the text of a floating-point number. -/
def numberText (floatText : UInt64 → String) : JsonNumber → String
  | .nat n => toString n
  | .neg n => "-" ++ toString (n + 1)
  | .float bits => floatText bits

mutual

/-- `Value::to_string`. -/
def text (floatText : UInt64 → String) : Json → String
  | null => "null"
  | bool b => toString b
  | num n => numberText floatText n
  | str s => quote s
  | arr items => "[" ++ String.intercalate "," (itemTexts floatText items) ++ "]"
  | obj fields => "\x7b" ++ String.intercalate "," (fieldTexts floatText fields) ++ "\x7d"

def itemTexts (floatText : UInt64 → String) : List Json → List String
  | [] => []
  | item :: items => item.text floatText :: itemTexts floatText items

def fieldTexts (floatText : UInt64 → String) : List (String × Json) → List String
  | [] => []
  | (key, value) :: fields =>
    (quote key ++ ":" ++ value.text floatText) :: fieldTexts floatText fields

end

/-! ### Text has no NUL -/

private theorem nul_not_mem_hex4 (n : Nat) : '\x00' ∉ (hex4 n).toList := by
  have hhex := Text.not_mem_hex n (c := '\x00') (by decide)
  rw [Text.hex, String.toList_ofList] at hhex
  rw [hex4, String.toList_ofList, List.mem_append, List.mem_replicate]
  rintro (⟨-, h⟩ | h)
  · exact absurd h (by decide)
  · exact hhex h

private theorem nul_not_mem_escape (c : Char) : '\x00' ∉ (escape c).toList := by
  unfold escape
  split_ifs with h1 h2 h3 h4 h5 h6 h7 h8
  · decide
  · decide
  · decide
  · decide
  · decide
  · decide
  · decide
  · rw [String.toList_append, List.mem_append]
    rintro (h | h)
    · exact absurd h (by decide)
    · exact nul_not_mem_hex4 _ h
  · rw [String.toList_ofList, List.mem_singleton]
    rintro rfl
    exact h8 (by decide)

private theorem nul_not_mem_quote (s : String) : '\x00' ∉ (quote s).toList := by
  have hquote : '\x00' ∉ "\"".toList := by decide
  simp only [quote, String.toList_append, String.toList_ofList, List.mem_append, List.mem_flatMap,
    not_or, not_exists, not_and]
  exact ⟨⟨hquote, fun c _ => nul_not_mem_escape c⟩, hquote⟩

private theorem nul_not_mem_nat (n : Nat) : '\x00' ∉ (toString n).toList := by
  intro h
  have hdigits : '\x00' ∈ Nat.toDigits 10 n := by
    rw [← Nat.toList_repr]
    exact h
  exact absurd (Nat.isDigit_of_mem_toDigits (by decide) (by decide) hdigits) (by decide)

private theorem mem_intercalate {α : Type} {a : α} {sep : List α} {ls : List (List α)}
    (h : a ∈ List.intercalate sep ls) : a ∈ sep ∨ ∃ l ∈ ls, a ∈ l := by
  induction ls with
  | nil => simp [List.intercalate] at h
  | cons l ls ih =>
    cases ls with
    | nil => exact .inr ⟨l, by simp, by simpa [List.intercalate] using h⟩
    | cons l' ls =>
      have hsplit : List.intercalate sep (l :: l' :: ls) =
          l ++ (sep ++ List.intercalate sep (l' :: ls)) := rfl
      rw [hsplit, List.mem_append, List.mem_append] at h
      rcases h with h | h | h
      · exact .inr ⟨l, by simp, h⟩
      · exact .inl h
      · rcases ih h with hsep | ⟨x, hx, ha⟩
        · exact .inl hsep
        · exact .inr ⟨x, List.mem_cons_of_mem _ hx, ha⟩

private theorem nul_not_mem_intercalate {l : List String} (hl : ∀ s ∈ l, '\x00' ∉ s.toList) :
    '\x00' ∉ (String.intercalate "," l).toList := by
  rw [String.toList_intercalate]
  intro h
  rcases mem_intercalate h with hsep | ⟨x, hx, hnul⟩
  · exact absurd hsep (by decide)
  · obtain ⟨s, hs, rfl⟩ := List.mem_map.1 hx
    exact hl s hs hnul

/-- No text of a floating-point number has a NUL. -/
abbrev NulFree (floatText : UInt64 → String) : Prop := ∀ bits, '\x00' ∉ (floatText bits).toList

variable {floatText : UInt64 → String}

private theorem nul_not_mem_numberText (hfloat : NulFree floatText) (n : JsonNumber) :
    '\x00' ∉ (numberText floatText n).toList := by
  cases n with
  | nat n => exact nul_not_mem_nat n
  | neg n =>
    rw [numberText, String.toList_append, List.mem_append, not_or]
    exact ⟨by decide, nul_not_mem_nat _⟩
  | float bits => exact hfloat bits

mutual

/-- The text of a value has no NUL, as long as those of floating-point numbers have none. -/
theorem nul_not_mem_text (hfloat : NulFree floatText) :
    ∀ value : Json, '\x00' ∉ (value.text floatText).toList
  | null => by
    have h : '\x00' ∉ "null".toList := by decide
    exact h
  | bool b => by
    have h : ∀ b : Bool, '\x00' ∉ (toString b).toList := by decide
    exact h b
  | num n => nul_not_mem_numberText hfloat n
  | str s => nul_not_mem_quote s
  | arr items => by
    simp only [text, String.toList_append, List.mem_append, not_or]
    exact ⟨⟨by decide, nul_not_mem_intercalate (nul_not_mem_itemTexts hfloat items)⟩, by decide⟩
  | obj fields => by
    simp only [text, String.toList_append, List.mem_append, not_or]
    exact ⟨⟨by decide, nul_not_mem_intercalate (nul_not_mem_fieldTexts hfloat fields)⟩, by decide⟩

private theorem nul_not_mem_itemTexts (hfloat : NulFree floatText) :
    ∀ items : List Json, ∀ s ∈ itemTexts floatText items, '\x00' ∉ s.toList
  | [] => nofun
  | item :: items => by
    intro s hs
    rcases List.mem_cons.1 hs with rfl | hs
    · exact nul_not_mem_text hfloat item
    · exact nul_not_mem_itemTexts hfloat items s hs

private theorem nul_not_mem_fieldTexts (hfloat : NulFree floatText) :
    ∀ fields : List (String × Json), ∀ s ∈ fieldTexts floatText fields, '\x00' ∉ s.toList
  | [] => nofun
  | (key, value) :: fields => by
    intro s hs
    rcases List.mem_cons.1 hs with rfl | hs
    · simp only [String.toList_append, List.mem_append, not_or]
      exact ⟨⟨nul_not_mem_quote key, by decide⟩, nul_not_mem_text hfloat value⟩
    · exact nul_not_mem_fieldTexts hfloat fields s hs

end

/-! ### The length of a text -/

private theorem length_le_intercalate {α : Type} {sep l : List α} {ls : List (List α)} (hl : l ∈ ls) :
    l.length ≤ (List.intercalate sep ls).length := by
  induction ls with
  | nil => cases hl
  | cons l' ls ih =>
    cases ls with
    | nil =>
      obtain rfl := List.mem_singleton.1 hl
      exact Nat.le_of_eq (congrArg List.length (by simp [List.intercalate]))
    | cons l'' ls =>
      have hsplit : List.intercalate sep (l' :: l'' :: ls) =
          l' ++ (sep ++ List.intercalate sep (l'' :: ls)) := rfl
      rw [hsplit, List.length_append, List.length_append]
      rcases List.mem_cons.1 hl with rfl | hl
      · omega
      · have hle := ih hl
        omega

private theorem length_le_length_intercalate {α : Type} (c : α) (ls : List (List α)) :
    ls.length ≤ (List.intercalate [c] ls).length + 1 := by
  induction ls with
  | nil => exact Nat.zero_le _
  | cons l ls ih =>
    cases ls with
    | nil => exact Nat.le_add_left ..
    | cons l' ls =>
      have hsplit : List.intercalate [c] (l :: l' :: ls) =
          l ++ ([c] ++ List.intercalate [c] (l' :: ls)) := rfl
      rw [hsplit, List.length_append, List.length_append, List.length_singleton, List.length_cons]
      omega

private theorem length_itemTexts (items : List Json) :
    (itemTexts floatText items).length = items.length := by
  induction items with
  | nil => rfl
  | cons item items ih => exact congrArg Nat.succ ih

/-- An array has more characters than items. -/
theorem length_lt_text_arr (items : List Json) :
    items.length < ((arr items).text floatText).toList.length := by
  have hle := length_le_length_intercalate ',' ((itemTexts floatText items).map String.toList)
  rw [List.length_map, length_itemTexts] at hle
  rw [text, String.toList_append, String.toList_append, String.toList_intercalate]
  simp only [List.length_append]
  have hcomma : ",".toList = [','] := rfl
  have hopen : "[".toList.length = 1 := rfl
  have hclose : "]".toList.length = 1 := rfl
  rw [hcomma, hopen, hclose]
  omega

private theorem mem_fieldTexts {key : String} {value : Json} {fields : List (String × Json)}
    (hmem : (key, value) ∈ fields) :
    quote key ++ ":" ++ value.text floatText ∈ fieldTexts floatText fields := by
  induction fields with
  | nil => cases hmem
  | cons field fields ih =>
    rcases List.mem_cons.1 hmem with rfl | hmem
    · exact List.mem_cons_self ..
    · exact List.mem_cons_of_mem _ (ih hmem)

/-- An object has more characters than the value of a field. -/
theorem length_text_lt_obj {key : String} {value : Json} {fields : List (String × Json)}
    (hmem : (key, value) ∈ fields) :
    (value.text floatText).toList.length < ((obj fields).text floatText).toList.length := by
  have hfield : quote key ++ ":" ++ value.text floatText ∈ fieldTexts floatText fields :=
    mem_fieldTexts hmem
  have hle := @length_le_intercalate _ ",".toList _ _ (List.mem_map_of_mem (f := String.toList) hfield)
  rw [String.toList_append, String.toList_append] at hle
  rw [text, String.toList_append, String.toList_append, String.toList_intercalate]
  simp only [List.length_append] at hle ⊢
  have hopen : "\x7b".toList.length = 1 := rfl
  rw [hopen]
  omega

end Json

end Host
