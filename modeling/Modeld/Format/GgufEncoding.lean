import Mathlib
import Modeld.Format.Gguf
import Modeld.Format.Validator
import Modeld.Host.PrefixCode

/-!
# The encoding of GGUF headers

The header as a value, its standard encoding, and what `parseGgufHeader` makes of a stream that
begins with one. Arrays of a fixed width are skipped without being looked at, so the parser accepts
such an array at the very end of a stream even when its payload is cut short; the lemmas below say
what is read with `cut` standing for the bytes that are not there.
-/

namespace Modeld

open Host Cursor

/-! ### Headers as values -/

/-- The value types of a fixed width. -/
inductive FixedType
  | uint8
  | int8
  | uint16
  | int16
  | uint32
  | int32
  | float32
  | bool
  | uint64
  | int64
  | float64
deriving DecidableEq

namespace FixedType

/-- The code of a type. -/
def code : FixedType → Nat
  | uint8 => 0
  | int8 => 1
  | uint16 => 2
  | int16 => 3
  | uint32 => 4
  | int32 => 5
  | float32 => 6
  | bool => 7
  | uint64 => 10
  | int64 => 11
  | float64 => 12

/-- The width of a type, less one. -/
def extra : FixedType → Nat
  | uint8 | int8 | bool => 0
  | uint16 | int16 => 1
  | uint32 | int32 | float32 => 3
  | uint64 | int64 | float64 => 7

/-- The width of a type in bytes. -/
def width (t : FixedType) : Nat := t.extra + 1

/-- The text of a value, from its bits. -/
def text : FixedType → Nat → String
  | uint8 | uint16 | uint32 | uint64 => toString
  | int8 => signedText 8
  | int16 => signedText 16
  | int32 => signedText 32
  | int64 => signedText 64
  | float32 => fixedText .single 4
  | float64 => fixedText .double 4
  | bool => fun n => if n ≠ 0 then "true" else "false"

end FixedType

/-- Arrays. An array without elements can name a type that does not exist. -/
inductive GgufArray
  | fixed (type : FixedType) (items : List Nat)
  | text (items : List String)
  | nested (items : List GgufArray)
  | unknown (code : Nat)

/-- Values. -/
inductive GgufValue
  | fixed (type : FixedType) (bits : Nat)
  | text (s : String)
  | array (a : GgufArray)

/-- A header. -/
structure GgufHeader where
  version : Nat
  tensorCount : Nat
  pairs : List (String × GgufValue)

/-! ### Their encoding -/

/-- Text, with its length in front. -/
def encodeText (s : String) : Bytes := toLe 8 (Text.toBytes s).length ++ Text.toBytes s

/-- The element type and the number of elements of an array. -/
def encodeArrayHead (code count : Nat) : Bytes := toLe 4 code ++ toLe 8 count

mutual

def GgufArray.encode : GgufArray → Bytes
  | .fixed t items => encodeArrayHead t.code items.length ++ items.flatMap (toLe t.width)
  | .text items => encodeArrayHead 8 items.length ++ items.flatMap encodeText
  | .nested items => encodeArrayHead 9 items.length ++ encodeArrays items
  | .unknown code => encodeArrayHead code 0

/-- The elements of an array of arrays. -/
def encodeArrays : List GgufArray → Bytes
  | [] => []
  | a :: as => a.encode ++ encodeArrays as

end

namespace GgufValue

/-- The code of the type of a value. -/
def code : GgufValue → Nat
  | fixed t _ => t.code
  | text _ => 8
  | array _ => 9

def encode : GgufValue → Bytes
  | fixed t n => toLe t.width n
  | text s => encodeText s
  | array a => a.encode

end GgufValue

/-- A key, and the type and the bytes of its value. -/
def encodePair (pair : String × GgufValue) : Bytes :=
  encodeText pair.1 ++ toLe 4 pair.2.code ++ pair.2.encode

def GgufHeader.encode (header : GgufHeader) : Bytes :=
  GGUF_MAGIC ++ toLe 4 header.version ++ toLe 8 header.tensorCount ++
    toLe 8 header.pairs.length ++ header.pairs.flatMap encodePair

/-! ### What fits the parser's limits -/

/-- Text of at most 1024 bytes. -/
def FitsText (s : String) : Prop := (Text.toBytes s).length ≤ 1024

mutual

/-- Numbers are of the width of their type, text is short enough, and elements of a variable size are
few enough. -/
def GgufArray.Fits : GgufArray → Prop
  | .fixed t items => ∀ n ∈ items, n < 256 ^ t.width
  | .text items => items.length ≤ maxSkippedItems ∧ ∀ s ∈ items, FitsText s
  | .nested items => items.length ≤ maxSkippedItems ∧ FitArrays items
  | .unknown code => 12 < code ∧ code < 256 ^ 4

/-- All elements of an array of arrays fit. -/
def FitArrays : List GgufArray → Prop
  | [] => True
  | a :: as => a.Fits ∧ FitArrays as

end

def GgufValue.Fits : GgufValue → Prop
  | .fixed t n => n < 256 ^ t.width
  | .text s => FitsText s
  | .array a => a.Fits

structure GgufHeader.Fits (header : GgufHeader) : Prop where
  version : 2 ≤ header.version ∧ header.version ≤ 3
  tensorCount : header.tensorCount < 256 ^ 8
  count : header.pairs.length ≤ 4096
  keys : ∀ pair ∈ header.pairs, FitsText pair.1
  values : ∀ pair ∈ header.pairs, pair.2.Fits

/-! ### What it is read as -/

def GgufArray.length : GgufArray → Nat
  | fixed _ items => items.length
  | text items => items.length
  | nested items => items.length
  | unknown _ => 0

/-- The text of a value. -/
def GgufValue.render : GgufValue → String
  | fixed t n => t.text n
  | text s => s
  | array a => arrayText a.length

/-- What the pairs of a header are read as. -/
def GgufHeader.metadata (header : GgufHeader) : GgufMetadata :=
  header.pairs.foldl (fun found pair => scanPair found pair.1 pair.2.render)
    ⟨header.version, header.tensorCount, none, none, none, ∅⟩

/-! ### What may be cut short -/

mutual

/-- How many bytes at the end are skipped without being looked at. -/
def GgufArray.blind : GgufArray → Nat
  | .fixed t items => (items.flatMap (toLe t.width)).length
  | .text _ => 0
  | .nested items => blindArrays items
  | .unknown _ => 0

/-- As for the last element. -/
def blindArrays : List GgufArray → Nat
  | [] => 0
  | [a] => a.blind
  | _ :: a :: as => blindArrays (a :: as)

end

def GgufValue.blind : GgufValue → Nat
  | fixed _ _ => 0
  | text _ => 0
  | array a => a.blind

/-- As for the value of the last pair. -/
def blindPairs : List (String × GgufValue) → Nat
  | [] => 0
  | [p] => p.2.blind
  | _ :: p :: pairs => blindPairs (p :: pairs)

/-! ### What can be sought over -/

mutual

/-- Read from position `pos` on, every array of a fixed width ends at a position of 64 bits. -/
def GgufArray.InRange (pos : Nat) : GgufArray → Prop
  | .fixed t items => pos + (12 + items.length * t.width) < 2 ^ 64
  | .text _ => True
  | .nested items => ArraysInRange (pos + 12) items
  | .unknown _ => True

/-- As for the elements of an array of arrays. -/
def ArraysInRange (pos : Nat) : List GgufArray → Prop
  | [] => True
  | a :: as => a.InRange pos ∧ ArraysInRange (pos + a.encode.length) as

end

def GgufValue.InRange (pos : Nat) : GgufValue → Prop
  | .fixed _ _ => True
  | .text _ => True
  | .array a => a.InRange pos

/-- As for the values of key-value pairs. -/
def PairsInRange (pos : Nat) : List (String × GgufValue) → Prop
  | [] => True
  | p :: pairs => p.2.InRange (pos + (encodeText p.1).length + 4) ∧
      PairsInRange (pos + (encodePair p).length) pairs

/-! ### Reading the parts -/

variable {c : Cursor} {r cut : Bytes}

theorem FixedType.code_lt (t : FixedType) : t.code < 256 ^ 4 := by cases t <;> decide

theorem itemByteSize_code (t : FixedType) : itemByteSize t.code = some t.width := by
  cases t <;> rfl

theorem skipOrReadValue_code (c : Cursor) (t : FixedType) :
    skipOrReadValue c t.code = readNumber c t.extra t.text := by
  cases t <;> rw [FixedType.code, skipOrReadValue] <;> rfl

/-- Every code is one of a fixed width, text, an array, or none at all. -/
theorem code_cases (n : Nat) : (∃ t : FixedType, t.code = n) ∨ n = 8 ∨ n = 9 ∨ 12 < n := by
  rcases Nat.lt_or_ge 12 n with h | h
  · exact .inr (.inr (.inr h))
  · interval_cases n
    · exact .inl ⟨.uint8, rfl⟩
    · exact .inl ⟨.int8, rfl⟩
    · exact .inl ⟨.uint16, rfl⟩
    · exact .inl ⟨.int16, rfl⟩
    · exact .inl ⟨.uint32, rfl⟩
    · exact .inl ⟨.int32, rfl⟩
    · exact .inl ⟨.float32, rfl⟩
    · exact .inl ⟨.bool, rfl⟩
    · exact .inr (.inl rfl)
    · exact .inr (.inr (.inl rfl))
    · exact .inl ⟨.uint64, rfl⟩
    · exact .inl ⟨.int64, rfl⟩
    · exact .inl ⟨.float64, rfl⟩

theorem skipOrReadValue_unknown (c : Cursor) {n : Nat} (h : 12 < n) :
    skipOrReadValue c n = .error (.custom "Unknown GGUF type") := by
  obtain ⟨k, rfl⟩ := Nat.exists_eq_add_of_lt h
  rw [skipOrReadValue] <;> omega

theorem readString_eq {s : String} (h : c.rest = encodeText s ++ r) (hs : FitsText s) :
    ∃ hc, readString c = .ok (s, ⟨c.skip (encodeText s).length, hc⟩) := by
  rw [encodeText, List.append_assoc] at h
  have hlen : (Text.toBytes s).length ≤ 1024 := hs
  obtain ⟨h1, hlength⟩ := @readLe_eq c 7 _ _ h (by omega)
  have hrest : (c.skip 8).rest = Text.toBytes s ++ r := by
    rw [rest_skip, h, List.drop_left' (length_toLe _ _)]
  obtain ⟨h2, hbytes⟩ := readExact_eq hrest
  have hend : (c.skip 8).skip (Text.toBytes s).length = c.skip (encodeText s).length := by
    rw [skip_skip, encodeText, List.length_append, length_toLe]
  have hlt : (c.skip (encodeText s).length).left < c.left := by
    rw [← hend, h2]
    exact lt_of_le_of_lt (Nat.sub_le _ _) h1
  refine ⟨hlt, ?_⟩
  unfold readString
  simp only [hlength, if_neg (show ¬ 1024 < (Text.toBytes s).length by omega), hbytes,
    Text.ofBytes?_toBytes, hend]

theorem length_flatMap_toLe (width : Nat) (items : List Nat) :
    (items.flatMap (toLe width)).length = items.length * width := by
  simp [List.length_flatMap]

theorem encodeArrayHead_length (code count : Nat) : (encodeArrayHead code count).length = 12 := by
  simp [encodeArrayHead]

/-- The head of an array. -/
theorem readArrayHead_eq {code count : Nat} (h : c.rest = encodeArrayHead code count ++ r)
    (hcode : code < 256 ^ 4) (hcount : count < 256 ^ 8) :
    (∃ hc, c.readLe 3 = .ok (code, ⟨c.skip 4, hc⟩)) ∧
      ∃ hc, (c.skip 4).readLe 7 = .ok (count, ⟨c.skip 12, hc⟩) := by
  rw [encodeArrayHead, List.append_assoc] at h
  have hrest : (c.skip 4).rest = toLe 8 count ++ r := by
    rw [rest_skip, h, List.drop_left' (length_toLe _ _)]
  exact ⟨readLe_eq h hcode, by simpa only [skip_skip] using @readLe_eq _ 7 _ _ hrest hcount⟩

theorem skipTexts_eq (items : List String) (c : Cursor) (r : Bytes) (hfits : ∀ s ∈ items, FitsText s)
    (h : c.rest = items.flatMap encodeText ++ r) :
    ∃ hc, skipItems c 8 items.length = .ok ⟨c.skip (items.flatMap encodeText).length, hc⟩ := by
  induction items generalizing c with
  | nil => exact ⟨by simp [skip], by rw [List.length_nil, skipItems]; rfl⟩
  | cons s items ih =>
    rw [List.flatMap_cons, List.append_assoc] at h
    obtain ⟨h1, hread⟩ := readString_eq h (hfits s (List.mem_cons_self ..))
    obtain ⟨h2, hskip⟩ := ih _ (fun x hx => hfits x (List.mem_cons_of_mem _ hx))
      (rest_skip_of_append h)
    have hend : (c.skip (encodeText s).length).skip (items.flatMap encodeText).length =
        c.skip ((s :: items).flatMap encodeText).length := by
      rw [skip_skip, List.flatMap_cons, List.length_append]
    refine ⟨by rw [← hend]; omega, ?_⟩
    rw [List.length_cons, skipItems, skipOrReadValue]
    simp only [hread, hskip, hend]

/-- What is missing at the end is missing from the second of two parts, if that is long enough. -/
theorem split_cut {b x y : Bytes} (h : b ++ cut = x ++ y) (hcut : cut.length ≤ y.length) :
    ∃ y', b = x ++ y' ∧ y' ++ cut = y := by
  rcases List.append_eq_append_iff.1 h with ⟨a, rfl, rfl⟩ | ⟨a, rfl, rfl⟩
  · rw [List.length_append] at hcut
    have ha : a = [] := List.length_eq_zero_iff.1 (by omega)
    subst ha
    exact ⟨[], by simp, by simp⟩
  · exact ⟨a, rfl, rfl⟩

mutual

theorem GgufArray.blind_le : ∀ a : GgufArray, a.blind + 12 ≤ a.encode.length
  | .fixed t items => by
    rw [GgufArray.blind, GgufArray.encode, List.length_append, encodeArrayHead_length]
    omega
  | .text items => by
    rw [GgufArray.blind, GgufArray.encode, List.length_append, encodeArrayHead_length]
    omega
  | .nested items => by
    have := blindArrays_le items
    rw [GgufArray.blind, GgufArray.encode, List.length_append, encodeArrayHead_length]
    omega
  | .unknown code => by
    rw [GgufArray.blind, GgufArray.encode, encodeArrayHead_length]

theorem blindArrays_le : ∀ as : List GgufArray, blindArrays as ≤ (encodeArrays as).length
  | [] => by simp [blindArrays]
  | [a] => by
    have := GgufArray.blind_le a
    rw [blindArrays, encodeArrays, encodeArrays, List.append_nil]
    omega
  | a :: b :: as => by
    have := blindArrays_le (b :: as)
    rw [blindArrays, encodeArrays, List.length_append]
    omega

end

mutual

/-- What ends at a position of 64 bits is in range. -/
theorem GgufArray.inRange_of_lt : ∀ (a : GgufArray) (pos : Nat), pos + a.encode.length < 2 ^ 64 →
    a.InRange pos
  | .fixed t items, pos, h => by
    rw [GgufArray.encode, List.length_append, encodeArrayHead_length, length_flatMap_toLe] at h
    rwa [GgufArray.InRange]
  | .text _, _, _ => by rw [GgufArray.InRange]; trivial
  | .nested items, pos, h => by
    rw [GgufArray.encode, List.length_append, encodeArrayHead_length, ← Nat.add_assoc] at h
    rw [GgufArray.InRange]
    exact arraysInRange_of_lt items (pos + 12) h
  | .unknown _, _, _ => by rw [GgufArray.InRange]; trivial

theorem arraysInRange_of_lt : ∀ (as : List GgufArray) (pos : Nat),
    pos + (encodeArrays as).length < 2 ^ 64 → ArraysInRange pos as
  | [], _, _ => by rw [ArraysInRange]; trivial
  | a :: as, pos, h => by
    rw [encodeArrays, List.length_append] at h
    rw [ArraysInRange]
    exact ⟨a.inRange_of_lt pos (by omega), arraysInRange_of_lt as _ (by omega)⟩

end

theorem GgufValue.inRange_of_lt (v : GgufValue) (pos : Nat) (h : pos + v.encode.length < 2 ^ 64) :
    v.InRange pos := by
  cases v with
  | fixed t n => exact trivial
  | text s => exact trivial
  | array a => exact a.inRange_of_lt pos h

theorem pairsInRange_of_lt (pairs : List (String × GgufValue)) (pos : Nat)
    (h : pos + (pairs.flatMap encodePair).length < 2 ^ 64) : PairsInRange pos pairs := by
  induction pairs generalizing pos with
  | nil => exact trivial
  | cons p pairs ih =>
    rw [List.flatMap_cons, List.length_append] at h
    have hpair : (encodePair p).length = (encodeText p.1).length + 4 + p.2.encode.length := by
      simp only [encodePair, List.length_append, length_toLe]
    exact ⟨p.2.inRange_of_lt _ (by omega), ih _ (by omega)⟩

mutual

theorem GgufArray.skip_eq : ∀ (a : GgufArray) (c : Cursor) (r cut : Bytes), a.Fits →
    c.rest ++ cut = a.encode ++ r → cut.length ≤ a.blind + r.length →
    a.InRange c.pos →
    ∃ hc, skipOrReadValue c 9 = .ok (arrayText a.length, ⟨c.skip a.encode.length, hc⟩)
  | .fixed t items, c, r, cut, _, h, hcut, hpos => by
    rw [GgufArray.InRange] at hpos
    rw [GgufArray.encode] at h ⊢
    rw [List.append_assoc] at h
    obtain ⟨y, hy, -⟩ := split_cut h (by simpa [GgufArray.blind] using hcut)
    rw [List.length_append, encodeArrayHead_length, length_flatMap_toLe]
    have hwidth : items.length ≤ items.length * t.width :=
      Nat.le_mul_of_pos_right _ (Nat.succ_pos _)
    obtain ⟨⟨h1, htype⟩, h2, hcount⟩ := readArrayHead_eq hy t.code_lt (by omega)
    have hlt : (c.skip (12 + items.length * t.width)).left < c.left := by
      rw [left_skip] at h1 ⊢
      omega
    have hpos' : (c.skip 12).pos = c.pos + 12 := rfl
    refine ⟨hlt, ?_⟩
    rw [skipOrReadValue]
    simp only [htype, hcount, itemByteSize_code, hpos', skip_skip, GgufArray.length,
      if_neg (show ¬ 2 ^ 64 ≤ items.length * t.width by omega),
      if_neg (show ¬ 2 ^ 64 ≤ c.pos + 12 + items.length * t.width by omega)]
  | .text items, c, r, cut, hfits, h, hcut, _ => by
    rw [GgufArray.Fits] at hfits
    rw [GgufArray.encode] at h ⊢
    rw [List.append_assoc] at h
    have hcut' : cut.length ≤ r.length := by simpa [GgufArray.blind] using hcut
    obtain ⟨y, hy, hpayload⟩ := split_cut h (by rw [List.length_append]; omega)
    have hmax : maxSkippedItems = 65536 := rfl
    obtain ⟨⟨h1, htype⟩, h2, hcount⟩ := readArrayHead_eq hy (by decide) (by omega)
    obtain ⟨z, hz, -⟩ := split_cut hpayload hcut'
    have hrest : (c.skip 12).rest = items.flatMap encodeText ++ z := by
      rw [← hz]
      exact rest_skip_of_append (b := encodeArrayHead 8 items.length) hy
    obtain ⟨h3, hskip⟩ := skipTexts_eq items _ _ hfits.2 hrest
    rw [List.length_append, encodeArrayHead_length, ← skip_skip]
    refine ⟨by omega, ?_⟩
    rw [skipOrReadValue]
    simp only [htype, hcount, itemByteSize, Nat.min_eq_left hfits.1, hskip,
      if_neg (show ¬ maxSkippedItems < items.length by omega), GgufArray.length]
  | .nested items, c, r, cut, hfits, h, hcut, hpos => by
    rw [GgufArray.Fits] at hfits
    rw [GgufArray.InRange] at hpos
    rw [GgufArray.encode] at h ⊢
    rw [List.append_assoc] at h
    have hle := blindArrays_le items
    rw [GgufArray.blind] at hcut
    obtain ⟨y, hy, hpayload⟩ := split_cut h (by rw [List.length_append]; omega)
    have hmax : maxSkippedItems = 65536 := rfl
    obtain ⟨⟨h1, htype⟩, h2, hcount⟩ := readArrayHead_eq hy (by decide) (by omega)
    have hrest : (c.skip 12).rest ++ cut = encodeArrays items ++ r := by
      rw [← hpayload]
      exact congrArg (· ++ cut) (rest_skip_of_append (b := encodeArrayHead 9 items.length) hy)
    obtain ⟨h3, hskip⟩ := skipArrays_eq items (c.skip 12) r cut hfits.2 hrest hcut hpos
    rw [List.length_append, encodeArrayHead_length, ← skip_skip]
    refine ⟨by omega, ?_⟩
    rw [skipOrReadValue]
    simp only [htype, hcount, itemByteSize, Nat.min_eq_left hfits.1, hskip,
      if_neg (show ¬ maxSkippedItems < items.length by omega), GgufArray.length]
  | .unknown code, c, r, cut, hfits, h, hcut, _ => by
    rw [GgufArray.Fits] at hfits
    rw [GgufArray.encode] at h ⊢
    obtain ⟨y, hy, -⟩ := split_cut h (by simpa [GgufArray.blind] using hcut)
    obtain ⟨⟨h1, htype⟩, h2, hcount⟩ := readArrayHead_eq hy hfits.2 (by decide)
    have hsize : itemByteSize code = none := by
      unfold itemByteSize
      split <;> first | omega | rfl
    rw [encodeArrayHead_length]
    refine ⟨lt_trans h2 h1, ?_⟩
    rw [skipOrReadValue]
    simp only [htype, hcount, hsize, Nat.zero_min, GgufArray.length]
    rw [skipItems]
    rfl

theorem skipArrays_eq : ∀ (as : List GgufArray) (c : Cursor) (r cut : Bytes), FitArrays as →
    c.rest ++ cut = encodeArrays as ++ r → cut.length ≤ blindArrays as + r.length →
    ArraysInRange c.pos as →
    ∃ hc, skipItems c 9 as.length = .ok ⟨c.skip (encodeArrays as).length, hc⟩
  | [], c, r, cut, _, _, _, _ =>
    ⟨by simp [encodeArrays, skip], by rw [List.length_nil, skipItems]; rfl⟩
  | [a], c, r, cut, hfits, h, hcut, hpos => by
    rw [ArraysInRange] at hpos
    rw [encodeArrays, encodeArrays, List.append_nil] at h ⊢
    obtain ⟨h1, hread⟩ := GgufArray.skip_eq a c r cut hfits.1 h hcut hpos.1
    refine ⟨h1.le, ?_⟩
    rw [List.length_singleton, skipItems]
    simp only [hread]
    rw [skipItems]
  | a :: b :: as, c, r, cut, hfits, h, hcut, hpos => by
    rw [ArraysInRange] at hpos
    rw [encodeArrays] at h ⊢
    rw [List.append_assoc] at h
    have hle := blindArrays_le (b :: as)
    rw [blindArrays] at hcut
    rw [List.length_append]
    obtain ⟨y, hy, hrest⟩ := split_cut h (by rw [List.length_append]; omega)
    obtain ⟨h1, hread⟩ := GgufArray.skip_eq a c y [] hfits.1 (by rw [List.append_nil, hy]) (by simp)
      hpos.1
    have hnext : (c.skip a.encode.length).rest ++ cut = encodeArrays (b :: as) ++ r := by
      rw [← hrest, rest_skip_of_append hy]
    obtain ⟨h2, hskip⟩ := skipArrays_eq (b :: as) (c.skip a.encode.length) r cut hfits.2 hnext hcut
      hpos.2
    rw [← skip_skip]
    refine ⟨by omega, ?_⟩
    rw [List.length_cons, skipItems]
    simp only [hread, hskip]

end

/-! ### Reading values, pairs and headers -/

theorem GgufValue.blind_le (v : GgufValue) : v.blind ≤ v.encode.length := by
  cases v with
  | fixed t n => exact Nat.zero_le _
  | text s => exact Nat.zero_le _
  | array a =>
    have := a.blind_le
    rw [blind, encode]
    omega

theorem GgufValue.skip_eq (v : GgufValue) (c : Cursor) (r cut : Bytes) (hfits : v.Fits)
    (h : c.rest ++ cut = v.encode ++ r) (hcut : cut.length ≤ v.blind + r.length)
    (hpos : v.InRange c.pos) :
    ∃ hc, skipOrReadValue c v.code = .ok (v.render, ⟨c.skip v.encode.length, hc⟩) := by
  cases v with
  | fixed t n =>
    obtain ⟨y, hy, -⟩ := split_cut h (by simpa [blind] using hcut)
    obtain ⟨h1, hread⟩ := readLe_eq hy hfits
    rw [encode, length_toLe]
    refine ⟨h1, ?_⟩
    rw [code, skipOrReadValue_code, readNumber, hread]
    rfl
  | text s =>
    obtain ⟨y, hy, -⟩ := split_cut h (by simpa [blind] using hcut)
    obtain ⟨h1, hread⟩ := readString_eq hy hfits
    refine ⟨h1, ?_⟩
    rw [code, skipOrReadValue, hread]
    rfl
  | array a => exact a.skip_eq c r cut hfits h hcut hpos

theorem GgufValue.code_lt (v : GgufValue) : v.code < 256 ^ 4 := by
  cases v with
  | fixed t n => exact t.code_lt
  | text s => exact (by decide : 8 < 256 ^ 4)
  | array a => exact (by decide : 9 < 256 ^ 4)

theorem blindPairs_le (pairs : List (String × GgufValue)) :
    blindPairs pairs ≤ (pairs.flatMap encodePair).length := by
  induction pairs with
  | nil => simp [blindPairs]
  | cons p pairs ih =>
    rw [List.flatMap_cons, List.length_append]
    cases pairs with
    | nil =>
      have := p.2.blind_le
      rw [blindPairs, encodePair, List.length_append]
      omega
    | cons q pairs =>
      rw [blindPairs]
      omega

/-- The three parts of one pair. -/
theorem readPair_eq (p : String × GgufValue) (c : Cursor) (r cut : Bytes) (hkey : FitsText p.1)
    (hvalue : p.2.Fits) (h : c.rest ++ cut = encodePair p ++ r)
    (hcut : cut.length ≤ p.2.blind + r.length)
    (hpos : p.2.InRange (c.pos + (encodeText p.1).length + 4)) :
    (∃ hc, readString c = .ok (p.1, ⟨c.skip (encodeText p.1).length, hc⟩)) ∧
      (∃ hc, (c.skip (encodeText p.1).length).readLe 3 =
        .ok (p.2.code, ⟨c.skip ((encodeText p.1).length + 4), hc⟩)) ∧
      ∃ hc, skipOrReadValue (c.skip ((encodeText p.1).length + 4)) p.2.code =
        .ok (p.2.render, ⟨c.skip (encodePair p).length, hc⟩) := by
  have hle := p.2.blind_le
  have hpair : (encodePair p).length = (encodeText p.1).length + 4 + p.2.encode.length := by
    simp only [encodePair, List.length_append, length_toLe]
  simp only [encodePair, List.append_assoc] at h
  obtain ⟨y, hy, hrest⟩ := split_cut h (by simp only [List.length_append]; omega)
  obtain ⟨z, hz, hrest'⟩ := split_cut hrest (by simp only [List.length_append]; omega)
  have hy' := (rest_skip_of_append hy).trans hz
  have hnext : (c.skip ((encodeText p.1).length + 4)).rest ++ cut = p.2.encode ++ r := by
    rw [← hrest', ← skip_skip, rest_skip, hy', List.drop_left' (length_toLe _ _)]
  refine ⟨readString_eq hy hkey, ?_, ?_⟩
  · rw [← skip_skip]
    exact readLe_eq hy' p.2.code_lt
  · rw [hpair, ← skip_skip c ((encodeText p.1).length + 4)]
    exact p.2.skip_eq _ r cut hvalue hnext hcut hpos

/-- One pair. -/
theorem readPairs_cons (p : String × GgufValue) (c : Cursor) (found : GgufMetadata) (n : Nat)
    (r cut : Bytes) (hkey : FitsText p.1) (hvalue : p.2.Fits) (h : c.rest ++ cut = encodePair p ++ r)
    (hcut : cut.length ≤ p.2.blind + r.length)
    (hpos : p.2.InRange (c.pos + (encodeText p.1).length + 4)) :
    readPairs c found (n + 1) =
      readPairs (c.skip (encodePair p).length) (scanPair found p.1 p.2.render) n := by
  obtain ⟨⟨h1, hstring⟩, ⟨h2, htype⟩, h3, hread⟩ := readPair_eq p c r cut hkey hvalue h hcut hpos
  rw [readPairs]
  simp only [hstring, htype, hread]

theorem readPairs_eq (pairs : List (String × GgufValue)) (c : Cursor) (found : GgufMetadata)
    (r cut : Bytes) (hkeys : ∀ pair ∈ pairs, FitsText pair.1) (hvalues : ∀ pair ∈ pairs, pair.2.Fits)
    (h : c.rest ++ cut = pairs.flatMap encodePair ++ r) (hcut : cut.length ≤ blindPairs pairs + r.length)
    (hpos : PairsInRange c.pos pairs) :
    readPairs c found pairs.length =
      .ok (pairs.foldl (fun found pair => scanPair found pair.1 pair.2.render) found) := by
  induction pairs generalizing c found with
  | nil => rfl
  | cons p pairs ih =>
    have hkey := hkeys p (List.mem_cons_self ..)
    have hvalue := hvalues p (List.mem_cons_self ..)
    rw [List.flatMap_cons, List.append_assoc] at h
    -- What is missing is missing from the last pair, which may be this one.
    cases pairs with
    | nil => exact readPairs_cons p c found 0 r cut hkey hvalue h hcut hpos.1
    | cons q pairs =>
      have hle := blindPairs_le (q :: pairs)
      rw [blindPairs] at hcut
      obtain ⟨y, hy, hrest⟩ := split_cut h (by rw [List.length_append]; omega)
      rw [List.length_cons, readPairs_cons p c found _ y [] hkey hvalue (by rw [List.append_nil, hy])
        (by simp) hpos.1, List.foldl_cons]
      have hnext : (c.skip (encodePair p).length).rest ++ cut =
          (q :: pairs).flatMap encodePair ++ r := by
        rw [← hrest, rest_skip_of_append hy]
      exact ih _ _ (fun x hx => hkeys x (List.mem_cons_of_mem _ hx))
        (fun x hx => hvalues x (List.mem_cons_of_mem _ hx)) hnext hcut hpos.2

/-- What stands before the pairs. -/
def encodeHead (version tensorCount count : Nat) : Bytes :=
  GGUF_MAGIC ++ toLe 4 version ++ toLe 8 tensorCount ++ toLe 8 count

/-- The head of a stream. -/
theorem readHead_eq {version tensorCount count : Nat} {y : Bytes} (hversion : version < 256 ^ 4)
    (htensors : tensorCount < 256 ^ 8) (hcount : count < 256 ^ 8) :
    let stream := encodeHead version tensorCount count ++ y
    (∃ hc, Cursor.readExact ⟨stream, 0⟩ 4 = .ok (GGUF_MAGIC, ⟨⟨stream, 4⟩, hc⟩)) ∧
      (∃ hc, Cursor.readLe ⟨stream, 4⟩ 3 = .ok (version, ⟨⟨stream, 8⟩, hc⟩)) ∧
      (∃ hc, Cursor.readLe ⟨stream, 8⟩ 7 = .ok (tensorCount, ⟨⟨stream, 16⟩, hc⟩)) ∧
      (∃ hc, Cursor.readLe ⟨stream, 16⟩ 7 = .ok (count, ⟨⟨stream, 24⟩, hc⟩)) ∧
      Cursor.rest ⟨stream, 24⟩ = y := by
  intro stream
  have hrest₀ : Cursor.rest ⟨stream, 0⟩ =
      GGUF_MAGIC ++ (toLe 4 version ++ (toLe 8 tensorCount ++ (toLe 8 count ++ y))) := by
    change stream = _
    simp only [stream, encodeHead, List.append_assoc]
  have hrest₁ := rest_skip_of_append hrest₀
  have hrest₂ := rest_skip_of_append hrest₁
  have hrest₃ := rest_skip_of_append hrest₂
  have hrest₄ := rest_skip_of_append hrest₃
  simp only [length_toLe, Cursor.skip] at hrest₁ hrest₂ hrest₃ hrest₄
  exact ⟨readExact_eq hrest₀, readLe_eq hrest₁ hversion, readLe_eq hrest₂ htensors,
    readLe_eq hrest₃ hcount, hrest₄⟩

/-- A stream that begins with a header, up to what is skipped without being looked at. -/
theorem parseGgufHeader_of_inRange (header : GgufHeader) (hfits : header.Fits)
    (stream r cut : Bytes) (h : stream ++ cut = header.encode ++ r)
    (hcut : cut.length ≤ blindPairs header.pairs + r.length)
    (hpos : PairsInRange 24 header.pairs) :
    parseGgufHeader stream = .ok header.metadata := by
  have hle := blindPairs_le header.pairs
  have hv := hfits.version
  have hc := hfits.count
  have hencode : header.encode = encodeHead header.version header.tensorCount header.pairs.length ++
      header.pairs.flatMap encodePair := rfl
  rw [hencode, List.append_assoc] at h
  obtain ⟨y, rfl, hpairs⟩ := split_cut h (by rw [List.length_append]; omega)
  obtain ⟨⟨h1, hmagic⟩, ⟨h2, hversion⟩, ⟨h3, htensors⟩, ⟨h4, hcount⟩, hrest⟩ :=
    readHead_eq (y := y) (show header.version < 256 ^ 4 by omega) hfits.tensorCount
      (show header.pairs.length < 256 ^ 8 by omega)
  have hread := readPairs_eq header.pairs _
    ⟨header.version, header.tensorCount, none, none, none, ∅⟩ r cut hfits.keys hfits.values
    (by rw [hrest, hpairs]) hcut hpos
  unfold parseGgufHeader
  simp only [hmagic, hversion, htensors, hcount, hread, GGUF_MAGIC, ne_eq, not_true_eq_false,
    if_false, if_neg (show ¬ (header.version < 2 ∨ 3 < header.version) by omega),
    if_neg (show ¬ 4096 < header.pairs.length by omega), GgufHeader.metadata]

theorem parseGgufHeader_eq (header : GgufHeader) (hfits : header.Fits) (stream r cut : Bytes)
    (h : stream ++ cut = header.encode ++ r)
    (hcut : cut.length ≤ blindPairs header.pairs + r.length)
    (hlen : header.encode.length < 2 ^ 64) :
    parseGgufHeader stream = .ok header.metadata := by
  refine parseGgufHeader_of_inRange header hfits stream r cut h hcut (pairsInRange_of_lt _ _ ?_)
  have hmagic : GGUF_MAGIC.length = 4 := rfl
  simp only [GgufHeader.encode, List.length_append, length_toLe, hmagic] at hlen
  omega

/-! ### The round trip -/

/-- The text of the last value whose key satisfies a predicate. -/
def GgufHeader.lastValue (header : GgufHeader) (matching : String → Bool) : Option String :=
  (header.pairs.reverse.find? fun pair => matching pair.1).map fun pair => pair.2.render

/-- One more pair at the end. -/
theorem GgufHeader.metadata_append (version tensorCount : Nat) (pairs : List (String × GgufValue))
    (p : String × GgufValue) :
    (GgufHeader.mk version tensorCount (pairs ++ [p])).metadata =
      scanPair (GgufHeader.mk version tensorCount pairs).metadata p.1 p.2.render := by
  rw [metadata, List.foldl_append]
  rfl

theorem GgufHeader.lastValue_append (version tensorCount : Nat) (pairs : List (String × GgufValue))
    (p : String × GgufValue) (matching : String → Bool) :
    (GgufHeader.mk version tensorCount (pairs ++ [p])).lastValue matching =
      if matching p.1 then some p.2.render
      else (GgufHeader.mk version tensorCount pairs).lastValue matching := by
  rw [lastValue, List.reverse_append, List.reverse_singleton, List.singleton_append, List.find?_cons]
  split <;> simp_all [lastValue]

/-- What a pair leaves alone, and what it sets. -/
theorem scanPair_spec (found : GgufMetadata) (key val : String) :
    (scanPair found key val).version = found.version ∧
      (scanPair found key val).tensorCount = found.tensorCount ∧
      (scanPair found key val).attributes = found.attributes.insert key val ∧
      (scanPair found key val).architecture =
        (if key = "general.architecture" then some val else found.architecture) ∧
      (scanPair found key val).contextLength =
        (if Text.endsWith key ".context_length" then Text.parseUnsigned 64 val
          else found.contextLength) ∧
      (scanPair found key val).fileType =
        (if key = "general.file_type" then Text.parseUnsigned 32 val else found.fileType) := by
  by_cases harch : key = "general.architecture"
  · subst harch
    have hsuffix : Text.endsWith "general.architecture" ".context_length" = false := by decide
    have htype : ¬ "general.architecture" = "general.file_type" := by decide
    refine ⟨rfl, rfl, rfl, rfl, ?_, ?_⟩
    · rw [if_neg (by simp [hsuffix])]
      rfl
    · rw [if_neg htype]
      rfl
  by_cases hcontext : Text.endsWith key ".context_length" = true
  · have htype : ¬ key = "general.file_type" := by
      rintro rfl
      exact absurd hcontext (by decide)
    simp [scanPair, harch, hcontext, htype]
  · by_cases htype : key = "general.file_type"
    · subst htype
      have hsuffix : Text.endsWith "general.file_type" ".context_length" = false := by decide
      simp [scanPair, hsuffix]
    · simp [scanPair, harch, hcontext, htype]

/-- What a header is read as: the last value of each key, and the last value of the keys that
stand for a field. -/
theorem GgufHeader.metadata_spec (header : GgufHeader) :
    header.metadata.version = header.version ∧
      header.metadata.tensorCount = header.tensorCount ∧
      (∀ key, header.metadata.attributes.lookup key = header.lastValue (· = key)) ∧
      header.metadata.architecture = header.lastValue (· = "general.architecture") ∧
      header.metadata.contextLength =
        (header.lastValue (Text.endsWith · ".context_length")).bind (Text.parseUnsigned 64) ∧
      header.metadata.fileType =
        (header.lastValue (· = "general.file_type")).bind (Text.parseUnsigned 32) := by
  obtain ⟨version, tensorCount, pairs⟩ := header
  induction pairs using List.reverseRecOn with
  | nil => exact ⟨rfl, rfl, fun _ => rfl, rfl, rfl, rfl⟩
  | append_singleton pairs p ih =>
    obtain ⟨ih1, ih2, ih3, ih4, ih5, ih6⟩ := ih
    obtain ⟨h1, h2, h3, h4, h5, h6⟩ :=
      scanPair_spec (mk version tensorCount pairs).metadata p.1 p.2.render
    simp only [metadata_append, lastValue_append, h1, h2, h3, h4, h5, h6, ih1, ih2, ih4, ih5, ih6,
      decide_eq_true_eq]
    refine ⟨trivial, trivial, fun key => ?_, trivial, ?_, ?_⟩
    · by_cases hkey : p.1 = key
      · subst hkey
        rw [AList.lookup_insert, if_pos rfl]
      · rw [AList.lookup_insert_ne (Ne.symm hkey), ih3, if_neg hkey]
    · split <;> rfl
    · split <;> rfl

/-- A stream that begins with the encoding of a header is read as that header. -/
theorem parse_encode (header : GgufHeader) (hfits : header.Fits) (trailing : Bytes)
    (hlen : (header.encode ++ trailing).length < 2 ^ 63) :
    ∃ found, parseGgufHeader (header.encode ++ trailing) = .ok found ∧
      found.version = header.version ∧ found.tensorCount = header.tensorCount ∧
      (∀ key, found.attributes.lookup key = header.lastValue (· = key)) ∧
      found.architecture = header.lastValue (· = "general.architecture") ∧
      found.contextLength =
        (header.lastValue (Text.endsWith · ".context_length")).bind (Text.parseUnsigned 64) ∧
      found.fileType =
        (header.lastValue (· = "general.file_type")).bind (Text.parseUnsigned 32) := by
  rw [List.length_append] at hlen
  refine ⟨header.metadata, ?_, header.metadata_spec⟩
  exact parseGgufHeader_eq header hfits _ trailing [] (List.append_nil _) (by simp) (by omega)

/-- A header with an array of arrays between two other pairs. -/
def sampleHeader : GgufHeader where
  version := 3
  tensorCount := 291
  pairs :=
    [("general.architecture", .text "llama"),
      ("shape", .array (.nested [.fixed .uint16 [7, 513], .text ["x", ""]])),
      ("llama.context_length", .fixed .uint32 4096)]

theorem sampleHeader_fits : sampleHeader.Fits where
  version := by decide
  tensorCount := by decide
  count := by decide
  keys := by
    unfold FitsText
    decide
  values := by
    simp only [sampleHeader, List.forall_mem_cons, GgufValue.Fits, GgufArray.Fits, FitArrays, FitsText,
      List.not_mem_nil, false_implies, implies_true, and_true]
    decide

theorem sampleHeader_parse :
    ∃ found, parseGgufHeader (sampleHeader.encode ++ [0, 9]) = .ok found ∧ found.version = 3 ∧
      found.tensorCount = 291 ∧
      (∀ key, found.attributes.lookup key = sampleHeader.lastValue (· = key)) ∧
      found.architecture = sampleHeader.lastValue (· = "general.architecture") ∧
      found.contextLength =
        (sampleHeader.lastValue (Text.endsWith · ".context_length")).bind (Text.parseUnsigned 64) ∧
      found.fileType =
        (sampleHeader.lastValue (· = "general.file_type")).bind (Text.parseUnsigned 32) :=
  parse_encode sampleHeader sampleHeader_fits [0, 9] (by decide +kernel)

end Modeld
