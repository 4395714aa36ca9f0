import Modeld.Format.GgufSoundness

/-!
# How deep a header nests

`skip_or_read_value` calls itself for the elements of an array that have no fixed size, so an array
in an array is a call in a call. Every other limit of the parser leaves this one open: twelve bytes
of the stream open one more array. The calls go as deep as the arrays that the stream opens inside
each other, whether or not it ever closes them.
-/

namespace Modeld

open Host Cursor

/-! ### How deep the calls go -/

mutual

/-- How many calls for arrays are at most open at one time in `skipOrReadValue c valType`. -/
def arrayDepth (c : Cursor) (valType : Nat) : Nat :=
  if valType = 9 then
    match c.readLe 3 with
    | .error _ => 1
    | .ok (itemType, ⟨c₁, _⟩) =>
      match c₁.readLe 7 with
      | .error _ => 1
      | .ok (count, ⟨c₂, _⟩) =>
        match itemByteSize itemType with
        | some _ => 1
        | none => 1 + itemsDepth c₂ itemType (min count maxSkippedItems)
  else 0
termination_by (c.left, 0)

/-- As for the elements of an array, up to the one that cannot be read. -/
def itemsDepth (c : Cursor) (itemType : Nat) : Nat → Nat
  | 0 => 0
  | n + 1 =>
    match skipOrReadValue c itemType with
    | .error _ => arrayDepth c itemType
    | .ok (_, ⟨c', _⟩) => max (arrayDepth c itemType) (itemsDepth c' itemType n)
termination_by n => (c.left, n + 1)

end

/-- As for the values of the key-value pairs. -/
def pairsDepth (c : Cursor) : Nat → Nat
  | 0 => 0
  | n + 1 =>
    match readString c with
    | .error _ => 0
    | .ok (_, ⟨c₁, _⟩) =>
      match c₁.readLe 3 with
      | .error _ => 0
      | .ok (valType, ⟨c₂, _⟩) =>
        match skipOrReadValue c₂ valType with
        | .error _ => arrayDepth c₂ valType
        | .ok (_, ⟨c₃, _⟩) => max (arrayDepth c₂ valType) (pairsDepth c₃ n)

/-- As for `parseGgufHeader`. -/
def parseDepth (stream : Bytes) : Nat :=
  match Cursor.readExact ⟨stream, 0⟩ 4 with
  | .error _ => 0
  | .ok (magic, ⟨c₀, _⟩) =>
    if magic ≠ [0x47, 0x47, 0x55, 0x46] then 0
    else
      match c₀.readLe 3 with
      | .error _ => 0
      | .ok (version, ⟨c₁, _⟩) =>
        if version < 2 ∨ 3 < version then 0
        else
          match c₁.readLe 7 with
          | .error _ => 0
          | .ok (_, ⟨c₂, _⟩) =>
            match c₂.readLe 7 with
            | .error _ => 0
            | .ok (kvCount, ⟨c₃, _⟩) => if 4096 < kvCount then 0 else pairsDepth c₃ kvCount

/-! ### Streams that open arrays inside each other -/

/-- An array of arrays that is open: how many elements it announces, and those that are there. -/
structure OpenArray where
  count : Nat
  items : List GgufArray

def OpenArray.encode (a : OpenArray) : Bytes := encodeArrayHead 9 a.count ++ encodeArrays a.items

/-- It has more elements, few enough for the parser to go on to the next. -/
structure OpenArray.Fits (a : OpenArray) (pos : Nat) : Prop where
  count : a.count < 256 ^ 8
  more : a.items.length < min a.count maxSkippedItems
  items : FitArrays a.items
  range : ArraysInRange (pos + 12) a.items

/-- Open arrays, each the next element of the one before. -/
def PathFits (pos : Nat) : List OpenArray → Prop
  | [] => True
  | a :: path => a.Fits pos ∧ PathFits (pos + a.encode.length) path

/-- Complete pairs, and one more whose value is an array in which arrays are open. -/
structure OpenPairs where
  pairs : List (String × GgufValue)
  key : String
  path : List OpenArray

namespace OpenPairs

def encode (o : OpenPairs) : Bytes :=
  o.pairs.flatMap encodePair ++
    (encodeText o.key ++ (toLe 4 9 ++ o.path.flatMap OpenArray.encode))

/-- Where the value of the last pair begins, read from position `pos` on. -/
def valuePos (o : OpenPairs) (pos : Nat) : Nat :=
  pos + (o.pairs.flatMap encodePair).length + ((encodeText o.key).length + 4)

structure Fits (o : OpenPairs) (pos : Nat) : Prop where
  keys : ∀ pair ∈ o.pairs, FitsText pair.1
  values : ∀ pair ∈ o.pairs, pair.2.Fits
  range : PairsInRange pos o.pairs
  key : FitsText o.key
  path : PathFits (o.valuePos pos) o.path

end OpenPairs

/-- The beginning of a header, up to the innermost open array. -/
structure OpenHeader where
  version : Nat
  tensorCount : Nat
  count : Nat
  body : OpenPairs

namespace OpenHeader

def encode (o : OpenHeader) : Bytes :=
  encodeHead o.version o.tensorCount o.count ++ o.body.encode

/-- How many arrays are open: that of the pair, and those inside it. -/
def depth (o : OpenHeader) : Nat := o.body.path.length + 1

structure Fits (o : OpenHeader) : Prop where
  version : 2 ≤ o.version ∧ o.version ≤ 3
  tensorCount : o.tensorCount < 256 ^ 8
  count : o.body.pairs.length < o.count ∧ o.count ≤ 4096
  body : o.body.Fits 24

end OpenHeader

/-- The stream begins with a header in which `n` arrays are open. -/
def OpensArrays (n : Nat) (stream : Bytes) : Prop :=
  ∃ o : OpenHeader, o.Fits ∧ o.depth = n ∧ o.encode <+: stream

/-- The calls for arrays go at most `n` deep, and a header that nests deeper is refused. -/
def StaysWithin (n : Nat) (stream : Bytes) : Prop :=
  parseDepth stream ≤ n ∧ (OpensArrays (n + 1) stream → (parseGgufHeader stream).isOk = false)

/-! ### The depth of one array -/

variable {c : Cursor} {n : Nat} {r : Bytes}

theorem arrayDepth_of_ne {valType : Nat} (h : valType ≠ 9) : arrayDepth c valType = 0 := by
  rw [arrayDepth, if_neg h]

theorem one_le_arrayDepth (c : Cursor) : 1 ≤ arrayDepth c 9 := by
  rw [arrayDepth, if_pos rfl]
  split
  · exact le_rfl
  · split
    · exact le_rfl
    · split
      · exact le_rfl
      · exact Nat.le_add_right _ _

/-- Once the head of an array of arrays is read, the elements decide. -/
theorem arrayDepth_head {count : Nat} (h : c.rest = encodeArrayHead 9 count ++ r)
    (hcount : count < 256 ^ 8) :
    arrayDepth c 9 = 1 + itemsDepth (c.skip 12) 9 (min count maxSkippedItems) := by
  obtain ⟨⟨h1, htype⟩, h2, hcount⟩ := readArrayHead_eq h (by decide) hcount
  rw [arrayDepth, if_pos rfl]
  simp only [htype, hcount, itemByteSize]

/-- A depth that is reached among the elements is reached by one of them, behind others that could
be skipped. -/
theorem lt_itemsDepth_iff {itemType m : Nat} :
    n < itemsDepth c itemType m ↔ ∃ k < m, ∃ c' hc, skipItems c itemType k = .ok ⟨c', hc⟩ ∧
      n < arrayDepth c' itemType := by
  induction m generalizing c with
  | zero =>
    rw [itemsDepth]
    constructor
    · exact fun h => absurd h (Nat.not_lt_zero _)
    · rintro ⟨k, hk, -⟩
      exact absurd hk (Nat.not_lt_zero _)
  | succ m ih =>
    rw [itemsDepth]
    cases hread : skipOrReadValue c itemType with
    | error e =>
      constructor
      · intro h
        exact ⟨0, Nat.succ_pos _, c, le_rfl, by rw [skipItems], h⟩
      · rintro ⟨k, -, c', hc, hskip, h⟩
        cases k with
        | zero =>
          rw [skipItems] at hskip
          cases hskip
          exact h
        | succ k =>
          rw [skipItems, hread] at hskip
          cases hskip
    | ok p =>
      obtain ⟨s, c₁, h₁⟩ := p
      dsimp only
      rw [lt_max_iff, ih]
      constructor
      · rintro (h | ⟨k, hk, c', hc, hskip, h⟩)
        · exact ⟨0, Nat.succ_pos _, c, le_rfl, by rw [skipItems], h⟩
        · refine ⟨k + 1, Nat.succ_lt_succ hk, c', by omega, ?_, h⟩
          rw [skipItems, hread]
          simp only [hskip]
      · rintro ⟨k, hk, c', hc, hskip, h⟩
        cases k with
        | zero =>
          rw [skipItems] at hskip
          cases hskip
          exact .inl h
        | succ k =>
          rw [skipItems, hread] at hskip
          dsimp only at hskip
          cases hrest : skipItems c₁ itemType k with
          | error e =>
            rw [hrest] at hskip
            cases hskip
          | ok p =>
            rw [hrest] at hskip
            cases hskip
            exact .inr ⟨k, Nat.lt_of_succ_lt_succ hk, p.1, p.2, hrest, h⟩

/-- Arrays that are open at a position are calls that are open. -/
theorem length_lt_arrayDepth (path : List OpenArray) (c : Cursor) (r : Bytes)
    (h : c.rest = path.flatMap OpenArray.encode ++ r) (hfits : PathFits c.pos path) :
    path.length < arrayDepth c 9 := by
  induction path generalizing c with
  | nil => exact one_le_arrayDepth c
  | cons a path ih =>
    obtain ⟨ha, hpath⟩ := hfits
    rw [List.flatMap_cons, OpenArray.encode, List.append_assoc, List.append_assoc] at h
    have hitems := rest_skip_of_append h
    rw [encodeArrayHead_length] at hitems
    obtain ⟨hc, hskip⟩ := skipArrays_eq a.items (c.skip 12) (path.flatMap OpenArray.encode ++ r) []
      ha.items (by rw [List.append_nil, hitems]) (Nat.zero_le _) ha.range
    have hencode : a.encode.length = 12 + (encodeArrays a.items).length := by
      rw [OpenArray.encode, List.length_append, encodeArrayHead_length]
    have hpath' : PathFits ((c.skip 12).skip (encodeArrays a.items).length).pos path := by
      rw [hencode] at hpath
      rwa [skip_skip]
    rw [List.length_cons, arrayDepth_head h ha.count, Nat.add_comm 1]
    exact Nat.succ_lt_succ (lt_itemsDepth_iff.2
      ⟨_, ha.more, _, hc, hskip, ih _ (rest_skip_of_append hitems) hpath'⟩)

/-- What was skipped without anything missing stands before the rest. -/
theorem Spans.rest_eq {c c' : Cursor} {code : Bytes} (h : Spans c code 0 c') :
    c.rest = code ++ c'.rest := by
  obtain ⟨cut, hcut, hzero⟩ := h.rest
  obtain rfl : cut = [] := List.length_eq_zero_iff.1 (Nat.le_zero.1 hzero)
  rwa [List.append_nil] at hcut

/-- Calls that are open inside a call for an array are elements of it. -/
theorem exists_head {n : Nat} (h : n + 1 < arrayDepth c 9) :
    ∃ count r, c.rest = encodeArrayHead 9 count ++ r ∧ count < 256 ^ 8 ∧
      n < itemsDepth (c.skip 12) 9 (min count maxSkippedItems) := by
  rw [arrayDepth, if_pos rfl] at h
  split at h
  · exact absurd h (by omega)
  rename_i itemType c₁ h₁ htype
  split at h
  · exact absurd h (by omega)
  rename_i count c₂ h₂ hcount
  split at h
  · exact absurd h (by omega)
  obtain ⟨-, hspan₁⟩ := readLe_sound htype
  obtain ⟨hlt, hspan₂⟩ := readLe_sound hcount
  have hhead : Spans c (encodeArrayHead itemType count) 0 c₂ := hspan₁.append hspan₂
  have hskip : c₂ = c.skip 12 := by
    rw [hhead.skip, encodeArrayHead_length]
  have hdepth : n < itemsDepth c₂ itemType (min count maxSkippedItems) := by omega
  obtain ⟨k, -, c', hc, -, hinner⟩ := lt_itemsDepth_iff.1 hdepth
  obtain rfl : itemType = 9 := by
    by_contra hne
    rw [arrayDepth_of_ne hne] at hinner
    exact absurd hinner (Nat.not_lt_zero _)
  exact ⟨count, c₂.rest, hhead.rest_eq, hlt, hskip ▸ hdepth⟩

/-- Calls that are open are arrays that are open. -/
theorem exists_path (n : Nat) (c : Cursor) (h : n < arrayDepth c 9) :
    ∃ path r, path.length = n ∧ PathFits c.pos path ∧
      c.rest = path.flatMap OpenArray.encode ++ r := by
  induction n generalizing c with
  | zero => exact ⟨[], c.rest, rfl, trivial, rfl⟩
  | succ n ih =>
    obtain ⟨count, r, hrest, hcount, hdepth⟩ := exists_head h
    obtain ⟨k, hk, c', hc, hskip, hinner⟩ := lt_itemsDepth_iff.1 hdepth
    obtain ⟨path, s, hlength, hpath, htail⟩ := ih c' hinner
    have hskip₁₂ : (c.skip 12).rest = r := by
      rw [← encodeArrayHead_length 9 count]
      exact rest_skip_of_append hrest
    by_cases hend : c'.rest = []
    · -- Nothing is left to open an array with, and the first element is as deep as any other.
      obtain rfl : path = [] := by
        rw [hend] at htail
        cases path with
        | nil => rfl
        | cons a path =>
          have hlen := congrArg List.length htail
          rw [List.flatMap_cons, OpenArray.encode, List.length_append, List.length_append,
            List.length_append, encodeArrayHead_length, List.length_nil] at hlen
          omega
      have hfits : OpenArray.Fits ⟨count, []⟩ c.pos := by
        refine ⟨hcount, (Nat.zero_le k).trans_lt hk, ?_, ?_⟩
        · rw [FitArrays]
          trivial
        · rw [ArraysInRange]
          trivial
      refine ⟨[⟨count, []⟩], r, by rw [← hlength]; rfl, ⟨hfits, trivial⟩, ?_⟩
      rw [List.flatMap_cons, OpenArray.encode, encodeArrays, List.append_nil, List.flatMap_nil,
        List.append_nil]
      exact hrest
    · obtain ⟨items, rfl, hitems, hrange, hspan⟩ := skipArrays_sound _ _ _ hskip
      have hcomplete : Spans (c.skip 12) (encodeArrays items) 0 c' := hspan.complete hend
      have hencode : OpenArray.encode ⟨count, items⟩ =
          encodeArrayHead 9 count ++ encodeArrays items := rfl
      have hpos : c'.pos = c.pos + (OpenArray.encode ⟨count, items⟩).length := by
        rw [hcomplete.skip, hencode, List.length_append, encodeArrayHead_length, skip_skip]
        rfl
      refine ⟨⟨count, items⟩ :: path, s, by rw [List.length_cons, hlength],
        ⟨⟨hcount, hk, hitems, hrange⟩, hpos ▸ hpath⟩, ?_⟩
      rw [List.flatMap_cons, hencode, List.append_assoc, List.append_assoc, ← htail,
        ← hcomplete.rest_eq, hskip₁₂]
      exact hrest

/-! ### The depth of the pairs -/

section Pair

variable {c₁ c₂ c₃ : Cursor} {key val : String} {valType : Nat} {h₁ : c₁.left < c.left}
  {h₂ : c₂.left < c₁.left} {h₃ : c₃.left < c₂.left}

/-- The value of the first pair counts. -/
theorem arrayDepth_le_pairsDepth (hkey : readString c = .ok (key, ⟨c₁, h₁⟩))
    (htype : c₁.readLe 3 = .ok (valType, ⟨c₂, h₂⟩)) (m : Nat) :
    arrayDepth c₂ valType ≤ pairsDepth c (m + 1) := by
  rw [pairsDepth]
  simp only [hkey, htype]
  split
  · exact le_rfl
  · exact le_max_left _ _

/-- So do the others, once it is read. -/
theorem pairsDepth_le_succ (hkey : readString c = .ok (key, ⟨c₁, h₁⟩))
    (htype : c₁.readLe 3 = .ok (valType, ⟨c₂, h₂⟩))
    (hval : skipOrReadValue c₂ valType = .ok (val, ⟨c₃, h₃⟩)) (m : Nat) :
    pairsDepth c₃ m ≤ pairsDepth c (m + 1) := by
  rw [pairsDepth]
  simp only [hkey, htype, hval]
  exact le_max_right _ _

end Pair

theorem OpenPairs.encode_cons (p : String × GgufValue) (pairs : List (String × GgufValue))
    (key : String) (path : List OpenArray) :
    OpenPairs.encode ⟨p :: pairs, key, path⟩ =
      encodePair p ++ OpenPairs.encode ⟨pairs, key, path⟩ := by
  rw [OpenPairs.encode, List.flatMap_cons, List.append_assoc]
  rfl

theorem OpenPairs.valuePos_cons (p : String × GgufValue) (pairs : List (String × GgufValue))
    (key : String) (path : List OpenArray) (pos : Nat) :
    OpenPairs.valuePos ⟨p :: pairs, key, path⟩ pos =
      OpenPairs.valuePos ⟨pairs, key, path⟩ (pos + (encodePair p).length) := by
  simp only [OpenPairs.valuePos, List.flatMap_cons, List.length_append]
  omega

theorem OpenPairs.fits_cons {p : String × GgufValue} {pairs : List (String × GgufValue)}
    {key : String} {path : List OpenArray} {pos : Nat} :
    OpenPairs.Fits ⟨p :: pairs, key, path⟩ pos ↔
      FitsText p.1 ∧ p.2.Fits ∧ p.2.InRange (pos + (encodeText p.1).length + 4) ∧
        OpenPairs.Fits ⟨pairs, key, path⟩ (pos + (encodePair p).length) := by
  constructor
  · intro h
    have hpath := h.path
    rw [OpenPairs.valuePos_cons] at hpath
    obtain ⟨hkey, hkeys⟩ := List.forall_mem_cons.1 h.keys
    obtain ⟨hvalue, hvalues⟩ := List.forall_mem_cons.1 h.values
    exact ⟨hkey, hvalue, h.range.1, hkeys, hvalues, h.range.2, h.key, hpath⟩
  · rintro ⟨hkey, hvalue, hrange, h⟩
    refine ⟨List.forall_mem_cons.2 ⟨hkey, h.keys⟩, List.forall_mem_cons.2 ⟨hvalue, h.values⟩,
      ⟨hrange, h.range⟩, h.key, ?_⟩
    rw [OpenPairs.valuePos_cons]
    exact h.path

/-- Complete pairs are read, and then the calls go as deep as the next value nests. -/
theorem length_lt_pairsDepth (pairs : List (String × GgufValue)) (key : String)
    (path : List OpenArray) (c : Cursor) (r : Bytes) (m : Nat)
    (h : c.rest = OpenPairs.encode ⟨pairs, key, path⟩ ++ r)
    (hfits : OpenPairs.Fits ⟨pairs, key, path⟩ c.pos) (hm : pairs.length < m) :
    path.length < pairsDepth c m := by
  obtain ⟨m, rfl⟩ := Nat.exists_eq_succ_of_ne_zero (Nat.ne_zero_of_lt hm)
  induction pairs generalizing c m with
  | nil =>
    simp only [OpenPairs.encode, List.flatMap_nil, List.nil_append, List.append_assoc] at h
    have hrest := rest_skip_of_append h
    have hvalue := rest_skip_of_append hrest
    obtain ⟨h1, hkey⟩ := readString_eq h hfits.key
    obtain ⟨h2, htype⟩ := readLe_eq hrest (by decide : 9 < 256 ^ (3 + 1))
    rw [length_toLe] at hvalue
    exact (length_lt_arrayDepth path _ r hvalue hfits.path).trans_le
      (arrayDepth_le_pairsDepth hkey htype m)
  | cons p pairs ih =>
    obtain ⟨hkeyfits, hvaluefits, hrange, hfits'⟩ := OpenPairs.fits_cons.1 hfits
    obtain ⟨m, rfl⟩ := Nat.exists_eq_succ_of_ne_zero
      (Nat.ne_zero_of_lt (Nat.lt_of_succ_lt_succ hm))
    rw [OpenPairs.encode_cons, List.append_assoc] at h
    obtain ⟨⟨h1, hkey⟩, ⟨h2, htype⟩, h3, hval⟩ := readPair_eq p c _ [] hkeyfits hvaluefits
      (by rw [List.append_nil, h]) (Nat.zero_le _) hrange
    exact (ih _ (rest_skip_of_append h) hfits' m (Nat.lt_of_succ_lt_succ hm)).trans_le
      (pairsDepth_le_succ hkey htype hval _)

/-- The value that the calls go deepest in stands behind complete pairs. -/
theorem exists_openPairs (n m : Nat) (c : Cursor) (h : n < pairsDepth c m) :
    ∃ (o : OpenPairs) (r : Bytes), o.pairs.length < m ∧ o.path.length = n ∧ o.Fits c.pos ∧
      c.rest = o.encode ++ r := by
  induction m generalizing c with
  | zero => exact absurd h (Nat.not_lt_zero _)
  | succ m ih =>
    rw [pairsDepth] at h
    split at h
    · exact absurd h (Nat.not_lt_zero _)
    rename_i key c₁ h₁ hkey
    split at h
    · exact absurd h (Nat.not_lt_zero _)
    rename_i valType c₂ h₂ htype
    obtain ⟨hkeyfits, hspan₁⟩ := readString_sound hkey
    obtain ⟨-, hspan₂⟩ := readLe_sound htype
    have hspan : Spans c (encodeText key ++ toLe 4 valType) 0 c₂ := hspan₁.append hspan₂
    have hpos : c₂.pos = c.pos + ((encodeText key).length + 4) := by
      rw [hspan.skip, List.length_append, length_toLe]
      rfl
    -- The first pair is the one that is open.
    have hfirst : n < arrayDepth c₂ valType → ∃ (o : OpenPairs) (r : Bytes),
        o.pairs.length < m + 1 ∧ o.path.length = n ∧ o.Fits c.pos ∧ c.rest = o.encode ++ r := by
      intro hdepth
      obtain rfl : valType = 9 := by
        by_contra hne
        rw [arrayDepth_of_ne hne] at hdepth
        exact absurd hdepth (Nat.not_lt_zero _)
      obtain ⟨path, r, hlength, hpath, hrest⟩ := exists_path n c₂ hdepth
      rw [hpos] at hpath
      refine ⟨⟨[], key, path⟩, r, Nat.succ_pos m, hlength,
        ⟨by simp, by simp, trivial, hkeyfits, hpath⟩, ?_⟩
      rw [hspan.rest_eq, hrest]
      simp only [OpenPairs.encode, List.flatMap_nil, List.nil_append, List.append_assoc]
    split at h
    · exact hfirst h
    rename_i val c₃ h₃ hval
    rcases lt_max_iff.1 h with hdepth | hdepth
    · exact hfirst hdepth
    -- Or it is complete, and one of the others is open.
    obtain ⟨⟨pairs, key', path⟩, r, hlt, hlength, hfits, hrest⟩ := ih c₃ hdepth
    obtain ⟨v, rfl, -, hvaluefits, hrange, hspan₃⟩ := skipOrReadValue_sound _ _ _ _ hval
    have hne : c₃.rest ≠ [] := by
      intro hnil
      have hlen := congrArg List.length hrest
      rw [hnil, OpenPairs.encode] at hlen
      simp only [List.length_nil, List.length_append, length_toLe] at hlen
      omega
    have hpair : Spans c (encodePair (key, v)) 0 c₃ :=
      (encodePair_sound hspan₁ hspan₂ hspan₃).complete hne
    have hpos₃ : c₃.pos = c.pos + (encodePair (key, v)).length := congrArg Cursor.pos hpair.skip
    rw [hpos, ← Nat.add_assoc] at hrange
    rw [hpos₃] at hfits
    refine ⟨⟨(key, v) :: pairs, key', path⟩, r, Nat.succ_lt_succ hlt, hlength,
      OpenPairs.fits_cons.2 ⟨hkeyfits, hvaluefits, hrange, hfits⟩, ?_⟩
    rw [hpair.rest_eq, hrest, OpenPairs.encode_cons, List.append_assoc]

/-! ### The depth of a header -/

/-- Behind a head within the limits, the pairs decide. -/
theorem parseDepth_head {version tensorCount count : Nat} {y : Bytes}
    (hversion : 2 ≤ version ∧ version ≤ 3) (htensors : tensorCount < 256 ^ 8)
    (hcount : count ≤ 4096) :
    parseDepth (encodeHead version tensorCount count ++ y) =
      pairsDepth ⟨encodeHead version tensorCount count ++ y, 24⟩ count := by
  obtain ⟨⟨h1, hmagic⟩, ⟨h2, hv⟩, ⟨h3, ht⟩, ⟨h4, hc⟩, -⟩ :=
    readHead_eq (y := y) (show version < 256 ^ 4 by omega) htensors
      (show count < 256 ^ 8 by omega)
  unfold parseDepth
  simp only [hmagic, hv, ht, hc, GGUF_MAGIC, ne_eq, not_true_eq_false, if_false,
    if_neg (show ¬ (version < 2 ∨ 3 < version) by omega), if_neg (show ¬ 4096 < count by omega)]

/-- Arrays that a stream opens inside each other are calls inside each other. -/
theorem OpensArrays.le_parseDepth {stream : Bytes} (h : OpensArrays n stream) :
    n ≤ parseDepth stream := by
  obtain ⟨o, hfits, rfl, r, rfl⟩ := h
  rw [OpenHeader.encode, List.append_assoc, parseDepth_head hfits.version hfits.tensorCount
    hfits.count.2]
  obtain ⟨-, -, -, -, hrest⟩ := readHead_eq (y := o.body.encode ++ r)
    (show o.version < 256 ^ 4 by have := hfits.version; omega) hfits.tensorCount
    (show o.count < 256 ^ 8 by have := hfits.count; omega)
  exact length_lt_pairsDepth _ _ _ _ r _ hrest hfits.body hfits.count.1

/-- And there are no other calls. -/
theorem opensArrays_of_lt {stream : Bytes} (h : n < parseDepth stream) :
    OpensArrays (n + 1) stream := by
  unfold parseDepth at h
  split at h
  · exact absurd h (Nat.not_lt_zero _)
  rename_i magic c₀ h₀ hmagic
  split at h
  · exact absurd h (Nat.not_lt_zero _)
  rename_i hmagiceq
  split at h
  · exact absurd h (Nat.not_lt_zero _)
  rename_i version c₁ h₁ hversion
  split at h
  · exact absurd h (Nat.not_lt_zero _)
  rename_i hrange
  split at h
  · exact absurd h (Nat.not_lt_zero _)
  rename_i tensorCount c₂ h₂ htensors
  split at h
  · exact absurd h (Nat.not_lt_zero _)
  rename_i kvCount c₃ h₃ hcount
  split at h
  · exact absurd h (Nat.not_lt_zero _)
  rename_i hmax
  obtain rfl := Decidable.not_not.1 hmagiceq
  obtain ⟨htensorslt, hspan⟩ := readHead_sound hmagic hversion htensors hcount
  have hhead : Spans ⟨stream, 0⟩ (encodeHead version tensorCount kvCount) 0 c₃ := hspan
  obtain ⟨o, r, hlt, hlength, hfits, hrest⟩ := exists_openPairs n kvCount c₃ h
  have hpos : c₃.pos = 24 := by
    have hlen : (encodeHead version tensorCount kvCount).length = 24 := by
      simp [encodeHead, GGUF_MAGIC]
    rw [hhead.skip, hlen]
    rfl
  rw [hpos] at hfits
  have hversion' : 2 ≤ version ∧ version ≤ 3 := by omega
  refine ⟨⟨version, tensorCount, kvCount, o⟩,
    ⟨hversion', htensorslt, ⟨hlt, Nat.le_of_not_lt hmax⟩, hfits⟩, congrArg (· + 1) hlength, r, ?_⟩
  have hstream : stream = encodeHead version tensorCount kvCount ++ c₃.rest := hhead.rest_eq
  rw [hstream, hrest, OpenHeader.encode, List.append_assoc]

/-- The calls stay within `n` levels on exactly the streams that do not open `n + 1` arrays inside
each other. -/
theorem staysWithin_iff (n : Nat) (stream : Bytes) :
    StaysWithin n stream ↔ ¬ OpensArrays (n + 1) stream := by
  constructor
  · intro h hopens
    exact absurd (hopens.le_parseDepth.trans h.1) (by omega)
  · intro h
    refine ⟨?_, fun hopens => absurd hopens h⟩
    by_contra hlt
    exact h (opensArrays_of_lt (Nat.lt_of_not_le hlt))

/-! ### No bound -/

/-- An array with an array in it, with an array in it, and so on. -/
def deepArray : Nat → GgufArray
  | 0 => .nested []
  | n + 1 => .nested [deepArray n]

/-- A header with one such array. -/
def deepHeader (n : Nat) : GgufHeader := ⟨3, 0, [("a", .array (deepArray n))]⟩

theorem deepArray_fits (n : Nat) : (deepArray n).Fits := by
  have hmax : maxSkippedItems = 65536 := rfl
  induction n with
  | zero =>
    rw [deepArray, GgufArray.Fits, FitArrays]
    exact ⟨Nat.zero_le _, trivial⟩
  | succ n ih =>
    rw [deepArray, GgufArray.Fits, FitArrays, FitArrays, List.length_singleton]
    exact ⟨by omega, ih, trivial⟩

theorem deepArray_inRange (n pos : Nat) : (deepArray n).InRange pos := by
  induction n generalizing pos with
  | zero =>
    rw [deepArray, GgufArray.InRange, ArraysInRange]
    trivial
  | succ n ih =>
    rw [deepArray, GgufArray.InRange, ArraysInRange, ArraysInRange]
    exact ⟨ih _, trivial⟩

/-- Each level takes twelve bytes. -/
theorem deepArray_encode (n : Nat) : (deepArray n).encode =
    (List.replicate n (OpenArray.mk 1 [])).flatMap OpenArray.encode ++ encodeArrayHead 9 0 := by
  induction n with
  | zero =>
    rw [deepArray, GgufArray.encode, encodeArrays, List.append_nil]
    rfl
  | succ n ih =>
    rw [deepArray, GgufArray.encode, encodeArrays, encodeArrays, List.append_nil, ih,
      List.replicate_succ, List.flatMap_cons, OpenArray.encode, encodeArrays, List.append_nil,
      List.append_assoc]
    rfl

theorem fitsText_a : FitsText "a" := by
  unfold FitsText
  decide

theorem deepHeader_fits (n : Nat) : (deepHeader n).Fits where
  version := show 2 ≤ 3 ∧ 3 ≤ 3 by decide
  tensorCount := show 0 < 256 ^ 8 by decide
  count := show 1 ≤ 4096 by decide
  keys := by
    rw [deepHeader, List.forall_mem_singleton]
    exact fitsText_a
  values := by
    rw [deepHeader, List.forall_mem_singleton]
    exact deepArray_fits n

theorem deepHeader_encode (n : Nat) : (deepHeader n).encode =
    OpenHeader.encode ⟨3, 0, 1, ⟨[], "a", List.replicate n ⟨1, []⟩⟩⟩ ++ encodeArrayHead 9 0 := by
  have hpairs : (deepHeader n).pairs.flatMap encodePair =
      encodeText "a" ++ toLe 4 9 ++ (deepArray n).encode := by
    rw [deepHeader, List.flatMap_singleton]
    rfl
  have hhead : (deepHeader n).encode =
      encodeHead 3 0 1 ++ (deepHeader n).pairs.flatMap encodePair := rfl
  rw [hhead, hpairs, deepArray_encode]
  simp only [OpenHeader.encode, OpenPairs.encode, List.flatMap_nil, List.nil_append,
    List.append_assoc]

theorem pathFits_replicate (n pos : Nat) : PathFits pos (List.replicate n ⟨1, []⟩) := by
  induction n generalizing pos with
  | zero => exact trivial
  | succ n ih =>
    refine ⟨⟨by decide, by decide, ?_, ?_⟩, ih _⟩
    · rw [FitArrays]
      trivial
    · rw [ArraysInRange]
      trivial

theorem deepHeader_opens (n : Nat) : OpensArrays (n + 1) (deepHeader n).encode := by
  have hbody : OpenPairs.Fits ⟨[], "a", List.replicate n ⟨1, []⟩⟩ 24 :=
    ⟨by simp, by simp, trivial, fitsText_a, pathFits_replicate n _⟩
  refine ⟨⟨3, 0, 1, ⟨[], "a", List.replicate n ⟨1, []⟩⟩⟩,
    ⟨show 2 ≤ 3 ∧ 3 ≤ 3 by decide, show 0 < 256 ^ 8 by decide, show 0 < 1 ∧ 1 ≤ 4096 by decide,
      hbody⟩, ?_, _, (deepHeader_encode n).symm⟩
  rw [OpenHeader.depth, List.length_replicate]

theorem deepHeader_accepted (n : Nat) :
    parseGgufHeader (deepHeader n).encode = .ok (deepHeader n).metadata :=
  parseGgufHeader_of_inRange (deepHeader n) (deepHeader_fits n) _ [] [] rfl (Nat.zero_le _)
    ⟨deepArray_inRange n _, trivial⟩

theorem deepHeader_length (n : Nat) : (deepHeader n).encode.length = 12 * n + 49 := by
  have hkey : (encodeText "a").length = 9 := by
    rw [encodeText, List.length_append, length_toLe]
    decide
  have hopen : (OpenArray.encode ⟨1, []⟩).length = 12 := by
    rw [OpenArray.encode, encodeArrays, List.append_nil, encodeArrayHead_length]
  have hmagic : GGUF_MAGIC.length = 4 := rfl
  simp only [deepHeader_encode, OpenHeader.encode, OpenPairs.encode, encodeHead, List.length_append,
    List.flatMap_nil, List.length_nil, length_toLe, hkey, hmagic, encodeArrayHead_length,
    List.length_flatMap, List.map_replicate, List.sum_replicate_nat, hopen]
  omega

/-- Whatever the bound, there is a header that nests deeper, takes twelve bytes for each level, and
is read to its end and accepted. -/
theorem nesting_unbounded : (¬ ∃ n, ∀ stream, StaysWithin n stream) ∧
    ∀ n, (deepHeader n).encode.length = 12 * n + 49 ∧ n < parseDepth (deepHeader n).encode ∧
      (parseGgufHeader (deepHeader n).encode).isOk = true := by
  have haccepted : ∀ n, (parseGgufHeader (deepHeader n).encode).isOk = true := fun n => by
    rw [deepHeader_accepted n]
    rfl
  constructor
  · rintro ⟨n, hwithin⟩
    have hrefused := (hwithin (deepHeader n).encode).2 (deepHeader_opens n)
    rw [haccepted n] at hrefused
    cases hrefused
  · intro n
    exact ⟨deepHeader_length n, (deepHeader_opens n).le_parseDepth, haccepted n⟩

end Modeld
