import Modeld.Format.GgufEncoding

/-!
# What the GGUF parser accepts

From a successful run of `parseGgufHeader` a header is read off whose encoding the stream begins
with, up to bytes at the end that were skipped without being looked at. Together with the round trip
this describes the accepted streams, and since an encoding can be read in one way only, it says which
of them do not begin with a complete header of known types.
-/

namespace Modeld

open Host Cursor

/-! ### Encodings can be read in one way only -/

theorem FixedType.code_injective : Function.Injective code := by
  intro s t h
  cases s <;> cases t <;> first | rfl | cases h

mutual

/-- Numbers are of the width of their type, and an unknown type is none of the known ones. -/
def GgufArray.Sized : GgufArray → Prop
  | .fixed t items => ∀ n ∈ items, n < 256 ^ t.width
  | .text _ => True
  | .nested items => SizedArrays items
  | .unknown code => 12 < code ∧ code < 256 ^ 4

/-- As for the elements of an array of arrays. -/
def SizedArrays : List GgufArray → Prop
  | [] => True
  | a :: as => a.Sized ∧ SizedArrays as

end

def GgufValue.Sized : GgufValue → Prop
  | .fixed t n => n < 256 ^ t.width
  | .text _ => True
  | .array a => a.Sized

/-- Headers that have an encoding, within the limits of the parser or not. -/
structure GgufHeader.Sized (header : GgufHeader) : Prop where
  version : header.version < 256 ^ 4
  tensorCount : header.tensorCount < 256 ^ 8
  values : ∀ pair ∈ header.pairs, pair.2.Sized

mutual

theorem GgufArray.Fits.sized : ∀ {a : GgufArray}, a.Fits → a.Sized
  | .fixed t items, h => by
    rw [GgufArray.Fits] at h
    rwa [GgufArray.Sized]
  | .text items, _ => by
    rw [GgufArray.Sized]
    trivial
  | .nested items, h => by
    rw [GgufArray.Fits] at h
    rw [GgufArray.Sized]
    exact FitArrays.sized h.2
  | .unknown code, h => by
    rw [GgufArray.Fits] at h
    rwa [GgufArray.Sized]

theorem FitArrays.sized : ∀ {as : List GgufArray}, FitArrays as → SizedArrays as
  | [], _ => trivial
  | _ :: _, h => ⟨GgufArray.Fits.sized h.1, FitArrays.sized h.2⟩

end

theorem GgufValue.Fits.sized {v : GgufValue} (h : v.Fits) : v.Sized := by
  cases v with
  | fixed t n => exact h
  | text s => exact trivial
  | array a => exact GgufArray.Fits.sized h

theorem GgufHeader.Fits.sized {header : GgufHeader} (h : header.Fits) : header.Sized where
  version := by
    have := h.version
    omega
  tensorCount := h.tensorCount
  values p hp := (h.values p hp).sized

theorem prefixCode_encodeText :
    PrefixCode (fun s => (encodeText s).length < 2 ^ 64) encodeText := by
  intro s t r r' hs ht h
  rw [encodeText, encodeText, List.append_assoc, List.append_assoc] at h
  simp only [encodeText, List.length_append, length_toLe] at hs ht
  obtain ⟨hlen, hrest⟩ := prefixCode_toLe 8 _ _ _ _ (show _ < _ by omega) (show _ < _ by omega) h
  obtain ⟨hbytes, hr⟩ := List.append_inj hrest hlen
  exact ⟨Text.toBytes_injective hbytes, hr⟩

/-- No part is longer than the whole. -/
theorem length_le_length_flatMap {α : Type} {encode : α → Bytes} {items : List α} {a : α}
    (h : a ∈ items) : (encode a).length ≤ (items.flatMap encode).length := by
  obtain ⟨before, after, rfl⟩ := List.append_of_mem h
  simp only [List.flatMap_append, List.flatMap_cons, List.length_append]
  omega

/-- There are no more parts than bytes. -/
theorem length_le_of_flatMap {α : Type} {encode : α → Bytes} {items : List α}
    (h : ∀ a, 1 ≤ (encode a).length) : items.length ≤ (items.flatMap encode).length := by
  induction items with
  | nil => exact Nat.zero_le _
  | cons a items ih =>
    have := h a
    rw [List.flatMap_cons, List.length_append, List.length_cons]
    omega

theorem encodeArrays_eq (as : List GgufArray) : encodeArrays as = as.flatMap GgufArray.encode := by
  induction as with
  | nil => rfl
  | cons a as ih => rw [encodeArrays, ih, List.flatMap_cons]

theorem encodeArrayHead_inj {code code' count count' : Nat} {r s : Bytes} (hcode : code < 256 ^ 4)
    (hcode' : code' < 256 ^ 4) (hcount : count < 256 ^ 8) (hcount' : count' < 256 ^ 8)
    (h : encodeArrayHead code count ++ r = encodeArrayHead code' count' ++ s) :
    code = code' ∧ count = count' ∧ r = s := by
  rw [encodeArrayHead, encodeArrayHead, List.append_assoc, List.append_assoc] at h
  obtain ⟨h1, hrest⟩ := prefixCode_toLe 4 _ _ _ _ hcode hcode' h
  obtain ⟨h2, hr⟩ := prefixCode_toLe 8 _ _ _ _ hcount hcount' hrest
  exact ⟨h1, h2, hr⟩

namespace GgufArray

/-- The code of the type of the elements. -/
def itemCode : GgufArray → Nat
  | fixed t _ => t.code
  | text _ => 8
  | nested _ => 9
  | unknown code => code

/-- What follows the head. -/
def payload : GgufArray → Bytes
  | fixed t items => items.flatMap (toLe t.width)
  | text items => items.flatMap encodeText
  | nested items => encodeArrays items
  | unknown _ => []

theorem encode_eq (a : GgufArray) : a.encode = encodeArrayHead a.itemCode a.length ++ a.payload := by
  cases a with
  | unknown code => rw [encode, payload, List.append_nil]; rfl
  | _ => rw [encode]; rfl

theorem itemCode_lt {a : GgufArray} (h : a.Sized) : a.itemCode < 256 ^ 4 := by
  cases a with
  | fixed t items => exact t.code_lt
  | text items => exact (by decide : 8 < 256 ^ 4)
  | nested items => exact (by decide : 9 < 256 ^ 4)
  | unknown code =>
    rw [Sized] at h
    exact h.2

theorem length_lt {a : GgufArray} (hlen : a.encode.length < 2 ^ 64) : a.length < 256 ^ 8 := by
  have hhead : a.encode.length = 12 + a.payload.length := by
    rw [a.encode_eq, List.length_append, encodeArrayHead_length]
  have hitems : a.length ≤ a.payload.length := by
    cases a with
    | fixed t items =>
      exact length_le_of_flatMap fun n => by
        rw [length_toLe]
        exact Nat.succ_pos _
    | text items =>
      exact length_le_of_flatMap fun s => by
        rw [encodeText, List.length_append, length_toLe]
        omega
    | nested items =>
      rw [payload, encodeArrays_eq]
      exact length_le_of_flatMap fun a => by
        have := a.blind_le
        omega
    | unknown code => exact Nat.zero_le _
  omega

end GgufArray

mutual

theorem GgufArray.encode_inj : ∀ (a b : GgufArray) (r s : Bytes), a.Sized → b.Sized →
    a.encode.length < 2 ^ 64 → b.encode.length < 2 ^ 64 → a.encode ++ r = b.encode ++ s →
    a = b ∧ r = s
  | a, b, r, s, ha, hb, hla, hlb, h => by
    have hheads := h
    rw [a.encode_eq, b.encode_eq, List.append_assoc, List.append_assoc] at hheads
    obtain ⟨hcode, hlen, hrest⟩ := encodeArrayHead_inj (GgufArray.itemCode_lt ha)
      (GgufArray.itemCode_lt hb) (GgufArray.length_lt hla) (GgufArray.length_lt hlb) hheads
    -- The heads agree, so both arrays are of one kind.
    match a, b with
    | .fixed t xs, .fixed t' ys =>
      obtain rfl := FixedType.code_injective hcode
      rw [GgufArray.Sized] at ha hb
      obtain ⟨rfl, hr⟩ := (prefixCode_toLe _).flatMap hlen ha hb hrest
      exact ⟨rfl, hr⟩
    | .text xs, .text ys =>
      rw [GgufArray.encode, List.length_append] at hla hlb
      obtain ⟨rfl, hr⟩ := prefixCode_encodeText.flatMap hlen
        (fun x hx => lt_of_le_of_lt (length_le_length_flatMap hx) (by omega))
        (fun y hy => lt_of_le_of_lt (length_le_length_flatMap hy) (by omega)) hrest
      exact ⟨rfl, hr⟩
    | .nested xs, .nested ys =>
      rw [GgufArray.Sized] at ha hb
      rw [GgufArray.encode, List.length_append] at hla hlb
      obtain ⟨rfl, hr⟩ := encodeArrays_inj xs ys r s ha hb (by omega) (by omega) hlen hrest
      exact ⟨rfl, hr⟩
    | .unknown code, .unknown code' =>
      obtain rfl : code = code' := hcode
      exact ⟨rfl, hrest⟩
    | .fixed t xs, .text ys => cases t <;> cases hcode
    | .fixed t xs, .nested ys => cases t <;> cases hcode
    | .fixed t xs, .unknown code =>
      rw [GgufArray.Sized] at hb
      have := hb.1
      cases t <;> simp only [GgufArray.itemCode, FixedType.code] at hcode <;> omega
    | .text xs, .fixed t ys => cases t <;> cases hcode
    | .text xs, .nested ys => cases hcode
    | .text xs, .unknown code =>
      rw [GgufArray.Sized] at hb
      have : 8 = code := hcode
      omega
    | .nested xs, .fixed t ys => cases t <;> cases hcode
    | .nested xs, .text ys => cases hcode
    | .nested xs, .unknown code =>
      rw [GgufArray.Sized] at hb
      have : 9 = code := hcode
      omega
    | .unknown code, .fixed t ys =>
      rw [GgufArray.Sized] at ha
      have := ha.1
      cases t <;> simp only [GgufArray.itemCode, FixedType.code] at hcode <;> omega
    | .unknown code, .text ys =>
      rw [GgufArray.Sized] at ha
      have : code = 8 := hcode
      omega
    | .unknown code, .nested ys =>
      rw [GgufArray.Sized] at ha
      have : code = 9 := hcode
      omega

theorem encodeArrays_inj : ∀ (as bs : List GgufArray) (r s : Bytes), SizedArrays as → SizedArrays bs →
    (encodeArrays as).length < 2 ^ 64 → (encodeArrays bs).length < 2 ^ 64 → as.length = bs.length →
    encodeArrays as ++ r = encodeArrays bs ++ s → as = bs ∧ r = s
  | [], [], r, s, _, _, _, _, _, h => ⟨rfl, h⟩
  | [], _ :: _, _, _, _, _, _, _, hlen, _ => absurd hlen (by simp)
  | _ :: _, [], _, _, _, _, _, _, hlen, _ => absurd hlen (by simp)
  | a :: as, b :: bs, r, s, ha, hb, hla, hlb, hlen, h => by
    rw [encodeArrays, encodeArrays, List.append_assoc, List.append_assoc] at h
    rw [encodeArrays, List.length_append] at hla hlb
    obtain ⟨rfl, hrest⟩ := GgufArray.encode_inj a b _ _ ha.1 hb.1 (by omega) (by omega) h
    obtain ⟨rfl, hr⟩ := encodeArrays_inj as bs r s ha.2 hb.2 (by omega) (by omega)
      (by simpa using hlen) hrest
    exact ⟨rfl, hr⟩

end

/-- Values of one type can be told apart. -/
theorem GgufValue.encode_inj {v w : GgufValue} {r s : Bytes} (hv : v.Sized) (hw : w.Sized)
    (hlv : v.encode.length < 2 ^ 64) (hlw : w.encode.length < 2 ^ 64) (hcode : v.code = w.code)
    (h : v.encode ++ r = w.encode ++ s) : v = w ∧ r = s := by
  cases v with
  | fixed t m =>
    cases w with
    | fixed t' n =>
      obtain rfl := FixedType.code_injective hcode
      obtain ⟨rfl, hr⟩ := prefixCode_toLe t.width m n r s hv hw h
      exact ⟨rfl, hr⟩
    | text y => cases t <;> cases hcode
    | array b => cases t <;> cases hcode
  | text x =>
    cases w with
    | fixed t n => cases t <;> cases hcode
    | text y =>
      obtain ⟨rfl, hr⟩ := prefixCode_encodeText x y r s hlv hlw h
      exact ⟨rfl, hr⟩
    | array b => cases hcode
  | array a =>
    cases w with
    | fixed t n => cases t <;> cases hcode
    | text y => cases hcode
    | array b =>
      obtain ⟨rfl, hr⟩ := a.encode_inj b r s hv hw hlv hlw h
      exact ⟨rfl, hr⟩

theorem prefixCode_encodePair :
    PrefixCode (fun p => p.2.Sized ∧ (encodePair p).length < 2 ^ 64) encodePair := by
  intro p q r s hp hq h
  obtain ⟨key, v⟩ := p
  obtain ⟨key', w⟩ := q
  obtain ⟨hv, hlp⟩ := hp
  obtain ⟨hw, hlq⟩ := hq
  simp only [encodePair, List.append_assoc] at h
  simp only [encodePair, List.length_append] at hlp hlq
  obtain ⟨rfl, h1⟩ := prefixCode_encodeText _ _ _ _ (show _ < _ by omega) (show _ < _ by omega) h
  obtain ⟨hcode, h2⟩ := prefixCode_toLe 4 _ _ _ _ v.code_lt w.code_lt h1
  obtain ⟨rfl, hr⟩ := GgufValue.encode_inj hv hw (show v.encode.length < _ by omega)
    (show w.encode.length < _ by omega) hcode h2
  exact ⟨rfl, hr⟩

theorem prefixCode_header :
    PrefixCode (fun header => header.Sized ∧ header.encode.length < 2 ^ 64) GgufHeader.encode := by
  intro a b r s ha hb h
  obtain ⟨v, n, ps⟩ := a
  obtain ⟨w, m, qs⟩ := b
  obtain ⟨hsa, hla⟩ := ha
  obtain ⟨hsb, hlb⟩ := hb
  simp only [GgufHeader.encode, List.append_assoc] at h
  simp only [GgufHeader.encode, List.length_append] at hla hlb
  have hcount : ∀ pairs : List (String × GgufValue),
      pairs.length ≤ (pairs.flatMap encodePair).length := by
    intro pairs
    apply length_le_of_flatMap
    intro p
    rw [encodePair, List.length_append, List.length_append, length_toLe]
    omega
  have hcs := hcount ps
  have hct := hcount qs
  have h0 := List.append_cancel_left h
  obtain ⟨rfl, h1⟩ := prefixCode_toLe 4 _ _ _ _ hsa.version hsb.version h0
  obtain ⟨rfl, h2⟩ := prefixCode_toLe 8 _ _ _ _ hsa.tensorCount hsb.tensorCount h1
  obtain ⟨hlen, h3⟩ := prefixCode_toLe 8 _ _ _ _ (show _ < _ by omega) (show _ < _ by omega) h2
  have hps : ∀ p ∈ ps, p.2.Sized ∧ (encodePair p).length < 2 ^ 64 := by
    intro p hp
    have : (encodePair p).length ≤ _ := length_le_length_flatMap hp
    exact ⟨hsa.values p hp, by omega⟩
  have hqs : ∀ p ∈ qs, p.2.Sized ∧ (encodePair p).length < 2 ^ 64 := by
    intro p hp
    have : (encodePair p).length ≤ _ := length_le_length_flatMap hp
    exact ⟨hsb.values p hp, by omega⟩
  obtain ⟨rfl, hr⟩ := prefixCode_encodePair.flatMap hlen hps hqs h3
  exact ⟨rfl, hr⟩

/-! ### From a run of the parser to a header -/

/-- `c'` stands behind an encoding that begins at `c`, of which at most `blind` bytes at the end are
not there. -/
structure Spans (c : Cursor) (code : Bytes) (blind : Nat) (c' : Cursor) : Prop where
  skip : c' = c.skip code.length
  rest : ∃ cut : Bytes, c.rest ++ cut = code ++ c'.rest ∧ cut.length ≤ blind
  pos : code ≠ [] → c.bytes.length < 2 ^ 64 → c'.pos < 2 ^ 64

namespace Spans

variable {c c₁ c₂ : Cursor} {code code' : Bytes} {blind blind' : Nat}

theorem bytes (h : Spans c code blind c₁) : c₁.bytes = c.bytes := by
  rw [h.skip]
  rfl

/-- Nothing is missing from an encoding that bytes follow. -/
theorem complete (h : Spans c code blind c₁) (hrest : c₁.rest ≠ []) : Spans c code 0 c₁ where
  skip := h.skip
  pos := h.pos
  rest := by
    obtain ⟨cut, hcut, -⟩ := h.rest
    have hlen := congrArg List.length hcut
    have hpos : 0 < c₁.rest.length := List.length_pos_iff.2 hrest
    rw [h.skip, rest_skip, List.length_drop] at hpos
    rw [List.length_append, List.length_append, h.skip, rest_skip, List.length_drop] at hlen
    obtain rfl : cut = [] := List.length_eq_zero_iff.1 (by omega)
    exact ⟨[], hcut, le_rfl⟩

/-- One encoding after the other. -/
theorem append (h : Spans c code 0 c₁) (h' : Spans c₁ code' blind c₂) :
    Spans c (code ++ code') blind c₂ where
  skip := by rw [h'.skip, h.skip, skip_skip, List.length_append]
  pos := by
    intro hne hlen
    by_cases hcode : code' = []
    · subst hcode
      rw [h'.skip]
      exact h.pos (by simpa using hne) hlen
    · exact h'.pos hcode (by rwa [h.bytes])
  rest := by
    obtain ⟨cut, hcut, hzero⟩ := h.rest
    obtain ⟨cut', hcut', hle⟩ := h'.rest
    obtain rfl : cut = [] := List.length_eq_zero_iff.1 (by omega)
    refine ⟨cut', ?_, hle⟩
    rw [List.append_nil] at hcut
    rw [hcut, List.append_assoc, hcut', List.append_assoc]

theorem nil (c : Cursor) : Spans c [] 0 c where
  skip := rfl
  pos := fun h => absurd rfl h
  rest := ⟨[], List.append_nil _, le_rfl⟩

/-- An encoding of which some bytes are there. -/
theorem rest_ne_nil (h : Spans c code blind c₁) (hblind : blind < code.length) : c.rest ≠ [] := by
  obtain ⟨cut, hcut, hle⟩ := h.rest
  intro hnil
  have hlen := congrArg List.length hcut
  rw [hnil, List.nil_append, List.length_append] at hlen
  omega

end Spans

theorem readLe_sound {c : Cursor} {width n : Nat} {p : {c' : Cursor // c'.left < c.left}}
    (h : c.readLe width = .ok (n, p)) :
    n < 256 ^ (width + 1) ∧ Spans c (toLe (width + 1) n) 0 p.1 := by
  obtain ⟨hskip, hn, hrest⟩ := of_readLe_eq_ok h
  refine ⟨hn, by rw [length_toLe, hskip], ⟨[], by rw [List.append_nil, hrest], le_rfl⟩, ?_⟩
  intro _ hlen
  have hleft := congrArg List.length hrest
  rw [length_rest, List.length_append, length_toLe] at hleft
  have hdef : c.left = c.bytes.length - c.pos := rfl
  rw [hskip]
  show c.pos + (width + 1) < _
  omega

theorem readString_sound {c : Cursor} {s : String} {p : {c' : Cursor // c'.left < c.left}}
    (h : readString c = .ok (s, p)) : FitsText s ∧ Spans c (encodeText s) 0 p.1 := by
  unfold readString at h
  split at h
  · cases h
  rename_i len c₁ h₁ hlen
  split at h
  · cases h
  rename_i hmax
  split at h
  · cases h
  rename_i buf c₂ h₂ hbuf
  split at h
  · cases h
  rename_i s' htext
  cases h
  obtain ⟨-, hspan⟩ := readLe_sound hlen
  obtain ⟨hskip, hlength, hrest⟩ := of_readExact_eq_ok hbuf
  obtain rfl := Text.toBytes_of_ofBytes? htext
  subst hlength
  have hbytes : Spans c₁ (Text.toBytes s) 0 c₂ := by
    refine ⟨hskip, ⟨[], by rw [List.append_nil, hrest], le_rfl⟩, ?_⟩
    intro hne hlt
    have hleft := congrArg List.length hrest
    have hpos : 0 < (Text.toBytes s).length := List.length_pos_iff.2 hne
    rw [length_rest, List.length_append] at hleft
    have hdef : c₁.left = c₁.bytes.length - c₁.pos := rfl
    obtain rfl : c₂ = c₁.skip (Text.toBytes s).length := hskip
    show c₁.pos + _ < _
    omega
  exact ⟨show _ ≤ _ by omega, hspan.append hbytes⟩

/-- Bytes are numbers of a width. -/
theorem exists_numbers (width : Nat) (n : Nat) (b : Bytes) (h : b.length = n * width) :
    ∃ items : List Nat, items.length = n ∧ (∀ x ∈ items, x < 256 ^ width) ∧
      items.flatMap (toLe width) = b := by
  induction n generalizing b with
  | zero =>
    rw [Nat.zero_mul] at h
    exact ⟨[], rfl, by simp, by rw [List.length_eq_zero_iff.1 h]; rfl⟩
  | succ n ih =>
    rw [Nat.succ_mul] at h
    obtain ⟨items, hlen, hlt, heq⟩ := ih (b.drop width) (by rw [List.length_drop]; omega)
    have hfirst : (b.take width).length = width := by
      rw [List.length_take]
      omega
    have hbound := ofLe_lt (b.take width)
    have hbytes := toLe_ofLe (b.take width)
    rw [hfirst] at hbound hbytes
    refine ⟨ofLe (b.take width) :: items, by rw [List.length_cons, hlen], ?_, ?_⟩
    · intro x hx
      rcases List.mem_cons.1 hx with rfl | hx
      · exact hbound
      · exact hlt x hx
    · rw [List.flatMap_cons, hbytes, heq, List.take_append_drop]

/-- The payload of an array of a fixed width, as far as it is there. -/
theorem exists_fixed (c : Cursor) (width count : Nat) (hpos : c.pos + count * width < 2 ^ 64) :
    ∃ items : List Nat, items.length = count ∧ (∀ x ∈ items, x < 256 ^ width) ∧
      Spans c (items.flatMap (toLe width)) (items.flatMap (toLe width)).length
        (c.skip (count * width)) := by
  have hlen := c.length_rest
  obtain ⟨items, hcount, hlt, heq⟩ := exists_numbers width count
    (c.rest.take (count * width) ++ List.replicate (count * width - c.left) 0)
    (by rw [List.length_append, List.length_take, List.length_replicate]; omega)
  have htotal : (items.flatMap (toLe width)).length = count * width := by
    rw [length_flatMap_toLe, hcount]
  refine ⟨items, hcount, hlt, ⟨by rw [htotal], ⟨List.replicate (count * width - c.left) 0, ?_, ?_⟩,
    fun _ _ => hpos⟩⟩
  · rw [heq, rest_skip, List.append_assoc]
    rcases Nat.le_total (count * width) c.left with hle | hle
    · rw [Nat.sub_eq_zero_of_le hle, List.replicate_zero, List.nil_append, List.append_nil,
        List.take_append_drop]
    · rw [List.take_of_length_le (by omega), List.drop_eq_nil_of_le (by omega), List.append_nil]
  · rw [htotal, List.length_replicate]
    omega

theorem itemByteSize_eq_some {code width : Nat} (h : itemByteSize code = some width) :
    ∃ t : FixedType, t.code = code ∧ t.width = width := by
  rcases code_cases code with ⟨t, rfl⟩ | rfl | rfl | hcode
  · rw [itemByteSize_code] at h
    cases h
    exact ⟨t, rfl, rfl⟩
  · cases h
  · cases h
  · exfalso
    unfold itemByteSize at h
    split at h <;> first | omega | cases h

theorem GgufValue.blind_lt (v : GgufValue) : v.blind < v.encode.length := by
  cases v with
  | fixed t n =>
    rw [blind, encode, length_toLe]
    exact Nat.succ_pos _
  | text s =>
    rw [blind, encode, encodeText, List.length_append, length_toLe]
    omega
  | array a =>
    have := a.blind_le
    rw [blind, encode]
    omega

theorem blindArrays_lt (a : GgufArray) (as : List GgufArray) :
    blindArrays (a :: as) < (encodeArrays (a :: as)).length := by
  have ha := a.blind_le
  rw [encodeArrays, List.length_append]
  cases as with
  | nil =>
    rw [blindArrays]
    omega
  | cons b as =>
    have := blindArrays_le (b :: as)
    rw [blindArrays]
    omega

theorem skipTexts_sound (n : Nat) (c : Cursor) (p : {c' : Cursor // c'.left ≤ c.left})
    (h : skipItems c 8 n = .ok p) :
    ∃ items : List String, items.length = n ∧ (∀ s ∈ items, FitsText s) ∧
      Spans c (items.flatMap encodeText) 0 p.1 := by
  induction n generalizing c with
  | zero =>
    rw [skipItems] at h
    cases h
    exact ⟨[], rfl, by simp, .nil c⟩
  | succ n ih =>
    rw [skipItems, skipOrReadValue] at h
    split at h
    · cases h
    rename_i s c₁ h₁ hread
    split at h
    · cases h
    rename_i c₂ h₂ hskip
    cases h
    obtain ⟨hfits, hspan⟩ := readString_sound hread
    obtain ⟨items, hlen, hall, hrest⟩ := ih _ _ hskip
    exact ⟨s :: items, by rw [List.length_cons, hlen], List.forall_mem_cons.2 ⟨hfits, hall⟩,
      hspan.append hrest⟩

mutual

/-- A value that was read is the value of a header. -/
theorem skipOrReadValue_sound (c : Cursor) (code : Nat) (s : String)
    (p : {c' : Cursor // c'.left < c.left}) (h : skipOrReadValue c code = .ok (s, p)) :
    ∃ v : GgufValue, v.code = code ∧ v.render = s ∧ v.Fits ∧ v.InRange c.pos ∧
      Spans c v.encode v.blind p.1 := by
  rcases code_cases code with ⟨t, rfl⟩ | rfl | rfl | hcode
  · rw [skipOrReadValue_code, readNumber] at h
    split at h
    · cases h
    rename_i n p' hread
    cases h
    obtain ⟨hn, hspan⟩ := readLe_sound hread
    exact ⟨.fixed t n, rfl, rfl, hn, trivial, hspan⟩
  · rw [skipOrReadValue] at h
    obtain ⟨hfits, hspan⟩ := readString_sound h
    exact ⟨.text s, rfl, rfl, hfits, trivial, hspan⟩
  · rw [skipOrReadValue] at h
    split at h
    · cases h
    rename_i itemType c₁ h₁ htype
    split at h
    · cases h
    rename_i count c₂ h₂ hcount
    obtain ⟨htypelt, hspan₁⟩ := readLe_sound htype
    obtain ⟨hcountlt, hspan₂⟩ := readLe_sound hcount
    have hhead : Spans c (encodeArrayHead itemType count) 0 c₂ := hspan₁.append hspan₂
    have hpos₂ : c₂.pos = c.pos + 12 := by
      rw [hhead.skip, encodeArrayHead_length]
      rfl
    split at h
    · rename_i width hsize
      split at h
      · cases h
      split at h
      · cases h
      rename_i hpos
      cases h
      obtain ⟨t, rfl, rfl⟩ := itemByteSize_eq_some hsize
      obtain ⟨items, rfl, hlt, hspan⟩ := exists_fixed c₂ t.width count (by omega)
      refine ⟨.array (.fixed t items), rfl, rfl, by simpa only [GgufValue.Fits, GgufArray.Fits],
        ?_, ?_⟩
      · rw [GgufValue.InRange, GgufArray.InRange]
        omega
      · rw [GgufValue.encode, GgufArray.encode, GgufValue.blind, GgufArray.blind]
        exact hhead.append hspan
    · rename_i hsize
      split at h
      · cases h
      rename_i c₃ h₃ hitems
      split at h
      · cases h
      rename_i hmax
      cases h
      rw [Nat.min_eq_left (Nat.le_of_not_lt hmax)] at hitems
      rcases code_cases itemType with ⟨t, rfl⟩ | rfl | rfl | hcode
      · rw [itemByteSize_code] at hsize
        cases hsize
      · obtain ⟨items, rfl, hfits, hspan⟩ := skipTexts_sound count c₂ _ hitems
        refine ⟨.array (.text items), rfl, rfl, ?_, ?_, ?_⟩
        · rw [GgufValue.Fits, GgufArray.Fits]
          exact ⟨Nat.le_of_not_lt hmax, hfits⟩
        · rw [GgufValue.InRange, GgufArray.InRange]
          trivial
        · rw [GgufValue.encode, GgufArray.encode, GgufValue.blind, GgufArray.blind]
          exact hhead.append hspan
      · obtain ⟨items, rfl, hfits, hrange, hspan⟩ := skipArrays_sound c₂ count _ hitems
        refine ⟨.array (.nested items), rfl, rfl, ?_, ?_, ?_⟩
        · rw [GgufValue.Fits, GgufArray.Fits]
          exact ⟨Nat.le_of_not_lt hmax, hfits⟩
        · rw [GgufValue.InRange, GgufArray.InRange, ← hpos₂]
          exact hrange
        · rw [GgufValue.encode, GgufArray.encode, GgufValue.blind, GgufArray.blind]
          exact hhead.append hspan
      · -- An element of an unknown type cannot be skipped, so there is none.
        cases count with
        | zero =>
          rw [skipItems] at hitems
          cases hitems
          refine ⟨.array (.unknown itemType), rfl, rfl, ?_, ?_, ?_⟩
          · rw [GgufValue.Fits, GgufArray.Fits]
            exact ⟨hcode, htypelt⟩
          · rw [GgufValue.InRange, GgufArray.InRange]
            trivial
          · rw [GgufValue.encode, GgufArray.encode, GgufValue.blind, GgufArray.blind]
            exact hhead
        | succ n =>
          rw [skipItems, skipOrReadValue_unknown c₂ hcode] at hitems
          cases hitems
  · rw [skipOrReadValue_unknown c hcode] at h
    cases h
termination_by (c.left, 0)

theorem skipArrays_sound (c : Cursor) (n : Nat) (p : {c' : Cursor // c'.left ≤ c.left})
    (h : skipItems c 9 n = .ok p) :
    ∃ items : List GgufArray, items.length = n ∧ FitArrays items ∧ ArraysInRange c.pos items ∧
      Spans c (encodeArrays items) (blindArrays items) p.1 := by
  match n with
  | 0 =>
    rw [skipItems] at h
    cases h
    exact ⟨[], rfl, by rw [FitArrays]; trivial, by rw [ArraysInRange]; trivial,
      by rw [encodeArrays]; exact .nil c⟩
  | n + 1 =>
    rw [skipItems] at h
    split at h
    · cases h
    rename_i s c₁ h₁ hread
    split at h
    · cases h
    rename_i c₂ h₂ hskip
    cases h
    obtain ⟨v, hcode, -, hfits, hrange, hspan⟩ := skipOrReadValue_sound c 9 s _ hread
    obtain ⟨items, rfl, hall, hranges, hrest⟩ := skipArrays_sound c₁ n _ hskip
    cases v with
    | fixed t n => cases t <;> cases hcode
    | text x => cases hcode
    | array a =>
      have hpos₁ : c₁.pos = c.pos + a.encode.length := congrArg Cursor.pos hspan.skip
      refine ⟨a :: items, rfl, by rw [FitArrays]; exact ⟨hfits, hall⟩,
        by rw [ArraysInRange, ← hpos₁]; exact ⟨hrange, hranges⟩, ?_⟩
      cases items with
      | nil =>
        rw [encodeArrays, encodeArrays, List.append_nil, blindArrays]
        rw [List.length_nil, skipItems] at hskip
        cases hskip
        exact hspan
      | cons b items =>
        -- The next array was read, so nothing is missing from this one.
        have hne : c₁.rest ≠ [] := hrest.rest_ne_nil (blindArrays_lt b items)
        rw [encodeArrays, blindArrays]
        exact (hspan.complete hne).append hrest
termination_by (c.left, n + 1)

end

theorem encodePair_sound {c c₁ c₂ c₃ : Cursor} {key : String} {v : GgufValue}
    (hkey : Spans c (encodeText key) 0 c₁) (htype : Spans c₁ (toLe 4 v.code) 0 c₂)
    (hvalue : Spans c₂ v.encode v.blind c₃) : Spans c (encodePair (key, v)) v.blind c₃ := by
  rw [encodePair]
  exact (hkey.append htype).append hvalue

theorem blindPairs_lt (p : String × GgufValue) (pairs : List (String × GgufValue)) :
    blindPairs (p :: pairs) < ((p :: pairs).flatMap encodePair).length := by
  have hp := p.2.blind_lt
  rw [List.flatMap_cons, List.length_append, encodePair, List.length_append]
  cases pairs with
  | nil =>
    rw [blindPairs]
    omega
  | cons q pairs =>
    have := blindPairs_le (q :: pairs)
    rw [blindPairs]
    omega

theorem readPairs_sound (n : Nat) (c : Cursor) (found result : GgufMetadata)
    (h : readPairs c found n = .ok result) :
    ∃ pairs : List (String × GgufValue), pairs.length = n ∧ (∀ p ∈ pairs, FitsText p.1) ∧
      (∀ p ∈ pairs, p.2.Fits) ∧
      result = pairs.foldl (fun found pair => scanPair found pair.1 pair.2.render) found ∧
      ∃ c', Spans c (pairs.flatMap encodePair) (blindPairs pairs) c' := by
  induction n generalizing c found with
  | zero =>
    cases h
    exact ⟨[], rfl, by simp, by simp, rfl, c, .nil c⟩
  | succ n ih =>
    rw [readPairs] at h
    split at h
    · cases h
    rename_i key c₁ h₁ hkey
    split at h
    · cases h
    rename_i valType c₂ h₂ htype
    split at h
    · cases h
    rename_i val c₃ h₃ hval
    obtain ⟨hkeyfits, hspan₁⟩ := readString_sound hkey
    obtain ⟨-, hspan₂⟩ := readLe_sound htype
    obtain ⟨v, rfl, rfl, hfits, -, hspan₃⟩ := skipOrReadValue_sound _ _ _ _ hval
    obtain ⟨pairs, rfl, hkeys, hvalues, rfl, c', hspan⟩ := ih _ _ h
    have hpair := encodePair_sound hspan₁ hspan₂ hspan₃
    refine ⟨(key, v) :: pairs, rfl, List.forall_mem_cons.2 ⟨hkeyfits, hkeys⟩,
      List.forall_mem_cons.2 ⟨hfits, hvalues⟩, rfl, c', ?_⟩
    cases pairs with
    | nil =>
      rw [List.flatMap_nil] at hspan
      have hc' : c' = c₃ := hspan.skip
      subst hc'
      rw [blindPairs]
      simpa only [List.flatMap_cons, List.flatMap_nil, List.append_nil] using hpair
    | cons q pairs =>
      have hne : c₃.rest ≠ [] := hspan.rest_ne_nil (blindPairs_lt q pairs)
      rw [List.flatMap_cons, blindPairs]
      exact (hpair.complete hne).append hspan

/-- The head of a stream was there when it was read. -/
theorem readHead_sound {b : Bytes} {version tensorCount count : Nat}
    {p₀ : {c' : Cursor // c'.left = Cursor.left ⟨b, 0⟩ - 4}} {p₁ : {c' : Cursor // c'.left < p₀.1.left}}
    {p₂ : {c' : Cursor // c'.left < p₁.1.left}} {p₃ : {c' : Cursor // c'.left < p₂.1.left}}
    (hmagic : Cursor.readExact ⟨b, 0⟩ 4 = .ok (GGUF_MAGIC, p₀))
    (hversion : p₀.1.readLe 3 = .ok (version, p₁))
    (htensors : p₁.1.readLe 7 = .ok (tensorCount, p₂)) (hcount : p₂.1.readLe 7 = .ok (count, p₃)) :
    tensorCount < 256 ^ 8 ∧ Spans ⟨b, 0⟩ (encodeHead version tensorCount count) 0 p₃.1 := by
  obtain ⟨hskip, -, hrest⟩ := of_readExact_eq_ok hmagic
  obtain ⟨-, hspan₁⟩ := readLe_sound hversion
  obtain ⟨htensorslt, hspan₂⟩ := readLe_sound htensors
  obtain ⟨-, hspan₃⟩ := readLe_sound hcount
  have hspan₀ : Spans ⟨b, 0⟩ GGUF_MAGIC 0 p₀.1 := by
    refine ⟨hskip, ⟨[], by rw [List.append_nil]; exact hrest, le_rfl⟩, fun _ _ => ?_⟩
    rw [hskip]
    exact (by decide : 4 < 2 ^ 64)
  exact ⟨htensorslt, ((hspan₀.append hspan₁).append hspan₂).append hspan₃⟩

/-- What is accepted is the encoding of a header, up to what was skipped without being looked at. -/
theorem parseGgufHeader_sound {b : Bytes} {found : GgufMetadata} (hlen : b.length < 2 ^ 64)
    (h : parseGgufHeader b = .ok found) :
    ∃ header : GgufHeader, header.Fits ∧ header.encode.length < 2 ^ 64 ∧ found = header.metadata ∧
      ((∃ r, b = header.encode ++ r) ∨
        ∃ cut, cut ≠ [] ∧ cut.length ≤ blindPairs header.pairs ∧ b ++ cut = header.encode) := by
  unfold parseGgufHeader at h
  split at h
  · cases h
  rename_i magic c₀ h₀ hmagic
  split at h
  · cases h
  rename_i hmagiceq
  split at h
  · cases h
  rename_i version c₁ h₁ hversion
  split at h
  · cases h
  rename_i hrange
  split at h
  · cases h
  rename_i tensorCount c₂ h₂ htensors
  split at h
  · cases h
  rename_i kvCount c₃ h₃ hcount
  split at h
  · cases h
  rename_i hmax
  split at h
  · cases h
  rename_i result hpairs
  cases h
  obtain ⟨pairs, rfl, hkeys, hvalues, rfl, c', hspan⟩ := readPairs_sound _ _ _ _ hpairs
  obtain rfl := Decidable.not_not.1 hmagiceq
  obtain ⟨htensorslt, hhead⟩ := readHead_sound hmagic hversion htensors hcount
  have hheader : Spans ⟨b, 0⟩ (GgufHeader.encode ⟨version, tensorCount, pairs⟩) (blindPairs pairs)
      c' := hhead.append hspan
  have hversion' : 2 ≤ version ∧ version ≤ 3 := by omega
  refine ⟨⟨version, tensorCount, pairs⟩, ?_, ?_, rfl, ?_⟩
  · exact ⟨hversion', htensorslt, Nat.le_of_not_lt hmax, hkeys, hvalues⟩
  · have hpos := hheader.pos (by simp [GgufHeader.encode, GGUF_MAGIC]) hlen
    rw [hheader.skip] at hpos
    simpa only [Cursor.skip, Nat.zero_add] using hpos
  · by_cases hend : c'.rest = []
    · obtain ⟨cut, hcut, hle⟩ := hheader.rest
      rw [hend, List.append_nil] at hcut
      by_cases hnil : cut = []
      · subst hnil
        exact .inl ⟨[], by rw [List.append_nil, ← hcut, List.append_nil]; rfl⟩
      · exact .inr ⟨cut, hnil, hle, hcut⟩
    · obtain ⟨cut, hcut, hle⟩ := (hheader.complete hend).rest
      obtain rfl := List.length_eq_zero_iff.1 (Nat.le_zero.1 hle)
      exact .inl ⟨c'.rest, by rw [← hcut, List.append_nil]; rfl⟩

/-! ### Sound acceptance -/

mutual

/-- No array names an element type that does not exist. -/
def GgufArray.Known : GgufArray → Prop
  | .fixed _ _ => True
  | .text _ => True
  | .nested items => KnownArrays items
  | .unknown _ => False

/-- As for the elements of an array of arrays. -/
def KnownArrays : List GgufArray → Prop
  | [] => True
  | a :: as => a.Known ∧ KnownArrays as

end

def GgufValue.Known : GgufValue → Prop
  | fixed _ _ => True
  | text _ => True
  | array a => a.Known

/-- All types of a header exist. -/
def GgufHeader.Known (header : GgufHeader) : Prop := ∀ pair ∈ header.pairs, pair.2.Known

/-- The stream begins with the complete encoding of a header of known types. -/
def BeginsWithHeader (b : Bytes) : Prop :=
  ∃ header : GgufHeader, header.Fits ∧ header.Known ∧ ∃ r, b = header.encode ++ r

/-- The stream begins with a header that has an array without elements, of an unknown type. -/
def NamesUnknownType (b : Bytes) : Prop :=
  ∃ header : GgufHeader, header.Fits ∧ ¬ header.Known ∧ ∃ r, b = header.encode ++ r

/-- The stream is a header whose last bytes, in the payload of an array of a fixed width, are
missing. -/
def LacksPayload (b : Bytes) : Prop :=
  ∃ header : GgufHeader, header.Fits ∧ header.encode.length < 2 ^ 64 ∧
    ∃ cut, cut ≠ [] ∧ cut.length ≤ blindPairs header.pairs ∧ b ++ cut = header.encode

/-- A header read off a stream is the only one. -/
theorem header_unique {b r s : Bytes} {header header' : GgufHeader} (hlen : b.length < 2 ^ 64)
    (hfits : header.Fits) (hfits' : header'.Fits) (h : b = header.encode ++ r)
    (h' : b = header'.encode ++ s) : header = header' := by
  have hlen₁ := congrArg List.length h
  have hlen₂ := congrArg List.length h'
  rw [List.length_append] at hlen₁ hlen₂
  exact (prefixCode_header header header' r s ⟨hfits.sized, by omega⟩ ⟨hfits'.sized, by omega⟩ (h ▸ h')).1

theorem NamesUnknownType.unsound {b : Bytes} (h : NamesUnknownType b) (hlen : b.length < 2 ^ 64) :
    ∃ found, parseGgufHeader b = .ok found ∧ ¬ BeginsWithHeader b := by
  obtain ⟨header, hfits, hunknown, r, hb⟩ := h
  have hheader := congrArg List.length hb
  rw [List.length_append] at hheader
  refine ⟨header.metadata, ?_, ?_⟩
  · exact parseGgufHeader_eq header hfits b r [] (by rw [List.append_nil, hb]) (by simp) (by omega)
  · rintro ⟨header', hfits', hknown, s, hb'⟩
    obtain rfl := header_unique hlen hfits hfits' hb hb'
    exact hunknown hknown

theorem LacksPayload.unsound {b : Bytes} (h : LacksPayload b) (hlen : b.length < 2 ^ 64) :
    ∃ found, parseGgufHeader b = .ok found ∧ ¬ BeginsWithHeader b := by
  obtain ⟨header, hfits, hlt, cut, hne, hle, hb⟩ := h
  refine ⟨header.metadata, ?_, ?_⟩
  · exact parseGgufHeader_eq header hfits b [] cut (by rw [List.append_nil, hb]) (by simpa using hle) hlt
  · rintro ⟨header', hfits', -, s, hb'⟩
    have hlen' := congrArg List.length hb'
    rw [List.length_append] at hlen'
    -- A complete header in the stream would be the header that was cut, with nothing cut off.
    have heq : header.encode ++ [] = header'.encode ++ (s ++ cut) := by
      rw [List.append_nil, ← hb, hb', List.append_assoc]
    obtain ⟨-, hnil⟩ := prefixCode_header header header' _ _ ⟨hfits.sized, hlt⟩ ⟨hfits'.sized, by omega⟩ heq
    exact hne (List.append_eq_nil_iff.1 hnil.symm).2

/-- Acceptance is sound exactly on the streams without the two defects. -/
theorem accepted_iff (b : Bytes) (hlen : b.length < 2 ^ 64) :
    (∀ found, parseGgufHeader b = .ok found → BeginsWithHeader b) ↔
      ¬ (NamesUnknownType b ∨ LacksPayload b) := by
  constructor
  · intro hsound hbad
    obtain ⟨found, hok, hnot⟩ : ∃ found, parseGgufHeader b = .ok found ∧ ¬ BeginsWithHeader b :=
      hbad.elim (·.unsound hlen) (·.unsound hlen)
    exact hnot (hsound found hok)
  · intro hgood found hok
    obtain ⟨header, hfits, hlt, -, ⟨r, hb⟩ | ⟨cut, hne, hle, hb⟩⟩ := parseGgufHeader_sound hlen hok
    · by_cases hknown : header.Known
      · exact ⟨header, hfits, hknown, r, hb⟩
      · exact absurd (.inl ⟨header, hfits, hknown, r, hb⟩) hgood
    · exact absurd (.inr ⟨header, hfits, hlt, cut, hne, hle, hb⟩) hgood

/-- A header that ends where five bytes of an array should follow. -/
def cutStream : Bytes :=
  [0x47, 0x47, 0x55, 0x46, 3, 0, 0, 0, 0, 0, 0, 0, 0, 0, 0, 0, 1, 0, 0, 0, 0, 0, 0, 0, 1, 0, 0, 0, 0, 0,
    0, 0, 0x61, 9, 0, 0, 0, 0, 0, 0, 0, 5, 0, 0, 0, 0, 0, 0, 0]

/-- The header with the five bytes. -/
def uncutHeader : GgufHeader := ⟨3, 0, [("a", .array (.fixed .uint8 [0, 0, 0, 0, 0]))]⟩

theorem cutStream_lacksPayload : LacksPayload cutStream := by
  refine ⟨uncutHeader, ?_, by decide +kernel, [0, 0, 0, 0, 0], by decide, ?_, by decide +kernel⟩
  · constructor
    · decide
    · decide
    · decide
    · unfold FitsText
      decide
    · simp only [uncutHeader, List.forall_mem_singleton, GgufValue.Fits, GgufArray.Fits]
      decide
  · simp only [uncutHeader, blindPairs, GgufValue.blind, GgufArray.blind]
    decide

theorem cutStream_accepted :
    ∃ found, parseGgufHeader cutStream = .ok found ∧ ¬ BeginsWithHeader cutStream :=
  cutStream_lacksPayload.unsound (by decide)

theorem cutStream_accepted_iff :
    (∀ found, parseGgufHeader cutStream = .ok found → BeginsWithHeader cutStream) ↔
      ¬ (NamesUnknownType cutStream ∨ LacksPayload cutStream) :=
  accepted_iff cutStream (by decide)

end Modeld
