import Modeld.Format.GgufSoundness

/-!
# Headers with other entries

What the parser makes of a header whose entries come in another order, or in one of which a string was
replaced. Both turn on the limits of the parser, which a header that has an encoding need not keep.
-/

namespace Modeld

open Host

/-- A complete header is accepted if it is within the limits, and only then. -/
theorem accepts_encode_iff {header : GgufHeader} {r : Bytes} (hsized : header.Sized)
    (hlen : (header.encode ++ r).length < 2 ^ 64) :
    (∃ found, parseGgufHeader (header.encode ++ r) = .ok found) ↔ header.Fits := by
  have hheader : header.encode.length < 2 ^ 64 := by
    rw [List.length_append] at hlen
    omega
  constructor
  · rintro ⟨found, hok⟩
    obtain ⟨header', hfits, hlt, -, ⟨s, hs⟩ | ⟨cut, hne, -, hcut⟩⟩ := parseGgufHeader_sound hlen hok
    · obtain ⟨rfl, -⟩ := prefixCode_header header header' r s ⟨hsized, hheader⟩ ⟨hfits.sized, hlt⟩ hs
      exact hfits
    · -- Nothing is missing from a complete header.
      have heq : header.encode ++ (r ++ cut) = header'.encode ++ [] := by
        rw [List.append_nil, ← List.append_assoc, hcut]
      obtain ⟨-, hnil⟩ :=
        prefixCode_header header header' _ _ ⟨hsized, hheader⟩ ⟨hfits.sized, hlt⟩ heq
      exact absurd (List.append_eq_nil_iff.1 hnil).2 hne
  · intro hfits
    exact ⟨_, parseGgufHeader_eq header hfits _ r [] (List.append_nil _) (by simp) hheader⟩

theorem parse_encode_of_fits {header : GgufHeader} {r : Bytes} (hfits : header.Fits)
    (hlen : (header.encode ++ r).length < 2 ^ 64) :
    parseGgufHeader (header.encode ++ r) = .ok header.metadata := by
  rw [List.length_append] at hlen
  exact parseGgufHeader_eq header hfits _ r [] (List.append_nil _) (by simp) (by omega)

/-! ### The same metadata -/

/-- Metadata that agree but for the attribute of some keys. -/
structure GgufMetadata.SameBut (keys : String → Prop) (a b : GgufMetadata) : Prop where
  version : a.version = b.version
  tensorCount : a.tensorCount = b.tensorCount
  architecture : a.architecture = b.architecture
  contextLength : a.contextLength = b.contextLength
  fileType : a.fileType = b.fileType
  attributes : ∀ key, ¬ keys key → a.attributes.lookup key = b.attributes.lookup key

/-- Metadata are the same when their fields are and their attributes are as maps. -/
abbrev GgufMetadata.Same : GgufMetadata → GgufMetadata → Prop := SameBut fun _ => False

/-- Both runs of the parser fail, or both succeed with the same metadata. -/
def SameResult : Except ModeldError GgufMetadata → Except ModeldError GgufMetadata → Prop
  | .ok a, .ok b => a.Same b
  | .error _, .error _ => True
  | _, _ => False

variable {header header' : GgufHeader} {matching : String → Bool} {key t : String}

namespace GgufHeader

theorem lastValue_eq_none : header.lastValue matching = none ↔
    ∀ p ∈ header.pairs, matching p.1 = false := by
  rw [lastValue, Option.map_eq_none_iff, List.find?_eq_none]
  simp

theorem exists_of_lastValue (h : header.lastValue matching = some t) :
    ∃ p ∈ header.pairs, matching p.1 = true ∧ p.2.render = t := by
  rw [lastValue, Option.map_eq_some_iff] at h
  obtain ⟨p, hp, rfl⟩ := h
  have hmatch := List.find?_some hp
  exact ⟨p, List.mem_reverse.1 (List.mem_of_find?_eq_some hp), hmatch, rfl⟩

/-- Keys that differ have one value each. -/
theorem lastValue_key (hdistinct : (header.pairs.map Prod.fst).Nodup) :
    header.lastValue (· = key) = some t ↔ ∃ v, (key, v) ∈ header.pairs ∧ v.render = t := by
  constructor
  · intro h
    obtain ⟨⟨key', v⟩, hp, hkey, rfl⟩ := exists_of_lastValue h
    obtain rfl : key' = key := by simpa using hkey
    exact ⟨v, hp, rfl⟩
  · rintro ⟨v, hp, rfl⟩
    cases hlast : header.lastValue (· = key) with
    | none =>
      have := lastValue_eq_none.1 hlast _ hp
      simp at this
    | some u =>
      obtain ⟨⟨key', w⟩, hq, hkey, rfl⟩ := exists_of_lastValue hlast
      obtain rfl : key' = key := by simpa using hkey
      have heq := List.inj_on_of_nodup_map hdistinct hp hq rfl
      rw [(Prod.mk.inj heq).2]

/-! ### Another order -/

/-- A header with other pairs. -/
def withPairs (header : GgufHeader) (pairs : List (String × GgufValue)) : GgufHeader :=
  { header with pairs := pairs }

/-- The values of all keys that stand for the context length are read as the same number. -/
def OneContextLength (header : GgufHeader) : Prop :=
  ∀ p ∈ header.pairs, ∀ q ∈ header.pairs, Text.endsWith p.1 ".context_length" = true →
    Text.endsWith q.1 ".context_length" = true →
    Text.parseUnsigned 64 p.2.render = Text.parseUnsigned 64 q.2.render

section Order

variable {pairs : List (String × GgufValue)}

theorem encode_perm (h : pairs.Perm header.pairs) :
    (header.withPairs pairs).encode.length = header.encode.length := by
  have hpairs := (h.flatMap_right encodePair).length_eq
  simp only [encode, withPairs, List.length_append, length_toLe, hpairs]

theorem Sized.perm (hsized : header.Sized) (h : pairs.Perm header.pairs) :
    (header.withPairs pairs).Sized where
  version := hsized.version
  tensorCount := hsized.tensorCount
  values p hp := hsized.values p (h.mem_iff.1 hp)

theorem fits_perm (h : pairs.Perm header.pairs) : (header.withPairs pairs).Fits ↔ header.Fits := by
  constructor
  · rintro ⟨hversion, htensors, hcount, hkeys, hvalues⟩
    refine ⟨hversion, htensors, ?_, fun p hp => hkeys p (h.mem_iff.2 hp),
      fun p hp => hvalues p (h.mem_iff.2 hp)⟩
    rw [← h.length_eq]
    exact hcount
  · rintro ⟨hversion, htensors, hcount, hkeys, hvalues⟩
    refine ⟨hversion, htensors, ?_, fun p hp => hkeys p (h.mem_iff.1 hp),
      fun p hp => hvalues p (h.mem_iff.1 hp)⟩
    rw [← h.length_eq] at hcount
    exact hcount

theorem lastValue_key_perm (hdistinct : (header.pairs.map Prod.fst).Nodup)
    (h : pairs.Perm header.pairs) :
    (header.withPairs pairs).lastValue (· = key) = header.lastValue (· = key) := by
  have hdistinct' : ((header.withPairs pairs).pairs.map Prod.fst).Nodup :=
    (h.map Prod.fst).nodup_iff.2 hdistinct
  apply Option.ext
  intro t
  rw [lastValue_key hdistinct, lastValue_key hdistinct']
  simp only [withPairs, h.mem_iff]

/-- What is read as the context length, when it is one number. -/
theorem contextLength_perm (hone : header.OneContextLength) (h : pairs.Perm header.pairs) :
    ((header.withPairs pairs).lastValue (Text.endsWith · ".context_length")).bind
        (Text.parseUnsigned 64) =
      (header.lastValue (Text.endsWith · ".context_length")).bind (Text.parseUnsigned 64) := by
  cases hlast : header.lastValue (Text.endsWith · ".context_length") with
  | none =>
    have hnone : (header.withPairs pairs).lastValue (Text.endsWith · ".context_length") = none := by
      rw [lastValue_eq_none] at hlast ⊢
      exact fun p hp => hlast p (h.mem_iff.1 hp)
    rw [hnone]
  | some t =>
    obtain ⟨p, hp, hpkey, rfl⟩ := exists_of_lastValue hlast
    cases hlast' : (header.withPairs pairs).lastValue (Text.endsWith · ".context_length") with
    | none =>
      have := lastValue_eq_none.1 hlast' p (h.mem_iff.2 hp)
      rw [hpkey] at this
      cases this
    | some u =>
      obtain ⟨q, hq, hqkey, rfl⟩ := exists_of_lastValue hlast'
      exact hone q (h.mem_iff.1 hq) p hp hqkey hpkey

/-- A pair that comes last decides the context length. -/
theorem contextLength_last {p : String × GgufValue} (before : List (String × GgufValue))
    (hp : Text.endsWith p.1 ".context_length" = true) :
    (header.withPairs (before ++ [p])).metadata.contextLength =
      Text.parseUnsigned 64 p.2.render := by
  rw [(metadata_spec _).2.2.2.2.1, withPairs, lastValue_append, if_pos hp]
  rfl

end Order

end GgufHeader

open GgufHeader in
/-- The order of the entries of a header does not matter, unless it is accepted and has several context
lengths. -/
theorem order_irrelevant_iff (header : GgufHeader) (hsized : header.Sized)
    (hdistinct : (header.pairs.map Prod.fst).Nodup) (trailing : Bytes)
    (hlen : (header.encode ++ trailing).length < 2 ^ 64) :
    (∀ pairs : List (String × GgufValue), pairs.Perm header.pairs →
      SameResult (parseGgufHeader ((header.withPairs pairs).encode ++ trailing))
        (parseGgufHeader (header.encode ++ trailing))) ↔
      (header.Fits → header.OneContextLength) := by
  have hlen' : ∀ pairs : List (String × GgufValue), pairs.Perm header.pairs →
      ((header.withPairs pairs).encode ++ trailing).length < 2 ^ 64 := by
    intro pairs h
    rw [List.length_append, encode_perm h, ← List.length_append]
    exact hlen
  constructor
  · intro hsame hfits p hp q hq hpkey hqkey
    -- Each of the two pairs can come last.
    have hlast : ∀ p ∈ header.pairs, Text.endsWith p.1 ".context_length" = true →
        Text.parseUnsigned 64 p.2.render = header.metadata.contextLength := by
      intro p hp hpkey
      obtain ⟨before, after, heq⟩ := List.append_of_mem hp
      have hperm : ((before ++ after) ++ [p]).Perm header.pairs := by
        rw [heq]
        have hmiddle : (p :: (before ++ after)).Perm (before ++ p :: after) := List.perm_middle.symm
        exact List.perm_append_comm.trans hmiddle
      have hresult := hsame _ hperm
      rw [parse_encode_of_fits hfits hlen,
        parse_encode_of_fits ((fits_perm hperm).2 hfits) (hlen' _ hperm)] at hresult
      have hlast : (header.withPairs (before ++ after ++ [p])).metadata.contextLength = _ :=
        contextLength_last _ hpkey
      rw [← hlast]
      exact hresult.contextLength
    rw [hlast p hp hpkey, hlast q hq hqkey]
  · intro hone pairs h
    by_cases hfits : header.Fits
    · rw [parse_encode_of_fits hfits hlen,
        parse_encode_of_fits ((fits_perm h).2 hfits) (hlen' pairs h)]
      obtain ⟨h1, h2, h3, h4, h5, h6⟩ := (header.withPairs pairs).metadata_spec
      obtain ⟨g1, g2, g3, g4, g5, g6⟩ := header.metadata_spec
      refine ⟨h1.trans g1.symm, h2.trans g2.symm, ?_, ?_, ?_, fun key _ => ?_⟩
      · rw [h4, g4, lastValue_key_perm hdistinct h]
      · rw [h5, g5, contextLength_perm (hone hfits) h]
      · rw [h6, g6, lastValue_key_perm hdistinct h]
      · rw [h3, g3, lastValue_key_perm hdistinct h]
    · have herror : ∀ pairs : List (String × GgufValue), pairs.Perm header.pairs →
          ∃ e, parseGgufHeader ((header.withPairs pairs).encode ++ trailing) = .error e := by
        intro pairs h
        cases hparse : parseGgufHeader ((header.withPairs pairs).encode ++ trailing) with
        | error e => exact ⟨e, rfl⟩
        | ok found =>
          have := (accepts_encode_iff (hsized.perm h) (hlen' pairs h)).1 ⟨found, hparse⟩
          exact absurd ((fits_perm h).1 this) hfits
      obtain ⟨e, he⟩ := herror pairs h
      obtain ⟨e', he'⟩ := herror header.pairs (List.Perm.refl _)
      rw [he, show header = header.withPairs header.pairs from rfl, he']
      trivial

/-- A header with the context lengths of two architectures. -/
def twoContexts : GgufHeader where
  version := 3
  tensorCount := 0
  pairs := [("a.context_length", .fixed .uint32 1), ("b.context_length", .fixed .uint32 2)]

theorem twoContexts_fits : twoContexts.Fits where
  version := by decide
  tensorCount := by decide
  count := by decide
  keys := by
    unfold FitsText
    decide
  values := by
    simp only [twoContexts, List.forall_mem_cons, GgufValue.Fits, List.not_mem_nil, false_implies,
      implies_true, and_true]
    decide

theorem twoContexts_order_iff :
    (∀ pairs : List (String × GgufValue), pairs.Perm twoContexts.pairs →
      SameResult (parseGgufHeader ((twoContexts.withPairs pairs).encode ++ []))
        (parseGgufHeader (twoContexts.encode ++ []))) ↔
      (twoContexts.Fits → twoContexts.OneContextLength) :=
  order_irrelevant_iff twoContexts twoContexts_fits.sized (by decide) [] (by decide +kernel)

/-- Two orders of its entries are read differently. -/
theorem twoContexts_order_matters : (twoContexts.pairs.map Prod.fst).Nodup ∧
    ¬ SameResult (parseGgufHeader ((twoContexts.withPairs twoContexts.pairs.reverse).encode ++ []))
      (parseGgufHeader (twoContexts.encode ++ [])) := by
  refine ⟨by decide, fun hsame => ?_⟩
  have hperm : twoContexts.pairs.reverse.Perm twoContexts.pairs := List.reverse_perm _
  rw [parse_encode_of_fits twoContexts_fits (by decide +kernel),
    parse_encode_of_fits ((GgufHeader.fits_perm hperm).2 twoContexts_fits) (by decide +kernel)] at hsame
  exact absurd hsame.contextLength (by decide +kernel)

/-! ### Another string -/

/-- A string in an array is replaced, in some position of some depth. -/
inductive GgufArray.Replaces (s s' : String) : GgufArray → GgufArray → Prop
  | text (before after : List String) :
    Replaces s s' (.text (before ++ s :: after)) (.text (before ++ s' :: after))
  | nested (before after : List GgufArray) {a a' : GgufArray} (h : Replaces s s' a a') :
    Replaces s s' (.nested (before ++ a :: after)) (.nested (before ++ a' :: after))

/-- A string is replaced that is a value or in an array. -/
inductive GgufValue.Replaces (s s' : String) : GgufValue → GgufValue → Prop
  | text : Replaces s s' (.text s) (.text s')
  | array {a a' : GgufArray} (h : a.Replaces s s' a') : Replaces s s' (.array a) (.array a')

/-- A string in the value of one entry is replaced. -/
inductive GgufHeader.Replaces (key s s' : String) : GgufHeader → GgufHeader → Prop
  | entry (version tensorCount : Nat) (before after : List (String × GgufValue)) {v v' : GgufValue}
      (h : v.Replaces s s' v') :
    Replaces key s s' ⟨version, tensorCount, before ++ (key, v) :: after⟩
      ⟨version, tensorCount, before ++ (key, v') :: after⟩

/-- The keys whose values are fields of the metadata. -/
def SpecialKey (key : String) : Prop :=
  key = "general.architecture" ∨ Text.endsWith key ".context_length" = true ∨ key = "general.file_type"

theorem fitArrays_iff {as : List GgufArray} : FitArrays as ↔ ∀ a ∈ as, a.Fits := by
  induction as with
  | nil => simp [FitArrays]
  | cons a as ih => rw [FitArrays, ih, List.forall_mem_cons]

theorem sizedArrays_iff {as : List GgufArray} : SizedArrays as ↔ ∀ a ∈ as, a.Sized := by
  induction as with
  | nil => simp [SizedArrays]
  | cons a as ih => rw [SizedArrays, ih, List.forall_mem_cons]

section Replaces

variable {s s' : String} {a a' : GgufArray} {v v' : GgufValue}

theorem GgufArray.Replaces.length_eq (h : a.Replaces s s' a') : a'.length = a.length := by
  cases h with
  | text before after => simp [GgufArray.length]
  | nested before after h => simp [GgufArray.length]

/-- The array is within the limits as long as the new string is. -/
theorem GgufArray.Replaces.fits_iff (h : a.Replaces s s' a') (hfits : a.Fits) :
    a'.Fits ↔ FitsText s' := by
  induction h with
  | text before after =>
    simp only [GgufArray.Fits, List.length_append, List.length_cons, List.forall_mem_append,
      List.forall_mem_cons] at hfits ⊢
    exact ⟨fun hall => hall.2.2.1, fun hs => ⟨hfits.1, hfits.2.1, hs, hfits.2.2.2⟩⟩
  | nested before after h ih =>
    simp only [GgufArray.Fits, fitArrays_iff, List.length_append, List.length_cons,
      List.forall_mem_append, List.forall_mem_cons] at hfits ⊢
    rw [ih hfits.2.2.1]
    exact ⟨fun hall => hall.2.2.1, fun hs => ⟨hfits.1, hfits.2.1, hs, hfits.2.2.2⟩⟩

theorem GgufArray.Replaces.sized (h : a.Replaces s s' a') (hsized : a.Sized) : a'.Sized := by
  induction h with
  | text before after =>
    rw [GgufArray.Sized]
    trivial
  | nested before after h ih =>
    simp only [GgufArray.Sized, sizedArrays_iff, List.forall_mem_append, List.forall_mem_cons]
      at hsized ⊢
    exact ⟨hsized.1, ih hsized.2.1, hsized.2.2⟩

theorem GgufValue.Replaces.fits_iff (h : v.Replaces s s' v') (hfits : v.Fits) :
    v'.Fits ↔ FitsText s' := by
  cases h with
  | text => rfl
  | array h => exact h.fits_iff hfits

theorem GgufValue.Replaces.sized (h : v.Replaces s s' v') (hsized : v.Sized) : v'.Sized := by
  cases h with
  | text => exact trivial
  | array h => exact h.sized hsized

namespace GgufHeader.Replaces

theorem fits_iff (h : header.Replaces key s s' header') (hfits : header.Fits) :
    header'.Fits ↔ FitsText s' := by
  cases h with
  | entry version tensorCount before after h =>
    obtain ⟨hversion, htensors, hcount, hkeys, hvalues⟩ := hfits
    simp only [List.forall_mem_append, List.forall_mem_cons] at hkeys hvalues
    constructor
    · rintro ⟨-, -, -, -, hvalues'⟩
      simp only [List.forall_mem_append, List.forall_mem_cons] at hvalues'
      exact (h.fits_iff hvalues.2.1).1 hvalues'.2.1
    · intro hs
      refine ⟨hversion, htensors, by simpa using hcount, ?_, ?_⟩
      · simp only [List.forall_mem_append, List.forall_mem_cons]
        exact hkeys
      · simp only [List.forall_mem_append, List.forall_mem_cons]
        exact ⟨hvalues.1, (h.fits_iff hvalues.2.1).2 hs, hvalues.2.2⟩

theorem sized (h : header.Replaces key s s' header') (hsized : header.Sized) : header'.Sized := by
  cases h with
  | entry version tensorCount before after h =>
    obtain ⟨hversion, htensors, hvalues⟩ := hsized
    simp only [List.forall_mem_append, List.forall_mem_cons] at hvalues
    refine ⟨hversion, htensors, ?_⟩
    simp only [List.forall_mem_append, List.forall_mem_cons]
    exact ⟨hvalues.1, h.sized hvalues.2.1, hvalues.2.2⟩

/-- What other keys stand for is the same. -/
theorem lastValue_eq (h : header.Replaces key s s' header') (hkey : matching key = false) :
    header'.lastValue matching = header.lastValue matching := by
  cases h with
  | entry version tensorCount before after h => simp [lastValue, List.find?_append, hkey]

/-- Only the attribute of the entry can differ. -/
theorem sameBut (h : header.Replaces key s s' header') (hkey : ¬ SpecialKey key) :
    header'.metadata.SameBut (· = key) header.metadata := by
  obtain ⟨h1, h2, h3, h4, h5, h6⟩ := header'.metadata_spec
  obtain ⟨g1, g2, g3, g4, g5, g6⟩ := header.metadata_spec
  have hversion : header'.version = header.version := by
    cases h
    rfl
  have htensors : header'.tensorCount = header.tensorCount := by
    cases h
    rfl
  simp only [SpecialKey, not_or, Bool.not_eq_true] at hkey
  refine ⟨?_, ?_, ?_, ?_, ?_, fun k hk => ?_⟩
  · rw [h1, g1, hversion]
  · rw [h2, g2, htensors]
  · rw [h4, g4, h.lastValue_eq (decide_eq_false hkey.1)]
  · rw [h5, g5, h.lastValue_eq hkey.2.1]
  · rw [h6, g6, h.lastValue_eq (decide_eq_false hkey.2.2)]
  · rw [h3, g3, h.lastValue_eq (decide_eq_false (Ne.symm hk))]

end GgufHeader.Replaces

/-- A header that is accepted stays so when a string in it is replaced, with what it says otherwise,
exactly if the new string is within the limit on keys. -/
theorem replaced_iff (h : header.Replaces key s s' header') (hkey : ¬ SpecialKey key)
    (hsized : header.Sized) (trailing : Bytes) {found : GgufMetadata}
    (hparse : parseGgufHeader (header.encode ++ trailing) = .ok found)
    (hlen : (header.encode ++ trailing).length < 2 ^ 64)
    (hlen' : (header'.encode ++ trailing).length < 2 ^ 64) :
    (∃ found', parseGgufHeader (header'.encode ++ trailing) = .ok found' ∧
      found'.SameBut (· = key) found) ↔ (Text.toBytes s').length ≤ 1024 := by
  have hfits : header.Fits := (accepts_encode_iff hsized hlen).1 ⟨found, hparse⟩
  have hfits' : header'.Fits ↔ FitsText s' := h.fits_iff hfits
  rw [parse_encode_of_fits hfits hlen, Except.ok.injEq] at hparse
  subst hparse
  constructor
  · rintro ⟨found', hok, -⟩
    exact hfits'.1 ((accepts_encode_iff (h.sized hsized) hlen').1 ⟨found', hok⟩)
  · intro hs
    exact ⟨_, parse_encode_of_fits (hfits'.2 hs) hlen', h.sameBut hkey⟩

end Replaces

/-- A header with a chat template. -/
def templateHeader (template : String) : GgufHeader where
  version := 3
  tensorCount := 0
  pairs := [("tokenizer.chat_template", .text template)]

theorem templateHeader_fits : (templateHeader "").Fits where
  version := by decide
  tensorCount := by decide
  count := by decide
  keys := by
    unfold FitsText
    decide
  values := by
    simp only [templateHeader, List.forall_mem_singleton, GgufValue.Fits, FitsText]
    decide

theorem templateHeader_replaces (s s' : String) :
    (templateHeader s).Replaces "tokenizer.chat_template" s s' (templateHeader s') :=
  .entry 3 0 [] [] .text

theorem templateHeader_replaced_iff :
    (∃ found', parseGgufHeader ((templateHeader "hello").encode ++ []) = .ok found' ∧
      found'.SameBut (· = "tokenizer.chat_template") (templateHeader "").metadata) ↔
      (Text.toBytes "hello").length ≤ 1024 :=
  replaced_iff (templateHeader_replaces "" "hello")
    (by unfold SpecialKey; decide) templateHeader_fits.sized []
    (parse_encode_of_fits templateHeader_fits (by decide +kernel)) (by decide +kernel)
    (by decide +kernel)

/-- A template of 1025 bytes. -/
def longTemplate : String := String.ofList (List.replicate 1025 'a')

/-- The header is accepted with an empty template and refused with that one. -/
theorem longTemplate_refused :
    (∃ found, parseGgufHeader ((templateHeader "").encode ++ []) = .ok found) ∧
      ¬ ∃ found, parseGgufHeader ((templateHeader longTemplate).encode ++ []) = .ok found := by
  have hreplaces := templateHeader_replaces "" longTemplate
  have hlength : (Text.toBytes longTemplate).length = 1025 := by decide +kernel
  refine ⟨⟨_, parse_encode_of_fits templateHeader_fits (by decide +kernel)⟩, fun haccepted => ?_⟩
  have hfits := (accepts_encode_iff (hreplaces.sized templateHeader_fits.sized)
    (by decide +kernel)).1 haccepted
  have hle : (Text.toBytes longTemplate).length ≤ 1024 :=
    (hreplaces.fits_iff templateHeader_fits).1 hfits
  omega

end Modeld
