import Modeld.Runs.Identifiers

/-!
# Names and tags as identifiers

`name:tag` resolves to the entry of the name and the tag, and a digest is its own cleaned form.
-/

namespace Modeld

open Host Program

variable {name tag d : String}

/-- The characters of `is_ascii_alphanumeric`, as the library has them. -/
theorem isAlphanum_eq (c : Char) : c.isAlphanum = (decide (c.val ≥ 65 ∧ c.val ≤ 90) ||
    (c.val ≥ 97 && c.val ≤ 122) || (c.val ≥ 48 && c.val ≤ 57)) := rfl

theorem not_isWhitespace_of_isSegmentChar {c : Char} (hc : isSegmentChar c = true) :
    Text.isWhitespace c = false := by
  simp only [isSegmentChar, isAlphanum_eq, Bool.or_eq_true, Bool.and_eq_true, decide_eq_true_eq, UInt32.le_iff_toNat_le,
    ge_iff_le] at hc
  have hval : c.val.toNat = c.toNat := rfl
  simp only [Text.isWhitespace, Bool.or_eq_false_iff, Bool.and_eq_false_iff,
    decide_eq_false_iff_not]
  have hnat : (65 ≤ c.toNat ∧ c.toNat ≤ 90) ∨ (97 ≤ c.toNat ∧ c.toNat ≤ 122) ∨
      (48 ≤ c.toNat ∧ c.toNat ≤ 57) ∨ c.toNat = 46 ∨ c.toNat = 45 ∨ c.toNat = 95 ∨ c.toNat = 43 := by
    rcases hc with (((((h | h) | h) | rfl) | rfl) | rfl) | rfl
    · exact .inl h
    · exact .inr (.inl h)
    · exact .inr (.inr (.inl h))
    · exact .inr (.inr (.inr (.inl rfl)))
    · exact .inr (.inr (.inr (.inr (.inl rfl))))
    · exact .inr (.inr (.inr (.inr (.inr (.inl rfl)))))
    · exact .inr (.inr (.inr (.inr (.inr (.inr rfl)))))
  omega

namespace IsSegment

theorem colon_not_mem (h : IsSegment name) : ':' ∉ name.toList := by
  intro hmem
  have := h.2 _ hmem
  revert this
  decide

theorem trim_eq (h : IsSegment name) : Text.trim name = name :=
  Text.trim_eq_self fun c hc => not_isWhitespace_of_isSegmentChar (h.2 c hc)

/-- There is nothing to trim from a name and a tag. -/
theorem trim_tagged (hname : IsSegment name) (htag : IsSegment tag) :
    Text.trim (name ++ ":" ++ tag) = name ++ ":" ++ tag := by
  refine Text.trim_eq_self fun c hc => ?_
  simp only [String.toList_append, List.mem_append] at hc
  rcases hc with (hc | hc) | hc
  · exact not_isWhitespace_of_isSegmentChar (hname.2 c hc)
  · obtain rfl : c = ':' := by simpa using hc
    decide
  · exact not_isWhitespace_of_isSegmentChar (htag.2 c hc)

theorem splitOnce_tagged (hname : IsSegment name) (tag : String) :
    Text.splitOnce ':' (name ++ ":" ++ tag) = some (name, tag) := by
  have hmem : ':' ∈ (name ++ ":" ++ tag).toList := by simp
  have hall : ∀ c ∈ name.toList, decide (c ≠ ':') = true := by
    intro c hc
    simp only [ne_eq, decide_eq_true_eq]
    rintro rfl
    exact hname.colon_not_mem hc
  have hlist : (name ++ ":" ++ tag).toList = name.toList ++ ':' :: tag.toList := by simp
  rw [Text.splitOnce, if_pos hmem, hlist, List.takeWhile_append_of_pos hall,
    List.dropWhile_append_of_pos hall]
  simp

theorem identifierParts_tagged (hname : IsSegment name) (tag : String) :
    identifierParts (name ++ ":" ++ tag) = (name, tag) := by
  rw [identifierParts, hname.splitOnce_tagged]
  rfl

theorem not_isHex_tagged (name tag : String) : ¬ IsHex (name ++ ":" ++ tag) := by
  rintro ⟨-, hall⟩
  have hcolon := List.all_eq_true.1 hall ':' (by simp)
  revert hcolon
  decide

end IsSegment

/-- A name and a tag resolve to their entry. -/
theorem TagRegistry.resolve_tagged (t : TagRegistry) (hname : IsSegment name) (htag : IsSegment tag) :
    t.resolve (name ++ ":" ++ tag) = t.getTag name tag := by
  have hbool : ¬ (decide ((name ++ ":" ++ tag).toList.length = 64) &&
      (name ++ ":" ++ tag).toList.all isHexDigit) = true := by
    simpa [IsHex] using IsSegment.not_isHex_tagged name tag
  have hparts : (Text.splitOnce ':' (name ++ ":" ++ tag)).getD (name ++ ":" ++ tag, "latest") =
      (name, tag) := hname.identifierParts_tagged tag
  unfold resolve
  dsimp only
  rw [hname.trim_tagged htag, if_neg hbool, hparts]
  dsimp only
  rw [validateTagSegment_eq_ok.2 ⟨rfl, hname⟩, validateTagSegment_eq_ok.2 ⟨rfl, htag⟩]

/-! ### Digests -/

theorem lowerAscii_of_isDigestChar {c : Char} (hc : isDigestChar c = true) : Text.lowerAscii c = c := by
  unfold Text.lowerAscii
  rw [if_neg]
  rintro ⟨hA, hZ⟩
  simp only [isDigestChar, Bool.or_eq_true, Bool.and_eq_true, decide_eq_true_eq] at hc
  rcases hc with ⟨-, h9⟩ | ⟨ha, -⟩
  · exact absurd (Char.le_trans hA h9) (by decide)
  · exact absurd (Char.le_trans ha hZ) (by decide)

theorem IsDigest.toAsciiLowercase_eq (hd : IsDigest d) : Text.toAsciiLowercase d = d := by
  rw [Text.toAsciiLowercase, ← String.toList_inj, String.toList_ofList]
  conv_rhs => rw [← List.map_id d.toList]
  exact List.map_congr_left fun c hc => lowerAscii_of_isDigestChar (hd.isDigestChar_of_mem hc)

private theorem stripPrefix_of_isDigest (hd : IsDigest d) {start : String} {c : Char}
    (hmem : c ∈ start.toList) (hc : isDigestChar c = false) : Text.stripPrefix d start = none := by
  unfold Text.stripPrefix
  rw [if_neg]
  exact fun hpre => hd.not_mem hc (hpre.subset hmem)

private theorem stripSuffix_of_isDigest (hd : IsDigest d) {ending : String} {c : Char}
    (hmem : c ∈ ending.toList) (hc : isDigestChar c = false) : Text.stripSuffix d ending = none := by
  unfold Text.stripSuffix
  rw [if_neg]
  exact fun hsuf => hd.not_mem hc (hsuf.subset hmem)

/-- A digest has nothing to clean. -/
theorem IsDigest.cleanDigest_eq (hd : IsDigest d) : cleanDigest d = d := by
  unfold cleanDigest
  rw [stripPrefix_of_isDigest hd (c := ':') (by decide) (by decide),
    stripPrefix_of_isDigest hd (c := '-') (by decide) (by decide),
    Option.or_none, Option.getD_none]
  dsimp only
  rw [stripSuffix_of_isDigest hd (c := '.') (by decide) (by decide),
    stripSuffix_of_isDigest hd (c := '.') (by decide) (by decide)]
  exact hd.toAsciiLowercase_eq

end Modeld
