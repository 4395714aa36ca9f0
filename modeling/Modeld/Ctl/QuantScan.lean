import Mathlib
import Modeld.Ctl.Resolve

/-!
# Scanning a file name for a quantization

The scan looks at every place where the quantization stands, from left to right, and stops at the
first one that stands between delimiters. It goes on one byte behind the start of a place that it has
passed over, so it stays on character boundaries as long as all of those start with an ASCII character.
-/

namespace Modeld

open Host

variable {q l s t : List Char} {prev : Option Char} {c : Char}

/-- Between `s` and the end of `t`, the text `q` stands between delimiters at the start of `t`, where
`prev` is the character before `s`. -/
structure DelimitedAt (q : List Char) (prev : Option Char) (s t : List Char) : Prop where
  occurs : q <+: t
  before : isBoundary (s.getLast?.or prev) = true
  after : isBoundary (t.drop q.length).head? = true

/-- The text stands between delimiters somewhere. -/
def HasDelimited (q : List Char) (prev : Option Char) (l : List Char) : Prop :=
  ∃ s t, l = s ++ t ∧ DelimitedAt q prev s t

/-- Up to the first place between delimiters, every place where the text stands starts with an ASCII
character. -/
def StaysOnBoundaries (q : List Char) (prev : Option Char) (l : List Char) : Prop :=
  ∀ s t, l = s ++ t → q <+: t →
    (∀ s' t', l = s' ++ t' → s'.length ≤ s.length → ¬ DelimitedAt q prev s' t') →
    ∃ c rest, t = c :: rest ∧ c.toNat < 128

theorem delimitedAt_cons : DelimitedAt q prev (c :: s) t ↔ DelimitedAt q (some c) s t := by
  have hlast : (c :: s).getLast?.or prev = s.getLast?.or (some c) := by
    rw [List.getLast?_cons]
    cases s.getLast? <;> rfl
  constructor
  · intro h
    exact ⟨h.occurs, hlast ▸ h.before, h.after⟩
  · intro h
    exact ⟨h.occurs, hlast.symm ▸ h.before, h.after⟩

/-- The places in a text are its start and the places behind its first character. -/
theorem append_eq_cons : c :: l = s ++ t ↔ (s = [] ∧ t = c :: l) ∨ ∃ s', s = c :: s' ∧ l = s' ++ t := by
  rw [eq_comm, List.append_eq_cons_iff]

theorem hasDelimited_nil : HasDelimited q prev [] ↔ q = [] ∧ isBoundary prev = true := by
  constructor
  · intro h
    obtain ⟨s, t, hsplit, hat⟩ := h
    obtain ⟨rfl, rfl⟩ := List.append_eq_nil_iff.1 hsplit.symm
    exact ⟨List.prefix_nil.1 hat.occurs, hat.before⟩
  · intro h
    obtain ⟨rfl, hprev⟩ := h
    exact ⟨[], [], rfl, List.nil_prefix, hprev, rfl⟩

theorem hasDelimited_cons : HasDelimited q prev (c :: l) ↔
    DelimitedAt q prev [] (c :: l) ∨ HasDelimited q (some c) l := by
  constructor
  · intro h
    obtain ⟨s, t, hsplit, hat⟩ := h
    rcases append_eq_cons.1 hsplit with ⟨rfl, rfl⟩ | ⟨s', rfl, hrest⟩
    · exact .inl hat
    · exact .inr ⟨s', t, hrest, delimitedAt_cons.1 hat⟩
  · intro h
    rcases h with hat | ⟨s, t, rfl, hat⟩
    · exact ⟨[], c :: l, rfl, hat⟩
    · exact ⟨c :: s, t, rfl, delimitedAt_cons.2 hat⟩

theorem staysOnBoundaries_nil :
    StaysOnBoundaries q prev [] ↔ ¬ (q = [] ∧ isBoundary prev = false) := by
  constructor
  · intro h hbad
    obtain ⟨rfl, hprev⟩ := hbad
    obtain ⟨c, rest, hnil, -⟩ := h [] [] rfl List.nil_prefix fun s' t' hsplit _ hat => by
      obtain ⟨rfl, rfl⟩ := List.append_eq_nil_iff.1 hsplit.symm
      exact Bool.false_ne_true (hprev.symm.trans hat.before)
    cases hnil
  · intro h s t hsplit hoccurs hnone
    obtain ⟨rfl, rfl⟩ := List.append_eq_nil_iff.1 hsplit.symm
    obtain rfl := List.prefix_nil.1 hoccurs
    refine absurd ⟨rfl, ?_⟩ h
    by_contra hprev
    exact hnone [] [] rfl le_rfl ⟨List.nil_prefix, by simpa using hprev, rfl⟩

theorem staysOnBoundaries_cons : StaysOnBoundaries q prev (c :: l) ↔
    DelimitedAt q prev [] (c :: l) ∨
      ((q <+: c :: l → c.toNat < 128) ∧ StaysOnBoundaries q (some c) l) := by
  by_cases hhere : DelimitedAt q prev [] (c :: l)
  · simp only [hhere, true_or, iff_true]
    intro s t hsplit _ hnone
    exact absurd hhere (hnone [] (c :: l) rfl (Nat.zero_le _))
  · simp only [hhere, false_or]
    constructor
    · intro h
      constructor
      · intro hoccurs
        obtain ⟨c', rest, hcons, hascii⟩ := h [] (c :: l) rfl hoccurs fun s' t' hsplit hle hat => by
          obtain rfl := List.length_eq_zero_iff.1 (Nat.le_zero.1 hle)
          obtain rfl := hsplit
          exact hhere hat
        obtain ⟨rfl, -⟩ := List.cons.inj hcons
        exact hascii
      · intro s t hsplit hoccurs hnone
        refine h (c :: s) t (by rw [hsplit]; rfl) hoccurs fun s' t' hsplit' hle hat => ?_
        rcases append_eq_cons.1 hsplit' with ⟨rfl, rfl⟩ | ⟨s'', rfl, hrest⟩
        · exact hhere hat
        · exact hnone s'' t' hrest (Nat.le_of_succ_le_succ hle) (delimitedAt_cons.1 hat)
    · intro h s t hsplit hoccurs hnone
      rcases append_eq_cons.1 hsplit with ⟨rfl, rfl⟩ | ⟨s', rfl, hrest⟩
      · exact ⟨c, l, rfl, h.1 hoccurs⟩
      · refine h.2 s' t hrest hoccurs fun s'' t'' hsplit' hle hat => ?_
        refine hnone (c :: s'') t'' (by rw [hsplit']; rfl) ?_ (delimitedAt_cons.2 hat)
        exact Nat.succ_le_succ hle

/-! ### What the scan finds -/

/-- The messages of the panics on a slice of text. -/
def slicePanics : List String := ["byte index is out of bounds", "byte index is not a char boundary"]

theorem delimitedAt_here (hoccurs : q <+: c :: l) : DelimitedAt q prev [] (c :: l) ↔
    (isBoundary prev && isBoundary ((c :: l).drop q.length).head?) = true := by
  rw [Bool.and_eq_true]
  constructor
  · intro h
    exact ⟨h.before, h.after⟩
  · intro h
    exact ⟨hoccurs, h.1, h.2⟩

/-- The scan comes to an end without leaving the boundaries, and then says whether the text stands
between delimiters. -/
theorem searchDelimited_cases (q : List Char) (prev : Option Char) (l : List Char) :
    (StaysOnBoundaries q prev l ∧ ∃ found, searchDelimited q prev l = .ok found ∧
        (found = true ↔ HasDelimited q prev l)) ∨
      (¬ StaysOnBoundaries q prev l ∧ ∃ msg ∈ slicePanics, searchDelimited q prev l = .error msg) := by
  induction l generalizing prev with
  | nil =>
    rw [staysOnBoundaries_nil, hasDelimited_nil, searchDelimited]
    by_cases hq : q = []
    · rw [if_pos hq]
      cases isBoundary prev with
      | true => exact .inl ⟨by simp, true, rfl, by simp [hq]⟩
      | false => exact .inr ⟨by simp [hq], _, List.mem_cons_self .., rfl⟩
    · rw [if_neg hq]
      exact .inl ⟨by simp [hq], false, rfl, by simp [hq]⟩
  | cons c l ih =>
    rw [staysOnBoundaries_cons, hasDelimited_cons, searchDelimited]
    by_cases hoccurs : q <+: c :: l
    · rw [if_pos hoccurs, delimitedAt_here hoccurs]
      cases isBoundary prev && isBoundary ((c :: l).drop q.length).head? with
      | true => exact .inl ⟨.inl rfl, true, rfl, by simp⟩
      | false =>
        by_cases hascii : c.toNat < 128
        · simpa [hoccurs, hascii] using ih (some c)
        · refine .inr ⟨by simp [hoccurs, hascii], "byte index is not a char boundary", ?_, ?_⟩
          · exact List.mem_cons_of_mem _ (List.mem_singleton_self _)
          · rw [if_neg Bool.false_ne_true, if_neg hascii]
    · have hnot : ¬ DelimitedAt q prev [] (c :: l) := fun hat => hoccurs hat.occurs
      simpa [hoccurs, hnot] using ih (some c)

/-- Text that starts with an ASCII character is scanned to the end. -/
theorem staysOnBoundaries_of_ascii (hascii : c.toNat < 128) (prev : Option Char) (l : List Char) :
    StaysOnBoundaries (c :: q) prev l := by
  intro s t _ hoccurs _
  obtain ⟨u, rfl⟩ := hoccurs
  exact ⟨c, q ++ u, rfl, hascii⟩

/-! ### What matches -/

theorem isBf16Only_eq_false {name q : String}
    (h : q ≠ "F16" ∨ Text.contains name "BF16" = false) : isBf16Only name q = false := by
  rw [isBf16Only]
  rcases h with hne | hnone
  · rw [decide_eq_false hne]
    rfl
  · rw [hnone, Bool.and_false]
    rfl

theorem matchesQuantDelimited_eq {name q : String} (h : isBf16Only name q = false) :
    matchesQuantDelimited name q = searchDelimited q.toList none name.toList := by
  rw [matchesQuantDelimited, h]
  rfl

/-- What a name ends in behind a delimiter, up to its extension, stands between delimiters. -/
theorem hasDelimited_of_endsWith {name q : String} {d : Char} (hd : isBoundary (some d) = true)
    (h : Text.endsWith name (String.ofList [d] ++ q ++ ".GGUF") = true) :
    HasDelimited q.toList none name.toList := by
  rw [Text.endsWith, decide_eq_true_eq, String.toList_append, String.toList_append,
    String.toList_ofList] at h
  obtain ⟨u, hname⟩ := h
  refine ⟨u ++ [d], q.toList ++ ".GGUF".toList, ?_, ⟨List.prefix_append .., ?_, ?_⟩⟩
  · rw [← hname]
    simp only [List.append_assoc]
  · rw [List.getLast?_concat, Option.some_or]
    exact hd
  · rw [List.drop_left]
    rfl

theorem hasDelimited_of_strict {name q : String} (h : matchesQuantStrict name q = true) :
    HasDelimited q.toList none name.toList := by
  rw [matchesQuantStrict, Bool.or_eq_true, Bool.or_eq_true] at h
  rcases h with (h | h) | h
  · exact hasDelimited_of_endsWith (d := '-') rfl h
  · exact hasDelimited_of_endsWith (d := '_') rfl h
  · exact hasDelimited_of_endsWith (d := '.') rfl h

/-- Where `BF16` plays no part, a name matches exactly when the quantization stands in it between
delimiters, and so it does in every strict match. -/
theorem matchesQuantDelimited_iff (name q : String) (hne : q ≠ "")
    (hascii : ∀ c ∈ q.toList, c.toNat < 128) (hbf : q ≠ "F16" ∨ Text.contains name "BF16" = false) :
    (∃ found, matchesQuantDelimited name q = .ok found ∧
        (found = true ↔ HasDelimited q.toList none name.toList)) ∧
      (matchesQuantStrict name q = true → matchesQuantDelimited name q = .ok true) := by
  have hstays : StaysOnBoundaries q.toList none name.toList := by
    cases hq : q.toList with
    | nil => exact absurd (String.toList_eq_nil_iff.1 hq) hne
    | cons c rest =>
      rw [hq] at hascii
      exact staysOnBoundaries_of_ascii (hascii c (List.mem_cons_self ..)) none _
  rw [matchesQuantDelimited_eq (isBf16Only_eq_false hbf)]
  rcases searchDelimited_cases q.toList none name.toList with ⟨-, found, hfound, hiff⟩ | ⟨hbad, -⟩
  · refine ⟨⟨found, hfound, hiff⟩, fun hstrict => ?_⟩
    rw [hfound, hiff.2 (hasDelimited_of_strict hstrict)]
  · exact absurd hstays hbad

/-- The first of two places that overlap is not delimited. -/
theorem matchesQuantDelimited_overlapping :
    (∃ found, matchesQuantDelimited "XA-A-A.GGUF" "A-A" = .ok found ∧
        (found = true ↔ HasDelimited "A-A".toList none "XA-A-A.GGUF".toList)) ∧
      (matchesQuantStrict "XA-A-A.GGUF" "A-A" = true →
        matchesQuantDelimited "XA-A-A.GGUF" "A-A" = .ok true) :=
  matchesQuantDelimited_iff "XA-A-A.GGUF" "A-A" (by decide) (List.all_iff_forall_prop.1 rfl)
    (.inl (by decide))

end Modeld
