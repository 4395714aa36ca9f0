import Mathlib

/-!
# Choosing by criteria

A list of criteria, the first of them the most important, picks from a list the first element that
meets the first criterion that is met at all. What is picked is the first element of the least rank,
and the picked element is good exactly when every bad element with a rank is outdone by a good one.
-/

namespace Host

namespace Choice

variable {α : Type} (criteria : List (α → Bool)) (l : List α)

/-- The first element that meets the first criterion that any element meets. -/
def pick : Option α := criteria.findSome? fun p => l.find? p

/-- The first criterion that an element meets, by its number. -/
def rank (a : α) : Nat := criteria.findIdx fun p => p a

variable {criteria l}

theorem rank_cons (p : α → Bool) (a : α) :
    rank (p :: criteria) a = if p a then 0 else rank criteria a + 1 := by
  rw [rank, List.findIdx_cons]
  cases p a <;> rfl

theorem rank_lt_iff {a : α} : rank criteria a < criteria.length ↔ ∃ p ∈ criteria, p a = true := by
  rw [rank, List.findIdx_lt_length]

/-- What is picked is the first element of the least rank. -/
theorem pick_eq_some {a : α} (h : pick criteria l = some a) :
    rank criteria a < criteria.length ∧ (∀ b ∈ l, rank criteria a ≤ rank criteria b) ∧
      ∃ before after, l = before ++ a :: after ∧ ∀ b ∈ before, rank criteria a < rank criteria b := by
  induction criteria with
  | nil => cases h
  | cons p criteria ih =>
    rw [pick, List.findSome?_cons] at h
    cases hfind : l.find? p with
    | some b =>
      rw [hfind] at h
      cases h
      obtain ⟨hmeets, before, after, rfl, hbefore⟩ := List.find?_eq_some_iff_append.1 hfind
      have hzero : rank (p :: criteria) a = 0 := by rw [rank_cons, if_pos hmeets]
      refine ⟨by rw [hzero]; exact Nat.succ_pos _, fun b _ => by rw [hzero]; exact Nat.zero_le _,
        before, after, rfl, fun b hb => ?_⟩
      have hnot : p b = false := by simpa using hbefore b hb
      rw [hzero, rank_cons, hnot]
      exact Nat.succ_pos _
    | none =>
      rw [hfind] at h
      obtain ⟨hlt, hleast, before, after, rfl, hbefore⟩ := ih h
      have hsucc : ∀ b ∈ before ++ a :: after, rank (p :: criteria) b = rank criteria b + 1 := by
        intro b hb
        have hnot : p b = false := by simpa using List.find?_eq_none.1 hfind b hb
        rw [rank_cons, hnot]
        rfl
      have ha := hsucc a (List.mem_append_right _ (List.mem_cons_self ..))
      refine ⟨?_, fun b hb => ?_, before, after, rfl, fun b hb => ?_⟩
      · rw [ha]
        exact Nat.succ_lt_succ hlt
      · rw [ha, hsucc b hb]
        exact Nat.succ_le_succ (hleast b hb)
      · rw [ha, hsucc b (List.mem_append_left _ hb)]
        exact Nat.succ_lt_succ (hbefore b hb)

theorem mem_of_pick {a : α} (h : pick criteria l = some a) : a ∈ l := by
  obtain ⟨-, -, before, after, rfl, -⟩ := pick_eq_some h
  exact List.mem_append_right _ (List.mem_cons_self ..)

theorem pick_eq_none_iff : pick criteria l = none ↔ ∀ a ∈ l, ∀ p ∈ criteria, p a = false := by
  rw [pick, List.findSome?_eq_none_iff]
  constructor
  · intro h a ha p hp
    simpa using List.find?_eq_none.1 (h p hp) a ha
  · intro h p hp
    rw [List.find?_eq_none]
    intro a ha
    rw [h a ha p hp]
    exact Bool.false_ne_true

/-- No bad element is picked exactly when each bad element that meets a criterion is outdone by a good
one: by one that meets an earlier criterion, or by one before it that meets the same. -/
theorem pick_good_iff (bad : α → Prop) : (∀ a, pick criteria l = some a → ¬ bad a) ↔
    ∀ before a after, l = before ++ a :: after → bad a → rank criteria a < criteria.length →
      (∃ b ∈ l, ¬ bad b ∧ rank criteria b < rank criteria a) ∨
        ∃ b ∈ before, ¬ bad b ∧ rank criteria b = rank criteria a := by
  constructor
  · intro h before a after hsplit hbad hlt
    have hmem : a ∈ l := by
      rw [hsplit]
      exact List.mem_append_right _ (List.mem_cons_self ..)
    cases hpick : pick criteria l with
    | none =>
      obtain ⟨p, hp, hmeets⟩ := rank_lt_iff.1 hlt
      rw [pick_eq_none_iff.1 hpick a hmem p hp] at hmeets
      cases hmeets
    | some m =>
      have hgood := h m hpick
      obtain ⟨-, hleast, before', after', hsplit', hbefore'⟩ := pick_eq_some hpick
      rcases Nat.lt_or_eq_of_le (hleast a hmem) with hless | hsame
      · exact .inl ⟨m, mem_of_pick hpick, hgood, hless⟩
      · -- Of two elements of the least rank the picked one comes first.
        refine .inr ⟨m, ?_, hgood, hsame⟩
        rcases List.append_eq_append_iff.1 (hsplit.symm.trans hsplit') with
          ⟨between, rfl, hrest⟩ | ⟨between, rfl, hrest⟩
        · cases between with
          | nil =>
            obtain ⟨rfl, -⟩ := List.cons.inj hrest
            exact absurd hbad hgood
          | cons x between =>
            obtain ⟨rfl, -⟩ := List.cons.inj hrest
            have hlate := hbefore' a (List.mem_append_right _ (List.mem_cons_self ..))
            omega
        · cases between with
          | nil =>
            obtain ⟨rfl, -⟩ := List.cons.inj hrest
            exact absurd hbad hgood
          | cons x between =>
            obtain ⟨rfl, -⟩ := List.cons.inj hrest
            exact List.mem_append_right _ (List.mem_cons_self ..)
  · intro h m hpick hbad
    obtain ⟨hlt, hleast, before, after, hsplit, hbefore⟩ := pick_eq_some hpick
    rcases h before m after hsplit hbad hlt with ⟨b, hb, -, hless⟩ | ⟨b, hb, -, hsame⟩
    · have hle := hleast b hb
      omega
    · have hless := hbefore b hb
      omega

end Choice

end Host
