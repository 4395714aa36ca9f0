import Mathlib

/-!
# Folds seen through a part of the state

A part of the state that every step joins with a flag, or replaces by a value that an element may
have, is at the end what the flags or the last value say. The last value depends on the order of the
elements, unless all values are the same.
-/

namespace Host

variable {σ α β γ : Type} {step : σ → α → σ}

theorem foldl_flag {part : σ → Bool} {flag : α → Bool}
    (hstep : ∀ s a, part (step s a) = (part s || flag a)) (l : List α) (s : σ) :
    part (l.foldl step s) = (part s || l.any flag) := by
  induction l generalizing s with
  | nil => simp
  | cons a l ih => rw [List.foldl_cons, ih, hstep, List.any_cons, Bool.or_assoc]

/-- The value that the last element with a value has. -/
def lastValue (value : α → Option β) (start : β) (l : List α) : β :=
  ((l.filterMap value).getLast?).getD start

theorem foldl_lastValue {part : σ → β} {value : α → Option β}
    (hstep : ∀ s a, part (step s a) = (value a).getD (part s)) (l : List α) (s : σ) :
    part (l.foldl step s) = lastValue value (part s) l := by
  induction l generalizing s with
  | nil => rfl
  | cons a l ih =>
    rw [List.foldl_cons, ih, hstep, lastValue, lastValue, List.filterMap_cons]
    cases value a with
    | none => rfl
    | some b =>
      rw [List.getLast?_cons]
      rfl

theorem lastValue_append_singleton {value : α → Option β} {a : α} {b : β} (start : β) (l : List α)
    (h : value a = some b) : lastValue value start (l ++ [a]) = b := by
  rw [lastValue, List.filterMap_append, List.filterMap_cons_some h, List.filterMap_nil,
    List.getLast?_append]
  rfl

/-- The last value is the start, or that of an element. -/
theorem lastValue_cases (value : α → Option β) (start : β) (l : List α) :
    (l.filterMap value = [] ∧ lastValue value start l = start) ∨
      ∃ a ∈ l, value a = some (lastValue value start l) := by
  cases hlast : (l.filterMap value).getLast? with
  | none =>
    refine .inl ⟨List.getLast?_eq_none_iff.1 hlast, ?_⟩
    rw [lastValue, hlast]
    rfl
  | some b =>
    obtain ⟨a, ha, hvalue⟩ := List.mem_filterMap.1 (List.mem_of_getLast? hlast)
    refine .inr ⟨a, ha, ?_⟩
    rw [lastValue, hlast]
    exact hvalue

/-- What is shown of the last value is the same in every order exactly when it is the same for all
values. -/
theorem lastValue_perm_iff (value : α → Option β) (shown : β → γ) (start : β) (l : List α) :
    (∀ order order', order.Perm l → order'.Perm l →
        shown (lastValue value start order) = shown (lastValue value start order')) ↔
      ∀ a ∈ l, ∀ a' ∈ l, ∀ b b', value a = some b → value a' = some b' → shown b = shown b' := by
  constructor
  · intro h a ha a' ha' b b' hb hb'
    have hlast : ∀ x ∈ l, ∃ order : List α, (order ++ [x]).Perm l := by
      intro x hx
      obtain ⟨before, after, rfl⟩ := List.append_of_mem hx
      refine ⟨before ++ after, ?_⟩
      rw [List.append_assoc]
      exact List.Perm.append_left before (List.perm_append_singleton x after)
    obtain ⟨order, horder⟩ := hlast a ha
    obtain ⟨order', horder'⟩ := hlast a' ha'
    have hsame := h _ _ horder horder'
    rwa [lastValue_append_singleton start order hb, lastValue_append_singleton start order' hb'] at hsame
  · intro h order order' horder horder'
    have hperm := (horder.trans horder'.symm).filterMap value
    rcases lastValue_cases value start order with ⟨hnil, hstart⟩ | ⟨a, ha, hvalue⟩
    · rcases lastValue_cases value start order' with ⟨-, hstart'⟩ | ⟨a', ha', hvalue'⟩
      · rw [hstart, hstart']
      · rw [hnil] at hperm
        have hmem := List.mem_filterMap.2 ⟨a', ha', hvalue'⟩
        rw [hperm.nil_eq.symm] at hmem
        exact absurd hmem List.not_mem_nil
    · rcases lastValue_cases value start order' with ⟨hnil', -⟩ | ⟨a', ha', hvalue'⟩
      · rw [hnil'] at hperm
        have hmem := List.mem_filterMap.2 ⟨a, ha, hvalue⟩
        rw [hperm.eq_nil] at hmem
        exact absurd hmem List.not_mem_nil
      · exact h a (horder.mem_iff.1 ha) a' (horder'.mem_iff.1 ha') _ _ hvalue hvalue'

end Host
