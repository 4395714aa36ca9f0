import Mathlib

/-!
# Keeping within a quota

Things of different sizes are given up in the order of a list until the total of all there is is within
a quota, or nothing is left to give up.
-/

namespace Host

namespace Quota

variable {α β : Type} (size : α → Nat)

/-- The sizes of all. -/
def total (l : List α) : Nat := (l.map size).sum

/-- The shortest stretch from the front that brings a total within the quota, or all there is. -/
def shortest (max : Nat) : (total : Nat) → List α → List α
  | _, [] => []
  | total, a :: l => if total ≤ max then [] else a :: shortest max (total - size a) l

@[simp] theorem total_nil : total size [] = 0 := rfl

@[simp] theorem total_cons (a : α) (l : List α) : total size (a :: l) = size a + total size l := by
  simp [total]

@[simp] theorem total_append (l l' : List α) : total size (l ++ l') = total size l + total size l' := by
  simp [total]

theorem total_le_of_sublist {l l' : List α} (h : l.Sublist l') : total size l ≤ total size l' :=
  (h.map size).sum_le_sum (fun _ _ => Nat.zero_le _)

theorem shortest_of_le {max n : Nat} (h : n ≤ max) (l : List α) : shortest size max n l = [] := by
  cases l with
  | nil => rfl
  | cons a l => rw [shortest, if_pos h]

theorem shortest_prefix (max n : Nat) (l : List α) : shortest size max n l <+: l := by
  induction l generalizing n with
  | nil => exact List.prefix_refl _
  | cons a l ih =>
    rw [shortest]
    split
    · exact List.nil_prefix
    · exact List.cons_prefix_cons.2 ⟨rfl, ih _⟩

theorem shortest_map (f : β → α) (max n : Nat) (l : List β) :
    shortest size max n (l.map f) = (shortest (size ∘ f) max n l).map f := by
  induction l generalizing n with
  | nil => rfl
  | cons a l ih =>
    rw [List.map_cons, shortest, shortest]
    split
    · rfl
    · rw [ih]
      rfl

/-- A stretch that is enough, while no shorter one is, is the shortest. -/
theorem eq_shortest {max n : Nat} {l taken : List α} (htaken : taken <+: l)
    (hminimal : ∀ s, s <+: l → s.length < taken.length → max < n - total size s)
    (henough : taken = l ∨ n - total size taken ≤ max) : taken = shortest size max n l := by
  induction l generalizing n taken with
  | nil => exact List.prefix_nil.1 htaken
  | cons a l ih =>
    cases taken with
    | nil =>
      have hle : n ≤ max := henough.resolve_left (by simp)
      rw [shortest_of_le size hle]
    | cons b taken =>
      obtain ⟨rfl, hprefix⟩ := List.cons_prefix_cons.1 htaken
      have hlt : max < n := hminimal [] List.nil_prefix (Nat.succ_pos _)
      rw [shortest, if_neg hlt.not_ge]
      refine congrArg (List.cons b) (ih hprefix (fun s hs hlen => ?_) ?_)
      · have := hminimal (b :: s) (List.cons_prefix_cons.2 ⟨rfl, hs⟩) (Nat.succ_lt_succ hlen)
        rwa [total_cons, ← Nat.sub_sub] at this
      · rw [total_cons, ← Nat.sub_sub] at henough
        exact henough.imp_left fun heq => (List.cons.inj heq).2

end Quota

end Host
