import Mathlib

/-!
# Lists of pairs

What a key stands for in a list of pairs, and what the pairs leave behind when they are inserted into
a map one after the other.
-/

namespace Host

section

variable {α β : Type} [DecidableEq α]

/-- What the first pair with a key holds. -/
def valueAt (pairs : List (α × β)) (k : α) : Option β := (pairs.find? (·.1 = k)).map (·.2)

theorem valueAt_append (l₁ l₂ : List (α × β)) (k : α) :
    valueAt (l₁ ++ l₂) k = (valueAt l₁ k).or (valueAt l₂ k) := by
  rw [valueAt, valueAt, valueAt, List.find?_append]
  cases l₁.find? (·.1 = k) <;> rfl

theorem valueAt_singleton (w : α × β) (k : α) :
    valueAt [w] k = if w.1 = k then some w.2 else none := by
  rw [valueAt, List.find?_singleton]
  by_cases hk : w.1 = k
  · rw [if_pos (by simpa using hk), if_pos hk]
    rfl
  · rw [if_neg (by simpa using hk), if_neg hk]
    rfl

theorem valueAt_eq_none_iff {pairs : List (α × β)} {k : α} :
    valueAt pairs k = none ↔ k ∉ pairs.map (·.1) := by
  rw [valueAt, Option.map_eq_none_iff, List.find?_eq_none]
  constructor
  · intro h hmem
    obtain ⟨w, hw, hkey⟩ := List.mem_map.1 hmem
    exact h w hw (decide_eq_true hkey)
  · intro h w hw hkey
    exact h (List.mem_map.2 ⟨w, hw, of_decide_eq_true hkey⟩)

/-- Where each key stands once, the order of the pairs makes no difference. -/
theorem valueAt_eq_some {pairs : List (α × β)} {k : α} {b : β} (hkeys : (pairs.map (·.1)).Nodup)
    (hmem : (k, b) ∈ pairs) : valueAt pairs k = some b := by
  have hsome : (pairs.find? (·.1 = k)).isSome = true := by
    rw [List.find?_isSome]
    exact ⟨(k, b), hmem, by simp⟩
  obtain ⟨w, hw⟩ := Option.isSome_iff_exists.1 hsome
  have hkey : w.1 = k := by simpa using List.find?_some hw
  have heq : w = (k, b) :=
    List.inj_on_of_nodup_map hkeys (List.mem_of_find?_eq_some hw) hmem hkey
  rw [valueAt, hw, heq]
  rfl

theorem valueAt_reverse {pairs : List (α × β)} (hkeys : (pairs.map (·.1)).Nodup) (k : α) :
    valueAt pairs.reverse k = valueAt pairs k := by
  by_cases hk : k ∈ pairs.map (·.1)
  · obtain ⟨w, hw, rfl⟩ := List.mem_map.1 hk
    have hkeys' : (pairs.reverse.map (·.1)).Nodup := by
      rw [List.map_reverse, List.nodup_reverse]
      exact hkeys
    rw [valueAt_eq_some hkeys hw, valueAt_eq_some hkeys' (List.mem_reverse.2 hw)]
  · rw [valueAt_eq_none_iff.2 hk, valueAt_eq_none_iff.2]
    rwa [List.map_reverse, List.mem_reverse]

/-- The last insertion of a key decides. -/
theorem lookup_foldl_insert (l : List (α × β)) (m : AList fun _ : α => β) (k : α) :
    (l.foldl (fun attrs w => attrs.insert w.1 w.2) m).lookup k =
      (valueAt l.reverse k).or (m.lookup k) := by
  induction l generalizing m with
  | nil => rfl
  | cons w l ih =>
    rw [List.foldl_cons, ih, List.reverse_cons, valueAt_append, valueAt_singleton, Option.or_assoc]
    congr 1
    split_ifs with hk
    · rw [← hk, AList.lookup_insert, Option.some_or]
    · rw [AList.lookup_insert_ne (Ne.symm hk), Option.none_or]

end

/-- A second choice for every key changes what is found first exactly when one of the keys has only
the second choice, no earlier one has the first choice, and the first one found is another. -/
theorem findSome?_or_iff {α β : Type} (f : α → Option β) (p : α → Prop) [DecidablePred p] (b : β) (ks : List α) :
    (ks.findSome? fun k => (f k).or (if p k then some b else none)) = ks.findSome? f ↔
      ∀ before k after, ks = before ++ k :: after → p k → (∀ k' ∈ before ++ [k], f k' = none) →
        ks.findSome? f = some b := by
  induction ks with
  | nil =>
    constructor
    · intro _ before k after h
      exact absurd (congrArg List.length h) (by simp)
    · intro _
      rfl
  | cons k ks ih =>
    cases hfirst : f k with
    | some t =>
      rw [List.findSome?_cons_of_isSome (by simp [hfirst]), List.findSome?_cons_of_isSome (by simp [hfirst]),
        hfirst, Option.some_or]
      simp only [true_iff]
      intro before k' after hsplit _ hnone
      have hk : k ∈ before ++ [k'] := by
        cases before with
        | nil =>
          obtain ⟨rfl, -⟩ := List.cons.inj hsplit
          exact List.mem_cons_self ..
        | cons x before =>
          obtain ⟨rfl, -⟩ := List.cons.inj hsplit
          exact List.mem_cons_self ..
      rw [hnone k hk] at hfirst
      cases hfirst
    | none =>
      rw [List.findSome?_cons, List.findSome?_cons, hfirst, Option.none_or]
      by_cases hp : p k
      · rw [if_pos hp]
        dsimp only
        constructor
        · intro h before k' after _ _ _
          exact h.symm
        · intro h
          refine (h [] k ks rfl hp fun k' hk' => ?_).symm
          obtain rfl := List.mem_singleton.1 hk'
          exact hfirst
      · rw [if_neg hp]
        dsimp only
        rw [ih]
        constructor
        · intro h before k' after hsplit hp' hnone
          cases before with
          | nil =>
            obtain ⟨rfl, -⟩ := List.cons.inj hsplit
            exact absurd hp' hp
          | cons x before =>
            obtain ⟨-, hrest⟩ := List.cons.inj hsplit
            exact h before k' after hrest hp' fun y hy => hnone y (List.mem_cons_of_mem _ hy)
        · intro h before k' after hsplit hp' hnone
          refine h (k :: before) k' after (by rw [hsplit]; rfl) hp' fun y hy => ?_
          rcases List.mem_cons.1 hy with rfl | hy
          · exact hfirst
          · exact hnone y hy

end Host
