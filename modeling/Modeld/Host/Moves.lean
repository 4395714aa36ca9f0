import Mathlib

/-!
# Two transactions on a map

A trace lists lookups and writes on a map, newest first, each with the party that made it. A
transaction writes a key blindly, writes back what it looked up, or does nothing. Two of them end
where one order of the whole transactions ends, unless one writes back what it had looked up before
the other wrote something else.
-/

namespace Host

/-- A lookup with what it found, or a write. -/
inductive Move (κ ν : Type)
  | look (k : κ) (x : Option ν)
  | put (k : κ) (d : ν)

namespace Move

variable {ι κ ν : Type} [DecidableEq κ]

/-- The map after a trace. -/
def replay (m : κ → Option ν) : List (ι × Move κ ν) → κ → Option ν
  | [] => m
  | (_, look _ _) :: t => replay m t
  | (_, put k d) :: t => Function.update (replay m t) k (some d)

/-- Every lookup found what was there. -/
def Faithful (m : κ → Option ν) : List (ι × Move κ ν) → Prop
  | [] => True
  | (_, look k x) :: t => replay m t k = x ∧ Faithful m t
  | (_, put _ _) :: t => Faithful m t

/-- The moves of one party. -/
def own [DecidableEq ι] (i : ι) (t : List (ι × Move κ ν)) : List (Move κ ν) :=
  t.filterMap fun e => if e.1 = i then some e.2 else none

section

omit [DecidableEq κ]

variable [DecidableEq ι]

theorem own_cons_self (i : ι) (a : Move κ ν) (t : List (ι × Move κ ν)) :
    own i ((i, a) :: t) = a :: own i t := by simp [own]

theorem own_cons_of_ne {i j : ι} (hij : j ≠ i) (a : Move κ ν) (t : List (ι × Move κ ν)) :
    own i ((j, a) :: t) = own i t := by simp [own, hij]

theorem mem_own {i : ι} {a : Move κ ν} {t : List (ι × Move κ ν)} : a ∈ own i t ↔ (i, a) ∈ t := by
  simp [own]

end

/-- The moves of party `b` and those of the other in one trace. -/
inductive Merged (b : Bool) : List (Move κ ν) → List (Move κ ν) → List (Bool × Move κ ν) → Prop
  | nil : Merged b [] [] []
  | left {l l' t a} : Merged b l l' t → Merged b (a :: l) l' ((b, a) :: t)
  | right {l l' t a} : Merged b l l' t → Merged b l (a :: l') ((!b, a) :: t)

section

omit [DecidableEq κ]

variable {b : Bool} {l l' : List (Move κ ν)} {t : List (Bool × Move κ ν)} {a a' : Move κ ν}

theorem merged_own (b : Bool) (t : List (Bool × Move κ ν)) : Merged b (own b t) (own (!b) t) t := by
  induction t with
  | nil => exact .nil
  | cons e t ih =>
    obtain ⟨c, a⟩ := e
    by_cases hc : c = b
    · subst hc
      rw [own_cons_self, own_cons_of_ne (by simp)]
      exact ih.left
    · obtain rfl : c = !b := Bool.eq_not_of_ne hc
      rw [own_cons_self, own_cons_of_ne hc]
      exact ih.right

theorem merged_nil_left : Merged b [] l t ↔ t = l.map (Prod.mk !b) := by
  constructor
  · intro h
    induction l generalizing t with
    | nil =>
      cases h
      rfl
    | cons a l ih =>
      cases h with
      | right h => rw [ih h, List.map_cons]
  · rintro rfl
    induction l with
    | nil => exact .nil
    | cons a l ih => exact ih.right

theorem merged_nil_right : Merged b l [] t ↔ t = l.map (Prod.mk b) := by
  constructor
  · intro h
    induction l generalizing t with
    | nil =>
      cases h
      rfl
    | cons a l ih =>
      cases h with
      | left h => rw [ih h, List.map_cons]
  · rintro rfl
    induction l with
    | nil => exact .nil
    | cons a l ih => exact ih.left

theorem merged_cons : Merged b (a :: l) (a' :: l') t ↔
    (∃ t', t = (b, a) :: t' ∧ Merged b l (a' :: l') t') ∨
      ∃ t', t = ((!b), a') :: t' ∧ Merged b (a :: l) l' t' := by
  constructor
  · intro h
    cases h with
    | left h => exact .inl ⟨_, rfl, h⟩
    | right h => exact .inr ⟨_, rfl, h⟩
  · rintro (⟨t', rfl, h⟩ | ⟨t', rfl, h⟩)
    · exact h.left
    · exact h.right

end

end Move

/-! ### Transactions -/

/-- What a party does on the map. -/
inductive Transaction (κ ν : Type)
  | nothing
  | write (k : κ) (d : ν)
  | rewrite (k : κ)

namespace Transaction

open Move

variable {κ ν : Type} [DecidableEq κ]

/-- The map after the transaction alone. -/
def effect : Transaction κ ν → (κ → Option ν) → κ → Option ν
  | write k d, m => Function.update m k (some d)
  | nothing, m | rewrite _, m => m

/-- The moves of the whole transaction, newest first. -/
def Made : Transaction κ ν → List (Move κ ν) → Prop
  | nothing, l => l = []
  | write k d, l => l = [put k d]
  | rewrite k, l => l = [look k none] ∨ ∃ d, l = [put k d, look k (some d)]

/-- Party `b` looks a key up, the other writes something else there, and `b` writes back what it
found. -/
def Overwrites (b : Bool) (t : List (Bool × Move κ ν)) : Prop :=
  ∃ k d d', d ≠ d' ∧ [(b, put k d), (!b, put k d'), (b, look k (some d))].Sublist t

variable {m : κ → Option ν} {a : Bool → Transaction κ ν} {t : List (Bool × Move κ ν)} {b : Bool}

/-- The trace ends where one order of the transactions ends, unless one overwrites the other. -/
def Serial (m : κ → Option ν) (a : Bool → Transaction κ ν) (t : List (Bool × Move κ ν)) : Prop :=
  ((∃ b, Overwrites b t) → replay m t = m) ∧
    ((∃ b, replay m t = (a !b).effect ((a b).effect m)) ↔ ¬ ∃ b, Overwrites b t)

/-- A trace that is too short for one to overwrite the other. -/
theorem serial_of_length (ht : t.length < 3) (b : Bool)
    (h : replay m t = (a !b).effect ((a b).effect m)) : Serial m a t := by
  have hnone : ¬ ∃ b, Overwrites b t := by
    rintro ⟨b, k, d, d', -, hsub⟩
    have := hsub.length_le
    simp at this
    omega
  exact ⟨fun h => absurd h hnone, fun _ => hnone, fun _ => ⟨b, h⟩⟩

theorem serial_of_nothing (hb : a b = nothing) (hother : (a !b).Made (own (!b) t))
    (hmine : (a b).Made (own b t)) (hf : Faithful m t) : Serial m a t := by
  have hmerged := merged_own b t
  rw [hb] at hmine
  rw [show own b t = [] from hmine, merged_nil_left] at hmerged
  generalize own (!b) t = l at *
  subst hmerged
  cases hc : a !b with
  | nothing =>
    rw [hc] at hother
    obtain rfl : l = [] := hother
    exact serial_of_length (by simp) b (by simp [hb, hc, effect, replay])
  | write k d =>
    rw [hc] at hother
    obtain rfl : l = [put k d] := hother
    exact serial_of_length (by simp) b (by simp [hb, hc, effect, replay])
  | rewrite k =>
    rw [hc] at hother
    rcases hother with rfl | ⟨d, rfl⟩
    · exact serial_of_length (by simp) b (by simp [hb, hc, effect, replay])
    · have hd : m k = some d := hf.1
      exact serial_of_length (by simp) b (by simp [hb, hc, effect, replay, ← hd])

theorem serial_of_writes {k k' : κ} {d d' : ν} (hb : a b = write k d) (hc : a (!b) = write k' d')
    (hother : (a !b).Made (own (!b) t)) (hmine : (a b).Made (own b t)) : Serial m a t := by
  have hmerged := merged_own b t
  rw [hb] at hmine
  rw [hc] at hother
  rw [show own b t = [put k d] from hmine, show own (!b) t = [put k' d'] from hother,
    merged_cons] at hmerged
  simp only [merged_nil_left, merged_nil_right] at hmerged
  rcases hmerged with ⟨t', rfl, rfl⟩ | ⟨t', rfl, rfl⟩
  · exact serial_of_length (by simp) (!b) (by simp [hb, hc, effect, replay])
  · exact serial_of_length (by simp) b (by simp [hb, hc, effect, replay])

theorem serial_of_rewrite_write {k k' : κ} {d' : ν} (hb : a b = rewrite k)
    (hc : a (!b) = write k' d') (hother : (a !b).Made (own (!b) t)) (hmine : (a b).Made (own b t))
    (hf : Faithful m t) : Serial m a t := by
  have hmerged := merged_own b t
  have hsame : ∀ c, (a !c).effect ((a c).effect m) = Function.update m k' (some d') := by
    intro c
    by_cases hcb : c = b
    · subst hcb
      simp [hb, hc, effect]
    · obtain rfl : c = !b := Bool.eq_not_of_ne hcb
      simp [hb, hc, effect]
  rw [hb] at hmine
  rw [hc] at hother
  rw [show own (!b) t = [put k' d'] from hother] at hmerged
  rcases hmine with hmine | ⟨d, hmine⟩
  · rw [hmine, merged_cons] at hmerged
    simp only [merged_nil_left, merged_nil_right] at hmerged
    rcases hmerged with ⟨t', rfl, rfl⟩ | ⟨t', rfl, rfl⟩
    · exact serial_of_length (by simp) b (hsame b).symm
    · exact serial_of_length (by simp) b (hsame b).symm
  rw [hmine, merged_cons] at hmerged
  simp only [merged_cons, merged_nil_left, merged_nil_right] at hmerged
  unfold Serial
  simp only [hsame, exists_const]
  rcases hmerged with ⟨t', rfl, ⟨t'', rfl, rfl⟩ | ⟨t'', rfl, rfl⟩⟩ | ⟨t', rfl, rfl⟩
  · -- The other wrote first.
    have hd : Function.update m k' (some d') k = some d := hf.1
    have hnone : ¬ ∃ c, Overwrites c [(b, put k d), (b, look k (some d)), ((!b), put k' d')] := by
      rintro ⟨c, e, x, x', -, hsub⟩
      simp [List.cons_sublist_cons'] at hsub
    refine ⟨fun h => absurd h hnone, fun _ => hnone, fun _ => ?_⟩
    simp [replay, ← hd]
  · -- The other wrote in between.
    have hd : m k = some d := hf.1
    have hiff : (∃ c, Overwrites c [(b, put k d), ((!b), put k' d'), (b, look k (some d))]) ↔
        k = k' ∧ d ≠ d' := by
      constructor
      · rintro ⟨c, e, x, x', hne, hsub⟩
        have heq := hsub.eq_of_length rfl
        simp only [List.cons.injEq, Prod.mk.injEq, put.injEq] at heq
        obtain ⟨⟨-, hk, hx⟩, ⟨-, hk', hx'⟩, -⟩ := heq
        exact ⟨hk.symm.trans hk', hx ▸ hx' ▸ hne⟩
      · rintro ⟨rfl, hne⟩
        exact ⟨b, k, d, d', hne, .refl _⟩
    have hreplay : replay m [(b, put k d), ((!b), put k' d'), (b, look k (some d))] =
        Function.update (Function.update m k' (some d')) k (some d) := rfl
    simp only [List.map_cons, List.map_nil, hreplay]
    rw [hiff]
    by_cases hk : k = k'
    · subst hk
      rw [Function.update_idem]
      have hself : Function.update m k (some d) = m := by rw [← hd, Function.update_eq_self]
      refine ⟨fun _ => hself, fun h hne => hne.2 ?_, fun h => ?_⟩
      · have := congrFun h k
        simpa using this
      · by_cases hdd : d = d'
        · rw [hdd]
        · exact absurd ⟨rfl, hdd⟩ h
    · refine ⟨fun h => absurd h.1 hk, fun _ h => hk h.1, fun _ => ?_⟩
      rw [Function.update_comm (Ne.symm hk), ← hd, Function.update_eq_self]
  · -- The other wrote last.
    have hd : m k = some d := hf.1
    have hnone : ¬ ∃ c, Overwrites c [((!b), put k' d'), (b, put k d), (b, look k (some d))] := by
      rintro ⟨c, e, x, x', -, hsub⟩
      simp only [List.cons_sublist_cons', List.sublist_nil, reduceCtorEq,
        Prod.mk.injEq, put.injEq, and_false, or_false, false_or] at hsub
      simp [hsub.2.2.1] at hsub
    refine ⟨fun h => absurd h hnone, fun _ => hnone, fun _ => ?_⟩
    simp [replay, ← hd]

/-- What a party that writes back has done so far. -/
def Rewriting (l : List (Move κ ν)) : Prop :=
  l = [] ∨ (∃ k x, l = [look k x]) ∨ ∃ k d, l = [put k d, look k (some d)]

/-- Parties that only write back what they found change nothing. -/
theorem replay_of_rewriting (ht : ∀ c, Rewriting (own c t)) (hf : Faithful m t) :
    replay m t = m ∧ (∀ c k x, (c, look k x) ∈ t → m k = x) ∧
      ∀ c k d, (c, put k d) ∈ t → m k = some d := by
  induction t with
  | nil => exact ⟨rfl, nofun, nofun⟩
  | cons e t ih =>
    obtain ⟨c, a⟩ := e
    have hc := ht c
    rw [own_cons_self] at hc
    have ht' : ∀ c, Rewriting (own c t) := by
      intro c'
      rcases eq_or_ne c c' with rfl | hne
      · rcases hc with hc | ⟨k, x, hc⟩ | ⟨k, d, hc⟩
        · cases hc
        · exact .inl (List.cons.inj hc).2
        · exact .inr (.inl ⟨k, some d, (List.cons.inj hc).2⟩)
      · have := ht c'
        rwa [own_cons_of_ne hne] at this
    cases a with
    | look k x =>
      obtain ⟨hx, hf⟩ := hf
      obtain ⟨hreplay, hlook, hput⟩ := ih ht' hf
      rw [hreplay] at hx
      refine ⟨hreplay, fun c' k' x' hmem => ?_, fun c' k' d hmem => ?_⟩
      · rcases List.mem_cons.1 hmem with heq | hmem
        · cases heq
          exact hx
        · exact hlook c' k' x' hmem
      · rcases List.mem_cons.1 hmem with heq | hmem
        · cases heq
        · exact hput c' k' d hmem
    | put k d =>
      obtain ⟨hreplay, hlook, hput⟩ := ih ht' hf
      have hfound : m k = some d := by
        rcases hc with hc | ⟨k', x, hc⟩ | ⟨k', d', hc⟩
        · cases hc
        · cases hc
        · obtain ⟨hhead, htail⟩ := List.cons.inj hc
          cases hhead
          exact hlook c k (some d) (mem_own.1 (by simp [htail]))
      refine ⟨?_, fun c' k' x' hmem => ?_, fun c' k' d' hmem => ?_⟩
      · rw [replay, hreplay, ← hfound, Function.update_eq_self]
      · rcases List.mem_cons.1 hmem with heq | hmem
        · cases heq
        · exact hlook c' k' x' hmem
      · rcases List.mem_cons.1 hmem with heq | hmem
        · cases heq
          exact hfound
        · exact hput c' k' d' hmem

theorem serial_of_rewrites (ha : ∀ b, ∃ k, a b = rewrite k) (hmade : ∀ b, (a b).Made (own b t))
    (hf : Faithful m t) : Serial m a t := by
  have hrewriting : ∀ c, Rewriting (own c t) := by
    intro c
    obtain ⟨k, hk⟩ := ha c
    have hc := hmade c
    rw [hk] at hc
    rcases hc with hc | ⟨d, hc⟩
    · exact .inr (.inl ⟨k, none, hc⟩)
    · exact .inr (.inr ⟨k, d, hc⟩)
  obtain ⟨hreplay, hlook, hput⟩ := replay_of_rewriting hrewriting hf
  have hnone : ¬ ∃ b, Overwrites b t := by
    rintro ⟨b, k, d, d', hne, hsub⟩
    have hd := hput b k d (hsub.subset (by simp))
    have hd' := hput (!b) k d' (hsub.subset (by simp))
    exact hne (Option.some.inj (hd.symm.trans hd'))
  refine ⟨fun h => absurd h hnone, fun _ => hnone, fun _ => ⟨true, ?_⟩⟩
  obtain ⟨k, hk⟩ := ha true
  obtain ⟨k', hk'⟩ := ha false
  rw [hreplay, Bool.not_true, hk, hk']
  rfl

/-- Two whole transactions. -/
theorem serial_of_made (hmade : ∀ b, (a b).Made (own b t)) (hf : Faithful m t) : Serial m a t := by
  cases hfalse : a false with
  | nothing => exact serial_of_nothing hfalse (hmade true) (hmade false) hf
  | write k d =>
    cases htrue : a true with
    | nothing => exact serial_of_nothing htrue (hmade false) (hmade true) hf
    | write k' d' => exact serial_of_writes hfalse htrue (hmade true) (hmade false)
    | rewrite k' => exact serial_of_rewrite_write htrue hfalse (hmade false) (hmade true) hf
  | rewrite k =>
    cases htrue : a true with
    | nothing => exact serial_of_nothing htrue (hmade false) (hmade true) hf
    | write k' d' => exact serial_of_rewrite_write hfalse htrue (hmade true) (hmade false) hf
    | rewrite k' =>
      refine serial_of_rewrites (fun b => ?_) hmade hf
      cases b
      · exact ⟨k, hfalse⟩
      · exact ⟨k', htrue⟩

end Transaction

end Host
