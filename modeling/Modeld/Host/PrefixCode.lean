import Modeld.Host.LittleEndian

/-!
# Prefix codes

An encoding is a prefix code when the bytes that follow an encoded value cannot change how the value
is read. Prefix codes stay prefix codes one after the other and in lists whose length is known.
-/

namespace Host

/-- Where two streams that begin with encoded values agree, the values and what follows agree. -/
def PrefixCode {α : Type} (P : α → Prop) (encode : α → Bytes) : Prop :=
  ∀ a b r s, P a → P b → encode a ++ r = encode b ++ s → a = b ∧ r = s

variable {α β : Type} {P : α → Prop} {Q : β → Prop} {encode : α → Bytes}

/-- Encodings of one length that determine the value. -/
theorem PrefixCode.of_length {n : Nat} (hlen : ∀ a, P a → (encode a).length = n)
    (hinj : ∀ a b, P a → P b → encode a = encode b → a = b) : PrefixCode P encode := by
  intro a b r s ha hb h
  obtain ⟨h1, h2⟩ := List.append_inj h ((hlen a ha).trans (hlen b hb).symm)
  exact ⟨hinj a b ha hb h1, h2⟩

theorem prefixCode_toLe (width : Nat) : PrefixCode (· < 256 ^ width) (toLe width) := by
  refine .of_length (fun n _ => length_toLe width n) fun m n hm hn h => ?_
  have := congrArg ofLe h
  rwa [ofLe_toLe_of_lt hm, ofLe_toLe_of_lt hn] at this

/-- Lists of one length. -/
theorem PrefixCode.flatMap (h : PrefixCode P encode) {as bs : List α} {r s : Bytes}
    (hlen : as.length = bs.length) (ha : ∀ a ∈ as, P a) (hb : ∀ b ∈ bs, P b)
    (heq : as.flatMap encode ++ r = bs.flatMap encode ++ s) : as = bs ∧ r = s := by
  induction as generalizing bs with
  | nil =>
    obtain rfl := List.length_eq_zero_iff.1 hlen.symm
    exact ⟨rfl, by simpa using heq⟩
  | cons a as ih =>
    rcases bs with _ | ⟨b, bs⟩
    · simp at hlen
    simp only [List.flatMap_cons, List.append_assoc] at heq
    obtain ⟨rfl, hrest⟩ := h a b _ _ (ha a (by simp)) (hb b (by simp)) heq
    obtain ⟨rfl, hrs⟩ := ih (by simpa using hlen) (fun x hx => ha x (by simp [hx]))
      (fun x hx => hb x (by simp [hx])) hrest
    exact ⟨rfl, hrs⟩

end Host
