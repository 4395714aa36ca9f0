import Mathlib

/-!
# Delimited frames

A stream cut at a delimiter: the frames that are complete, and what comes after the last delimiter.
Where the stream arrives in pieces, the frames of a prefix stay, and what was left of it goes on with
the next piece.
-/

namespace Host

namespace Delimited

variable {α : Type} [DecidableEq α] (z : α)

/-- The frames that a delimiter ends. -/
def frames (s : List α) : List (List α) := (s.splitOn z).dropLast

/-- What comes after the last delimiter. -/
def rest (s : List α) : List α := (s.splitOn z).getLast (List.splitOn_ne_nil z s)

/-- A frame with its delimiter. -/
def close (f : List α) : List α := f ++ [z]

/-- The sizes of the frames with their delimiters, and that of what comes after them. -/
def sizes (s : List α) : List Nat := (frames z s).map (fun f => (close z f).length) ++ [(rest z s).length]

variable {z} {s t f : List α}

theorem frames_of_not_mem (h : z ∉ s) : frames z s = [] := by
  rw [frames, List.splitOn_eq_singleton h]
  rfl

theorem rest_of_not_mem (h : z ∉ s) : rest z s = s := by
  simp [rest, List.splitOn_eq_singleton h]

theorem frames_cons (h : z ∉ f) : frames z (f ++ z :: t) = f :: frames z t := by
  rw [frames, List.splitOn_append_cons_self, List.splitOn_eq_singleton h, List.singleton_append,
    List.dropLast_cons_of_ne_nil (List.splitOn_ne_nil z t)]
  rfl

theorem rest_cons : rest z (f ++ z :: t) = rest z t := by
  simp [rest, List.splitOn_append_cons_self, List.splitOn_ne_nil]

/-- A stream is a tail without delimiter, or starts with a frame. -/
theorem induct {P : List α → Prop} (tail : ∀ s, z ∉ s → P s)
    (frame : ∀ f t, z ∉ f → P t → P (f ++ z :: t)) (s : List α) : P s := by
  induction hn : s.length using Nat.strongRecOn generalizing s with
  | ind n ih =>
    by_cases hz : z ∈ s
    · obtain ⟨f, t, rfl, hf⟩ := List.eq_append_cons_of_mem hz
      refine frame f t hf (ih t.length ?_ t rfl)
      rw [← hn]
      simp
      omega
    · exact tail s hz

/-- The frames and the rest make up the stream. -/
theorem flatMap_frames_append_rest (s : List α) :
    (frames z s).flatMap (close z) ++ rest z s = s := by
  induction s using induct (z := z) with
  | tail s h => rw [frames_of_not_mem h, rest_of_not_mem h, List.flatMap_nil, List.nil_append]
  | frame f t h ih =>
    rw [frames_cons h, rest_cons, List.flatMap_cons, List.append_assoc, ih, close,
      List.append_assoc, List.singleton_append]

theorem not_mem_rest (s : List α) : z ∉ rest z s := by
  induction s using induct (z := z) with
  | tail s h => rwa [rest_of_not_mem h]
  | frame f t h ih => rwa [rest_cons]

/-- Closed frames are told apart. -/
theorem frames_flatMap_close {fs : List (List α)} (hfs : ∀ f ∈ fs, z ∉ f) :
    frames z (fs.flatMap (close z)) = fs := by
  induction fs with
  | nil => exact frames_of_not_mem List.not_mem_nil
  | cons f fs ih =>
    rw [List.flatMap_cons, close, List.append_assoc, List.singleton_append,
      frames_cons (hfs f (List.mem_cons_self ..)),
      ih fun g hg => hfs g (List.mem_cons_of_mem _ hg)]

theorem rest_flatMap_close (fs : List (List α)) : rest z (fs.flatMap (close z)) = [] := by
  induction fs with
  | nil => exact rest_of_not_mem List.not_mem_nil
  | cons f fs ih =>
    rw [List.flatMap_cons, close, List.append_assoc, List.singleton_append, rest_cons, ih]

/-- A stream that goes on. -/
theorem frames_append (s t : List α) :
    frames z (s ++ t) = frames z s ++ frames z (rest z s ++ t) := by
  induction s using induct (z := z) with
  | tail s h => rw [frames_of_not_mem h, rest_of_not_mem h, List.nil_append]
  | frame f s h ih =>
    rw [List.append_assoc, List.cons_append, frames_cons h, frames_cons h, rest_cons, ih,
      List.cons_append]

theorem rest_append (s t : List α) : rest z (s ++ t) = rest z (rest z s ++ t) := by
  induction s using induct (z := z) with
  | tail s h => rw [rest_of_not_mem h]
  | frame f s h ih => rw [List.append_assoc, List.cons_append, rest_cons, rest_cons, ih]

theorem sizes_append (s t : List α) : sizes z (s ++ t) =
    (frames z s).map (fun f => (close z f).length) ++ sizes z (rest z s ++ t) := by
  rw [sizes, frames_append, rest_append, List.map_append, List.append_assoc]
  rfl

/-- No size is greater than that of the stream. -/
theorem length_of_mem_sizes {n : Nat} (hn : n ∈ sizes z s) : n ≤ s.length := by
  have hlen := congrArg List.length (flatMap_frames_append_rest (z := z) s)
  rw [List.length_append] at hlen
  rw [sizes, List.mem_append, List.mem_singleton, List.mem_map] at hn
  rcases hn with ⟨f, hf, rfl⟩ | rfl
  · have hsub := (List.sublist_flatten_of_mem (List.mem_map_of_mem (f := close z) hf)).length_le
    rw [← List.flatMap_def] at hsub
    omega
  · omega

end Delimited

end Host
