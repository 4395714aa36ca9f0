import Mathlib

/-!
# File names and paths

A name is one component of a path: not empty, not `.` or `..`, and without `/`. A path lists the
components from the root down, so a path that escapes its prefix cannot be written down by
accident: `join` is where text becomes components, and where `..` and a leading `/` act.
-/

namespace Host

/-- Text that is a single ordinary path component. -/
def PlainName (s : String) : Prop := s ≠ "" ∧ s ≠ "." ∧ s ≠ ".." ∧ '/' ∉ s.toList

instance (s : String) : Decidable (PlainName s) := inferInstanceAs (Decidable (_ ∧ _))

/-- An ordinary component stays one when text without a separator follows it. -/
theorem PlainName.append {s t : String} (hs : PlainName s) (ht : '/' ∉ t.toList) :
    PlainName (s ++ t) := by
  obtain ⟨h0, h1, h2, h3⟩ := hs
  simp only [ne_eq, ← String.toList_inj] at h0 h1 h2
  refine ⟨?_, ?_, ?_, by simp [h3, ht]⟩ <;> simp only [ne_eq, ← String.toList_inj] <;>
    rw [String.toList_append]
  · simp_all
  · intro h
    rcases hl : s.toList with _ | ⟨a, _ | ⟨b, l⟩⟩ <;> simp_all
  · intro h
    rcases hl : s.toList with _ | ⟨a, _ | ⟨b, l⟩⟩ <;> simp_all

/-- A file name. -/
structure Name where
  text : String
  plain : PlainName text
deriving DecidableEq

@[ext] theorem Name.ext {a b : Name} (h : a.text = b.text) : a = b := by
  cases a
  cases b
  simpa using h

/-- Components from the root down. -/
abbrev Path := List Name

namespace Path

/-- Walk one textual component further. -/
def enter (p : Path) (c : String) : Path :=
  if h : PlainName c then p ++ [⟨c, h⟩]
  else if c = ".." then p.dropLast
  else p

/-- Append text to a path, as `Path::join` does: the text is split at `/`, `..` goes up, and text
that starts with `/` replaces the path. Every directory on the way is taken to be a real one. -/
def join (p : Path) (s : String) : Path :=
  ((s.toList.splitOn '/').map String.ofList).foldl enter
    (if s.toList.head? = some '/' then [] else p)

/-- Joining an ordinary name appends it. -/
theorem join_of_plain (p : Path) {s : String} (h : PlainName s) : p.join s = p ++ [⟨s, h⟩] := by
  have hhead : s.toList.head? ≠ some '/' := fun hh => h.2.2.2 (List.mem_of_head? hh)
  rw [join, if_neg hhead, List.splitOn_eq_singleton h.2.2.2]
  simp [enter, h]

@[simp] theorem join_name (p : Path) (n : Name) : p.join n.text = p ++ [n] :=
  join_of_plain p n.plain

/-- The name under which `q` is listed in the directory `p`, when it is directly in it. -/
def childName (p q : Path) : Option Name := if q.dropLast = p then q.getLast? else none

theorem childName_eq_some {p q : Path} {n : Name} : childName p q = some n ↔ q = p ++ [n] := by
  unfold childName
  constructor
  · intro h
    split at h
    · rename_i hp
      rw [← hp, ← List.dropLast_append_getLast? n h]
      simp
    · cases h
  · rintro rfl
    simp

/-- Text without `/` that is not a plain name leaves a path inside the directories it came from. -/
theorem join_of_not_plain (p : Path) {s : String} (hslash : '/' ∉ s.toList) (h : ¬ PlainName s) :
    p.join s = p ∨ p.join s = p.dropLast := by
  have hhead : s.toList.head? ≠ some '/' := fun hh => hslash (List.mem_of_head? hh)
  rw [join, if_neg hhead, List.splitOn_eq_singleton hslash]
  simp only [List.map_cons, List.map_nil, String.ofList_toList, List.foldl_cons, List.foldl_nil,
    enter, h, dite_false]
  split
  · exact .inr rfl
  · exact .inl rfl

end Path

end Host
