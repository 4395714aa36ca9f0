import Modeld.Host.LittleEndian

/-!
# Reading from a position

A cursor stands in a stream of bytes and may stand behind its end. Readers return the cursor behind
what they read, together with the fact that fewer bytes are left, on which recursion over a stream
can rest.
-/

namespace Host

/-- A stream and a position in it. -/
structure Cursor where
  bytes : Bytes
  pos : Nat

namespace Cursor

/-- How many bytes there are from the position on. -/
def left (c : Cursor) : Nat := c.bytes.length - c.pos

/-- The cursor `n` bytes further on, as `seek` moves it. -/
def skip (c : Cursor) (n : Nat) : Cursor := { c with pos := c.pos + n }

theorem left_skip (c : Cursor) (n : Nat) : (c.skip n).left = c.left - n := by
  simp only [left, skip]
  omega

/-- What a reader returns that consumes at least one byte. -/
abbrev Read (c : Cursor) (α : Type) := Except IoError (α × {c' : Cursor // c'.left < c.left})

/-- `read_exact`. -/
def readExact (c : Cursor) (n : Nat) : Except IoError (Bytes × {c' : Cursor // c'.left = c.left - n}) :=
  if n ≤ c.left then .ok ((c.bytes.drop c.pos).take n, ⟨c.skip n, c.left_skip n⟩)
  else .error .unexpectedEof

/-- A little-endian number of `width + 1` bytes. -/
def readLe (c : Cursor) (width : Nat) : Read c Nat :=
  if h : width + 1 ≤ c.left then
    .ok (ofLe ((c.bytes.drop c.pos).take (width + 1)), ⟨c.skip (width + 1), by
      rw [left_skip]
      omega⟩)
  else .error .unexpectedEof

/-! ### What is read -/

/-- The bytes from the position on. -/
def rest (c : Cursor) : Bytes := c.bytes.drop c.pos

theorem length_rest (c : Cursor) : c.rest.length = c.left := by simp [rest, left]

theorem rest_skip (c : Cursor) (n : Nat) : (c.skip n).rest = c.rest.drop n := by
  simp [rest, skip, List.drop_drop]

theorem skip_skip (c : Cursor) (m n : Nat) : (c.skip m).skip n = c.skip (m + n) := by
  simp [skip, Nat.add_assoc]

theorem rest_skip_of_append {c : Cursor} {b r : Bytes} (h : c.rest = b ++ r) :
    (c.skip b.length).rest = r := by
  rw [rest_skip, h, List.drop_left]

/-- Where there are enough bytes, they are read. -/
theorem readExact_eq {c : Cursor} {b r : Bytes} (h : c.rest = b ++ r) :
    ∃ hc, c.readExact b.length = .ok (b, ⟨c.skip b.length, hc⟩) := by
  have hle : b.length ≤ c.left := by
    rw [← length_rest, h]
    simp
  refine ⟨c.left_skip _, ?_⟩
  rw [readExact, if_pos hle]
  have htake : (c.bytes.drop c.pos).take b.length = b := by
    change c.rest.take b.length = b
    rw [h, List.take_left]
  rw [htake]

theorem readLe_eq {c : Cursor} {width n : Nat} {r : Bytes} (h : c.rest = toLe (width + 1) n ++ r)
    (hn : n < 256 ^ (width + 1)) : ∃ hc, c.readLe width = .ok (n, ⟨c.skip (width + 1), hc⟩) := by
  have hlen := c.length_rest
  rw [h, List.length_append, length_toLe] at hlen
  have hle : width + 1 ≤ c.left := by omega
  have htake : (c.bytes.drop c.pos).take (width + 1) = toLe (width + 1) n := by
    change c.rest.take (width + 1) = _
    rw [h, List.take_left' (length_toLe _ _)]
  have hlt : (c.skip (width + 1)).left < c.left := by
    rw [left_skip]
    omega
  refine ⟨hlt, ?_⟩
  rw [readLe, dif_pos hle]
  simp only [htake, ofLe_toLe_of_lt hn]

/-- What was read was there. -/
theorem of_readExact_eq_ok {c : Cursor} {n : Nat} {b : Bytes} {p : {c' : Cursor // c'.left = c.left - n}}
    (h : c.readExact n = .ok (b, p)) : p.1 = c.skip n ∧ b.length = n ∧ c.rest = b ++ p.1.rest := by
  unfold readExact at h
  split at h
  · rename_i hle
    cases h
    have hlen : ((c.bytes.drop c.pos).take n).length = n := by
      rw [List.length_take, Nat.min_eq_left]
      rwa [← rest, length_rest]
    refine ⟨rfl, hlen, ?_⟩
    rw [rest_skip]
    exact (List.take_append_drop n c.rest).symm
  · cases h

theorem of_readLe_eq_ok {c : Cursor} {width n : Nat} {p : {c' : Cursor // c'.left < c.left}}
    (h : c.readLe width = .ok (n, p)) :
    p.1 = c.skip (width + 1) ∧ n < 256 ^ (width + 1) ∧ c.rest = toLe (width + 1) n ++ p.1.rest := by
  unfold readLe at h
  split at h
  · rename_i hle
    cases h
    have hlen : ((c.bytes.drop c.pos).take (width + 1)).length = width + 1 := by
      rw [List.length_take, Nat.min_eq_left]
      rwa [← rest, length_rest]
    have hlt := ofLe_lt ((c.bytes.drop c.pos).take (width + 1))
    have hbytes := toLe_ofLe ((c.bytes.drop c.pos).take (width + 1))
    rw [hlen] at hlt hbytes
    refine ⟨rfl, hlt, ?_⟩
    rw [rest_skip, hbytes]
    exact (List.take_append_drop (width + 1) c.rest).symm
  · cases h

end Cursor

end Host
