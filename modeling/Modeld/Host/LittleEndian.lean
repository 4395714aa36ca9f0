import Mathlib
import Modeld.Host.Fs

/-!
# Little-endian numbers

Numbers as bytes, the least significant byte first.
-/

namespace Host

/-- `from_le_bytes`. -/
def ofLe : Bytes → Nat
  | [] => 0
  | b :: bs => b.toNat + 256 * ofLe bs

/-- `to_le_bytes`, for a number of `width` bytes. -/
def toLe : (width : Nat) → Nat → Bytes
  | 0, _ => []
  | width + 1, n => UInt8.ofNat (n % 256) :: toLe width (n / 256)

@[simp] theorem length_toLe (width n : Nat) : (toLe width n).length = width := by
  induction width generalizing n with
  | zero => rfl
  | succ width ih => simp [toLe, ih]

theorem take_toLe (w width n : Nat) : (toLe (w + width) n).take w = toLe w n := by
  induction w generalizing n with
  | zero => rfl
  | succ w ih => rw [Nat.succ_add, toLe, toLe, List.take_succ_cons, ih]

/-- What is written is read, modulo the width. -/
theorem ofLe_toLe (width n : Nat) : ofLe (toLe width n) = n % 256 ^ width := by
  induction width generalizing n with
  | zero => simp [toLe, ofLe, Nat.mod_one]
  | succ width ih =>
    have hbyte : (UInt8.ofNat (n % 256)).toNat = n % 256 := by
      simp [Nat.mod_eq_of_lt (Nat.mod_lt n (by decide : 0 < 256))]
    rw [toLe, ofLe, ih, hbyte, pow_succ', Nat.mod_mul]

theorem ofLe_toLe_of_lt {width n : Nat} (h : n < 256 ^ width) : ofLe (toLe width n) = n := by
  rw [ofLe_toLe, Nat.mod_eq_of_lt h]

theorem ofLe_lt (b : Bytes) : ofLe b < 256 ^ b.length := by
  induction b with
  | nil => simp [ofLe]
  | cons x b ih =>
    have hx := UInt8.toNat_lt x
    rw [ofLe, List.length_cons, pow_succ]
    omega

/-- What is read is written again. -/
theorem toLe_ofLe (b : Bytes) : toLe b.length (ofLe b) = b := by
  induction b with
  | nil => rfl
  | cons x b ih =>
    have hx := UInt8.toNat_lt x
    have hmod : (x.toNat + 256 * ofLe b) % 256 = x.toNat := by omega
    have hdiv : (x.toNat + 256 * ofLe b) / 256 = ofLe b := by omega
    rw [List.length_cons, ofLe, toLe, hmod, hdiv, ih, UInt8.ofNat_toNat]

end Host
