import Mathlib

/-!
This module contains the little-endian encoding of natural numbers in a fixed number of bytes.
-/

namespace LittleEndian

def toLe : Nat → Nat → List UInt8
  | 0, _ => []
  | w + 1, n => UInt8.ofNat n :: toLe w (n / 256)

def ofLe : List UInt8 → Nat
  | [] => 0
  | b :: bs => b.toNat + 256 * ofLe bs

@[simp]
theorem length_toLe (w n : Nat) : (toLe w n).length = w := by
  induction w generalizing n with
  | zero => rfl
  | succ w ih => simp [toLe, ih]

theorem ofLe_toLe {w n : Nat} (h : n < 256 ^ w) : ofLe (toLe w n) = n := by
  induction w generalizing n with
  | zero =>
    simp only [Nat.pow_zero] at h
    simp only [toLe, ofLe]
    omega
  | succ w ih =>
    rw [Nat.pow_succ] at h
    have hdiv : n / 256 < 256 ^ w := Nat.div_lt_of_lt_mul (by omega)
    simp only [toLe, ofLe, ih hdiv, UInt8.toNat_ofNat']
    omega

theorem ofLe_lt (bs : List UInt8) : ofLe bs < 256 ^ bs.length := by
  induction bs with
  | nil => simp [ofLe]
  | cons b bs ih =>
    have := b.toNat_lt
    simp only [ofLe, List.length_cons, Nat.pow_succ]
    omega

end LittleEndian
