import Mathlib

/-! # Little-endian numbers in memory

`leGet f k` reads the bytes `f 0, …, f (k - 1)` as one number, least significant byte
first; `leByte v i` is byte `i` of a number. Reading what was stored gives the number
back, up to what `k` bytes can hold.
-/

namespace FuseUfs.Lib

def leGet (f : Nat → BitVec 8) : Nat → Nat
  | 0 => 0
  | k + 1 => leGet f k + (f k).toNat * 256 ^ k

def leByte (v i : Nat) : BitVec 8 := BitVec.ofNat 8 (v / 256 ^ i)

theorem leGet_congr {f g : Nat → BitVec 8} : ∀ {k}, (∀ i < k, f i = g i) → leGet f k = leGet g k
  | 0, _ => rfl
  | k + 1, same => by
      rw [leGet, leGet, leGet_congr fun i hi => same i (by omega), same k (by omega)]

theorem leGet_leByte (v : Nat) : ∀ k, leGet (leByte v) k = v % 256 ^ k
  | 0 => by simp [leGet, Nat.mod_one]
  | k + 1 => by
      have digit : (leByte v k).toNat = v / 256 ^ k % 256 := BitVec.toNat_ofNat _ 8
      rw [leGet, leGet_leByte v k, digit, pow_succ, Nat.mod_mul]
      ring

theorem leGet_lt (f : Nat → BitVec 8) : ∀ k, leGet f k < 256 ^ k
  | 0 => by simp [leGet]
  | k + 1 => by
      have low := leGet_lt f k
      have digit : (f k).toNat ≤ 255 := by have := (f k).isLt; omega
      have high : (f k).toNat * 256 ^ k ≤ 255 * 256 ^ k := Nat.mul_le_mul_right _ digit
      rw [leGet, pow_succ]
      omega

theorem leGet_zero {f : Nat → BitVec 8} : ∀ {k}, (∀ i < k, f i = 0) → leGet f k = 0
  | 0, _ => rfl
  | k + 1, zero => by
      rw [leGet, leGet_zero fun i hi => zero i (by omega), zero k (by omega)]
      simp

end FuseUfs.Lib
