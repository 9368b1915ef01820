import Mathlib

/-! # Bit maps stored as bytes, and the runs of set bits inside a block of bits

A map is a total function from byte numbers to bytes. Bit `i` of the map is bit
`i % 8` of byte `i / 8`. A *block* is an aligned window of `w` bits with `w ∣ 8`,
so that it never crosses a byte; `window` reads one as a number below `2 ^ w`.
-/

namespace FuseUfs.Lib

/-- A map of bits, eight to a byte. -/
abbrev BitMap := Nat → BitVec 8

namespace BitMap

def isset (a : BitMap) (i : Nat) : Bool := (a (i / 8)).getLsbD (i % 8)

def setbit (a : BitMap) (i : Nat) : BitMap :=
  Function.update a (i / 8) (a (i / 8) ||| 1#8 <<< (i % 8))

def clrbit (a : BitMap) (i : Nat) : BitMap :=
  Function.update a (i / 8) (a (i / 8) &&& ~~~(1#8 <<< (i % 8)))

private theorem one_shift (k j : Nat) (hj : j < 8) :
    (1#8 <<< k).getLsbD j = decide (k = j) := by
  rw [BitVec.getLsbD_shiftLeft]
  by_cases h : k = j
  · subst h; simp [hj]
  · by_cases low : j < k
    · simp [low, h]
    · have : ¬ (j - k = 0) := by omega
      simp [h, hj, this]

theorem isset_setbit (a : BitMap) (i j : Nat) :
    isset (setbit a i) j = (isset a j || decide (i = j)) := by
  unfold isset setbit
  by_cases same : j / 8 = i / 8
  · rw [same, Function.update_self, BitVec.getLsbD_or, one_shift _ _ (by omega)]
    congr 1
    exact decide_eq_decide.mpr (by omega)
  · rw [Function.update_of_ne same]
    have : i ≠ j := by rintro rfl; exact same rfl
    simp [this]

theorem isset_clrbit (a : BitMap) (i j : Nat) :
    isset (clrbit a i) j = (isset a j && !decide (i = j)) := by
  unfold isset clrbit
  by_cases same : j / 8 = i / 8
  · rw [same, Function.update_self, BitVec.getLsbD_and, BitVec.getLsbD_not,
      one_shift _ _ (by omega)]
    have : decide (i % 8 = j % 8) = decide (i = j) := decide_eq_decide.mpr (by omega)
    have inside : j % 8 < 8 := by omega
    simp [this, inside]
  · rw [Function.update_of_ne same]
    have : i ≠ j := by rintro rfl; exact same rfl
    simp [this]

/-- Setting the bits `i, …, i + k - 1` one after the other. -/
def setbits (a : BitMap) (i : Nat) : Nat → BitMap
  | 0 => a
  | k + 1 => setbit (setbits a i k) (i + k)

/-- Clearing the bits `i, …, i + k - 1` one after the other. -/
def clrbits (a : BitMap) (i : Nat) : Nat → BitMap
  | 0 => a
  | k + 1 => clrbit (clrbits a i k) (i + k)

theorem isset_setbits (a : BitMap) (i k j : Nat) :
    isset (setbits a i k) j = (isset a j || decide (i ≤ j ∧ j < i + k)) := by
  induction k with
  | zero => simp [setbits]
  | succ k ih =>
      rw [setbits, isset_setbit, ih, Bool.or_assoc, ← Bool.decide_or]
      congr 1
      exact decide_eq_decide.mpr (by omega)

theorem isset_clrbits (a : BitMap) (i k j : Nat) :
    isset (clrbits a i k) j = (isset a j && !decide (i ≤ j ∧ j < i + k)) := by
  induction k with
  | zero => simp [clrbits]; omega
  | succ k ih =>
      rw [clrbits, isset_clrbit, ih, Bool.and_assoc, ← Bool.not_or, ← Bool.decide_or]
      congr 2
      exact decide_eq_decide.mpr (by omega)

/-- The `w` bits of the map from bit `loc` on, as a number. -/
def window (w : Nat) (a : BitMap) (loc : Nat) : Nat :=
  ((a (loc / 8)).toNat >>> (loc % 8)) &&& (2 ^ w - 1)

theorem window_lt (w : Nat) (a : BitMap) (loc : Nat) : window w a loc < 2 ^ w := by
  rw [window, Nat.and_two_pow_sub_one_eq_mod]
  exact Nat.mod_lt _ (Nat.two_pow_pos w)

/-- Bits of an aligned window are bits of the map. -/
theorem testBit_window {w : Nat} (hw : w ∣ 8) (a : BitMap) (h j : Nat) (hj : j < w) :
    (window w a (h * w)).testBit j = isset a (h * w + j) := by
  obtain ⟨c, hc⟩ := hw
  have wpos : 0 < w := by omega
  have low : h * w % 8 = h % c * w := by
    rw [hc, Nat.mul_comm w c, Nat.mul_mod_mul_right]
  have cpos : 0 < c := by
    rcases Nat.eq_zero_or_pos c with rfl | p
    · simp at hc
    · exact p
  have fits : h % c * w + w ≤ 8 := by
    have : h % c + 1 ≤ c := Nat.mod_lt h cpos
    calc h % c * w + w = (h % c + 1) * w := by ring
      _ ≤ c * w := Nat.mul_le_mul_right w this
      _ = 8 := by rw [hc, Nat.mul_comm]
  have byte : (h * w + j) / 8 = h * w / 8 := by omega
  have bit : (h * w + j) % 8 = h * w % 8 + j := by omega
  rw [window, Nat.and_two_pow_sub_one_eq_mod, Nat.testBit_mod_two_pow, Nat.testBit_shiftRight,
    isset, byte, bit]
  simp [hj, BitVec.testBit_toNat]

theorem window_eq_iff {w : Nat} (hw : w ∣ 8) (a b : BitMap) (h : Nat) :
    window w a (h * w) = window w b (h * w) ↔
      ∀ j < w, isset a (h * w + j) = isset b (h * w + j) := by
  constructor
  · intro same j hj
    rw [← testBit_window hw a h j hj, ← testBit_window hw b h j hj, same]
  · intro same
    apply Nat.eq_of_testBit_eq
    intro j
    by_cases hj : j < w
    · rw [testBit_window hw a h j hj, testBit_window hw b h j hj, same j hj]
    · rw [Nat.testBit_lt_two_pow ((window_lt w a _).trans_le (Nat.pow_le_pow_right (by omega) (by omega))),
        Nat.testBit_lt_two_pow ((window_lt w b _).trans_le (Nat.pow_le_pow_right (by omega) (by omega)))]

end BitMap

end FuseUfs.Lib
