import FuseUfs.Lib.Runs
import FuseUfs.Geometry

/-! # The fragment tables

`around` and `inside` are the masks by which a free run of a given size is
recognised in the shifted bit pattern of a block; `fragtbl` packs, for every byte of
a free map, which run sizes occur in the blocks of that byte. The two facts at the
end are all that the allocator relies on.
-/

namespace FuseUfs

open Lib

def around : List Nat := [0x3, 0x7, 0xf, 0x1f, 0x3f, 0x7f, 0xff, 0x1ff, 0x3ff]

def inside : List Nat := [0x0, 0x2, 0x6, 0xe, 0x1e, 0x3e, 0x7e, 0xfe, 0x1fe]

def fragtbl124 : List Nat :=
  [0x00, 0x16, 0x16, 0x2a, 0x16, 0x16, 0x26, 0x4e,
   0x16, 0x16, 0x16, 0x3e, 0x2a, 0x3e, 0x4e, 0x8a,
   0x16, 0x16, 0x16, 0x3e, 0x16, 0x16, 0x36, 0x5e,
   0x16, 0x16, 0x16, 0x3e, 0x3e, 0x3e, 0x5e, 0x9e,
   0x16, 0x16, 0x16, 0x3e, 0x16, 0x16, 0x36, 0x5e,
   0x16, 0x16, 0x16, 0x3e, 0x3e, 0x3e, 0x5e, 0x9e,
   0x2a, 0x3e, 0x3e, 0x2a, 0x3e, 0x3e, 0x2e, 0x6e,
   0x3e, 0x3e, 0x3e, 0x3e, 0x2a, 0x3e, 0x6e, 0xaa,
   0x16, 0x16, 0x16, 0x3e, 0x16, 0x16, 0x36, 0x5e,
   0x16, 0x16, 0x16, 0x3e, 0x3e, 0x3e, 0x5e, 0x9e,
   0x16, 0x16, 0x16, 0x3e, 0x16, 0x16, 0x36, 0x5e,
   0x16, 0x16, 0x16, 0x3e, 0x3e, 0x3e, 0x5e, 0x9e,
   0x26, 0x36, 0x36, 0x2e, 0x36, 0x36, 0x26, 0x6e,
   0x36, 0x36, 0x36, 0x3e, 0x2e, 0x3e, 0x6e, 0xae,
   0x4e, 0x5e, 0x5e, 0x6e, 0x5e, 0x5e, 0x6e, 0x4e,
   0x5e, 0x5e, 0x5e, 0x7e, 0x6e, 0x7e, 0x4e, 0xce,
   0x16, 0x16, 0x16, 0x3e, 0x16, 0x16, 0x36, 0x5e,
   0x16, 0x16, 0x16, 0x3e, 0x3e, 0x3e, 0x5e, 0x9e,
   0x16, 0x16, 0x16, 0x3e, 0x16, 0x16, 0x36, 0x5e,
   0x16, 0x16, 0x16, 0x3e, 0x3e, 0x3e, 0x5e, 0x9e,
   0x16, 0x16, 0x16, 0x3e, 0x16, 0x16, 0x36, 0x5e,
   0x16, 0x16, 0x16, 0x3e, 0x3e, 0x3e, 0x5e, 0x9e,
   0x3e, 0x3e, 0x3e, 0x3e, 0x3e, 0x3e, 0x3e, 0x7e,
   0x3e, 0x3e, 0x3e, 0x3e, 0x3e, 0x3e, 0x7e, 0xbe,
   0x2a, 0x3e, 0x3e, 0x2a, 0x3e, 0x3e, 0x2e, 0x6e,
   0x3e, 0x3e, 0x3e, 0x3e, 0x2a, 0x3e, 0x6e, 0xaa,
   0x3e, 0x3e, 0x3e, 0x3e, 0x3e, 0x3e, 0x3e, 0x7e,
   0x3e, 0x3e, 0x3e, 0x3e, 0x3e, 0x3e, 0x7e, 0xbe,
   0x4e, 0x5e, 0x5e, 0x6e, 0x5e, 0x5e, 0x6e, 0x4e,
   0x5e, 0x5e, 0x5e, 0x7e, 0x6e, 0x7e, 0x4e, 0xce,
   0x8a, 0x9e, 0x9e, 0xaa, 0x9e, 0x9e, 0xae, 0xce,
   0x9e, 0x9e, 0x9e, 0xbe, 0xaa, 0xbe, 0xce, 0x8a]

def fragtbl8 : List Nat :=
  [0x00, 0x01, 0x01, 0x02, 0x01, 0x01, 0x02, 0x04,
   0x01, 0x01, 0x01, 0x03, 0x02, 0x03, 0x04, 0x08,
   0x01, 0x01, 0x01, 0x03, 0x01, 0x01, 0x03, 0x05,
   0x02, 0x03, 0x03, 0x02, 0x04, 0x05, 0x08, 0x10,
   0x01, 0x01, 0x01, 0x03, 0x01, 0x01, 0x03, 0x05,
   0x01, 0x01, 0x01, 0x03, 0x03, 0x03, 0x05, 0x09,
   0x02, 0x03, 0x03, 0x02, 0x03, 0x03, 0x02, 0x06,
   0x04, 0x05, 0x05, 0x06, 0x08, 0x09, 0x10, 0x20,
   0x01, 0x01, 0x01, 0x03, 0x01, 0x01, 0x03, 0x05,
   0x01, 0x01, 0x01, 0x03, 0x03, 0x03, 0x05, 0x09,
   0x01, 0x01, 0x01, 0x03, 0x01, 0x01, 0x03, 0x05,
   0x03, 0x03, 0x03, 0x03, 0x05, 0x05, 0x09, 0x11,
   0x02, 0x03, 0x03, 0x02, 0x03, 0x03, 0x02, 0x06,
   0x03, 0x03, 0x03, 0x03, 0x02, 0x03, 0x06, 0x0a,
   0x04, 0x05, 0x05, 0x06, 0x05, 0x05, 0x06, 0x04,
   0x08, 0x09, 0x09, 0x0a, 0x10, 0x11, 0x20, 0x40,
   0x01, 0x01, 0x01, 0x03, 0x01, 0x01, 0x03, 0x05,
   0x01, 0x01, 0x01, 0x03, 0x03, 0x03, 0x05, 0x09,
   0x01, 0x01, 0x01, 0x03, 0x01, 0x01, 0x03, 0x05,
   0x03, 0x03, 0x03, 0x03, 0x05, 0x05, 0x09, 0x11,
   0x01, 0x01, 0x01, 0x03, 0x01, 0x01, 0x03, 0x05,
   0x01, 0x01, 0x01, 0x03, 0x03, 0x03, 0x05, 0x09,
   0x03, 0x03, 0x03, 0x03, 0x03, 0x03, 0x03, 0x07,
   0x05, 0x05, 0x05, 0x07, 0x09, 0x09, 0x11, 0x21,
   0x02, 0x03, 0x03, 0x02, 0x03, 0x03, 0x02, 0x06,
   0x03, 0x03, 0x03, 0x03, 0x02, 0x03, 0x06, 0x0a,
   0x03, 0x03, 0x03, 0x03, 0x03, 0x03, 0x03, 0x07,
   0x02, 0x03, 0x03, 0x02, 0x06, 0x07, 0x0a, 0x12,
   0x04, 0x05, 0x05, 0x06, 0x05, 0x05, 0x06, 0x04,
   0x05, 0x05, 0x05, 0x07, 0x06, 0x07, 0x04, 0x0c,
   0x08, 0x09, 0x09, 0x0a, 0x09, 0x09, 0x0a, 0x0c,
   0x10, 0x11, 0x11, 0x12, 0x20, 0x21, 0x40, 0x80]

/-- The table for a given number of fragments in a block. -/
def fragtbl : Nat → List Nat
  | 1 | 2 | 4 => fragtbl124
  | 8 => fragtbl8
  | _ => []

/-- `table[byte] & mask` with the mask that the allocator builds for `allocsiz`. -/
def fragtblHas (frag allocsiz byte : Nat) : Bool :=
  ((fragtbl frag).getD byte 0 &&& (1 <<< (allocsiz - 1 + frag % nbby))) != 0

/-! ## The masks recognise maximal runs -/

theorem around_eq {k : Nat} (hk : k ≤ 8) : around.getD k 0 = 2 ^ (k + 2) - 1 := by
  interval_cases k <;> rfl

theorem inside_eq {k : Nat} (hk : k ≤ 8) : inside.getD k 0 = (2 ^ k - 1) <<< 1 := by
  interval_cases k <;> rfl

private theorem testBit_ones (n i : Nat) : (2 ^ n - 1).testBit i = decide (i < n) :=
  Nat.testBit_two_pow_sub_one n i

private theorem testBit_shifted_ones (n p i : Nat) :
    ((2 ^ n - 1) <<< p).testBit i = decide (p ≤ i ∧ i < p + n) := by
  rw [Nat.testBit_shiftLeft, testBit_ones]
  by_cases h : p ≤ i
  · simp [h]; omega
  · simp [h]

/-- Matching the shifted masks is the same as a maximal run at that position. -/
theorem mask_iff_exactRun {w m k p : Nat} (small : m < 2 ^ w) (hk : 0 < k) (fits : p + k ≤ w) :
    (m <<< 1) &&& ((2 ^ (k + 2) - 1) <<< p) = ((2 ^ k - 1) <<< 1) <<< p ↔
      ExactRun w m.testBit k p := by
  have beyond : m.testBit w = false := Nat.testBit_lt_two_pow small
  have right : ∀ i, (((2 ^ k - 1) <<< 1) <<< p).testBit i = decide (p + 1 ≤ i ∧ i < p + 1 + k) := by
    intro i
    rw [← Nat.shiftLeft_add, Nat.add_comm 1 p]
    exact testBit_shifted_ones k (p + 1) i
  have left : ∀ i, ((m <<< 1) &&& ((2 ^ (k + 2) - 1) <<< p)).testBit i
      = (decide (1 ≤ i) && m.testBit (i - 1) && decide (p ≤ i ∧ i < p + (k + 2))) := by
    intro i
    rw [Nat.testBit_and, testBit_shifted_ones, Nat.testBit_shiftLeft]
  constructor
  · intro same
    have bit : ∀ i, (decide (1 ≤ i) && m.testBit (i - 1) && decide (p ≤ i ∧ i < p + (k + 2)))
        = decide (p + 1 ≤ i ∧ i < p + 1 + k) := by
      intro i; rw [← left, ← right, same]
    refine ⟨fits, fun j hj => ?_, ?_, .inr ?_⟩
    · have := bit (p + j + 1)
      simp [show p ≤ p + j + 1 ∧ p + j + 1 < p + (k + 2) by omega] at this
      rw [this]; simp; omega
    · by_cases p0 : p = 0
      · exact .inl p0
      · have := bit p
        simp [show 1 ≤ p by omega] at this
        exact .inr this
    · have := bit (p + k + 1)
      simp [show p ≤ p + k + 1 ∧ p + k + 1 < p + (k + 2) by omega] at this
      rw [this]; simp; omega
  · rintro ⟨-, ins, lef, rig⟩
    apply Nat.eq_of_testBit_eq
    intro i
    rw [left, right]
    by_cases range : p ≤ i ∧ i < p + (k + 2)
    · by_cases low : i = p
      · subst low
        rcases lef with h | h
        · subst h; simp
        · simp [h]
      · by_cases high : i = p + k + 1
        · subst high
          have clear : m.testBit (p + k) = false := by
            rcases rig with h | h
            · rw [h]; exact beyond
            · exact h
          simp [clear]; omega
        · have set := ins (i - 1 - p) (by omega)
          rw [show p + (i - 1 - p) = i - 1 by omega] at set
          simp [set, range, show p + 1 ≤ i ∧ i < p + 1 + k by omega]
          omega
    · have outside : decide (p + 1 ≤ i ∧ i < p + 1 + k) = false := decide_eq_false (by omega)
      rw [outside, decide_eq_false range, Bool.and_false]

/-! ## The packed table agrees with the masks -/

private def maskHit (w k m p : Nat) : Bool :=
  Nat.ble (p + k) w && Nat.beq ((m <<< 1) &&& ((2 ^ (k + 2) - 1) <<< p)) (((2 ^ k - 1) <<< 1) <<< p)

private def byteHit (w k v : Nat) : Bool :=
  (List.range (8 / w)).any fun q => (List.range w).any fun p =>
    maskHit w k ((v >>> (q * w)) &&& (2 ^ w - 1)) p

private theorem fragtbl_checked :
    ([1, 2, 4, 8].all fun w => (fragtbl w).zipIdx.all fun e => (List.range w).all fun k =>
      (e.1 &&& (1 <<< (k + w % nbby)) != 0) == byteHit w (k + 1) e.2) = true := by
  decide +kernel

private theorem fragtbl_length {w : Nat} (member : w ∈ [1, 2, 4, 8]) : (fragtbl w).length = 256 := by
  simp only [List.mem_cons, List.not_mem_nil, or_false] at member
  rcases member with rfl | rfl | rfl | rfl <;> decide +kernel

/-- A byte of the map has its table bit set for `k` exactly when one of its blocks has a
    maximal run of exactly `k` set bits. -/
theorem fragtbl_iff (fs : Superblock) {k : Nat} (hk : 0 < k) (le : k ≤ fs.fsFrag) (v : BitVec 8) :
    fragtblHas fs.fsFrag k v.toNat = true ↔
      ∃ q < 8 / fs.fsFrag, ∃ p,
        ExactRun fs.fsFrag ((v.toNat >>> (q * fs.fsFrag)) &&& (2 ^ fs.fsFrag - 1)).testBit k p := by
  have member : fs.fsFrag ∈ [1, 2, 4, 8] := by
    rcases fs.frag_cases with h | h | h | h <;> simp [h]
  have checked := fragtbl_checked
  simp only [List.all_eq_true, List.mem_range, beq_iff_eq] at checked
  have entry : ((fragtbl fs.fsFrag).getD v.toNat 0, v.toNat) ∈ (fragtbl fs.fsFrag).zipIdx := by
    have bound : v.toNat < (fragtbl fs.fsFrag).length := by
      rw [fragtbl_length member]; exact v.isLt
    rw [List.mk_mem_zipIdx_iff_getElem?, List.getD_eq_getElem?_getD,
      List.getElem?_eq_getElem bound]
    rfl
  have here := checked _ member _ entry (k - 1) (by omega)
  rw [show k - 1 + 1 = k by omega] at here
  rw [fragtblHas, here, byteHit]
  simp only [List.any_eq_true, List.mem_range, maskHit, Bool.and_eq_true, Nat.ble_eq, Nat.beq_eq]
  have small : ∀ q, (v.toNat >>> (q * fs.fsFrag)) &&& (2 ^ fs.fsFrag - 1) < 2 ^ fs.fsFrag := by
    intro q
    rw [Nat.and_two_pow_sub_one_eq_mod]
    exact Nat.mod_lt _ (Nat.two_pow_pos _)
  constructor
  · rintro ⟨q, hq, p, -, fits, hit⟩
    exact ⟨q, hq, p, (mask_iff_exactRun (small q) hk fits).mp hit⟩
  · rintro ⟨q, hq, p, run⟩
    have fits := run.1
    exact ⟨q, hq, p, by omega, fits, (mask_iff_exactRun (small q) hk fits).mpr run⟩

end FuseUfs
