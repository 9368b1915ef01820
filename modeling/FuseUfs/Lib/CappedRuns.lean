import FuseUfs.Lib.Runs

/-! # Runs counted up to a cap

Runs of a block of bits are counted by their lengths, those of a cap's length or more together.
Clearing one bit cuts the run around it in two, so only the counts of three lengths move.
-/

namespace FuseUfs.Lib

/-- How many maximal runs have length `i`, or at least `i` when `i` is the cap. -/
def cappedCount (n : Nat) (b : Nat → Bool) (cap i : Nat) : Nat :=
  if i < cap then runCount n b i else ∑ k ∈ Finset.Icc cap n, runCount n b k

section Cut

variable {n : Nat} {b c : Nat → Bool} {a q x : Nat}

/-- A bit cleared inside a maximal run leaves the parts of the run on both sides. -/
theorem runCount_cut (run : ExactRun n b a q) (low : q ≤ x) (high : x < q + a)
    (new : ∀ j < n, c j = (b j && !decide (j = x))) {k : Nat} (hk : 0 < k) :
    runCount n c k + (if k = a then 1 else 0)
      = runCount n b k + (if k = q + a - (x + 1) then 1 else 0) + (if k = x - q then 1 else 0) := by
  have fits := run.1
  -- clear the run up to and with `x`, and then set again what is in front of `x`
  let d : Nat → Bool := fun j => b j && !decide (q ≤ j ∧ j < q + (x + 1 - q))
  have back := runCount_carve (c := d) run (f := x + 1 - q) (by omega) (by omega) (fun _ _ => rfl) hk
  have right : (k + (x + 1 - q) = a) = (k = q + a - (x + 1)) := by
    rw [eq_iff_iff]
    omega
  simp only [right] at back
  rcases Nat.eq_zero_or_pos (x - q) with zero | pos
  · have same : runCount n c k = runCount n d k := by
      apply runCount_congr _ hk
      intro j hj
      have only : (j = x) ↔ (q ≤ j ∧ j < q + (x + 1 - q)) := by omega
      rw [new j hj]
      simp only [d, only]
    rw [same, zero, if_neg (by omega : ¬ k = 0)]
    exact back
  · have front : ExactRun n c (x - q) q := by
      refine ⟨by omega, fun j hj => ?_, run.2.2.1.imp id fun clear => ?_, .inr ?_⟩
      · rw [new _ (by omega), run.2.1 j (by omega)]
        simp only [Bool.true_and, Bool.not_eq_true', decide_eq_false_iff_not]
        omega
      · by_cases edge : q - 1 < n
        · rw [new _ edge, clear, Bool.false_and]
        · omega
      · rw [new _ (by omega)]
        simp only [Bool.and_eq_false_iff, Bool.not_eq_false', decide_eq_true_eq]
        omega
    have again := runCount_carve (c := d) front pos le_rfl (fun j hj => by
      rw [new j hj, Bool.and_assoc, ← Bool.not_or, ← Bool.decide_or]
      have only : (q ≤ j ∧ j < q + (x + 1 - q)) ↔ (j = x ∨ q ≤ j ∧ j < q + (x - q)) := by omega
      simp only [d, only]) hk
    rw [if_neg (by omega : ¬ k + (x - q) = x - q)] at again
    omega

/-- Where a run is cut, at most three counts move. -/
theorem cappedCount_cut (run : ExactRun n b a q) (low : q ≤ x) (high : x < q + a)
    (new : ∀ j < n, c j = (b j && !decide (j = x))) {cap i : Nat} (pos : 0 < i) (le : i ≤ cap) :
    cappedCount n c cap i + (if i = min a cap then 1 else 0)
      = cappedCount n b cap i + (if i = min (q + a - (x + 1)) cap then 1 else 0)
        + (if i = min (x - q) cap then 1 else 0) := by
  have fits := run.1
  unfold cappedCount
  by_cases less : i < cap
  · have under : ∀ m, (i = min m cap) = (i = m) := by
      intro m
      rw [eq_iff_iff]
      omega
    rw [if_pos less, if_pos less]
    simp only [under]
    exact runCount_cut run low high new pos
  · have top : i = cap := by omega
    subst top
    have reach : ∀ m ≤ n, (∑ k ∈ Finset.Icc i n, if k = m then 1 else 0)
        = if i = min m i then 1 else 0 := by
      intro m hm
      rw [Finset.sum_ite_eq']
      congr 1
      rw [Finset.mem_Icc, eq_iff_iff]
      omega
    rw [if_neg less, if_neg less, ← reach a (by omega), ← reach _ (by omega : q + a - (x + 1) ≤ n),
      ← reach _ (by omega : x - q ≤ n), ← Finset.sum_add_distrib, ← Finset.sum_add_distrib,
      ← Finset.sum_add_distrib]
    apply Finset.sum_congr rfl
    intro k mem
    rw [Finset.mem_Icc] at mem
    exact runCount_cut run low high new (by omega)

end Cut

/-- A set bit lies in a maximal run. -/
theorem exists_run_at {n x : Nat} {b : Nat → Bool} (inside : x < n) (set : b x = true) :
    ∃ a q, q ≤ x ∧ x < q + a ∧ ExactRun n b a q := by
  obtain ⟨q, le, below, start⟩ := exists_run_start b x
  obtain ⟨m, room, above, stop⟩ := exists_run_end b (n - (x + 1)) (x + 1)
  refine ⟨x + 1 + m - q, q, le, by omega, by omega, fun j hj => ?_, start, ?_⟩
  · rcases Nat.lt_trichotomy (q + j) x with less | same | more
    · exact below _ (by omega) less
    · rw [same]
      exact set
    · rw [show q + j = x + 1 + (q + j - (x + 1)) by omega]
      exact above _ (by omega)
  · rw [show q + (x + 1 + m - q) = x + 1 + m by omega]
    exact stop.imp (by omega) id

end FuseUfs.Lib
