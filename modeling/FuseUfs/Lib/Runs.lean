import FuseUfs.Lib.BitMap

/-! # Maximal runs of set bits inside blocks of bits

A block of `w` bits is a predicate on positions; only the positions below `w`
count. `ExactRun w b k p` says that a maximal run of set bits starts at `p` and is
exactly `k` long. Two maximal runs of one block coincide or are separated by a
clear bit, which is what makes the bookkeeping of run counts local.
-/

namespace FuseUfs.Lib

/-- A maximal run of exactly `k` set bits starts at position `p` of the block. -/
def ExactRun (w : Nat) (b : Nat → Bool) (k p : Nat) : Prop :=
  p + k ≤ w ∧ (∀ j < k, b (p + j) = true) ∧ (p = 0 ∨ b (p - 1) = false) ∧
    (p + k = w ∨ b (p + k) = false)

instance (w : Nat) (b : Nat → Bool) (k p : Nat) : Decidable (ExactRun w b k p) :=
  inferInstanceAs (Decidable (_ ∧ _ ∧ _ ∧ _))

/-- Every bit of the block is set. -/
def Whole (w : Nat) (b : Nat → Bool) : Prop := ∀ j < w, b j = true

instance (w : Nat) (b : Nat → Bool) : Decidable (Whole w b) :=
  inferInstanceAs (Decidable (∀ j < w, b j = true))

/-- How many maximal runs of exactly `k` bits the block has. -/
def runCount (w : Nat) (b : Nat → Bool) (k : Nat) : Nat :=
  ((Finset.range w).filter (ExactRun w b k)).card

/-- How many bits of the block are set. -/
def bitCount (w : Nat) (b : Nat → Bool) : Nat :=
  ((Finset.range w).filter (fun j => b j = true)).card

/-- The set bits of a block that is not wholly set. -/
def partCount (w : Nat) (b : Nat → Bool) : Nat :=
  if Whole w b then 0 else bitCount w b

section Block

variable {w : Nat} {b c : Nat → Bool}

theorem ExactRun.congr (same : ∀ j < w, b j = c j) {k p : Nat} (hk : 0 < k) :
    ExactRun w b k p ↔ ExactRun w c k p := by
  have half : ∀ {x y : Nat → Bool}, (∀ j < w, x j = y j) →
      ExactRun w x k p → ExactRun w y k p := by
    rintro x y agree ⟨fits, inside, left, right⟩
    refine ⟨fits, fun j hj => ?_, ?_, ?_⟩
    · rw [← agree _ (by omega)]; exact inside j hj
    · rcases left with h | h
      · exact .inl h
      · exact .inr (by rw [← agree _ (by omega)]; exact h)
    · by_cases h : p + k = w
      · exact .inl h
      · exact .inr (by rw [← agree _ (by omega)]; exact right.resolve_left h)
  exact ⟨half same, half fun j hj => (same j hj).symm⟩

theorem whole_congr (same : ∀ j < w, b j = c j) : Whole w b ↔ Whole w c := by
  constructor
  · intro h j hj; rw [← same j hj]; exact h j hj
  · intro h j hj; rw [same j hj]; exact h j hj

theorem runCount_congr (same : ∀ j < w, b j = c j) {k : Nat} (hk : 0 < k) :
    runCount w b k = runCount w c k := by
  unfold runCount
  congr 1
  exact Finset.filter_congr fun p _ => ExactRun.congr same hk

theorem bitCount_congr (same : ∀ j < w, b j = c j) : bitCount w b = bitCount w c := by
  unfold bitCount
  congr 1
  exact Finset.filter_congr fun p hp => by rw [same p (Finset.mem_range.mp hp)]

/-- The bits of `n` blocks are counted block by block. -/
theorem bitCount_blocks (f : Nat → Bool) (n w : Nat) :
    bitCount (n * w) f = ∑ h ∈ Finset.range n, bitCount w fun j => f (h * w + j) := by
  simp only [bitCount, Finset.card_filter]
  induction n with
  | zero => simp
  | succ n ih => rw [Nat.succ_mul, Finset.sum_range_add, ih, Finset.sum_range_succ]

theorem partCount_congr (same : ∀ j < w, b j = c j) : partCount w b = partCount w c := by
  unfold partCount
  rw [bitCount_congr same]
  by_cases h : Whole w b
  · rw [if_pos h, if_pos ((whole_congr same).mp h)]
  · rw [if_neg h, if_neg (mt (whole_congr same).mpr h)]

/-- Two maximal runs coincide or are separated. -/
theorem ExactRun.apart {k p a q : Nat}
    (one : ExactRun w b k p) (two : ExactRun w b a q) :
    (p = q ∧ k = a) ∨ p + k < q ∨ q + a < p := by
  obtain ⟨fits₁, in₁, left₁, right₁⟩ := one
  obtain ⟨fits₂, in₂, left₂, right₂⟩ := two
  rcases Nat.lt_trichotomy p q with lt | rfl | gt
  · -- the bit before `q` is clear, so the run at `p` ends before it
    right; left
    by_contra touch
    have clear : b (q - 1) = false := left₂.resolve_left (by omega)
    have set := in₁ (q - 1 - p) (by omega)
    rw [show p + (q - 1 - p) = q - 1 by omega] at set
    simp_all
  · left
    refine ⟨rfl, ?_⟩
    rcases Nat.lt_trichotomy k a with lt | h | gt
    · have clear : b (p + k) = false := right₁.resolve_left (by omega)
      have set := in₂ k lt
      simp_all
    · exact h
    · have clear : b (p + a) = false := right₂.resolve_left (by omega)
      have set := in₁ a gt
      simp_all
  · right; right
    by_contra touch
    have clear : b (p - 1) = false := left₁.resolve_left (by omega)
    have set := in₂ (p - 1 - q) (by omega)
    rw [show q + (p - 1 - q) = p - 1 by omega] at set
    simp_all

/-- Going up from `e` on, the set bits end somewhere. -/
theorem exists_run_end (b : Nat → Bool) : ∀ n e, ∃ m, m ≤ n ∧ (∀ j < m, b (e + j) = true) ∧
    (m = n ∨ b (e + m) = false)
  | 0, _ => ⟨0, le_rfl, by simp, .inl rfl⟩
  | n + 1, e => by
      cases bit : b e with
      | false => exact ⟨0, by omega, by simp, .inr bit⟩
      | true =>
          obtain ⟨m, le, set, stop⟩ := exists_run_end b n (e + 1)
          refine ⟨m + 1, by omega, fun j hj => ?_, ?_⟩
          · cases j with
            | zero => exact bit
            | succ j => rw [show e + (j + 1) = e + 1 + j by omega]; exact set j (by omega)
          · rw [show e + (m + 1) = e + 1 + m by omega]
            exact stop.imp (by omega) id

/-- Going down from `p`, the set bits begin somewhere. -/
theorem exists_run_start (b : Nat → Bool) : ∀ p, ∃ q ≤ p, (∀ j, q ≤ j → j < p → b j = true) ∧
    (q = 0 ∨ b (q - 1) = false)
  | 0 => ⟨0, le_rfl, by omega, .inl rfl⟩
  | p + 1 => by
      cases bit : b p with
      | false => exact ⟨p + 1, le_rfl, by omega, .inr (by simpa using bit)⟩
      | true =>
          obtain ⟨q, le, set, stop⟩ := exists_run_start b p
          refine ⟨q, by omega, fun j low high => ?_, stop⟩
          rcases Nat.lt_succ_iff_lt_or_eq.mp high with less | rfl
          · exact set j low less
          · exact bit

/-- A run of set bits is part of a maximal one. -/
theorem exists_exactRun {f p : Nat} (fits : p + f ≤ w) (set : ∀ j < f, b (p + j) = true) :
    ∃ k q, f ≤ k ∧ ExactRun w b k q := by
  obtain ⟨q, le, below, start⟩ := exists_run_start b p
  obtain ⟨m, room, above, stop⟩ := exists_run_end b (w - (p + f)) (p + f)
  refine ⟨p + f + m - q, q, by omega, by omega, fun j hj => ?_, start, ?_⟩
  · by_cases left : q + j < p
    · exact below _ (by omega) left
    · by_cases mid : q + j < p + f
      · rw [show q + j = p + (q + j - p) by omega]
        exact set _ (by omega)
      · rw [show q + j = p + f + (q + j - (p + f)) by omega]
        exact above _ (by omega)
  · rw [show q + (p + f + m - q) = p + f + m by omega]
    exact stop.imp (by omega) id

theorem Whole.exactRun (whole : Whole w b) : ExactRun w b w 0 :=
  ⟨by omega, fun j hj => by simpa using whole j hj, .inl rfl, .inl (by omega)⟩

theorem Whole.runCount_eq_zero (whole : Whole w b) {k : Nat} (hk : 0 < k) (less : k < w) :
    runCount w b k = 0 := by
  refine Finset.card_eq_zero.mpr (Finset.filter_eq_empty_iff.mpr fun p _ run => ?_)
  rcases run.apart whole.exactRun with ⟨-, h⟩ | h | h
  · omega
  · omega
  · have := run.1; omega

theorem runCount_eq_zero_of_clear (clear : ∀ j < w, b j = false) {k : Nat} (hk : 0 < k) :
    runCount w b k = 0 := by
  refine Finset.card_eq_zero.mpr (Finset.filter_eq_empty_iff.mpr fun p _ run => ?_)
  have set := run.2.1 0 hk
  have bound := run.1
  rw [clear _ (by omega)] at set
  cases set

theorem partCount_eq_zero_of_clear (clear : ∀ j < w, b j = false) : partCount w b = 0 := by
  unfold partCount bitCount
  split
  · rfl
  · refine Finset.card_eq_zero.mpr (Finset.filter_eq_empty_iff.mpr fun p hp set => ?_)
    rw [clear p (Finset.mem_range.mp hp)] at set
    cases set

theorem Whole.bitCount_eq (whole : Whole w b) : bitCount w b = w := by
  unfold bitCount
  rw [Finset.filter_true_of_mem (fun j hj => whole j (Finset.mem_range.mp hj)), Finset.card_range]

/-- Setting `f` clear bits of a block adds `f` to its bit count. -/
theorem bitCount_set {q f : Nat} (fits : q + f ≤ w) (clear : ∀ j < f, b (q + j) = false)
    (new : ∀ j < w, c j = (b j || decide (q ≤ j ∧ j < q + f))) :
    bitCount w c = bitCount w b + f := by
  unfold bitCount
  have split : (Finset.range w).filter (fun j => c j = true)
      = (Finset.range w).filter (fun j => b j = true) ∪ Finset.Ico q (q + f) := by
    ext j
    simp only [Finset.mem_filter, Finset.mem_range, Finset.mem_union, Finset.mem_Ico]
    constructor
    · rintro ⟨hj, set⟩
      rw [new j hj] at set
      simp only [Bool.or_eq_true, decide_eq_true_eq] at set
      exact set.imp (fun h => ⟨hj, h⟩) id
    · rintro (⟨hj, set⟩ | inside)
      · exact ⟨hj, by rw [new j hj, set, Bool.true_or]⟩
      · exact ⟨by omega, by rw [new j (by omega)]; simp [inside]⟩
  have apart : Disjoint ((Finset.range w).filter (fun j => b j = true)) (Finset.Ico q (q + f)) := by
    rw [Finset.disjoint_left]
    intro j hj inside
    rw [Finset.mem_Ico] at inside
    have set := (Finset.mem_filter.mp hj).2
    have := clear (j - q) (by omega)
    rw [show q + (j - q) = j by omega] at this
    simp_all
  rw [split, Finset.card_union_of_disjoint apart, Nat.card_Ico]
  omega

/-- Clearing `f` set bits of a block takes `f` from its bit count. -/
theorem bitCount_clear {q f : Nat} (fits : q + f ≤ w) (set : ∀ j < f, b (q + j) = true)
    (new : ∀ j < w, c j = (b j && !decide (q ≤ j ∧ j < q + f))) :
    bitCount w c + f = bitCount w b := by
  refine (bitCount_set (b := c) (c := b) fits ?_ ?_).symm
  · intro j hj
    rw [new _ (by omega)]
    simp [show q ≤ q + j ∧ q + j < q + f by omega]
  · intro j hj
    rw [new j hj]
    by_cases inside : q ≤ j ∧ j < q + f
    · have := set (j - q) (by omega)
      rw [show q + (j - q) = j by omega] at this
      simp [inside, this]
    · simp [inside]

section Carve

variable {a q f : Nat} (run : ExactRun w b a q) (hf : 0 < f) (le : f ≤ a)
  (new : ∀ j < w, c j = (b j && !decide (q ≤ j ∧ j < q + f)))

include run hf le new

/-- After the first `f` bits of a maximal run are cleared, the maximal runs are the
    other old ones and what is left of this one. -/
theorem exactRun_carve {k p : Nat} (hk : 0 < k) :
    ExactRun w c k p ↔ (ExactRun w b k p ∧ ¬ (p = q ∧ k = a)) ∨ (k + f = a ∧ p = q + f) := by
  obtain ⟨fits, inside, left, right⟩ := run
  have rest : f < a → ExactRun w c (a - f) (q + f) := by
    intro less
    refine ⟨by omega, fun j hj => ?_, .inr ?_, ?_⟩
    · rw [new _ (by omega), show q + f + j = q + (f + j) by omega, inside (f + j) (by omega)]
      simp
    · rw [new _ (by omega)]
      simp [show q ≤ q + f - 1 ∧ q + f - 1 < q + f by omega]
    · by_cases h : q + f + (a - f) = w
      · exact .inl h
      · have clear : b (q + a) = false := right.resolve_left (by omega)
        rw [show q + f + (a - f) = q + a by omega]
        exact .inr (by rw [new _ (by omega), clear, Bool.false_and])
  -- outside the cleared bits the two blocks agree
  have keep : ∀ {p k}, 0 < k → p + k ≤ w → (p + k < q ∨ q + a < p) →
      (ExactRun w b k p ↔ ExactRun w c k p) := by
    intro p k hk bound apart
    have agree : ∀ j, j < w → (p ≤ j + 1 ∧ j ≤ p + k) → c j = b j := by
      intro j hj near
      rw [new j hj]
      have : ¬ (q ≤ j ∧ j < q + f) := by omega
      simp [this]
    constructor
    · rintro ⟨_, ins, le', ri⟩
      refine ⟨bound, fun j hj => ?_, ?_, ?_⟩
      · rw [agree _ (by omega) (by omega)]; exact ins j hj
      · exact le'.imp id fun h => by
          by_cases p0 : p = 0
          · subst p0; rw [agree _ (by omega) (by omega)]; exact h
          · rw [agree _ (by omega) (by omega)]; exact h
      · by_cases e : p + k = w
        · exact .inl e
        · exact .inr (by rw [agree _ (by omega) (by omega)]; exact ri.resolve_left e)
    · rintro ⟨_, ins, le', ri⟩
      refine ⟨bound, fun j hj => ?_, ?_, ?_⟩
      · rw [← agree _ (by omega) (by omega)]; exact ins j hj
      · exact le'.imp id fun h => by
          by_cases p0 : p = 0
          · subst p0; rw [← agree _ (by omega) (by omega)]; exact h
          · rw [← agree _ (by omega) (by omega)]; exact h
      · by_cases e : p + k = w
        · exact .inl e
        · exact .inr (by rw [← agree _ (by omega) (by omega)]; exact ri.resolve_left e)
  constructor
  · intro found
    have bound := found.1
    by_cases less : f < a
    · rcases found.apart (rest less) with ⟨h₁, h₂⟩ | h | h
      · exact .inr ⟨by omega, h₁⟩
      · -- it ends before the rest; its bits are not cleared ones, so it ends before the run
        have before : p + k < q ∨ q + f ≤ p := by
          by_contra touch
          by_cases low : p < q
          · have clear : b (q - 1) = false := left.resolve_left (by omega)
            have set := found.2.1 (q - 1 - p) (by omega)
            rw [show p + (q - 1 - p) = q - 1 by omega, new _ (by omega), clear] at set
            simp at set
          · have set := found.2.1 0 hk
            rw [new _ (by omega)] at set
            simp [show q ≤ p ∧ p < q + f by omega] at set
        have apart : p + k < q := by omega
        exact .inl ⟨(keep hk bound (.inl apart)).mpr found, by omega⟩
      · exact .inl ⟨(keep hk bound (.inr (by omega))).mpr found, by omega⟩
    · have same : f = a := by omega
      subst same
      have apart : p + k < q ∨ q + f < p := by
        by_contra touch
        by_cases low : p < q
        · have clear : b (q - 1) = false := left.resolve_left (by omega)
          have set := found.2.1 (q - 1 - p) (by omega)
          rw [show p + (q - 1 - p) = q - 1 by omega, new _ (by omega), clear] at set
          simp at set
        · by_cases inRun : p < q + f
          · have set := found.2.1 0 hk
            rw [new _ (by omega)] at set
            simp [show q ≤ p ∧ p < q + f by omega] at set
          · have clear : b (q + f) = false := right.resolve_left (by omega)
            have set := found.2.1 0 hk
            rw [show p + 0 = q + f by omega, new _ (by omega), clear] at set
            simp at set
      exact .inl ⟨(keep hk bound apart).mpr found, by omega⟩
  · rintro (⟨old, other⟩ | ⟨h₁, rfl⟩)
    · rcases old.apart ⟨fits, inside, left, right⟩ with h | h | h
      · exact absurd h other
      · exact (keep hk old.1 (.inl h)).mp old
      · exact (keep hk old.1 (.inr h)).mp old
    · have := rest (by omega)
      rwa [show a - f = k by omega] at this

theorem runCount_carve {k : Nat} (hk : 0 < k) :
    runCount w c k + (if k = a then 1 else 0) = runCount w b k + (if k + f = a then 1 else 0) := by
  have fits := run.1
  have sets : (Finset.range w).filter (ExactRun w c k)
      = ((Finset.range w).filter (ExactRun w b k) \ (if k = a then {q} else ∅))
        ∪ (if k + f = a then {q + f} else ∅) := by
    ext p
    simp only [Finset.mem_filter, Finset.mem_union, Finset.mem_sdiff, Finset.mem_range,
      exactRun_carve run hf le new hk]
    have taken : p ∈ (if k = a then {q} else ∅ : Finset Nat) ↔ p = q ∧ k = a := by
      split <;> simp [*]
    have added : p ∈ (if k + f = a then {q + f} else ∅ : Finset Nat) ↔ k + f = a ∧ p = q + f := by
      split <;> simp [*]
    rw [taken, added]
    constructor
    · rintro ⟨hp, h | h⟩
      · exact .inl ⟨⟨hp, h.1⟩, h.2⟩
      · exact .inr h
    · rintro (⟨⟨hp, h⟩, other⟩ | h)
      · exact ⟨hp, .inl ⟨h, other⟩⟩
      · exact ⟨by omega, .inr h⟩
  by_cases h₁ : k = a
  · have h₂ : ¬ k + f = a := by omega
    have here : {q} ⊆ (Finset.range w).filter (ExactRun w b k) := by
      rw [Finset.singleton_subset_iff, Finset.mem_filter, Finset.mem_range]
      exact ⟨by omega, h₁ ▸ run⟩
    have card := Finset.card_sdiff_add_card_eq_card here
    rw [runCount, sets, runCount, if_pos h₁, if_neg h₂, if_pos h₁, if_neg h₂, Finset.union_empty]
    simpa using card
  · by_cases h₂ : k + f = a
    · have fresh : q + f ∉ (Finset.range w).filter (ExactRun w b k) := by
        rw [Finset.mem_filter]
        rintro ⟨_, old⟩
        rcases old.apart run with h | h | h <;> omega
      rw [runCount, sets, runCount, if_neg h₁, if_pos h₂, if_neg h₁, if_pos h₂, Finset.sdiff_empty,
        Finset.union_comm, ← Finset.insert_eq, Finset.card_insert_of_notMem fresh]
    · rw [runCount, sets, runCount, if_neg h₁, if_neg h₂, if_neg h₁, if_neg h₂, Finset.sdiff_empty,
        Finset.union_empty]

end Carve

end Block

/-! ## Counting over the blocks of a map -/

/-- The bits of block `h`, for blocks of `w` bits. -/
def BitMap.block (w : Nat) (a : BitMap) (h : Nat) : Nat → Bool := fun j => a.isset (h * w + j)

/-- A sum over blocks changes only by what changes in the one block that differs. -/
theorem sum_change_block {w n h : Nat} {a c : BitMap} (F : (Nat → Bool) → Nat) (inside : h < n)
    (congr : ∀ x y : Nat → Bool, (∀ j < w, x j = y j) → F x = F y)
    (same : ∀ i, i / w ≠ h → c.isset i = a.isset i) (hw : 0 < w) :
    (∑ i ∈ Finset.range n, F (c.block w i)) + F (a.block w h)
      = (∑ i ∈ Finset.range n, F (a.block w i)) + F (c.block w h) := by
  have mem : h ∈ Finset.range n := Finset.mem_range.mpr inside
  rw [← Finset.add_sum_erase _ _ mem, ← Finset.add_sum_erase (f := fun i => F (a.block w i)) _ mem]
  have others : ∑ i ∈ (Finset.range n).erase h, F (c.block w i)
      = ∑ i ∈ (Finset.range n).erase h, F (a.block w i) := by
    refine Finset.sum_congr rfl fun i hi => congr _ _ fun j hj => ?_
    refine same _ ?_
    rw [Nat.mul_comm, Nat.mul_add_div hw, Nat.div_eq_of_lt hj]
    exact Finset.ne_of_mem_erase hi
  rw [others]
  omega

end FuseUfs.Lib
