import FuseUfs.Alloc
import FuseUfs.Lib.Search

/-! # The groups that a search goes through

`ufs_hashalloc` takes any allocator. Which groups it asks, and in which order, does not depend on
the allocator, but for where the search ends: it is the first success over a fixed list of groups,
and every group is on the list.
-/

namespace FuseUfs

open Lib Prog

section Search

variable {fs : Superblock} {allocator : Nat → Nat → M Nat}

/-- The groups of the quadratic rehash. -/
def rehashGroups (fs : Superblock) : (left i cg : Nat) → List Nat
  | 0, _, _ => []
  | left + 1, i, cg =>
      if i < fs.fsNcg then
        let cg := if fs.fsNcg ≤ cg + i then cg + i - fs.fsNcg else cg + i
        cg :: rehashGroups fs left (i * 2) cg
      else []

/-- The groups of the brute force. -/
def bruteGroups (fs : Superblock) : (left cg : Nat) → List Nat
  | 0, _ => []
  | left + 1, cg => cg :: bruteGroups fs left (if cg + 1 = fs.fsNcg then 0 else cg + 1)

/-- The groups that are asked after the preferred one. -/
def otherGroups (fs : Superblock) (cg : Nat) : List Nat :=
  rehashGroups fs fs.fsNcg 1 cg ++ bruteGroups fs (fs.fsNcg - 2) ((cg + 2) % fs.fsNcg)

theorem rehash_eq (fs : Superblock) (allocator : Nat → Nat → M Nat) : ∀ left i cg,
    rehash fs allocator left i cg = firstOf ((rehashGroups fs left i cg).map (allocator · 0))
  | 0, _, _ => rfl
  | left + 1, i, cg => by
      rw [rehash, rehashGroups]
      by_cases more : i < fs.fsNcg
      · simp only [if_pos more, rehash_eq fs allocator left]
        rfl
      · rw [if_neg more, if_neg more]
        rfl

theorem bruteForce_eq (fs : Superblock) (allocator : Nat → Nat → M Nat) : ∀ left cg,
    bruteForce fs allocator left cg = firstOf ((bruteGroups fs left cg).map (allocator · 0))
  | 0, _ => rfl
  | left + 1, cg => by
      rw [bruteForce, bruteForce_eq fs allocator left]
      rfl

theorem ufsHashalloc_eq (fs : Superblock) (cg pref : Nat) (allocator : Nat → Nat → M Nat) :
    ufsHashalloc fs cg pref allocator = firstOf (allocator cg pref :: (otherGroups fs cg).map (allocator · 0)) := by
  rw [firstOf, otherGroups, List.map_append, firstOf_append, ← rehash_eq, ← bruteForce_eq]
  rfl

/-- The step doubles, so that the loop has ended when its turns are used up. -/
theorem rehash_turns : ∀ left i cg, fs.fsNcg ≤ i * 2 ^ left →
    rehash fs allocator (left + 1) i cg = rehash fs allocator left i cg
  | 0, i, cg, done => by
      rw [rehash, rehash, if_neg (by simpa using done)]
  | left + 1, i, cg, done => by
      have later : fs.fsNcg ≤ i * 2 * 2 ^ left := by
        rw [Nat.mul_assoc, ← Nat.pow_succ']
        exact done
      rw [rehash, rehash]
      simp only [rehash_turns left (i * 2) _ later]

theorem rehash_ends (more cg : Nat) : rehash fs allocator (fs.fsNcg + more) 1 cg = rehash fs allocator fs.fsNcg 1 cg := by
  induction more with
  | zero => rfl
  | succ more ih =>
      rw [← ih]
      refine rehash_turns _ 1 cg ?_
      have enough : fs.fsNcg + more < 2 ^ (fs.fsNcg + more) := Nat.lt_two_pow_self
      rw [Nat.one_mul]
      exact (Nat.le_add_right _ _).trans enough.le

theorem rehashGroups_lt : ∀ left i cg, cg < fs.fsNcg → ∀ g ∈ rehashGroups fs left i cg, g < fs.fsNcg
  | 0, _, _, _, g, member => nomatch member
  | left + 1, i, cg, inside, g, member => by
      rw [rehashGroups] at member
      split at member
      · next more =>
        have next : (if fs.fsNcg ≤ cg + i then cg + i - fs.fsNcg else cg + i) < fs.fsNcg := by
          split
          · omega
          · omega
        cases member with
        | head => exact next
        | tail _ member => exact rehashGroups_lt left _ _ next g member
      · cases member

theorem bruteGroups_lt : ∀ left cg, cg < fs.fsNcg → ∀ g ∈ bruteGroups fs left cg, g < fs.fsNcg
  | 0, _, _, g, member => nomatch member
  | left + 1, cg, inside, g, member => by
      cases member with
      | head => exact inside
      | tail _ member =>
          refine bruteGroups_lt left _ ?_ g member
          split
          · exact fs.ncg_pos
          · omega

/-- The group at distance `d` is among the next `left`. -/
theorem mem_bruteGroups : ∀ left cg d, cg < fs.fsNcg → d < left → (cg + d) % fs.fsNcg ∈ bruteGroups fs left cg
  | 0, _, _, _, empty => absurd empty (Nat.not_lt_zero _)
  | left + 1, cg, 0, inside, _ => by
      rw [show (cg + 0) % fs.fsNcg = cg from Nat.mod_eq_of_lt inside]
      exact List.mem_cons_self ..
  | left + 1, cg, d + 1, inside, near => by
      refine List.mem_cons_of_mem _ ?_
      by_cases last : cg + 1 = fs.fsNcg
      · rw [if_pos last, show cg + (d + 1) = 0 + d + fs.fsNcg by omega, Nat.add_mod_right]
        exact mem_bruteGroups left 0 d fs.ncg_pos (by omega)
      · rw [if_neg last, show cg + (d + 1) = cg + 1 + d by omega]
        exact mem_bruteGroups left (cg + 1) d (by omega) (by omega)

/-- Every group but the preferred one is asked: the next one by the rehash, the others by brute force. -/
theorem mem_otherGroups {cg g : Nat} (inside : cg < fs.fsNcg) (there : g < fs.fsNcg) (other : g ≠ cg) :
    g ∈ otherGroups fs cg := by
  -- the distance from the preferred group, once around
  set d := if cg < g then g - cg else g + fs.fsNcg - cg with hd
  have range : 0 < d ∧ d < fs.fsNcg := by
    rw [hd]
    split
    · omega
    · omega
  have reach : (cg + d) % fs.fsNcg = g := by
    rw [hd]
    split
    · rw [show cg + (g - cg) = g by omega, Nat.mod_eq_of_lt there]
    · rw [show cg + (g + fs.fsNcg - cg) = g + fs.fsNcg by omega, Nat.add_mod_right, Nat.mod_eq_of_lt there]
  refine List.mem_append.mpr ?_
  by_cases next : d = 1
  · left
    obtain ⟨n, hn⟩ : ∃ n, fs.fsNcg = n + 1 := ⟨fs.fsNcg - 1, by omega⟩
    have first : g = if fs.fsNcg ≤ cg + 1 then cg + 1 - fs.fsNcg else cg + 1 := by
      rw [hd] at next
      split at next
      · rw [if_neg (by omega)]
        omega
      · rw [if_pos (by omega)]
        omega
    rw [show rehashGroups fs fs.fsNcg 1 cg = rehashGroups fs (n + 1) 1 cg by rw [← hn], rehashGroups,
      if_pos (by omega : 1 < fs.fsNcg), first]
    exact List.mem_cons_self ..
  · right
    have far := mem_bruteGroups (fs.fsNcg - 2) ((cg + 2) % fs.fsNcg) (d - 2) (Nat.mod_lt _ fs.ncg_pos) (by omega)
    rwa [Nat.mod_add_mod, show cg + 2 + (d - 2) = cg + d by omega, reach] at far

/-- Whatever the allocator, the search is the first success over the preferred group, which alone gets the
    preference, and a list of groups that holds all the others. An allocator that fails quietly has then been asked
    in one state: nothing found means that every group was asked and failed. -/
theorem ufsHashalloc_exhaustive (fs : Superblock) {cg : Nat} (inside : cg < fs.fsNcg) (pref : Nat) :
    ∃ groups : List Nat, (∀ g ∈ groups, g < fs.fsNcg) ∧ (∀ g < fs.fsNcg, g = cg ∨ g ∈ groups) ∧
      ∀ allocator : Nat → Nat → M Nat,
        ufsHashalloc fs cg pref allocator = firstOf (allocator cg pref :: groups.map (allocator · 0)) ∧
        ((∀ g p, FailsQuietly (allocator g p)) → ∀ s r s', ufsHashalloc fs cg pref allocator s = .done r s' →
          (r = 0 → s' = s ∧ allocator cg pref s = .done 0 s ∧
            ∀ g < fs.fsNcg, g ≠ cg → allocator g 0 s = .done 0 s) ∧
          (r ≠ 0 → allocator cg pref s = .done r s' ∨ allocator cg pref s = .done 0 s ∧
            ∃ before g after, groups = before ++ g :: after ∧ (∀ b ∈ before, allocator b 0 s = .done 0 s) ∧
              allocator g 0 s = .done r s')) := by
  refine ⟨otherGroups fs cg, fun g member => ?_, fun g there => ?_, fun allocator => ⟨ufsHashalloc_eq .., ?_⟩⟩
  · rcases List.mem_append.mp member with hashed | brute
    · exact rehashGroups_lt _ _ _ inside g hashed
    · exact bruteGroups_lt _ _ (Nat.mod_lt _ fs.ncg_pos) g brute
  · by_cases same : g = cg
    · exact .inl same
    · exact .inr (mem_otherGroups inside there same)
  intro quiet s r s' run
  rw [ufsHashalloc_eq] at run
  have all : ∀ x ∈ allocator cg pref :: (otherGroups fs cg).map (allocator · 0), FailsQuietly x := by
    intro x member
    cases member with
    | head => exact quiet cg pref
    | tail _ member =>
        obtain ⟨g, -, rfl⟩ := List.mem_map.mp member
        exact quiet g 0
  constructor
  · rintro rfl
    obtain ⟨same, failed⟩ := firstOf_zero all run
    refine ⟨same, failed _ (List.mem_cons_self ..), fun g there other => ?_⟩
    exact failed _ (List.mem_cons_of_mem _ (List.mem_map_of_mem (mem_otherGroups inside there other)))
  · intro some
    obtain ⟨before, x, after, split, failed, ran⟩ := firstOf_found all run some
    cases before with
    | nil =>
        obtain ⟨rfl, -⟩ := List.cons.inj split
        exact .inl ran
    | cons first before =>
        obtain ⟨head, tail⟩ := List.cons.inj split
        rw [head]
        refine .inr ⟨failed _ (List.mem_cons_self ..), ?_⟩
        obtain ⟨asked, rest, parts, front, back⟩ := List.map_eq_append_iff.mp tail
        obtain ⟨g, later, rfl, rfl, -⟩ := List.map_eq_cons_iff.mp back
        refine ⟨asked, g, later, parts, fun b member => ?_, ran⟩
        refine failed _ (List.mem_cons_of_mem _ ?_)
        rw [← front]
        exact List.mem_map_of_mem member

end Search

/-- Five groups. -/
def fiveFs : Superblock := { smallFs with fsNcg := 5, ncg_pos := by decide, device_fits := by decide }

/-- Of the five only group 2 has something, and the search from group 3 gets there. -/
theorem ufsHashalloc_exhaustive_five : ∃ groups : List Nat, (∀ g < 5, g = 3 ∨ g ∈ groups) ∧
    ufsHashalloc fiveFs 3 9 (fun g _ => pure (if g = 2 then 7 else 0)) =
      firstOf (pure 0 :: groups.map fun g => pure (if g = 2 then 7 else 0)) := by
  obtain ⟨groups, -, all, search⟩ := ufsHashalloc_exhaustive fiveFs (by decide : 3 < fiveFs.fsNcg) 9
  exact ⟨groups, all, (search _).1⟩

example : otherGroups fiveFs 3 = [4, 1, 0, 0, 1, 2] := by decide

end FuseUfs
