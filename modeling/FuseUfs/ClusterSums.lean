import FuseUfs.Lib.CappedRuns
import FuseUfs.Alloc

/-! # The cluster summary

A group may keep, for each length below a cap, how many maximal runs of free blocks have that
length, and how many have the cap's length or more. When a block is freed the runs next to it are
joined, when it is taken one run is cut in two; `ffs_clusteracct` measures the two sides up to the
cap and moves at most three counts.
-/

namespace FuseUfs

open Lib BitMap

/-! ## The two scans -/

section Scans

variable {map : BitMap}

/-- The mask of a position picks its bit out of the byte. -/
theorem mask_eq_zero (map : BitMap) (i : Nat) :
    (map (i / nbby)).toNat &&& (1 <<< (i % nbby)) = 0 ↔ map.isset i = false := by
  have bit : map.isset i = (map (i / nbby)).toNat.testBit (i % nbby) := rfl
  rw [Nat.shiftLeft_eq, Nat.one_mul, Nat.and_two_pow, bit]
  cases (map (i / nbby)).toNat.testBit (i % nbby) with
  | false => simp
  | true => simp

/-- The byte pointer and the mask are those of the position. -/
theorem clusterForw_step (stop left i : Nat) :
    clusterForw map stop (left + 1) i (i / nbby + 1) (map (i / nbby)).toNat (1 <<< (i % nbby))
      = if i < stop ∧ map.isset i = true then
          clusterForw map stop left (i + 1) ((i + 1) / nbby + 1) (map ((i + 1) / nbby)).toNat
            (1 <<< ((i + 1) % nbby))
        else i := by
  have low : i &&& (nbby - 1) = i % nbby := Nat.and_two_pow_sub_one_eq_mod i 3
  rw [clusterForw, low]
  by_cases more : i < stop
  · rw [if_pos more]
    cases bit : map.isset i with
    | false => rw [if_pos ((mask_eq_zero map i).mpr bit), if_neg (by simp)]
    | true =>
        have set : ¬ (map (i / nbby)).toNat &&& (1 <<< (i % nbby)) = 0 := by
          rw [mask_eq_zero, bit]
          simp
        rw [if_neg set]
        by_cases inner : i % nbby ≠ nbby - 1
        · have byte : (i + 1) / nbby = i / nbby := by unfold nbby at *; omega
          have place : (i + 1) % nbby = i % nbby + 1 := by unfold nbby at *; omega
          rw [if_pos inner, if_pos ⟨more, rfl⟩, byte, place, Nat.shiftLeft_add]
        · have byte : (i + 1) / nbby = i / nbby + 1 := by unfold nbby at *; omega
          have place : (i + 1) % nbby = 0 := by unfold nbby at *; omega
          rw [if_neg inner, if_pos ⟨more, rfl⟩, byte, place]
          rfl
  · rw [if_neg more, if_neg (by tauto)]

/-- The scan ends at the first used block, at the end of the map, or when it has gone on for long
    enough. -/
theorem clusterForw_spec (stop : Nat) : ∀ left i r,
    clusterForw map stop left i (i / nbby + 1) (map (i / nbby)).toNat (1 <<< (i % nbby)) = r →
    i ≤ r ∧ (r = i ∨ r ≤ stop) ∧ (∀ j, i ≤ j → j < r → map.isset j = true) ∧
      (r < stop → r < i + left → map.isset r = false) := by
  intro left
  induction left with
  | zero =>
      rintro i r rfl
      exact ⟨le_rfl, .inl rfl, fun j low high => by simp only [clusterForw] at high; omega,
        fun _ more => by simp only [clusterForw] at more; omega⟩
  | succ left ih =>
      intro i r run
      rw [clusterForw_step] at run
      split at run
      · next go =>
        obtain ⟨le, near, set, stops⟩ := ih (i + 1) r run
        refine ⟨by omega, .inr (by omega), fun j low high => ?_, fun less more => stops less (by omega)⟩
        rcases low.eq_or_lt with rfl | past
        · exact go.2
        · exact set j past high
      · next halt =>
        subst run
        refine ⟨le_rfl, .inl rfl, fun j low high => by omega, fun less _ => ?_⟩
        simpa [less] using halt

theorem clusterForw_eq (map : BitMap) {n start m : Nat} (cap : Nat) (fits : start + m ≤ n)
    (set : ∀ j < m, map.isset (start + j) = true) (ends : start + m = n ∨ map.isset (start + m) = false) :
    clusterForw map (min (start + cap) n) cap start (start / nbby + 1) (map (start / nbby)).toNat
      (1 <<< (start % nbby)) - start = min m cap := by
  obtain ⟨le, near, all, stops⟩ := clusterForw_spec (min (start + cap) n) cap start _ rfl
  set r := clusterForw map (min (start + cap) n) cap start (start / nbby + 1) (map (start / nbby)).toNat
    (1 <<< (start % nbby))
  have least : min m cap ≤ r - start := by
    by_contra short
    have clear := stops (by omega) (by omega)
    have there := set (r - start) (by omega)
    rw [show start + (r - start) = r by omega, clear] at there
    cases there
  have most : r - start ≤ min m cap := by
    by_contra long
    cases ends with
    | inl whole => omega
    | inr clear =>
        have there := all (start + m) (by omega) (by omega)
        rw [clear] at there
        cases there
  omega

theorem clusterBack_zero (stop : Int) (least : -1 ≤ stop) (left : Nat) (mapp : Int) (byte bit : Nat) :
    clusterBack map stop left (-1) mapp byte bit = -1 := by
  cases left with
  | zero => rfl
  | succ left => rw [clusterBack, if_neg (by omega)]

theorem clusterBack_step (stop : Int) (left i : Nat) :
    clusterBack map stop (left + 1) i ((i : Int) / nbby - 1) (map ((i : Int) / nbby).toNat).toNat
        (1 <<< ((i : Int) % nbby).toNat)
      = if stop < i ∧ map.isset i = true then
          clusterBack map stop left ((i : Int) - 1) (((i : Int) - 1) / nbby - 1)
            (map (((i : Int) - 1) / nbby).toNat).toNat (1 <<< (((i : Int) - 1) % nbby).toNat)
        else i := by
  rw [clusterBack]
  by_cases more : stop < i
  · rw [if_pos more]
    have byte : ((i : Int) / nbby).toNat = i / nbby := by norm_cast
    have place : ((i : Int) % nbby).toNat = i % nbby := by norm_cast
    cases bit : map.isset i with
    | false =>
        have clear := (mask_eq_zero map i).mpr bit
        rw [byte, place, if_pos clear, if_neg (by simp)]
    | true =>
        have set : ¬ (map (i / nbby)).toNat &&& (1 <<< (i % nbby)) = 0 := by
          rw [mask_eq_zero, bit]
          simp
        rw [byte, place, if_neg set]
        by_cases inner : (i : Int) % nbby ≠ 0
        · have byte' : ((i : Int) - 1) / nbby = (i : Int) / nbby := by unfold nbby at *; omega
          have place' : (((i : Int) - 1) % nbby).toNat = i % nbby - 1 := by unfold nbby at *; omega
          have up : i % nbby - 1 + 1 = i % nbby := by unfold nbby at *; omega
          have down : 1 <<< (i % nbby) >>> 1 = 1 <<< (i % nbby - 1) := by
            rw [← up, Nat.shiftLeft_add, Nat.shiftLeft_shiftRight, Nat.add_sub_cancel]
          rw [if_pos inner, if_pos ⟨more, rfl⟩, byte', place', down, byte]
        · have byte' : ((i : Int) - 1) / nbby = (i : Int) / nbby - 1 := by unfold nbby at *; omega
          have place' : (((i : Int) - 1) % nbby).toNat = nbby - 1 := by unfold nbby at *; omega
          rw [if_neg inner, if_pos ⟨more, rfl⟩, byte', place']
  · rw [if_neg more, if_neg (by tauto)]

/-- The backward scan; `p` blocks are below the position before it and `p'` after it. -/
theorem clusterBack_spec (map : BitMap) {stop : Int} (least : -1 ≤ stop) : ∀ (left p : Nat), ∃ p' : Nat,
    clusterBack map stop left ((p : Int) - 1) (((p : Int) - 1) / nbby - 1)
        (map (((p : Int) - 1) / nbby).toNat).toNat (1 <<< (((p : Int) - 1) % nbby).toNat) = (p' : Int) - 1 ∧
      p' ≤ p ∧ (p' = p ∨ stop + 1 ≤ p') ∧ (∀ j, p' ≤ j → j < p → map.isset j = true) ∧
      (stop + 1 < p' → p < p' + left → map.isset (p' - 1) = false) := by
  intro left
  induction left with
  | zero =>
      intro p
      exact ⟨p, rfl, le_rfl, .inl rfl, fun j low high => by omega, fun _ more => by omega⟩
  | succ left ih =>
      intro p
      cases p with
      | zero =>
          refine ⟨0, ?_, le_rfl, .inl rfl, fun j low high => by omega, fun less => by omega⟩
          exact clusterBack_zero stop least _ _ _ _
      | succ p =>
          rw [show ((p + 1 : Nat) : Int) - 1 = p by omega, clusterBack_step]
          split
          · next go =>
            obtain ⟨p', same, le, near, set, stops⟩ := ih p
            refine ⟨p', same, by omega, .inr (by omega), fun j low high => ?_,
              fun less more => stops less (by omega)⟩
            rcases (Nat.lt_succ_iff.mp high).eq_or_lt with rfl | below
            · exact go.2
            · exact set j low below
          · next halt =>
            refine ⟨p + 1, by omega, le_rfl, .inl rfl, fun j low high => by omega, fun less _ => ?_⟩
            have inside : stop < (p : Int) := by omega
            simpa [inside] using halt

theorem clusterBack_eq (map : BitMap) {start m : Nat} (cap : Nat) (fits : m ≤ start)
    (set : ∀ j, m ≤ j → j < start → map.isset j = true)
    (ends : m = 0 ∨ map.isset (m - 1) = false) :
    ((start : Int) - (1 : Int) - clusterBack map (max ((start : Int) - 1 - cap) (-1)) cap ((start : Int) - 1)
      (((start : Int) - 1) / nbby - 1) (map (((start : Int) - 1) / nbby).toNat).toNat
      (1 <<< (((start : Int) - 1) % nbby).toNat)).toNat = min (start - m) cap := by
  obtain ⟨r, same, le, near, all, stops⟩ :=
    clusterBack_spec map (le_max_right ((start : Int) - 1 - cap) (-1)) cap start
  rw [same]
  have least : min (start - m) cap ≤ start - r := by
    by_contra short
    have clear := stops (by omega) (by omega)
    have there := set (r - 1) (by omega) (by omega)
    rw [clear] at there
    cases there
  have most : start - r ≤ min (start - m) cap := by
    by_contra long
    cases ends with
    | inl whole => omega
    | inr clear =>
        have there := all (m - 1) (by omega) (by omega)
        rw [clear] at there
        cases there
  omega

end Scans

/-! ## The account -/

/-- The counters of the group are right for its map of free blocks. -/
def ClusterCounts (fs : Superblock) (cgp : Cg) : Prop :=
  ∀ i, 0 < i → i ≤ fs.fsContigsumsize → cgp.cgClustersum i
    = cappedCount cgp.cgNclusterblks cgp.cgClustersfree.isset fs.fsContigsumsize i

theorem maxCluster_spec (sump : Nat → Int) (n : Nat) :
    maxCluster sump n ≤ n ∧ (maxCluster sump n = 0 ∨ 0 < sump (maxCluster sump n)) ∧
      ∀ i, maxCluster sump n < i → i ≤ n → sump i ≤ 0 := by
  induction n with
  | zero => exact ⟨le_rfl, .inl rfl, fun i low high => by omega⟩
  | succ n ih =>
      obtain ⟨le, positive, none⟩ := ih
      rw [maxCluster]
      split
      · next found => exact ⟨le_rfl, .inr found, fun i low high => by omega⟩
      · next nope =>
        refine ⟨by omega, positive, fun i low high => ?_⟩
        rcases high.eq_or_lt with rfl | less
        · omega
        · exact none i low (by omega)

/-- A side is taken from its counter, when it is not empty. -/
theorem side_eq (sump : Nat → Int) (cnt : Int) (side : Nat) {i : Nat} (pos : 0 < i) :
    (if side > 0 then Function.update sump side (sump side - cnt) else sump) i
      = sump i - if i = side then cnt else 0 := by
  split
  · by_cases here : i = side
    · rw [here, Function.update_self, if_pos rfl]
    · rw [Function.update_of_ne here, if_neg here, sub_zero]
  · next empty => rw [if_neg (by omega : ¬ i = side), sub_zero]

/-- The counters after the three updates. -/
def account (sump : Nat → Int) (cnt : Int) (top back forw : Nat) : Nat → Int :=
  let sump := Function.update sump top (sump top + cnt)
  let sump := if back > 0 then Function.update sump back (sump back - cnt) else sump
  if forw > 0 then Function.update sump forw (sump forw - cnt) else sump

theorem account_eq (sump : Nat → Int) (cnt : Int) (top back forw : Nat) {i : Nat} (pos : 0 < i) :
    account sump cnt top back forw i = sump i + (if i = top then cnt else 0)
      - (if i = back then cnt else 0) - (if i = forw then cnt else 0) := by
  unfold account
  rw [side_eq _ _ _ pos, side_eq _ _ _ pos, Function.update_apply]
  split
  · next here => rw [here]
  · rw [add_zero]

/-- What the routine leaves: the map, and the counters moved by the lengths of the runs on both
    sides of the block, which lies in a maximal run of `b`. -/
theorem ffsClusteracct_eq {fs : Superblock} (caps : 0 < fs.fsContigsumsize) {cgp : Cg} {blkno : Nat} {cnt : Int}
    {b : Nat → Bool} {a q : Nat} (run : ExactRun cgp.cgNclusterblks b a q) (low : q ≤ blkno)
    (high : blkno < q + a) {free : BitMap}
    (map : free = if cnt > 0 then cgp.cgClustersfree.setbit blkno else cgp.cgClustersfree.clrbit blkno)
    (agree : ∀ j < cgp.cgNclusterblks, j ≠ blkno → free.isset j = b j) :
    let sump := account cgp.cgClustersum cnt (min a fs.fsContigsumsize) (min (blkno - q) fs.fsContigsumsize)
      (min (q + a - (blkno + 1)) fs.fsContigsumsize)
    ffsClusteracct fs cgp blkno cnt = ({ cgp with cgClustersfree := free, cgClustersum := sump },
      some (maxCluster sump fs.fsContigsumsize)) := by
  obtain ⟨fits, inside, left, right⟩ := run
  have room : blkno + 1 + (q + a - (blkno + 1)) ≤ cgp.cgNclusterblks := by omega
  have forw := clusterForw_eq free fs.fsContigsumsize room
    (fun j hj => by
      rw [agree _ (by omega) (by omega), show blkno + 1 + j = q + (blkno + 1 + j - q) by omega]
      exact inside _ (by omega))
    (by
      rw [show blkno + 1 + (q + a - (blkno + 1)) = q + a by omega]
      by_cases whole : q + a = cgp.cgNclusterblks
      · exact .inl whole
      · right
        rw [agree _ (by omega) (by omega)]
        exact right.resolve_left whole)
  have back := clusterBack_eq free fs.fsContigsumsize low
    (fun j above below => by
      rw [agree _ (by omega) (by omega), show j = q + (j - q) by omega]
      exact inside _ (by omega))
    (by
      by_cases first : q = 0
      · exact .inl first
      · right
        rw [agree _ (by omega) (by omega)]
        exact left.resolve_left first)
  have top : min (min (blkno - q) fs.fsContigsumsize + min (q + a - (blkno + 1)) fs.fsContigsumsize + 1)
      fs.fsContigsumsize = min a fs.fsContigsumsize := by omega
  dsimp only
  unfold ffsClusteracct
  rw [if_neg (by omega), ← map]
  dsimp only
  rw [forw, back, top]
  rfl

/-- The counters move by the difference between the map `b` in which the block is free and the map
    `c` in which it is not. -/
theorem ffsClusteracct_moves {fs : Superblock} (caps : 0 < fs.fsContigsumsize) {cgp : Cg} {blkno : Nat} (cnt : Int)
    (inside : blkno < cgp.cgNclusterblks) {b c : Nat → Bool} {free : BitMap}
    (map : free = if cnt > 0 then cgp.cgClustersfree.setbit blkno else cgp.cgClustersfree.clrbit blkno)
    (agree : ∀ j < cgp.cgNclusterblks, j ≠ blkno → free.isset j = b j) (set : b blkno = true)
    (cut : ∀ j < cgp.cgNclusterblks, c j = (b j && !decide (j = blkno))) :
    ∃ sump, ffsClusteracct fs cgp blkno cnt = ({ cgp with cgClustersfree := free, cgClustersum := sump },
        some (maxCluster sump fs.fsContigsumsize)) ∧
      ∀ i, 0 < i → i ≤ fs.fsContigsumsize → sump i = cgp.cgClustersum i
        + cnt * ((cappedCount cgp.cgNclusterblks b fs.fsContigsumsize i : Int)
          - cappedCount cgp.cgNclusterblks c fs.fsContigsumsize i) := by
  obtain ⟨a, q, low, high, run⟩ := exists_run_at inside set
  refine ⟨_, ffsClusteracct_eq caps run low high map agree, fun i pos le => ?_⟩
  have counts := cappedCount_cut run low high cut pos le
  rw [account_eq _ _ _ _ _ pos]
  generalize min a fs.fsContigsumsize = top at counts ⊢
  generalize min (q + a - (blkno + 1)) fs.fsContigsumsize = forw at counts ⊢
  generalize min (blkno - q) fs.fsContigsumsize = back at counts ⊢
  have difference : (cappedCount cgp.cgNclusterblks b fs.fsContigsumsize i : Int)
      - cappedCount cgp.cgNclusterblks c fs.fsContigsumsize i
      = (if i = top then 1 else 0) - (if i = back then 1 else 0) - (if i = forw then 1 else 0) := by
    split_ifs at counts ⊢ <;> omega
  rw [difference, mul_sub, mul_sub, mul_ite, mul_ite, mul_ite, mul_one, mul_zero]
  ring

/-- The counters stay right when a used block is freed (`cnt = 1`) or a free one is taken
    (`cnt = -1`); one bit of the map changes, and the mount gets the largest length that is counted. -/
theorem clusteracct_counts {fs : Superblock} {cgp : Cg} {blkno : Nat} {cnt : Int} {s : State}
    (caps : 0 < fs.fsContigsumsize) (inside : blkno < cgp.cgNclusterblks) (counts : ClusterCounts fs cgp)
    (change : cnt = 1 ∧ cgp.cgClustersfree.isset blkno = false ∨
      cnt = -1 ∧ cgp.cgClustersfree.isset blkno = true) :
    ∃ free sump most, clusteracct fs cgp blkno cnt s
        = .done { cgp with cgClustersfree := free, cgClustersum := sump }
            { s with fsMaxcluster := Function.update s.fsMaxcluster cgp.cgCgx most } ∧
      ClusterCounts fs { cgp with cgClustersfree := free, cgClustersum := sump } ∧
      (∀ j, free.isset j = if j = blkno then decide (cnt = 1) else cgp.cgClustersfree.isset j) ∧
      most ≤ fs.fsContigsumsize ∧ (most = 0 ∨ 0 < sump most) ∧
      (∀ i, most < i → i ≤ fs.fsContigsumsize → sump i ≤ 0) := by
  obtain ⟨free, sump, same, right, bit⟩ : ∃ free sump, ffsClusteracct fs cgp blkno cnt
      = ({ cgp with cgClustersfree := free, cgClustersum := sump }, some (maxCluster sump fs.fsContigsumsize)) ∧
      ClusterCounts fs { cgp with cgClustersfree := free, cgClustersum := sump } ∧
      ∀ j, free.isset j = if j = blkno then decide (cnt = 1) else cgp.cgClustersfree.isset j := by
    cases change with
    | inl freed =>
        obtain ⟨rfl, used⟩ := freed
        have bit : ∀ j, (cgp.cgClustersfree.setbit blkno).isset j
            = if j = blkno then true else cgp.cgClustersfree.isset j := by
          intro j
          rw [isset_setbit]
          by_cases here : j = blkno
          · simp [here]
          · simp [here, Ne.symm here]
        obtain ⟨sump, same, moves⟩ := ffsClusteracct_moves (c := cgp.cgClustersfree.isset) caps 1
          inside rfl (fun _ _ _ => rfl) (by rw [if_pos (by decide), bit, if_pos rfl]) (fun j _ => by
            rw [if_pos (by decide), bit]
            by_cases here : j = blkno
            · simp [here, used]
            · simp [here])
        rw [if_pos (by decide)] at same moves
        refine ⟨_, sump, same, fun i pos le => ?_, bit⟩
        calc sump i = _ := moves i pos le
          _ = _ := by rw [counts i pos le]; ring
    | inr taken =>
        obtain ⟨rfl, free⟩ := taken
        have bit : ∀ j, (cgp.cgClustersfree.clrbit blkno).isset j
            = if j = blkno then false else cgp.cgClustersfree.isset j := by
          intro j
          rw [isset_clrbit]
          by_cases here : j = blkno
          · simp [here]
          · simp [here, Ne.symm here]
        obtain ⟨sump, same, moves⟩ := ffsClusteracct_moves (b := cgp.cgClustersfree.isset)
          (c := (cgp.cgClustersfree.clrbit blkno).isset) caps (-1) inside rfl (fun j _ other => by
            rw [if_neg (by decide), bit, if_neg other]) free (fun j _ => by
            rw [bit]
            by_cases here : j = blkno
            · simp [here]
            · simp [here])
        rw [if_neg (by decide)] at same
        refine ⟨_, sump, same, fun i pos le => ?_, bit⟩
        calc sump i = _ := moves i pos le
          _ = _ := by rw [counts i pos le]; ring
  obtain ⟨le, positive, rest⟩ := maxCluster_spec sump fs.fsContigsumsize
  refine ⟨free, sump, _, ?_, right, bit, le, positive, rest⟩
  unfold clusteracct
  rw [same]
  rfl

/-- A group with lengths up to 3 counted, whose free blocks are two runs of 2 around block 2. -/
def pairsFs : Superblock := { smallFs with fsContigsumsize := 3 }

def pairsCg : Cg :=
  { smallCg with
    cgNclusterblks := 10
    cgClustersfree := fun i => if i = 0 then 0x1b#8 else 0
    cgClustersum := fun i => if i = 2 then 2 else 0 }

/-- Freeing the block between two runs of 2 makes one run of 5. -/
theorem clusteracct_counts_pairs : ∃ free sump most,
    clusteracct pairsFs pairsCg 2 1 smallState
        = .done { pairsCg with cgClustersfree := free, cgClustersum := sump }
            { smallState with fsMaxcluster := Function.update smallState.fsMaxcluster 0 most } ∧
      ClusterCounts pairsFs { pairsCg with cgClustersfree := free, cgClustersum := sump } ∧
      (∀ j, free.isset j = if j = 2 then true else pairsCg.cgClustersfree.isset j) ∧
      most ≤ 3 ∧ (most = 0 ∨ 0 < sump most) ∧ ∀ i, most < i → i ≤ 3 → sump i ≤ 0 := by
  have counts : ClusterCounts pairsFs pairsCg := by
    intro i pos le
    have most : i ≤ 3 := le
    interval_cases i <;> decide +kernel
  exact clusteracct_counts (by decide) (by decide) counts (.inl ⟨rfl, by decide⟩)

end FuseUfs
