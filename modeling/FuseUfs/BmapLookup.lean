import FuseUfs.FileView

/-! # The walk of `ufs_bmap` against the block map

The block map leads from the inode through one, two or three blocks of addresses, with the
digits of the logical block number to the base `fs_nindir`, and ends at the first address that
is missing. The walk of `ufs_bmap` differs from it in three ways. It reads fragment 0 where a
block of addresses is missing. In the triple range it starts from the double indirect block,
and it does not reduce the middle digit, so that it may look past the block it has read. And
there is one address at which it exits.
-/

namespace FuseUfs

open Lib Prog

section

variable (fs : Superblock) (data : Nat → Byte) (din : Dinode) (fbn : Nat)

/-- Blocks that a block map of three levels can hold. -/
def Superblock.mapBlocks : Nat := fs.maxBlocks + fs.fsNindir * fs.fsNindir * fs.fsNindir

/-- The number of `fbn` within the triple range. -/
def tripleIndex : Nat := fbn - ndaddr - fs.fsNindir - fs.fsNindir * fs.fsNindir

/-- The address of logical block `fbn` in the block map, 0 where an address on the way is
    missing. -/
def mapAt : Nat :=
  if fbn < fs.maxBlocks then blockAt fs data din fbn
  else
    let n := fs.fsNindir
    let f := tripleIndex fs fbn
    lookup fs data (lookup fs data (lookup fs data (din.diIb 2) (f / (n * n))) (f / n % n)) (f % n)

/-- How many blocks of addresses the walk reads. -/
def bmapReads : Nat :=
  if fbn < ndaddr then 0
  else if fbn - ndaddr < fs.fsNindir then 1
  else if fbn < fs.maxBlocks then 2
  else 3

variable (heap : Buf)

/-- The address at `index` of a block that was read to memory, past its end too. -/
def strayPtr (bno index : Nat) : Nat :=
  getPtr (fill heap (fun j => data (bno * fs.fsFsize + j)) fs.fsBsize) index

/-- Where the walk gets to in the triple range. -/
def tripleWalk : Nat :=
  let n := fs.fsNindir
  let f := tripleIndex fs fbn
  ptrAt fs data (strayPtr fs data heap (strayPtr fs data heap (din.diIb 1) (f / (n * n))) (f / n)) (f % n)

/-- Where the walk gets to. -/
def walkAt : Nat :=
  if fbn < ndaddr then din.diDb fbn
  else if fbn - ndaddr < fs.fsNindir then ptrAt fs data (din.diIb 0) (fbn - ndaddr)
  else if fbn < fs.maxBlocks then
    ptrAt fs data (ptrAt fs data (din.diIb 1) ((fbn - ndaddr - fs.fsNindir) / fs.fsNindir))
      ((fbn - ndaddr - fs.fsNindir) % fs.fsNindir)
  else tripleWalk fs data din fbn heap

/-- The words that stand in for missing blocks of addresses are zero, and in the triple range the
    walk through the other tree happens to end where it should. -/
def StandIns : Prop :=
  if fbn < ndaddr then True
  else if fbn - ndaddr < fs.fsNindir then din.diIb 0 = 0 → ptrAt fs data 0 (fbn - ndaddr) = 0
  else if fbn < fs.maxBlocks then
    let top := (fbn - ndaddr - fs.fsNindir) / fs.fsNindir
    let low := (fbn - ndaddr - fs.fsNindir) % fs.fsNindir
    (din.diIb 1 = 0 → ptrAt fs data (ptrAt fs data 0 top) low = 0) ∧
      (din.diIb 1 ≠ 0 → ptrAt fs data (din.diIb 1) top = 0 → ptrAt fs data 0 low = 0)
  else tripleWalk fs data din fbn heap = mapAt fs data din fbn

end

variable {env : Env} {fs : Superblock}

theorem blkread_run (bno : Nat) (buf : Buf) {size : Nat} (pos : 0 < size) (s : State) :
    blkread env fs bno buf size s
      = .done (if env.readOk s.tick then
            ((size : Int), fill buf (fun j => s.data (bno * fs.fsFsize + j)) size)
          else (-1, fill buf (fun _ => 0) size)) (s.atTick (s.tick + 1)) := by
  have tried : tryRead env s = .done (env.readOk s.tick) (s.atTick (s.tick + 1)) := rfl
  unfold blkread
  rw [Prog.bind_of_done tried, Prog.get_bind_apply]
  cases ok : env.readOk s.tick with
  | true =>
      rw [if_pos ⟨rfl, by omega⟩, if_pos rfl]
      rfl
  | false =>
      rw [if_neg (by simp), if_neg (by simp)]
      rfl

/-- One step of the walk. -/
theorem followPtr_run (bno index : Nat) (s : State) : followPtr env fs (0, bno) index s
    = .done (if env.readOk s.tick then (0, strayPtr fs s.data env.heap bno index) else (-1, bno))
        (s.atTick (s.tick + 1)) := by
  unfold followPtr
  rw [if_neg (by simp), Prog.bind_of_done (blkread_run bno _ fs.bsize_pos s)]
  cases ok : env.readOk s.tick with
  | true =>
      have pos := fs.bsize_pos
      rw [if_pos rfl, if_pos rfl]
      dsimp only
      rw [if_neg (by omega)]
      rfl
  | false =>
      rw [if_neg (by simp), if_neg (by simp)]
      rfl

theorem followPtr_failed {r : Int × Nat} (failed : r.1 ≠ 0) (index : Nat) (s : State) :
    followPtr env fs r index s = .done r s := by
  unfold followPtr
  rw [if_pos failed, Prog.pure_apply]

theorem strayPtr_inside {data : Nat → Byte} {heap : Buf} {bno index : Nat}
    (inside : index < fs.fsNindir) : strayPtr fs data heap bno index = ptrAt fs data bno index := by
  refine getPtr_congr fun i hi => ?_
  have := index_fits inside
  exact fill_inside (by omega)

/-- The walk yields an address when its reads succeed, and fails when one of them does. -/
def WalkYields (env : Env) (x : M (Int × Nat)) (s : State) (reads addr : Nat) : Prop :=
  ((∀ k < reads, env.readOk (s.tick + k) = true) ∧ x s = .done (0, addr) (s.atTick (s.tick + reads))) ∨
    ((∃ k < reads, env.readOk (s.tick + k) = false) ∧ ∃ rc a t, x s = .done (rc, a) (s.atTick t) ∧ rc ≠ 0)

/-- One more block of addresses. -/
theorem WalkYields.follow {x : M (Int × Nat)} {s : State} {reads addr : Nat}
    (before : WalkYields env x s reads addr) (index : Nat) :
    WalkYields env (x >>= fun r => followPtr env fs r index) s (reads + 1)
      (strayPtr fs s.data env.heap addr index) := by
  rcases before with ⟨good, run⟩ | ⟨⟨k, hk, bad⟩, rc, a, t, run, failed⟩
  · have step : (x >>= fun r => followPtr env fs r index) s
        = followPtr env fs (0, addr) index (s.atTick (s.tick + reads)) := Prog.bind_of_done run _
    rw [followPtr_run] at step
    cases ok : env.readOk (s.tick + reads) with
    | true =>
        rw [State.atTick_tick, ok, if_pos rfl] at step
        refine .inl ⟨fun k hk => ?_, step⟩
        rcases Nat.lt_succ_iff_lt_or_eq.mp hk with early | rfl
        · exact good k early
        · exact ok
    | false =>
        rw [State.atTick_tick, ok, if_neg (by simp)] at step
        exact .inr ⟨⟨reads, Nat.lt_succ_self _, ok⟩, _, _, _, step, by decide⟩
  · refine .inr ⟨⟨k, by omega, bad⟩, rc, a, t, ?_, failed⟩
    rw [Prog.bind_of_done run, followPtr_failed failed]

theorem WalkYields.pure (addr : Nat) (s : State) : WalkYields env (Pure.pure (0, addr)) s 0 addr :=
  .inl ⟨fun k hk => absurd hk (Nat.not_lt_zero k), rfl⟩

/-- The reads of the walk and the address it comes to. -/
theorem bmapWalk_yields (env : Env) (din : Dinode) (fbn : Nat) (s : State) :
    WalkYields env (bmapWalk env fs din fbn) s (bmapReads fs fbn) (walkAt fs s.data din fbn env.heap) := by
  have npos : 0 < fs.fsNindir := nindir_pos
  unfold bmapWalk walkAt bmapReads
  simp only
  by_cases direct : fbn < ndaddr
  · simp only [if_pos direct]
    exact .pure _ s
  simp only [if_neg direct]
  by_cases single : fbn - ndaddr < fs.fsNindir
  · simp only [if_pos single, if_pos (Nat.div_eq_of_lt single), Nat.mod_eq_of_lt single]
    rw [← strayPtr_inside single]
    exact (WalkYields.pure (din.diIb 0) s).follow _
  simp only [if_neg single, if_neg (show ¬ (fbn - ndaddr) / fs.fsNindir = 0 by
    rw [Nat.div_eq_zero_iff]; omega)]
  have low {f : Nat} : f % fs.fsNindir < fs.fsNindir := Nat.mod_lt _ npos
  by_cases double : fbn < fs.maxBlocks
  · have square : fbn - ndaddr - fs.fsNindir < fs.fsNindir * fs.fsNindir := by
      unfold Superblock.maxBlocks at double
      omega
    simp only [if_pos double, if_pos (Nat.div_eq_of_lt square)]
    rw [← strayPtr_inside low, ← strayPtr_inside (Nat.div_lt_of_lt_mul square)]
    exact ((WalkYields.pure (din.diIb 1) s).follow _).follow _
  · have square : ¬ fbn - ndaddr - fs.fsNindir < fs.fsNindir * fs.fsNindir := by
      unfold Superblock.maxBlocks at double
      omega
    have squarePos : 0 < fs.fsNindir * fs.fsNindir := Nat.mul_pos npos npos
    simp only [if_neg double, tripleWalk, if_neg (show ¬ (fbn - ndaddr - fs.fsNindir)
      / (fs.fsNindir * fs.fsNindir) = 0 by rw [Nat.div_eq_zero_iff]; omega)]
    rw [← strayPtr_inside low, ← bind_assoc]
    exact (((WalkYields.pure (din.diIb 1) s).follow _).follow _).follow _

theorem ptrAt_of_ne {data : Nat → Byte} {bno index : Nat} (there : bno ≠ 0) :
    lookup fs data bno index = ptrAt fs data bno index := if_neg there

theorem lookup_missing {data : Nat → Byte} {index : Nat} : lookup fs data 0 index = 0 := if_pos rfl

/-- The walk comes to the mapped address exactly when what stands in for the map does no harm. -/
theorem walkAt_eq_iff (data : Nat → Byte) (din : Dinode) (fbn : Nat) (heap : Buf) :
    walkAt fs data din fbn heap = mapAt fs data din fbn ↔ StandIns fs data din fbn heap := by
  unfold StandIns
  by_cases direct : fbn < ndaddr
  · have within : fbn < fs.maxBlocks := by
      unfold Superblock.maxBlocks
      omega
    simp only [walkAt, mapAt, blockAt, if_pos direct, if_pos within]
  simp only [walkAt, if_neg direct]
  by_cases single : fbn - ndaddr < fs.fsNindir
  · have within : fbn < fs.maxBlocks := by
      unfold Superblock.maxBlocks
      omega
    simp only [mapAt, blockAt, if_neg direct, if_pos single, if_pos within]
    by_cases there : din.diIb 0 = 0
    · simp only [there, lookup_missing, forall_const]
    · simp only [ptrAt_of_ne there, there, false_implies]
  simp only [if_neg single]
  by_cases double : fbn < fs.maxBlocks
  · have square : fbn - ndaddr - fs.fsNindir < fs.fsNindir * fs.fsNindir := by
      unfold Superblock.maxBlocks at double
      omega
    simp only [mapAt, blockAt, if_neg direct, if_neg single, if_pos square, if_pos double]
    by_cases there : din.diIb 1 = 0
    · simp only [there, lookup_missing, forall_const, ne_eq, not_true_eq_false, false_implies, and_true]
    · by_cases below : ptrAt fs data (din.diIb 1) ((fbn - ndaddr - fs.fsNindir) / fs.fsNindir) = 0
      · simp only [ptrAt_of_ne there, below, lookup_missing, there, false_implies, true_and, ne_eq,
          not_false_eq_true, forall_const]
      · simp only [ptrAt_of_ne there, ptrAt_of_ne below, there, below, false_implies, true_and, ne_eq,
          not_false_eq_true, forall_const]
  · simp only [if_neg double]

/-- A file of no blocks, in core, on a device whose first byte is not zero. -/
def bootState : State :=
  { smallState with
    data := fun a => if a = 0 then 1 else 0
    vnodes := fun i => if i = 3 then some ⟨copyOndiskToIncore { blankDinode with diNlink := 1 } 3, 1⟩ else none }

end FuseUfs
