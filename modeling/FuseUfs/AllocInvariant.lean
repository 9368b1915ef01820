import FuseUfs.Alloc

/-! # The allocation summaries follow the free maps

`Counts` says that the counters of a group are the counts of its free map, block by
block. An operation changes the map in one block only, so it keeps `Counts` as soon as
it moves each counter by what changed in that block (`Counts.change`). `AllocOk` is the
invariant of the whole mount: every group has its `Counts`, the in-core summaries are
those of the groups and the total is their sum.
-/

namespace FuseUfs

open Lib BitMap

/-- One if the block is wholly set. -/
def wholeCount (w : Nat) (b : Nat → Bool) : Nat := if Whole w b then 1 else 0

section Counts

variable (fs : Superblock)

/-- The number of wholly free blocks of a map. -/
def wholeBlocks (map : BitMap) : Nat :=
  ∑ h ∈ Finset.range (fs.fsFpg / fs.fsFrag), wholeCount fs.fsFrag (map.block fs.fsFrag h)

/-- The number of free fragments in partly free blocks. -/
def looseFrags (map : BitMap) : Nat :=
  ∑ h ∈ Finset.range (fs.fsFpg / fs.fsFrag), partCount fs.fsFrag (map.block fs.fsFrag h)

/-- The number of maximal free runs of exactly `k` fragments inside blocks. -/
def freeRuns (map : BitMap) (k : Nat) : Nat :=
  ∑ h ∈ Finset.range (fs.fsFpg / fs.fsFrag), runCount fs.fsFrag (map.block fs.fsFrag h) k

structure Counts (cgp : Cg) : Prop where
  nbfree : cgp.cgCs.csNbfree = wholeBlocks fs cgp.cgBlksfree
  nffree : cgp.cgCs.csNffree = looseFrags fs cgp.cgBlksfree
  frsum : ∀ k, 0 < k → k < fs.fsFrag → cgp.cgFrsum k = freeRuns fs cgp.cgBlksfree k

/-- What else the allocator relies on in group `cg`. -/
structure CgOk (cg : Nat) (cgp : Cg) : Prop extends Counts fs cgp where
  magic : cgp.chkmagic = true
  cgx : cgp.cgCgx = cg
  rotor : cgp.cgRotor < fs.fsFpg
  frotor : cgp.cgFrotor < fs.fsFpg
  /-- The map ends with the group. -/
  padding : ∀ i, fs.fsFpg ≤ i → cgp.cgBlksfree.isset i = false

theorem wholeCount_congr {w : Nat} {b c : Nat → Bool} (same : ∀ j < w, b j = c j) :
    wholeCount w b = wholeCount w c := by
  unfold wholeCount
  by_cases h : Whole w b
  · rw [if_pos h, if_pos ((whole_congr same).mp h)]
  · rw [if_neg h, if_neg (mt (whole_congr same).mpr h)]

variable {fs}

/-- A change confined to block `h` keeps the counts if every counter moves by what
    changed there. -/
theorem Counts.change {cgp cgp' : Cg} {h : Nat} (old : Counts fs cgp)
    (inside : h < fs.fsFpg / fs.fsFrag)
    (same : ∀ i, i / fs.fsFrag ≠ h → cgp'.cgBlksfree.isset i = cgp.cgBlksfree.isset i)
    (nbfree : cgp'.cgCs.csNbfree + wholeCount fs.fsFrag (cgp.cgBlksfree.block fs.fsFrag h)
      = cgp.cgCs.csNbfree + wholeCount fs.fsFrag (cgp'.cgBlksfree.block fs.fsFrag h))
    (nffree : cgp'.cgCs.csNffree + partCount fs.fsFrag (cgp.cgBlksfree.block fs.fsFrag h)
      = cgp.cgCs.csNffree + partCount fs.fsFrag (cgp'.cgBlksfree.block fs.fsFrag h))
    (frsum : ∀ k, 0 < k → k < fs.fsFrag →
      cgp'.cgFrsum k + runCount fs.fsFrag (cgp.cgBlksfree.block fs.fsFrag h) k
        = cgp.cgFrsum k + runCount fs.fsFrag (cgp'.cgBlksfree.block fs.fsFrag h) k) :
    Counts fs cgp' := by
  refine ⟨?_, ?_, fun k hk less => ?_⟩
  · have moved := sum_change_block (wholeCount fs.fsFrag) inside
      (fun _ _ agree => wholeCount_congr agree) same fs.frag_pos
    have before := old.nbfree
    unfold wholeBlocks at before ⊢
    omega
  · have moved := sum_change_block (partCount fs.fsFrag) inside
      (fun _ _ agree => partCount_congr agree) same fs.frag_pos
    have before := old.nffree
    unfold looseFrags at before ⊢
    omega
  · have moved := sum_change_block (runCount fs.fsFrag · k) inside
      (fun _ _ agree => runCount_congr agree hk) same fs.frag_pos
    have before := old.frsum k hk less
    have local' := frsum k hk less
    unfold freeRuns at before ⊢
    omega

end Counts

/-! ## The three ways a block changes -/

section Block

variable {w : Nat} {b c : Nat → Bool}

theorem wholeCount_of_whole (whole : Whole w b) : wholeCount w b = 1 := if_pos whole

theorem wholeCount_of_clear {j : Nat} (hj : j < w) (clear : b j = false) : wholeCount w b = 0 :=
  if_neg fun whole => by rw [whole j hj] at clear; cases clear

theorem partCount_of_whole (whole : Whole w b) : partCount w b = 0 := if_pos whole

theorem partCount_of_clear {j : Nat} (hj : j < w) (clear : b j = false) :
    partCount w b = bitCount w b :=
  if_neg fun whole => by rw [whole j hj] at clear; cases clear

end Block

/-! ## What a change of one group leaves alone -/

/-- The allocator changes groups, their summaries and its own bookkeeping, nothing else. -/
def AllocFrame (s s' : State) : Prop :=
  s' = { s with
    cgs := s'.cgs, fsCstotal := s'.fsCstotal, fsCsp := s'.fsCsp, fsMaxcluster := s'.fsMaxcluster,
    fsFmod := s'.fsFmod, tick := s'.tick, log := s'.log }

theorem AllocFrame.refl (s : State) : AllocFrame s s := rfl

theorem AllocFrame.trans {s s' s'' : State} (first : AllocFrame s s') (second : AllocFrame s' s'') :
    AllocFrame s s'' := by
  unfold AllocFrame at *
  rw [second, first]

/-- The fields of a group that have nothing to do with its free map. -/
structure CgFrame (cgp cgp' : Cg) : Prop where
  magic : cgp'.cgMagic = cgp.cgMagic
  cgx : cgp'.cgCgx = cgp.cgCgx
  irotor : cgp'.cgIrotor = cgp.cgIrotor
  niblk : cgp'.cgNiblk = cgp.cgNiblk
  initediblk : cgp'.cgInitediblk = cgp.cgInitediblk
  inosused : cgp'.cgInosused = cgp.cgInosused
  ndir : cgp'.cgCs.csNdir = cgp.cgCs.csNdir
  nifree : cgp'.cgCs.csNifree = cgp.cgCs.csNifree

theorem CgFrame.trans {a b c : Cg} (first : CgFrame a b) (second : CgFrame b c) : CgFrame a c :=
  ⟨second.magic.trans first.magic, second.cgx.trans first.cgx, second.irotor.trans first.irotor,
    second.niblk.trans first.niblk, second.initediblk.trans first.initediblk,
    second.inosused.trans first.inosused, second.ndir.trans first.ndir,
    second.nifree.trans first.nifree⟩

/-- The in-core summaries of group `cg` move as the group's own does from `cs` to `cs'`. -/
structure InCore (s s' : State) (cg : Nat) (cs cs' : Csum) : Prop where
  frame : AllocFrame s s'
  cgs : s'.cgs = s.cgs
  others : ∀ c, c ≠ cg → s'.fsCsp c = s.fsCsp c
  own : s'.fsCsp cg + cs = s.fsCsp cg + cs'
  total : s'.fsCstotal + cs = s.fsCstotal + cs'

theorem InCore.trans {s s' s'' : State} {cg : Nat} {a b c : Csum}
    (first : InCore s s' cg a b) (second : InCore s' s'' cg b c) : InCore s s'' cg a c := by
  refine ⟨first.frame.trans second.frame, second.cgs.trans first.cgs,
    fun c hc => (second.others c hc).trans (first.others c hc), ?_, ?_⟩
  · exact Csum.chain first.own second.own
  · exact Csum.chain first.total second.total

theorem InCore.summary (s : State) (cg : Nat) (cs : Csum) {change : Csum → Csum}
    (linear : ∀ x, change x + cs = x + change cs) :
    InCore s (s.summary cg change) cg cs (change cs) :=
  ⟨rfl, rfl, fun c hc => by simp [State.summary, hc], by simp [State.summary, linear], linear _⟩

theorem addNbfree_linear (n : Int) (cs x : Csum) : x.addNbfree n + cs = x + cs.addNbfree n := by
  ext <;> simp [Csum.addNbfree]; omega

theorem addNffree_linear (n : Int) (cs x : Csum) : x.addNffree n + cs = x + cs.addNffree n := by
  ext <;> simp [Csum.addNffree]; omega

section Steps

variable {env : Env} {fs : Superblock} {cg : Nat}

theorem clusteracct_spec (cg : Nat) (cgp : Cg) (blkno : Nat) (cnt : Int) (s : State) (cs : Csum) :
    ∃ s' free sum, clusteracct fs cgp blkno cnt s
        = .done { cgp with cgClustersfree := free, cgClustersum := sum } s' ∧
      InCore s s' cg cs cs := by
  obtain ⟨free, sum, same⟩ := ffsClusteracct_fst fs cgp blkno cnt
  unfold clusteracct
  cases most : (ffsClusteracct fs cgp blkno cnt).2 with
  | none =>
      refine ⟨s, free, sum, ?_, ⟨rfl, rfl, fun _ _ => rfl, rfl, rfl⟩⟩
      simp only [most]
      rw [← same]
      rfl
  | some n =>
      refine ⟨{ s with fsMaxcluster := Function.update s.fsMaxcluster cgp.cgCgx n }, free, sum, ?_,
        ⟨rfl, rfl, fun _ _ => rfl, rfl, rfl⟩⟩
      simp only [most]
      rw [← same]
      rfl

/-- The fragments `bno, …, bno + f - 1` go out of the group's map, all free before. -/
structure Takes (fs : Superblock) (cgp cgp' : Cg) (bno f : Nat) : Prop where
  frame : CgFrame cgp cgp'
  fits : bno % fs.fsFrag + f ≤ fs.fsFrag
  free : ∀ j < f, cgp.cgBlksfree.isset (bno + j) = true
  map : ∀ i, cgp'.cgBlksfree.isset i = (cgp.cgBlksfree.isset i && !decide (bno ≤ i ∧ i < bno + f))

/-- A fragment of block `h`. -/
private theorem div_frag_eq {i h : Nat} (low : h * fs.fsFrag ≤ i)
    (high : i < h * fs.fsFrag + fs.fsFrag) : i / fs.fsFrag = h :=
  Nat.div_eq_of_lt_le low (by rw [Nat.succ_mul]; exact high)

private theorem mod_frag_eq {h p : Nat} (hp : p < fs.fsFrag) : (h * fs.fsFrag + p) % fs.fsFrag = p := by
  rw [Nat.mul_comm, Nat.mul_add_mod, Nat.mod_eq_of_lt hp]

/-- A group is still in order when only its map and counters have moved, in one block. -/
theorem CgOk.change {cgp cgp' : Cg} {h : Nat} (ok : CgOk fs cg cgp) (frame : CgFrame cgp cgp')
    (rotor : cgp'.cgRotor < fs.fsFpg) (frotor : cgp'.cgFrotor < fs.fsFpg)
    (inside : h < fs.fsFpg / fs.fsFrag)
    (same : ∀ i, i / fs.fsFrag ≠ h → cgp'.cgBlksfree.isset i = cgp.cgBlksfree.isset i)
    (counts : Counts fs cgp') : CgOk fs cg cgp' := by
  refine ⟨counts, ?_, frame.cgx.trans ok.cgx, rotor, frotor, fun i hi => ?_⟩
  · have magic := ok.magic
    unfold Cg.chkmagic at magic ⊢
    rw [frame.magic, magic]
  · rw [same i fun e => ?_, ok.padding i hi]
    have : fs.fsFpg / fs.fsFrag ≤ i / fs.fsFrag := Nat.div_le_div_right hi
    omega

theorem takeBlock_spec {cgp : Cg} {h : Nat} (ok : CgOk fs cg cgp)
    (inside : h < fs.fsFpg / fs.fsFrag) (whole : Whole fs.fsFrag (cgp.cgBlksfree.block fs.fsFrag h))
    (s : State) :
    ∃ cgp' s', takeBlock fs cgp (h * fs.fsFrag) s
        = .done (fs.cgbase cg + h * fs.fsFrag, cgp') s' ∧
      InCore s s' cg cgp.cgCs cgp'.cgCs ∧ CgOk fs cg cgp' ∧
      Takes fs cgp cgp' (h * fs.fsFrag) fs.fsFrag := by
  have fragPos := fs.frag_pos
  have blk : fs.fragstoblks (h * fs.fsFrag) = h := by
    rw [fs.fragstoblks_eq, Nat.mul_div_cancel _ fragPos]
  obtain ⟨s₁, free, sum, run, core⟩ := clusteracct_spec cg
    { cgp with cgBlksfree := ffsClrblock fs cgp.cgBlksfree h } h (-1) s cgp.cgCs
  set cgp' : Cg := { cgp with
    cgBlksfree := ffsClrblock fs cgp.cgBlksfree h
    cgClustersfree := free
    cgClustersum := sum
    cgCs := cgp.cgCs.addNbfree (-1) } with new
  have frame : CgFrame cgp cgp' := ⟨rfl, rfl, rfl, rfl, rfl, rfl, rfl, rfl⟩
  have map : ∀ i, cgp'.cgBlksfree.isset i
      = (cgp.cgBlksfree.isset i && !decide (i / fs.fsFrag = h)) := isset_ffsClrblock fs _ _
  have clear : ∀ j < fs.fsFrag, cgp'.cgBlksfree.block fs.fsFrag h j = false := by
    intro j hj
    rw [block, map, div_frag_eq (h := h) (by omega) (by omega)]
    simp
  have same : ∀ i, i / fs.fsFrag ≠ h → cgp'.cgBlksfree.isset i = cgp.cgBlksfree.isset i := by
    intro i hi
    simp [map, hi]
  have counts : Counts fs cgp' := by
    refine ok.toCounts.change inside same ?_ ?_ fun k hk less => ?_
    · rw [wholeCount_of_whole whole, wholeCount_of_clear fragPos (clear 0 fragPos)]
      simp [new, Csum.addNbfree]
    · rw [partCount_of_whole whole, partCount_eq_zero_of_clear clear]
      rfl
    · rw [whole.runCount_eq_zero hk less, runCount_eq_zero_of_clear clear hk]
  refine ⟨cgp', s₁.summary cg (·.addNbfree (-1)), ?_,
    core.trans (InCore.summary s₁ cg cgp.cgCs (addNbfree_linear (-1) _)),
    ok.change frame ok.rotor ok.frotor inside same counts, frame, ?_, ?_, ?_⟩
  · unfold takeBlock
    simp only [blk]
    rw [Prog.bind_of_done run]
    simp [new, ok.cgx]
  · rw [Nat.mul_mod_left]; omega
  · intro j hj
    exact whole j hj
  · intro i
    rw [map]
    congr 2
    refine decide_eq_decide.mpr ⟨fun e => ?_, fun place => div_frag_eq place.1 place.2⟩
    have := Nat.div_add_mod' i fs.fsFrag
    have := Nat.mod_lt i fragPos
    subst e
    omega

/-- A counter that is not zero has a block to show for it. -/
private theorem exists_of_sum_pos {n : Nat} {F : Nat → Nat} (pos : ∑ h ∈ Finset.range n, F h ≠ 0) :
    ∃ h < n, F h ≠ 0 := by
  by_contra none
  push Not at none
  exact pos (Finset.sum_eq_zero fun h hh => none h (Finset.mem_range.mp hh))

theorem Counts.exists_whole {cgp : Cg} (counts : Counts fs cgp) (some : cgp.cgCs.csNbfree ≠ 0) :
    ∃ h, Whole fs.fsFrag (cgp.cgBlksfree.block fs.fsFrag h) := by
  rw [counts.nbfree, Nat.cast_ne_zero] at some
  obtain ⟨h, -, pos⟩ := exists_of_sum_pos some
  refine ⟨h, ?_⟩
  by_contra notWhole
  exact pos (if_neg notWhole)

theorem Counts.exists_run {cgp : Cg} (counts : Counts fs cgp) {k : Nat} (hk : 0 < k)
    (less : k < fs.fsFrag) (some : cgp.cgFrsum k ≠ 0) :
    ∃ h p, ExactRun fs.fsFrag (cgp.cgBlksfree.block fs.fsFrag h) k p := by
  rw [counts.frsum k hk less, Nat.cast_ne_zero] at some
  obtain ⟨h, -, pos⟩ := exists_of_sum_pos some
  obtain ⟨p, mem⟩ := Finset.card_ne_zero.mp pos
  exact ⟨h, p, (Finset.mem_filter.mp mem).2⟩

theorem ExactRun.whole {w p : Nat} {b : Nat → Bool} (run : ExactRun w b w p) :
    p = 0 ∧ Whole w b := by
  have fits := run.1
  obtain rfl : p = 0 := by omega
  exact ⟨rfl, fun j hj => by simpa using run.2.1 j hj⟩

/-- With a whole block in the group, one is found and taken. -/
theorem ufsAlloccgblk_spec {cgp : Cg} (ok : CgOk fs cg cgp) (some : cgp.cgCs.csNbfree ≠ 0)
    (s : State) :
    ∃ h cgp' s', h < fs.fsFpg / fs.fsFrag ∧ ufsAlloccgblk fs cgp 0 s
        = .done (fs.cgbase cg + h * fs.fsFrag, cgp') s' ∧
      InCore s s' cg cgp.cgCs cgp'.cgCs ∧ CgOk fs cg cgp' ∧
      Takes fs cgp cgp' (h * fs.fsFrag) fs.fsFrag := by
  obtain ⟨h₀, whole₀⟩ := ok.toCounts.exists_whole some
  obtain ⟨h, p, inside, run, frotor, small, found⟩ := ffsMapsearch_spec fs cgp.cgRotor
    fs.frag_pos le_rfl ok.frotor ok.padding ⟨h₀, 0, whole₀.exactRun⟩
  obtain ⟨rfl, whole⟩ := ExactRun.whole run
  have rotorIn : h * fs.fsFrag < fs.fsFpg := by
    rw [← fs.fpg_eq_mul]
    exact Nat.mul_lt_mul_of_pos_right inside fs.frag_pos
  have moved : CgOk fs cg { cgp with cgFrotor := frotor, cgRotor := h * fs.fsFrag } :=
    ⟨⟨ok.nbfree, ok.nffree, ok.frsum⟩, ok.magic, ok.cgx, rotorIn, small, ok.padding⟩
  obtain ⟨cgp', s', ran, core, ok', takes⟩ := takeBlock_spec moved inside whole s
  refine ⟨h, cgp', s', inside, ?_, core, ok', ⟨takes.frame.magic, takes.frame.cgx,
    takes.frame.irotor, takes.frame.niblk, takes.frame.initediblk, takes.frame.inosused,
    takes.frame.ndir, takes.frame.nifree⟩, takes.fits, takes.free, takes.map⟩
  simp only [ufsAlloccgblk, true_or, not_true_eq_false, false_and, if_false, if_true, found,
    Nat.add_zero]
  exact ran

/-- Group `cg` is on disk as `cgp'`, and the in-core summaries have moved with it. -/
structure Moves (s s' : State) (cg : Nat) (cgp' : Cg) : Prop where
  frame : AllocFrame s s'
  cgs : s'.cgs = Function.update s.cgs cg cgp'
  others : ∀ c, c ≠ cg → s'.fsCsp c = s.fsCsp c
  own : s'.fsCsp cg + (s.cgs cg).cgCs = s.fsCsp cg + cgp'.cgCs
  total : s'.fsCstotal + (s.cgs cg).cgCs = s.fsCstotal + cgp'.cgCs

theorem blkwriteCg_ok (io : env.IoOk) (cgp : Cg) (s : State) :
    blkwriteCg env cg cgp s = .done 1 { s with
      tick := s.tick + 1, log := .bwrite :: s.log, cgs := Function.update s.cgs cg cgp } := by
  simp [blkwriteCg, tryWrite, Prog.bind_apply, io.write]

theorem blkreadCg_ok (io : env.IoOk) (s : State) :
    blkreadCg env cg s = .done (some (s.cgs cg)) { s with tick := s.tick + 1 } := by
  simp [blkreadCg, tryRead, Prog.bind_apply, io.read]

/-- Writing the group back after its summaries have moved. -/
theorem InCore.write {s s' : State} {cs : Csum}
    (core : InCore s s' cg (s.cgs cg).cgCs cs) (cgp' : Cg) (same : cs = cgp'.cgCs) :
    Moves s
      { s' with
        tick := s'.tick + 1, log := .bwrite :: s'.log, cgs := Function.update s'.cgs cg cgp' }
      cg cgp' := by
  subst same
  refine ⟨core.frame.trans rfl, ?_, core.others, core.own, core.total⟩
  change Function.update s'.cgs cg cgp' = _
  rw [core.cgs]

/-- The outcome of an allocation in group `cg`: nothing but time passes, or a run of `f`
    fragments goes out of the map. -/
def AllocatesIn (fs : Superblock) (s : State) (cg f : Nat) (result : Nat) (s' : State) : Prop :=
  (result = 0 ∧ s' = { s with tick := s'.tick }) ∨
    ∃ bno cgp', result = fs.cgbase cg + bno ∧ Moves s s' cg cgp' ∧ CgOk fs cg cgp' ∧
      Takes fs (s.cgs cg) cgp' bno f

theorem splitBlock_spec (io : env.IoOk) {s s₀ : State} {cgp : Cg} (ok : CgOk fs cg cgp)
    (core₀ : InCore s s₀ cg (s.cgs cg).cgCs cgp.cgCs) (onDisk : CgFrame (s.cgs cg) cgp)
    (map₀ : cgp.cgBlksfree = (s.cgs cg).cgBlksfree)
    (some : cgp.cgCs.csNbfree ≠ 0) {f : Nat} (hf : 0 < f) (less : f < fs.fsFrag) :
    ∃ r s', splitBlock env fs cg cgp 0 f s₀ = .done r s' ∧ AllocatesIn fs s cg f r s' := by
  obtain ⟨h, cgp₁, s₁, inside, run, core, ok₁, takes⟩ := ufsAlloccgblk_spec ok some s₀
  have place : fs.dtogd (fs.cgbase cg + h * fs.fsFrag) = h * fs.fsFrag := by
    have : h * fs.fsFrag < fs.fsFpg := by
      rw [← fs.fpg_eq_mul]; exact Nat.mul_lt_mul_of_pos_right inside fs.frag_pos
    rw [Superblock.dtogd, Superblock.cgbase, Nat.mul_add_mod, Nat.mod_eq_of_lt this]
  set i := fs.fsFrag - f with hi
  set cgp₂ : Cg := { cgp₁ with
    cgBlksfree := cgp₁.cgBlksfree.setbits (h * fs.fsFrag + f) i
    cgCs := cgp₁.cgCs.addNffree i
    cgFrsum := Function.update cgp₁.cgFrsum i (cgp₁.cgFrsum i + 1) } with new
  have frame : CgFrame cgp₁ cgp₂ := ⟨rfl, rfl, rfl, rfl, rfl, rfl, rfl, rfl⟩
  have map : ∀ x, cgp₂.cgBlksfree.isset x = (cgp₁.cgBlksfree.isset x ||
      decide (h * fs.fsFrag + f ≤ x ∧ x < h * fs.fsFrag + f + i)) := isset_setbits _ _ _
  have clear : ∀ j < fs.fsFrag, cgp₁.cgBlksfree.block fs.fsFrag h j = false := by
    intro j hj
    rw [block, takes.map]
    simp [hj]
  have blockNew : ∀ j < fs.fsFrag, cgp₂.cgBlksfree.block fs.fsFrag h j
      = (cgp₁.cgBlksfree.block fs.fsFrag h j || decide (f ≤ j ∧ j < f + i)) := by
    intro j _
    rw [block, map]
    congr 1
    exact decide_eq_decide.mpr (by omega)
  have same : ∀ x, x / fs.fsFrag ≠ h → cgp₂.cgBlksfree.isset x = cgp₁.cgBlksfree.isset x := by
    intro x other
    have : ¬ (h * fs.fsFrag + f ≤ x ∧ x < h * fs.fsFrag + f + i) := by
      rintro ⟨low, high⟩
      exact other (div_frag_eq (by omega) (by omega))
    simp [map, this]
  have low : cgp₂.cgBlksfree.block fs.fsFrag h 0 = false := by
    rw [blockNew 0 (by omega), clear 0 (by omega)]
    simp; omega
  have counts : Counts fs cgp₂ := by
    refine ok₁.toCounts.change inside same ?_ ?_ fun k hk small => ?_
    · rw [wholeCount_of_clear (by omega) (clear 0 (by omega)), wholeCount_of_clear (by omega) low]
      rfl
    · have none : bitCount fs.fsFrag (cgp₁.cgBlksfree.block fs.fsFrag h) = 0 := by
        have := partCount_eq_zero_of_clear clear
        rwa [partCount_of_clear (by omega) (clear 0 (by omega))] at this
      have added := bitCount_set (q := f) (f := i) (by omega)
        (fun j hj => clear (f + j) (by omega)) blockNew
      rw [partCount_eq_zero_of_clear clear, partCount_of_clear (by omega) low, added, none]
      simp [new, Csum.addNffree]
    · -- what is left is a block of ones with its first `f` bits carved off
      have ones : Whole fs.fsFrag (fun _ => true) := fun _ _ => rfl
      have carved := runCount_carve ones.exactRun hf less.le
        (c := cgp₂.cgBlksfree.block fs.fsFrag h) (fun j hj => by
          rw [blockNew j hj, clear j hj, Bool.false_or, Bool.true_and, ← decide_not]
          exact decide_eq_decide.mpr (by omega)) hk
      rw [ones.runCount_eq_zero hk small, if_neg (by omega)] at carved
      rw [runCount_eq_zero_of_clear clear hk]
      have counter : cgp₂.cgFrsum k = cgp₁.cgFrsum k + if k + f = fs.fsFrag then 1 else 0 := by
        simp only [new, Function.update_apply]
        by_cases e : k = i
        · rw [if_pos e, if_pos (by omega), e]
        · rw [if_neg e, if_neg (by omega), add_zero]
      rw [counter]
      split at carved <;> simp_all
  have ok₂ := ok₁.change frame ok₁.rotor ok₁.frotor inside same counts
  have core₂ := (core₀.trans core).trans
    (InCore.summary s₁ cg cgp₁.cgCs (addNffree_linear (i : Int) _))
  refine ⟨_, _, ?_, .inr ⟨h * fs.fsFrag, cgp₂, rfl, core₂.write _ rfl, ok₂,
    (onDisk.trans takes.frame).trans frame, ?_, ?_, ?_⟩⟩
  · unfold splitBlock
    rw [Prog.bind_of_done run]
    simp only [place, Prog.modify_bind_apply]
    rw [Prog.bind_of_done (blkwriteCg_ok io _ _), Prog.pure_apply]
  · rw [Nat.mul_mod_left]; omega
  · intro j hj
    rw [← map₀]
    exact takes.free j (by omega)
  · intro x
    rw [map, takes.map, map₀]
    by_cases mine : h * fs.fsFrag ≤ x ∧ x < h * fs.fsFrag + fs.fsFrag
    · have free := takes.free (x - h * fs.fsFrag) (by omega)
      rw [show h * fs.fsFrag + (x - h * fs.fsFrag) = x by omega, map₀] at free
      by_cases kept : x < h * fs.fsFrag + f
      · simp [mine, kept]
      · rw [free, decide_eq_true mine, decide_eq_false (show ¬ (_ ≤ x ∧ x < _) from fun e => kept e.2),
          decide_eq_true (show h * fs.fsFrag + f ≤ x ∧ x < h * fs.fsFrag + f + i by omega)]
        rfl
    · rw [decide_eq_false mine,
        decide_eq_false (show ¬ (h * fs.fsFrag ≤ x ∧ x < h * fs.fsFrag + f) by omega),
        decide_eq_false (show ¬ (h * fs.fsFrag + f ≤ x ∧ x < h * fs.fsFrag + f + i) by omega),
        Bool.or_false]

theorem carveRun_spec (io : env.IoOk) {s s₀ : State} {cgp : Cg} (ok : CgOk fs cg cgp)
    (core₀ : InCore s s₀ cg (s.cgs cg).cgCs cgp.cgCs) (onDisk : CgFrame (s.cgs cg) cgp)
    (map₀ : cgp.cgBlksfree = (s.cgs cg).cgBlksfree) {a f : Nat} (hf : 0 < f) (le : f ≤ a)
    (less : a < fs.fsFrag) (some : cgp.cgFrsum a ≠ 0) :
    ∃ r s', carveRun env fs cg cgp 0 a f s₀ = .done r s' ∧ AllocatesIn fs s cg f r s' := by
  obtain ⟨h, p, inside, run, frotor, small, found⟩ := ffsMapsearch_spec fs 0
    (by omega) less.le ok.frotor ok.padding (ok.toCounts.exists_run (by omega) less some)
  have fits := run.1
  set bno := h * fs.fsFrag + p with hb
  set frsum := Function.update cgp.cgFrsum a (cgp.cgFrsum a - 1) with hfr
  set cgp' : Cg := { cgp with
    cgFrotor := frotor
    cgBlksfree := cgp.cgBlksfree.clrbits bno f
    cgCs := cgp.cgCs.addNffree (-f)
    cgFrsum := if f ≠ a then Function.update frsum (a - f) (frsum (a - f) + 1) else frsum } with new
  have frame : CgFrame cgp cgp' := ⟨rfl, rfl, rfl, rfl, rfl, rfl, rfl, rfl⟩
  have map : ∀ x, cgp'.cgBlksfree.isset x = (cgp.cgBlksfree.isset x &&
      !decide (bno ≤ x ∧ x < bno + f)) := isset_clrbits _ _ _
  have blockNew : ∀ j < fs.fsFrag, cgp'.cgBlksfree.block fs.fsFrag h j
      = (cgp.cgBlksfree.block fs.fsFrag h j && !decide (p ≤ j ∧ j < p + f)) := by
    intro j _
    rw [block, map]
    congr 2
    exact decide_eq_decide.mpr (by omega)
  have same : ∀ x, x / fs.fsFrag ≠ h → cgp'.cgBlksfree.isset x = cgp.cgBlksfree.isset x := by
    intro x other
    have : ¬ (bno ≤ x ∧ x < bno + f) := by
      rintro ⟨low, high⟩
      exact other (div_frag_eq (by omega) (by omega))
    simp [map, this]
  have taken : cgp'.cgBlksfree.block fs.fsFrag h p = false := by
    rw [blockNew p (by omega)]
    simp [hf]
  -- a run shorter than the block leaves a clear bit at one of its ends
  have notWhole : ¬ Whole fs.fsFrag (cgp.cgBlksfree.block fs.fsFrag h) := by
    intro whole
    rcases run.apart whole.exactRun with ⟨-, e⟩ | e | e <;> omega
  have counts : Counts fs cgp' := by
    refine ok.toCounts.change inside same ?_ ?_ fun k hk smaller => ?_
    · rw [wholeCount, if_neg notWhole, wholeCount_of_clear (by omega) taken]
      rfl
    · have left := bitCount_clear (by omega : p + f ≤ fs.fsFrag)
        (fun j hj => run.2.1 j (by omega)) blockNew
      have counter : cgp'.cgCs.csNffree = cgp.cgCs.csNffree + -f := rfl
      rw [partCount, if_neg notWhole, partCount_of_clear (by omega) taken, counter]
      omega
    · have carved := runCount_carve run hf le blockNew hk
      have counter : cgp'.cgFrsum k + (if k = a then 1 else 0)
          = cgp.cgFrsum k + (if k + f = a then 1 else 0) := by
        simp only [new, hfr]
        by_cases whole : f = a
        · rw [if_neg (by simpa using whole), if_neg (show ¬ k + f = a by omega), Function.update_apply]
          split <;> simp_all
        · rw [if_pos whole, Function.update_apply, Function.update_apply, Function.update_apply]
          by_cases e₁ : k = a
          · rw [if_neg (by omega), if_pos e₁, if_pos e₁, if_neg (by omega), e₁]; omega
          · by_cases e₂ : k = a - f
            · rw [if_pos e₂, if_neg (by omega), if_neg e₁, if_pos (by omega), e₂]; omega
            · rw [if_neg e₂, if_neg e₁, if_neg e₁, if_neg (by omega)]
      have carved' := congrArg (Nat.cast (R := Int)) carved
      push_cast at carved'
      linarith
  have ok' := ok.change frame ok.rotor small inside same counts
  have core' := core₀.trans (InCore.summary s₀ cg cgp.cgCs (addNffree_linear (-(f : Int)) _))
  refine ⟨_, _, ?_, .inr ⟨bno, cgp', rfl, core'.write _ rfl, ok', onDisk.trans frame, ?_, ?_, ?_⟩⟩
  · unfold carveRun
    rw [found]
    simp only [Prog.modify_bind_apply]
    rw [Prog.bind_of_done (blkwriteCg_ok io _ _), Prog.pure_apply]
  · rw [hb, mod_frag_eq (by omega)]; omega
  · intro j hj
    rw [← map₀, hb, Nat.add_assoc]
    exact run.2.1 j (by omega)
  · intro x
    rw [map, map₀]

theorem pickAllocsiz_spec (frsum : Nat → Int) : ∀ left a,
    a ≤ pickAllocsiz frsum left a ∧ pickAllocsiz frsum left a ≤ a + left ∧
      (pickAllocsiz frsum left a < a + left → frsum (pickAllocsiz frsum left a) ≠ 0)
  | 0, a => by simp [pickAllocsiz]
  | left + 1, a => by
      rw [pickAllocsiz]
      split
      · next found => exact ⟨le_rfl, by omega, fun _ => found⟩
      · obtain ⟨low, high, found⟩ := pickAllocsiz_spec frsum left (a + 1)
        exact ⟨by omega, by omega, fun h => found (by omega)⟩

/-- A group in order with its new time stamp is still in order. -/
theorem CgOk.stamp {cgp : Cg} (ok : CgOk fs cg cgp) (now : Int) :
    CgOk fs cg { cgp with cgTime := now } :=
  ⟨⟨ok.nbfree, ok.nffree, ok.frsum⟩, ok.magic, ok.cgx, ok.rotor, ok.frotor, ok.padding⟩

/-- Allocation in one group: it takes a free run of the wanted size or does nothing. -/
theorem ufsAlloccg_spec (io : env.IoOk) {s : State} (ok : CgOk fs cg (s.cgs cg)) {f : Nat}
    (hf : 0 < f) (le : f ≤ fs.fsFrag) :
    ∃ r s', ufsAlloccg env fs (f * fs.fsFsize : Nat) cg 0 s = .done r s' ∧
      AllocatesIn fs s cg f r s' := by
  have fsizePos := fs.fsize_pos
  have full : ((f * fs.fsFsize : Nat) : Int) = fs.fsBsize ↔ f = fs.fsFrag := by
    rw [fs.bsize_eq_mul, Nat.cast_inj, Nat.mul_left_inj (by omega)]
  have frags : fs.numfrags ((f * fs.fsFsize : Nat) : Int).toNat = f := by
    rw [Int.toNat_natCast, fs.numfrags_eq, Nat.mul_div_cancel _ fsizePos]
  have core₀ : ∀ now : Int, InCore s { s with tick := s.tick + 1 } cg (s.cgs cg).cgCs
      ({ s.cgs cg with cgTime := now } : Cg).cgCs := fun _ => ⟨rfl, rfl, fun _ _ => rfl, rfl, rfl⟩
  have onDisk : ∀ now : Int, CgFrame (s.cgs cg) { s.cgs cg with cgTime := now } :=
    fun _ => ⟨rfl, rfl, rfl, rfl, rfl, rfl, rfl, rfl⟩
  unfold ufsAlloccg
  simp only [Prog.get_bind_apply]
  split
  · exact ⟨0, s, rfl, .inl ⟨rfl, rfl⟩⟩
  · rw [Prog.bind_of_done (blkreadCg_ok io s)]
    simp only
    split
    · exact ⟨0, _, rfl, .inl ⟨rfl, rfl⟩⟩
    · next usable =>
        simp only [ok.magic, false_or, full, Bool.true_eq_false] at usable
        by_cases whole : f = fs.fsFrag
        · rw [if_pos (full.mpr whole)]
          have some : (s.cgs cg).cgCs.csNbfree ≠ 0 := fun e => usable ⟨e, whole⟩
          obtain ⟨h, cgp', s', inside, run, core, ok', takes⟩ :=
            ufsAlloccgblk_spec (ok.stamp env.now) some { s with tick := s.tick + 1 }
          refine ⟨_, _, ?_, .inr ⟨h * fs.fsFrag, cgp', rfl,
            ((core₀ env.now).trans core).write _ rfl, ok', (onDisk env.now).trans takes.frame,
            whole ▸ takes.fits, whole ▸ takes.free, whole ▸ takes.map⟩⟩
          rw [Prog.bind_of_done run]
          simp only
          rw [Prog.bind_of_done (blkwriteCg_ok io _ _), Prog.pure_apply]
        · rw [if_neg (mt full.mp whole), if_neg (by omega)]
          simp only [frags]
          obtain ⟨low, high, found⟩ :=
            pickAllocsiz_spec (s.cgs cg).cgFrsum (fs.fsFrag - f) f
          split
          · split
            · exact ⟨0, _, rfl, .inl ⟨rfl, rfl⟩⟩
            · next some =>
                exact splitBlock_spec io (ok.stamp env.now) (core₀ _) (onDisk _) rfl some hf
                  (by omega)
          · next short =>
              exact carveRun_spec io (ok.stamp env.now) (core₀ _) (onDisk _) rfl hf low
                (by omega) (found (by omega))

/-! ## Giving fragments back -/

/-- The fragments `bno, …, bno + f - 1` come back into the group's map. -/
structure Gives (cgp cgp' : Cg) (bno f : Nat) : Prop where
  frame : CgFrame cgp cgp'
  map : ∀ i, cgp'.cgBlksfree.isset i = (cgp.cgBlksfree.isset i || decide (bno ≤ i ∧ i < bno + f))

theorem freeBlock_spec {cgp : Cg} {h : Nat} (ok : CgOk fs cg cgp)
    (inside : h < fs.fsFpg / fs.fsFrag)
    (used : ∀ j < fs.fsFrag, cgp.cgBlksfree.block fs.fsFrag h j = false) (s : State) :
    ∃ cgp' s', freeBlock fs cg cgp (h * fs.fsFrag) s = .done cgp' s' ∧
      InCore s s' cg cgp.cgCs cgp'.cgCs ∧ CgOk fs cg cgp' ∧
      Gives cgp cgp' (h * fs.fsFrag) fs.fsFrag := by
  have fragPos := fs.frag_pos
  have blk : fs.fragstoblks (h * fs.fsFrag) = h := by
    rw [fs.fragstoblks_eq, Nat.mul_div_cancel _ fragPos]
  obtain ⟨s₁, free, sum, run, core⟩ := clusteracct_spec cg
    { cgp with cgBlksfree := ffsSetblock fs cgp.cgBlksfree h } h 1 s cgp.cgCs
  set cgp' : Cg := { cgp with
    cgBlksfree := ffsSetblock fs cgp.cgBlksfree h
    cgClustersfree := free
    cgClustersum := sum
    cgCs := cgp.cgCs.addNbfree 1 } with new
  have frame : CgFrame cgp cgp' := ⟨rfl, rfl, rfl, rfl, rfl, rfl, rfl, rfl⟩
  have map : ∀ i, cgp'.cgBlksfree.isset i
      = (cgp.cgBlksfree.isset i || decide (i / fs.fsFrag = h)) := isset_ffsSetblock fs _ _
  have whole : Whole fs.fsFrag (cgp'.cgBlksfree.block fs.fsFrag h) := by
    intro j hj
    rw [block, map, div_frag_eq (h := h) (by omega) (by omega)]
    simp
  have same : ∀ i, i / fs.fsFrag ≠ h → cgp'.cgBlksfree.isset i = cgp.cgBlksfree.isset i := by
    intro i hi
    simp [map, hi]
  have counts : Counts fs cgp' := by
    refine ok.toCounts.change inside same ?_ ?_ fun k hk less => ?_
    · rw [wholeCount_of_whole whole, wholeCount_of_clear fragPos (used 0 fragPos)]
      exact add_zero _
    · rw [partCount_of_whole whole, partCount_eq_zero_of_clear used]
      rfl
    · rw [whole.runCount_eq_zero hk less, runCount_eq_zero_of_clear used hk]
  refine ⟨cgp', s₁.summary cg (·.addNbfree 1), ?_,
    core.trans (InCore.summary s₁ cg cgp.cgCs (addNbfree_linear 1 _)),
    ok.change frame ok.rotor ok.frotor inside same counts, frame, fun i => ?_⟩
  · unfold freeBlock
    simp only [blk]
    rw [Prog.bind_of_done run]
    rfl
  · rw [map]
    congr 1
    refine decide_eq_decide.mpr ⟨fun e => ?_, fun place => div_frag_eq place.1 place.2⟩
    have := Nat.div_add_mod' i fs.fsFrag
    have := Nat.mod_lt i fragPos
    subst e
    omega

theorem freeFrags_spec {cgp : Cg} {h p f : Nat} (ok : CgOk fs cg cgp)
    (inside : h < fs.fsFpg / fs.fsFrag) (hf : 0 < f) (fits : p + f ≤ fs.fsFrag)
    (used : ∀ j < f, cgp.cgBlksfree.block fs.fsFrag h (p + j) = false) (s : State) :
    ∃ cgp' s', freeFrags fs cg cgp (h * fs.fsFrag + p) f s = .done cgp' s' ∧
      InCore s s' cg cgp.cgCs cgp'.cgCs ∧ CgOk fs cg cgp' ∧ Gives cgp cgp' (h * fs.fsFrag + p) f := by
  have fragPos := fs.frag_pos
  have base : h * fs.fsFrag + p - fs.fragnum (h * fs.fsFrag + p) = h * fs.fsFrag := by
    rw [fs.fragnum_eq, mod_frag_eq (by omega)]; omega
  have blk : fs.fragstoblks (h * fs.fsFrag) = h := by
    rw [fs.fragstoblks_eq, Nat.mul_div_cancel _ fragPos]
  set map := cgp.cgBlksfree.setbits (h * fs.fsFrag + p) f with hmap
  set frsum := ffsFragacct fs (blkmap fs map (h * fs.fsFrag))
    (ffsFragacct fs (blkmap fs cgp.cgBlksfree (h * fs.fsFrag)) cgp.cgFrsum (-1)) 1 with hfr
  have bits : ∀ i, map.isset i = (cgp.cgBlksfree.isset i ||
      decide (h * fs.fsFrag + p ≤ i ∧ i < h * fs.fsFrag + p + f)) := isset_setbits _ _ _
  have blockNew : ∀ j < fs.fsFrag, map.block fs.fsFrag h j
      = (cgp.cgBlksfree.block fs.fsFrag h j || decide (p ≤ j ∧ j < p + f)) := by
    intro j _
    rw [block, bits]
    congr 1
    exact decide_eq_decide.mpr (by omega)
  have same : ∀ i, i / fs.fsFrag ≠ h → map.isset i = cgp.cgBlksfree.isset i := by
    intro i other
    have : ¬ (h * fs.fsFrag + p ≤ i ∧ i < h * fs.fsFrag + p + f) := by
      rintro ⟨low, high⟩
      exact other (div_frag_eq (by omega) (by omega))
    simp [bits, this]
  have runs : ∀ k, 0 < k → k < fs.fsFrag →
      frsum k + runCount fs.fsFrag (cgp.cgBlksfree.block fs.fsFrag h) k
        = cgp.cgFrsum k + runCount fs.fsFrag (map.block fs.fsFrag h) k := by
    intro k hk less
    have small : ∀ m : BitMap, blkmap fs m (h * fs.fsFrag) < 2 ^ fs.fsFrag := fun m => by
      rw [blkmap_eq_window]; exact window_lt _ _ _
    rw [hfr, ffsFragacct_eq fs (small _) _ _ hk less, ffsFragacct_eq fs (small _) _ _ hk less,
      runCount_congr (fun j hj => testBit_blkmap fs map h j hj) hk,
      runCount_congr (fun j hj => testBit_blkmap fs cgp.cgBlksfree h j hj) hk]
    ring
  have added := bitCount_set fits used blockNew
  have held : cgp.cgBlksfree.block fs.fsFrag h p = false := used 0 hf
  set cgp₁ : Cg := { cgp with
    cgFrsum := frsum
    cgBlksfree := map
    cgCs := cgp.cgCs.addNffree f } with new
  have core₁ := InCore.summary s cg cgp.cgCs (addNffree_linear (f : Int) cgp.cgCs)
  set s₁ := s.summary cg (·.addNffree f) with hs₁
  by_cases whole : Whole fs.fsFrag (map.block fs.fsFrag h)
  · -- the block is complete again: its fragments are counted as a block
    obtain ⟨s₃, free, sum, run, core₃⟩ := clusteracct_spec cg
      { cgp₁ with cgCs := cgp₁.cgCs.addNffree (-fs.fsFrag) } h 1
      (s₁.summary cg (·.addNffree (-fs.fsFrag))) (cgp₁.cgCs.addNffree (-fs.fsFrag))
    set cgp' : Cg := { cgp₁ with
      cgClustersfree := free
      cgClustersum := sum
      cgCs := (cgp₁.cgCs.addNffree (-fs.fsFrag)).addNbfree 1 } with new'
    have frame : CgFrame cgp cgp' := ⟨rfl, rfl, rfl, rfl, rfl, rfl, rfl, rfl⟩
    have counts : Counts fs cgp' := by
      refine ok.toCounts.change inside same ?_ ?_ runs
      · rw [wholeCount_of_clear (by omega) held,
          wholeCount_of_whole (b := cgp'.cgBlksfree.block fs.fsFrag h) whole]
        exact add_zero _
      · have counter : cgp'.cgCs.csNffree = cgp.cgCs.csNffree + f + -fs.fsFrag := rfl
        rw [partCount_of_clear (by omega) held,
          partCount_of_whole (b := cgp'.cgBlksfree.block fs.fsFrag h) whole, counter]
        have all := whole.bitCount_eq
        omega
    refine ⟨cgp', s₃.summary cg (·.addNbfree 1), ?_,
      ((core₁.trans (InCore.summary _ cg _ (addNffree_linear _ _))).trans core₃).trans
        (InCore.summary _ cg _ (addNbfree_linear _ _)),
      ok.change frame ok.rotor ok.frotor inside same counts, frame, bits⟩
    unfold freeFrags
    simp only [base, blk, Prog.modify_bind_apply]
    rw [if_pos ((ffsIsblock_iff fs map h).mpr whole), Prog.modify_bind_apply, Prog.bind_of_done run]
    rfl
  · have frame : CgFrame cgp cgp₁ := ⟨rfl, rfl, rfl, rfl, rfl, rfl, rfl, rfl⟩
    have counts : Counts fs cgp₁ := by
      refine ok.toCounts.change inside same ?_ ?_ runs
      · have none : wholeCount fs.fsFrag (cgp₁.cgBlksfree.block fs.fsFrag h) = 0 := if_neg whole
        rw [wholeCount_of_clear (by omega) held, none]
        rfl
      · have counter : cgp₁.cgCs.csNffree = cgp.cgCs.csNffree + f := rfl
        have loose : partCount fs.fsFrag (cgp₁.cgBlksfree.block fs.fsFrag h)
            = bitCount fs.fsFrag (map.block fs.fsFrag h) := if_neg whole
        rw [partCount_of_clear (by omega) held, loose, counter]
        omega
    refine ⟨cgp₁, s₁, ?_, core₁, ok.change frame ok.rotor ok.frotor inside same counts, frame, bits⟩
    unfold freeFrags
    simp only [base, blk, Prog.modify_bind_apply]
    rw [if_neg (mt (ffsIsblock_iff fs map h).mp whole)]
    rfl

end Steps

end FuseUfs
