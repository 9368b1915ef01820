import FuseUfs.AllocRuns

/-! # When allocation is out of space

`ufs_block_alloc` gives up only when no group has what is asked for. The counters of a group
say what its map holds, so the early checks turn away no request that the map could serve,
and the search over the groups reaches every one of them. A write that fails goes unnoticed,
so only the reads have to succeed.
-/

namespace FuseUfs

open Lib BitMap

variable {env : Env} {fs : Superblock}

/-- The group has a wholly free block. -/
def Cg.HasBlock (fs : Superblock) (cgp : Cg) : Prop :=
  ∃ h < fs.fsFpg / fs.fsFrag, Whole fs.fsFrag (cgp.cgBlksfree.block fs.fsFrag h)

/-- Some block of the group has `f` free fragments in a row. -/
def Cg.HasRun (fs : Superblock) (cgp : Cg) (f : Nat) : Prop :=
  ∃ h < fs.fsFpg / fs.fsFrag, ∃ p, p + f ≤ fs.fsFrag ∧
    ∀ j < f, cgp.cgBlksfree.block fs.fsFrag h (p + j) = true

/-- The group can serve a request for `f` fragments. -/
def Serves (fs : Superblock) (cgp : Cg) (f : Nat) : Prop :=
  cgp.HasBlock fs ∨ f < fs.fsFrag ∧ cgp.HasRun fs f

section Group

variable {cgp : Cg} {cg : Nat}

theorem Counts.hasBlock_iff (counts : Counts fs cgp) : cgp.HasBlock fs ↔ cgp.cgCs.csNbfree ≠ 0 := by
  rw [counts.nbfree, Nat.cast_ne_zero, wholeBlocks, ne_eq, Finset.sum_eq_zero_iff]
  simp [Cg.HasBlock, wholeCount]

theorem Counts.frsum_ne_zero_iff (counts : Counts fs cgp) {k : Nat} (hk : 0 < k) (less : k < fs.fsFrag) :
    cgp.cgFrsum k ≠ 0 ↔ ∃ h < fs.fsFpg / fs.fsFrag, ∃ p,
      ExactRun fs.fsFrag (cgp.cgBlksfree.block fs.fsFrag h) k p := by
  have inside : ∀ {h p}, ExactRun fs.fsFrag (cgp.cgBlksfree.block fs.fsFrag h) k p → p < fs.fsFrag := by
    intro h p run
    have := run.1
    omega
  rw [counts.frsum k hk less, Nat.cast_ne_zero, freeRuns, ne_eq, Finset.sum_eq_zero_iff]
  simp only [Finset.mem_range, runCount, Finset.card_eq_zero, Finset.filter_eq_empty_iff, not_forall,
    not_not, exists_prop]
  refine exists_congr fun h => and_congr_right fun _ => exists_congr fun p => ?_
  exact ⟨fun both => both.2, fun run => ⟨inside run, run⟩⟩

/-- What the counters say about a request for `f` fragments is what the map says. -/
theorem Counts.serves_iff (counts : Counts fs cgp) {f : Nat} (hf : 0 < f) :
    Serves fs cgp f ↔ cgp.cgCs.csNbfree ≠ 0 ∨ ∃ k, f ≤ k ∧ k < fs.fsFrag ∧ cgp.cgFrsum k ≠ 0 := by
  rw [Serves, ← counts.hasBlock_iff]
  constructor
  · rintro (block | ⟨less, h, inside, p, fits, set⟩)
    · exact .inl block
    · obtain ⟨k, q, le, run⟩ := exists_exactRun fits set
      have room := run.1
      by_cases short : k < fs.fsFrag
      · exact .inr ⟨k, le, short, (counts.frsum_ne_zero_iff (by omega) short).mpr ⟨h, inside, q, run⟩⟩
      · obtain rfl : k = fs.fsFrag := by omega
        exact .inl ⟨h, inside, (ExactRun.whole run).2⟩
  · rintro (block | ⟨k, le, less, some⟩)
    · exact .inl block
    · obtain ⟨h, inside, p, run⟩ := (counts.frsum_ne_zero_iff (by omega) less).mp some
      have room := run.1
      exact .inr ⟨by omega, h, inside, p, by omega, fun j hj => run.2.1 j (by omega)⟩

end Group

/-- The scan of `cg_frsum` passes over the sizes that the group does not have. -/
theorem pickAllocsiz_skips (frsum : Nat → Int) : ∀ left a k, a ≤ k → k < pickAllocsiz frsum left a →
    frsum k = 0
  | 0, a, k, low, high => by
      rw [pickAllocsiz] at high
      omega
  | left + 1, a, k, low, high => by
      rw [pickAllocsiz] at high
      split at high
      · omega
      · next none =>
          rcases Nat.eq_or_lt_of_le low with rfl | more
          · exact not_not.mp none
          · exact pickAllocsiz_skips frsum left (a + 1) k more high

section Reads

variable (reads : ∀ t, env.readOk t = true) {cg : Nat}

theorem blkwriteCg_returns (env : Env) (cg : Nat) (cgp : Cg) (s : State) : ∃ rc s', blkwriteCg env cg cgp s = .done rc s' := by
  simp only [blkwriteCg, tryWrite, Prog.bind_apply]
  split
  · exact ⟨_, _, rfl⟩
  · exact ⟨_, _, rfl⟩

/-- What allocation in a group returns: the address of a free fragment of the group. -/
def Served (fs : Superblock) (cg : Nat) (cgp : Cg) (r : Nat) : Prop :=
  ∃ bno, cgp.cgBlksfree.isset bno = true ∧ r = fs.cgbase cg + bno

theorem splitBlock_serves {cgp : Cg} (ok : CgOk fs cg cgp) (some : cgp.cgCs.csNbfree ≠ 0) (f : Nat) (s : State) :
    ∃ r s', splitBlock env fs cg cgp 0 f s = .done r s' ∧ Served fs cg cgp r := by
  obtain ⟨h, cgp₁, s₁, inside, run, -, -, takes⟩ := ufsAlloccgblk_spec ok some s
  unfold splitBlock
  rw [Prog.bind_of_done run]
  simp only [Prog.modify_bind_apply]
  obtain ⟨rc, s₂, write⟩ := blkwriteCg_returns env cg _ _
  rw [Prog.bind_of_done write, Prog.pure_apply]
  exact ⟨_, s₂, rfl, h * fs.fsFrag, takes.free 0 fs.frag_pos, rfl⟩

theorem carveRun_serves {cgp : Cg} (ok : CgOk fs cg cgp) {a f : Nat} (hf : 0 < f) (le : f ≤ a)
    (less : a < fs.fsFrag) (some : cgp.cgFrsum a ≠ 0) (s : State) :
    ∃ r s', carveRun env fs cg cgp 0 a f s = .done r s' ∧ Served fs cg cgp r := by
  obtain ⟨h, p, inside, run, frotor, small, found⟩ := ffsMapsearch_spec fs 0
    (by omega) less.le ok.frotor ok.padding (ok.toCounts.exists_run (by omega) less some)
  unfold carveRun
  rw [found]
  simp only [Prog.modify_bind_apply]
  obtain ⟨rc, s₂, write⟩ := blkwriteCg_returns env cg _ _
  rw [Prog.bind_of_done write, Prog.pure_apply]
  exact ⟨_, s₂, rfl, h * fs.fsFrag + p, run.2.1 0 (by omega), rfl⟩

include reads

theorem blkreadCg_reads (s : State) :
    blkreadCg env cg s = .done (some (s.cgs cg)) (s.atTick (s.tick + 1)) := by
  simp [blkreadCg, tryRead, Prog.bind_apply, reads, State.atTick]

/-- One group: it serves the request if it can, and otherwise only time passes. -/
theorem ufsAlloccg_serves {s : State} (ok : CgOk fs cg (s.cgs cg)) (cs : s.fsCsp cg = (s.cgs cg).cgCs)
    {f : Nat} (hf : 0 < f) (le : f ≤ fs.fsFrag) :
    ∃ r s', ufsAlloccg env fs (f * fs.fsFsize : Nat) cg 0 s = .done r s' ∧
      (Serves fs (s.cgs cg) f ∧ Served fs cg (s.cgs cg) r ∨
        ¬ Serves fs (s.cgs cg) f ∧ r = 0 ∧ s' = s.atTick s'.tick) := by
  have full : ((f * fs.fsFsize : Nat) : Int) = fs.fsBsize ↔ f = fs.fsFrag := by
    rw [fs.bsize_eq_mul, Nat.cast_inj, Nat.mul_left_inj (by have := fs.fsize_pos; omega)]
  have frags : fs.numfrags ((f * fs.fsFsize : Nat) : Int).toNat = f := by
    rw [Int.toNat_natCast, fs.numfrags_eq, Nat.mul_div_cancel _ fs.fsize_pos]
  have serves := ok.toCounts.serves_iff hf
  have stamped : CgOk fs cg { s.cgs cg with cgTime := env.now } :=
    ⟨⟨ok.nbfree, ok.nffree, ok.frsum⟩, ok.magic, ok.cgx, ok.rotor, ok.frotor, ok.padding⟩
  unfold ufsAlloccg
  simp only [Prog.get_bind_apply, cs, full]
  by_cases empty : (s.cgs cg).cgCs.csNbfree = 0 ∧ f = fs.fsFrag
  · -- no whole block, and nothing less will do
    obtain ⟨none, rfl⟩ := empty
    have not : ¬ Serves fs (s.cgs cg) fs.fsFrag := by
      rw [serves]
      rintro (some | ⟨k, low, high, -⟩)
      · exact some none
      · omega
    exact ⟨0, s, by rw [if_pos ⟨none, rfl⟩, Prog.pure_apply], .inr ⟨not, rfl, rfl⟩⟩
  · rw [if_neg empty, Prog.bind_of_done (blkreadCg_reads reads s)]
    simp only [ok.magic, Bool.true_eq_false, false_or, if_neg empty]
    by_cases whole : f = fs.fsFrag
    · have some : (s.cgs cg).cgCs.csNbfree ≠ 0 := fun e => empty ⟨e, whole⟩
      obtain ⟨h, cgp', s', inside, run, -, -, takes⟩ := ufsAlloccgblk_spec stamped some (s.atTick (s.tick + 1))
      rw [if_pos whole, Prog.bind_of_done run]
      obtain ⟨rc, s₂, write⟩ := blkwriteCg_returns env cg cgp' s'
      simp only
      rw [Prog.bind_of_done write, Prog.pure_apply]
      exact ⟨_, s₂, rfl, .inl ⟨serves.mpr (.inl some), h * fs.fsFrag, takes.free 0 fs.frag_pos, rfl⟩⟩
    · rw [if_neg whole, if_neg (by omega)]
      simp only [frags]
      have skipped := pickAllocsiz_skips (s.cgs cg).cgFrsum (fs.fsFrag - f) f
      obtain ⟨low, high, found⟩ := pickAllocsiz_spec (s.cgs cg).cgFrsum (fs.fsFrag - f) f
      set a := pickAllocsiz (s.cgs cg).cgFrsum (fs.fsFrag - f) f
      by_cases none : a = fs.fsFrag
      · rw [if_pos none]
        by_cases zero : (s.cgs cg).cgCs.csNbfree = 0
        · have not : ¬ Serves fs (s.cgs cg) f := by
            rw [serves]
            rintro (some | ⟨k, ge, less, some⟩)
            · exact some zero
            · exact some (skipped k ge (by omega))
          rw [if_pos zero]
          exact ⟨0, _, rfl, .inr ⟨not, rfl, rfl⟩⟩
        · rw [if_neg zero]
          obtain ⟨r, s', run, served⟩ := splitBlock_serves stamped zero f (s.atTick (s.tick + 1))
          exact ⟨r, s', run, .inl ⟨serves.mpr (.inl zero), served⟩⟩
      · rw [if_neg none]
        have some := found (by omega)
        obtain ⟨r, s', run, served⟩ := carveRun_serves stamped hf low (by omega) some (s.atTick (s.tick + 1))
        exact ⟨r, s', run, .inl ⟨serves.mpr (.inr ⟨a, low, by omega, some⟩), served⟩⟩

end Reads

/-- The number of a free fragment is never taken for a failure: the boot block is in use. -/
theorem Served.ne_zero {s : State} (boot : s.free fs 0 = false) {cg r : Nat}
    (served : Served fs cg (s.cgs cg) r) : r ≠ 0 := by
  obtain ⟨bno, free, rfl⟩ := served
  intro zero
  obtain rfl : bno = 0 := by omega
  have first : fs.fsFpg * cg = 0 := zero
  obtain rfl : cg = 0 := (Nat.mul_eq_zero.mp first).resolve_left (by have := fs.fpg_pos; omega)
  have group : fs.dtog 0 = 0 := Nat.zero_div _
  have place : fs.dtogd 0 = 0 := Nat.zero_mod _
  rw [State.free, group, place, free] at boot
  cases boot

section Space

variable (reads : ∀ t, env.readOk t = true) {s : State} (ok : AllocOk fs s) (boot : s.free fs 0 = false)
  {f : Nat} (hf : 0 < f) (le : f ≤ fs.fsFrag)

include reads ok boot hf le

/-- A try in one group, somewhere in the search. -/
theorem ufsAlloccg_tries {cg p : Nat} (inside : cg < fs.fsNcg) (zero : p = 0 ∨ p = 0) :
    Tries (fun t => t = s.atTick t.tick) (fun _ _ => Serves fs (s.cgs cg) f)
      (ufsAlloccg env fs (f * fs.fsFsize : Nat) cg p) := by
  obtain rfl : p = 0 := or_self_iff.mp zero
  intro t same
  rw [same]
  obtain ⟨r, t', run, ⟨serves, served⟩ | ⟨-, none, after⟩⟩ :=
    ufsAlloccg_serves (s := s.atTick t.tick) reads (ok.group cg inside) (ok.cs cg inside) hf le
  · exact ⟨r, t', run, fun e => absurd e (served.ne_zero boot), fun _ => serves⟩
  · exact ⟨r, t', run, fun _ => by rw [after]; rfl, fun some => absurd none some⟩

theorem ufsAlloccg_finds {cg p : Nat} (inside : cg < fs.fsNcg) (serves : Serves fs (s.cgs cg) f)
    (zero : p = 0 ∨ p = 0) : Finds (fun t => t = s.atTick t.tick) (fun _ _ => True)
      (ufsAlloccg env fs (f * fs.fsFsize : Nat) cg p) := by
  obtain rfl : p = 0 := or_self_iff.mp zero
  intro t same
  rw [same]
  obtain ⟨r, t', run, ⟨-, served⟩ | ⟨none, -⟩⟩ :=
    ufsAlloccg_serves (s := s.atTick t.tick) reads (ok.group cg inside) (ok.cs cg inside) hf le
  · exact ⟨r, t', run, served.ne_zero boot, trivial⟩
  · exact absurd serves none

/-- The search returns 0 exactly if no group serves the request. -/
theorem ufsHashalloc_serves {cg : Nat} (inside : cg < fs.fsNcg) :
    ∃ r s', ufsHashalloc fs cg 0 (ufsAlloccg env fs (f * fs.fsFsize : Nat)) s = .done r s' ∧
      (r = 0 ↔ ∀ c < fs.fsNcg, ¬ Serves fs (s.cgs c) f) := by
  by_cases none : ∀ c < fs.fsNcg, ¬ Serves fs (s.cgs c) f
  · have tries : Tries (fun t => t = s.atTick t.tick) (fun _ _ => False)
        (ufsHashalloc fs cg 0 (ufsAlloccg env fs (f * fs.fsFsize : Nat))) :=
      ufsHashalloc_spec (fun c p there zero t same => by
        obtain ⟨r, t', run, failed, found⟩ := ufsAlloccg_tries reads ok boot hf le there zero t same
        exact ⟨r, t', run, failed, fun some => none c there (found some)⟩) inside
    obtain ⟨r, s', run, -, found⟩ := tries s rfl
    exact ⟨r, s', run, fun _ => none, fun _ => not_not.mp found⟩
  · have some := none
    push Not at some
    obtain ⟨g, there, serves⟩ := some
    obtain ⟨r, s', run, found, -⟩ := ufsHashalloc_finds
      (fun c p inside zero t same => by
        obtain ⟨r, t', run, failed, -⟩ := ufsAlloccg_tries reads ok boot hf le inside zero t same
        exact ⟨r, t', run, failed, fun _ => trivial⟩) there
      (fun p zero => ufsAlloccg_finds reads ok boot hf le there serves zero) inside s rfl
    exact ⟨r, s', run, fun e => absurd e found, fun all => absurd all none⟩

end Space

/-- No whole block in the total means none in any group. -/
theorem AllocOk.no_block {s : State} (ok : AllocOk fs s) (zero : s.fsCstotal.csNbfree = 0) {cg : Nat}
    (inside : cg < fs.fsNcg) : ¬ (s.cgs cg).HasBlock fs := by
  have sum : ∑ c ∈ Finset.range fs.fsNcg, (s.cgs c).cgCs.csNbfree = 0 := by
    rw [ok.total] at zero
    exact zero
  have nonneg : ∀ c ∈ Finset.range fs.fsNcg, 0 ≤ (s.cgs c).cgCs.csNbfree := by
    intro c mem
    rw [(ok.group c (Finset.mem_range.mp mem)).nbfree]
    exact Int.natCast_nonneg _
  have none := (Finset.sum_eq_zero_iff_of_nonneg nonneg).mp sum cg (Finset.mem_range.mpr inside)
  rw [(ok.group cg inside).toCounts.hasBlock_iff]
  exact not_not.mpr none

end FuseUfs
