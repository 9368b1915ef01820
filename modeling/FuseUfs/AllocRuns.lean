import FuseUfs.AllocInvariant

/-! # Runs of allocations and frees

`AllocOk` is the summary invariant of the mount. The free maps of all groups together
are read through `State.free`, by absolute fragment number: an allocation takes a run
of one block out of it, a free puts one back, and neither touches another fragment.
-/

namespace FuseUfs

open Lib BitMap

variable {env : Env} {fs : Superblock}

/-- The sum of the groups' own summaries. -/
def csumTotal (fs : Superblock) (cgs : Nat → Cg) : Csum where
  csNdir := ∑ cg ∈ Finset.range fs.fsNcg, (cgs cg).cgCs.csNdir
  csNbfree := ∑ cg ∈ Finset.range fs.fsNcg, (cgs cg).cgCs.csNbfree
  csNifree := ∑ cg ∈ Finset.range fs.fsNcg, (cgs cg).cgCs.csNifree
  csNffree := ∑ cg ∈ Finset.range fs.fsNcg, (cgs cg).cgCs.csNffree

structure AllocOk (fs : Superblock) (s : State) : Prop where
  group : ∀ cg < fs.fsNcg, CgOk fs cg (s.cgs cg)
  cs : ∀ cg < fs.fsNcg, s.fsCsp cg = (s.cgs cg).cgCs
  total : s.fsCstotal = csumTotal fs s.cgs

private theorem sum_update {n cg : Nat} (inside : cg < n) (cgs : Nat → Cg) (cgp : Cg)
    (F : Cg → Int) :
    ∑ c ∈ Finset.range n, F (Function.update cgs cg cgp c) + F (cgs cg)
      = ∑ c ∈ Finset.range n, F (cgs c) + F cgp := by
  have mem : cg ∈ Finset.range n := Finset.mem_range.mpr inside
  rw [← Finset.add_sum_erase _ _ mem, ← Finset.add_sum_erase (f := fun c => F (cgs c)) _ mem,
    Function.update_self]
  have others : ∑ c ∈ (Finset.range n).erase cg, F (Function.update cgs cg cgp c)
      = ∑ c ∈ (Finset.range n).erase cg, F (cgs c) :=
    Finset.sum_congr rfl fun c hc => by rw [Function.update_of_ne (Finset.ne_of_mem_erase hc)]
  rw [others]
  ring

theorem csumTotal_update {cg : Nat} (inside : cg < fs.fsNcg) (cgs : Nat → Cg) (cgp : Cg) :
    csumTotal fs (Function.update cgs cg cgp) + (cgs cg).cgCs = csumTotal fs cgs + cgp.cgCs := by
  ext
  · exact sum_update inside cgs cgp (·.cgCs.csNdir)
  · exact sum_update inside cgs cgp (·.cgCs.csNbfree)
  · exact sum_update inside cgs cgp (·.cgCs.csNifree)
  · exact sum_update inside cgs cgp (·.cgCs.csNffree)

theorem Csum.add_right_cancel {a b c : Csum} (same : a + c = b + c) : a = b := by
  simp only [Csum.ext_iff, csNdir_add, csNbfree_add, csNifree_add, csNffree_add] at *
  omega

/-- A group written back in order, with its summaries, keeps the mount in order. -/
theorem AllocOk.moves {s s' : State} {cg : Nat} {cgp : Cg} (ok : AllocOk fs s)
    (inside : cg < fs.fsNcg) (moves : Moves s s' cg cgp) (group : CgOk fs cg cgp) :
    AllocOk fs s' := by
  refine ⟨fun c hc => ?_, fun c hc => ?_, ?_⟩
  · rw [moves.cgs]
    by_cases here : c = cg
    · subst here; rwa [Function.update_self]
    · rw [Function.update_of_ne here]; exact ok.group c hc
  · rw [moves.cgs]
    by_cases here : c = cg
    · subst here
      have own := moves.own
      rw [ok.cs c hc] at own
      rw [Function.update_self]
      refine Csum.add_right_cancel (c := (s.cgs c).cgCs) (own.trans ?_)
      ext <;> simp <;> omega
    · rw [Function.update_of_ne here, moves.others c here]; exact ok.cs c hc
  · have total := moves.total
    rw [ok.total] at total
    rw [moves.cgs]
    exact Csum.add_right_cancel (total.trans (csumTotal_update inside s.cgs cgp).symm)

/-! ## The order of the groups -/

section Hashalloc

variable {allocator : Nat → Nat → M Nat} {I : State → Prop} {Q : Nat → State → Prop} {pref : Nat}

/-- One try: the process goes on, and what holds then depends on the result. -/
def Tries (I : State → Prop) (Q : Nat → State → Prop) (x : M Nat) : Prop :=
  ∀ s, I s → ∃ r s', x s = .done r s' ∧ (r = 0 → I s') ∧ (r ≠ 0 → Q r s')

private theorem Tries.orElse {x y : M Nat} (first : Tries I Q x) (second : Tries I Q y) :
    Tries I Q (do let r ← x; if r ≠ 0 then pure r else y) := by
  intro s hs
  obtain ⟨r, s', run, failed, found⟩ := first s hs
  by_cases zero : r = 0
  · obtain ⟨r', s'', run', rest⟩ := second s' (failed zero)
    exact ⟨r', s'', by rw [Prog.bind_of_done run, if_neg (by simpa using zero), run'], rest⟩
  · exact ⟨r, s', by rw [Prog.bind_of_done run, if_pos zero, Prog.pure_apply],
      fun e => absurd e zero, found⟩

private theorem Tries.nothing : Tries I Q (pure 0) := fun s hs =>
  ⟨0, s, rfl, fun _ => hs, fun h => absurd rfl h⟩

variable (step : ∀ cg p, cg < fs.fsNcg → p = pref ∨ p = 0 → Tries I Q (allocator cg p))

include step

private theorem rehash_spec : ∀ left i cg, cg < fs.fsNcg → Tries I Q (rehash fs allocator left i cg)
  | 0, _, _, _ => Tries.nothing
  | left + 1, i, cg, inside => by
      rw [rehash]
      split
      · have next : (if fs.fsNcg ≤ cg + i then cg + i - fs.fsNcg else cg + i) < fs.fsNcg := by
          split <;> omega
        exact Tries.orElse (step _ 0 next (.inr rfl)) (rehash_spec left (i * 2) _ next)
      · exact Tries.nothing

private theorem bruteForce_spec : ∀ left cg, cg < fs.fsNcg →
    Tries I Q (bruteForce fs allocator left cg)
  | 0, _, _ => Tries.nothing
  | left + 1, cg, inside => by
      rw [bruteForce]
      refine Tries.orElse (step _ 0 inside (.inr rfl)) (bruteForce_spec left _ ?_)
      split <;> omega

/-- Every group that is tried exists; the search ends with the first result that is not 0. -/
theorem ufsHashalloc_spec {cg : Nat} (inside : cg < fs.fsNcg) :
    Tries I Q (ufsHashalloc fs cg pref allocator) :=
  (step cg pref inside (.inl rfl)).orElse
    ((rehash_spec step fs.fsNcg 1 cg inside).orElse
      (bruteForce_spec step _ _ (Nat.mod_lt _ fs.ncg_pos)))

omit step in
/-- One try that cannot fail. -/
def Finds (I : State → Prop) (Q : Nat → State → Prop) (x : M Nat) : Prop :=
  ∀ s, I s → ∃ r s', x s = .done r s' ∧ r ≠ 0 ∧ Q r s'

omit step in
private theorem Finds.first {x y : M Nat} (first : Finds I Q x) :
    Finds I Q (do let r ← x; if r ≠ 0 then pure r else y) := by
  intro s hs
  obtain ⟨r, s', run, some, found⟩ := first s hs
  exact ⟨r, s', by rw [Prog.bind_of_done run, if_pos some, Prog.pure_apply], some, found⟩

omit step in
private theorem Finds.second {x y : M Nat} (first : Tries I Q x) (second : Finds I Q y) :
    Finds I Q (do let r ← x; if r ≠ 0 then pure r else y) := by
  intro s hs
  obtain ⟨r, s', run, failed, found⟩ := first s hs
  by_cases zero : r = 0
  · obtain ⟨r', s'', run', rest⟩ := second s' (failed zero)
    exact ⟨r', s'', by rw [Prog.bind_of_done run, if_neg (by simpa using zero), run'], rest⟩
  · exact ⟨r, s', by rw [Prog.bind_of_done run, if_pos zero, Prog.pure_apply], zero, found zero⟩

variable {g : Nat} (there : g < fs.fsNcg)
  (sure : ∀ p, p = pref ∨ p = 0 → Finds I Q (allocator g p))

include sure

private theorem bruteForce_finds : ∀ left cg d, cg < fs.fsNcg → d < left →
    (cg + d) % fs.fsNcg = g → Finds I Q (bruteForce fs allocator left cg)
  | 0, _, _, _, empty, _ => absurd empty (Nat.not_lt_zero _)
  | left + 1, cg, d, inside, far, reach => by
      rw [bruteForce]
      cases d with
      | zero =>
          rw [Nat.add_zero, Nat.mod_eq_of_lt inside] at reach
          subst reach
          exact Finds.first (sure 0 (.inr rfl))
      | succ d =>
          refine Finds.second (step _ 0 inside (.inr rfl)) (bruteForce_finds left _ d ?_ (by omega) ?_)
          · split <;> omega
          · split
            · next last =>
              rw [← reach, show cg + (d + 1) = d + fs.fsNcg by omega, Nat.add_mod_right, Nat.zero_add]
            · rw [← reach, show cg + 1 + d = cg + (d + 1) by omega]

include there

/-- A group that cannot fail is reached, whichever group the search starts from. -/
theorem ufsHashalloc_finds {cg : Nat} (inside : cg < fs.fsNcg) :
    Finds I Q (ufsHashalloc fs cg pref allocator) := by
  by_cases first : g = cg
  · subst first
    exact Finds.first (sure pref (.inl rfl))
  refine Finds.second (step cg pref inside (.inl rfl)) ?_
  by_cases next : g = (if fs.fsNcg ≤ cg + 1 then cg + 1 - fs.fsNcg else cg + 1)
  · refine Finds.first ?_
    obtain ⟨n, hn⟩ : ∃ n, fs.fsNcg = n + 1 := ⟨fs.fsNcg - 1, by omega⟩
    have many : 1 < fs.fsNcg := by split at next <;> omega
    rw [show rehash fs allocator fs.fsNcg 1 cg = rehash fs allocator (n + 1) 1 cg by rw [← hn],
      rehash, if_pos many]
    dsimp only
    rw [← next]
    exact Finds.first (sure 0 (.inr rfl))
  · refine Finds.second (rehash_spec step fs.fsNcg 1 cg inside) ?_
    -- the distance from the start of the brute force, once around
    have far : (cg < g ∧ cg + 2 ≤ g) ∨ (g < cg ∧ cg + 2 ≤ g + fs.fsNcg) := by
      split at next <;> omega
    refine bruteForce_finds step sure _ _
      (if cg < g then g - (cg + 2) else g + fs.fsNcg - (cg + 2)) (Nat.mod_lt _ fs.ncg_pos) ?_ ?_
    · split <;> omega
    · rw [Nat.mod_add_mod]
      split
      · rw [show cg + 2 + (g - (cg + 2)) = g by omega, Nat.mod_eq_of_lt there]
      · rw [show cg + 2 + (g + fs.fsNcg - (cg + 2)) = g + fs.fsNcg by omega, Nat.add_mod_right,
          Nat.mod_eq_of_lt there]

end Hashalloc

/-! ## The free map of the mount -/

/-- Whether fragment `x` of the device is free. -/
def State.free (fs : Superblock) (s : State) (x : Nat) : Bool :=
  (s.cgs (fs.dtog x)).cgBlksfree.isset (fs.dtogd x)

/-- `f` fragments from `b` on, all in one block of one group. -/
structure InBlock (fs : Superblock) (b f : Nat) : Prop where
  group : fs.dtog b < fs.fsNcg
  fits : b % fs.fsFrag + f ≤ fs.fsFrag

/-- Only the free maps of groups may differ; `change` says how. -/
structure MapStep (fs : Superblock) (s s' : State) (change : Nat → Bool → Bool) : Prop where
  frame : AllocFrame s s'
  groups : ∀ cg, CgFrame (s.cgs cg) (s'.cgs cg)
  map : ∀ x, s'.free fs x = change x (s.free fs x)

/-- The run `[b, b + f)` goes from free to used. -/
structure Allocates (fs : Superblock) (s s' : State) (b f : Nat) : Prop where
  inBlock : InBlock fs b f
  wasFree : ∀ x, b ≤ x → x < b + f → s.free fs x = true
  step : MapStep fs s s' fun x old => old && !decide (b ≤ x ∧ x < b + f)

/-- The run `[b, b + f)` becomes free. -/
def Frees (fs : Superblock) (s s' : State) (b f : Nat) : Prop :=
  MapStep fs s s' fun x old => old || decide (b ≤ x ∧ x < b + f)

private theorem CgFrame.refl (cgp : Cg) : CgFrame cgp cgp :=
  ⟨rfl, rfl, rfl, rfl, rfl, rfl, rfl, rfl⟩

/-- A run inside a block stays inside its group. -/
theorem InBlock.below {b f : Nat} (run : InBlock fs b f) :
    fs.dtogd b + f ≤ fs.fsFpg := by
  obtain ⟨c, hc⟩ := fs.frag_dvd_fpg
  have fragPos := fs.frag_pos
  have fits := run.fits
  have low : fs.dtogd b % fs.fsFrag = b % fs.fsFrag := Nat.mod_mod_of_dvd _ fs.frag_dvd_fpg
  have small : fs.dtogd b < fs.fsFpg := Nat.mod_lt _ fs.fpg_pos
  have parts := Nat.div_add_mod (fs.dtogd b) fs.fsFrag
  have blocks : fs.dtogd b / fs.fsFrag < c := by
    refine Nat.div_lt_of_lt_mul ?_
    rw [← hc]; exact small
  have : fs.fsFrag * (fs.dtogd b / fs.fsFrag + 1) ≤ fs.fsFrag * c := Nat.mul_le_mul_left _ blocks
  rw [Nat.mul_add, ← hc] at this
  omega

/-- Places of a run, seen from the group it lies in. -/
private theorem place_iff {b f x : Nat} (bound : fs.dtogd b + f ≤ fs.fsFpg) :
    (b ≤ x ∧ x < b + f) ↔
      fs.dtog x = fs.dtog b ∧ fs.dtogd b ≤ fs.dtogd x ∧ fs.dtogd x < fs.dtogd b + f := by
  have fpgPos := fs.fpg_pos
  unfold Superblock.dtog Superblock.dtogd at *
  have hx := Nat.div_add_mod x fs.fsFpg
  have hb := Nat.div_add_mod b fs.fsFpg
  constructor
  · rintro ⟨low, high⟩
    have same : x / fs.fsFpg = b / fs.fsFpg := by
      refine Nat.div_eq_of_lt_le ?_ ?_
      · rw [Nat.mul_comm]; omega
      · rw [Nat.succ_mul, Nat.mul_comm]; omega
    rw [same] at hx
    omega
  · rintro ⟨same, low, high⟩
    rw [same] at hx
    omega

private theorem free_moves {s s' : State} {cg : Nat} {cgp : Cg} (moves : Moves s s' cg cgp)
    (x : Nat) : s'.free fs x
      = if fs.dtog x = cg then cgp.cgBlksfree.isset (fs.dtogd x) else s.free fs x := by
  unfold State.free
  rw [moves.cgs]
  by_cases here : fs.dtog x = cg
  · rw [if_pos here, here, Function.update_self]
  · rw [if_neg here, Function.update_of_ne here]

private theorem groups_moves {s s' : State} {cg : Nat} {cgp : Cg} (moves : Moves s s' cg cgp)
    (frame : CgFrame (s.cgs cg) cgp) (c : Nat) : CgFrame (s.cgs c) (s'.cgs c) := by
  rw [moves.cgs]
  by_cases here : c = cg
  · subst here; rwa [Function.update_self]
  · rw [Function.update_of_ne here]; exact CgFrame.refl _

/-- An allocation inside a group, in absolute fragment numbers. -/
theorem Moves.allocates {s s' : State} {cg bno f : Nat} {cgp : Cg} (moves : Moves s s' cg cgp)
    (inside : cg < fs.fsNcg) (old : CgOk fs cg (s.cgs cg))
    (takes : Takes fs (s.cgs cg) cgp bno f) (hf : 0 < f) :
    Allocates fs s s' (fs.cgbase cg + bno) f := by
  have bound : bno + f ≤ fs.fsFpg := by
    by_contra out
    have free := takes.free (f - 1) (by omega)
    rw [old.padding _ (by omega)] at free
    cases free
  have group : fs.dtog (fs.cgbase cg + bno) = cg := by
    rw [Superblock.dtog, Superblock.cgbase, Nat.mul_add_div fs.fpg_pos,
      Nat.div_eq_of_lt (by omega), Nat.add_zero]
  have place : fs.dtogd (fs.cgbase cg + bno) = bno := by
    rw [Superblock.dtogd, Superblock.cgbase, Nat.mul_add_mod, Nat.mod_eq_of_lt (by omega)]
  have at' : ∀ x, (fs.cgbase cg + bno ≤ x ∧ x < fs.cgbase cg + bno + f) ↔
      fs.dtog x = cg ∧ bno ≤ fs.dtogd x ∧ fs.dtogd x < bno + f := by
    intro x
    rw [place_iff (by rw [place]; exact bound), group, place]
  refine ⟨⟨by rw [group]; exact inside, ?_⟩, fun x low high => ?_, moves.frame,
    groups_moves moves takes.frame, fun x => ?_⟩
  · have aligned : (fs.cgbase cg + bno) % fs.fsFrag = bno % fs.fsFrag := by
      obtain ⟨c, hc⟩ := fs.frag_dvd_fpg
      rw [Superblock.cgbase, hc, Nat.mul_assoc, Nat.mul_add_mod]
    rw [aligned]; exact takes.fits
  · obtain ⟨here, low', high'⟩ := (at' x).mp ⟨low, high⟩
    have free := takes.free (fs.dtogd x - bno) (by omega)
    rw [show bno + (fs.dtogd x - bno) = fs.dtogd x by omega] at free
    rw [State.free, here]; exact free
  · rw [free_moves moves]
    by_cases here : fs.dtog x = cg
    · rw [if_pos here, takes.map, State.free, here]
      congr 2
      exact decide_eq_decide.mpr (by rw [at' x, and_iff_right here])
    · rw [if_neg here, decide_eq_false (by rw [at' x]; exact fun h => here h.1)]
      simp

/-! ## One call -/

/-- The group that a valid inode number names. -/
def Superblock.ValidIno (fs : Superblock) (ino : Nat) : Prop := fs.inoToCg ino < fs.fsNcg

private theorem AllocOk.tick {s s' : State} (ok : AllocOk fs s) (same : s' = { s with tick := s'.tick }) :
    AllocOk fs s' := by
  rw [same]; exact ⟨ok.group, ok.cs, ok.total⟩

private theorem AllocOk.allocatesIn {s s' : State} {cg f r : Nat} (ok : AllocOk fs s)
    (inside : cg < fs.fsNcg) (run : AllocatesIn fs s cg f r s') : AllocOk fs s' := by
  rcases run with ⟨-, same⟩ | ⟨bno, cgp, -, moves, group, -⟩
  · exact ok.tick same
  · exact ok.moves inside moves group

/-- Whatever the size, an allocation keeps the summaries. -/
theorem ufsBlockAlloc_keeps (io : env.IoOk) {s : State} (ok : AllocOk fs s) {ino f : Nat}
    (valid : fs.ValidIno ino) (hf : 0 < f) (le : f ≤ fs.fsFrag) :
    ∃ r s', ufsBlockAlloc env fs ino (f * fs.fsFsize : Nat) s = .done r s' ∧ AllocOk fs s' := by
  unfold ufsBlockAlloc
  simp only [Prog.get_bind_apply]
  split
  · exact ⟨_, s, rfl, ok⟩
  · split
    · exact ⟨_, s, rfl, ok⟩
    · have tries : Tries (AllocOk fs) (fun _ => AllocOk fs) (ufsHashalloc fs (fs.inoToCg ino) 0
          (ufsAlloccg env fs (f * fs.fsFsize : Nat))) := ufsHashalloc_spec
        (fun cg p inside zero t okt => by
          obtain rfl : p = 0 := by omega
          obtain ⟨r, t', run, out⟩ := ufsAlloccg_spec io (okt.group cg inside) hf le
          exact ⟨r, t', run, fun _ => okt.allocatesIn inside out, fun _ => okt.allocatesIn inside out⟩)
        valid
      obtain ⟨r, s', run, failed, found⟩ := tries s ok
      rw [Prog.bind_of_done run]
      by_cases zero : r = 0
      · exact ⟨_, s', by rw [if_pos zero, Prog.pure_apply], failed zero⟩
      · exact ⟨_, s', by rw [if_neg zero, Prog.pure_apply], found zero⟩

/-- The result of `ufs_block_alloc`: nothing but time passes, or a run goes out of the map. -/
def AllocResult (fs : Superblock) (s : State) (f : Nat) (r : Int × Nat) (s' : State) : Prop :=
  (r.1 = -enospc ∧ s' = { s with tick := s'.tick }) ∨
    (r.1 = 0 ∧ r.2 ≠ 0 ∧ Allocates fs s s' r.2 f)

/-- With the boot block in use, a run that is taken is also returned. -/
theorem ufsBlockAlloc_spec (io : env.IoOk) {s : State} (ok : AllocOk fs s)
    (boot : s.free fs 0 = false) {ino f : Nat} (valid : fs.ValidIno ino) (hf : 0 < f)
    (le : f ≤ fs.fsFrag) :
    ∃ r s', ufsBlockAlloc env fs ino (f * fs.fsFsize : Nat) s = .done r s' ∧ AllocOk fs s' ∧
      AllocResult fs s f r s' := by
  have small : ¬ (fs.fsBsize : Int) < (f * fs.fsFsize : Nat) := by
    have : f * fs.fsFsize ≤ fs.fsFrag * fs.fsFsize := Nat.mul_le_mul_right _ le
    rw [← fs.bsize_eq_mul] at this
    omega
  obtain ⟨r, s', run, okAfter⟩ := ufsBlockAlloc_keeps (f := f) io ok valid hf le
  refine ⟨r, s', run, okAfter, ?_⟩
  unfold ufsBlockAlloc at run
  simp only [Prog.get_bind_apply, if_neg small] at run
  split at run
  · cases run; exact .inl ⟨rfl, rfl⟩
  · have tries : Tries (fun t => t = { s with tick := t.tick })
        (fun b t => b ≠ 0 ∧ Allocates fs s t b f) (ufsHashalloc fs (fs.inoToCg ino) 0
          (ufsAlloccg env fs (f * fs.fsFsize : Nat))) := ufsHashalloc_spec
      (fun cg p inside zero t same => by
        obtain rfl : p = 0 := by omega
        have groups : t.cgs = s.cgs := by rw [same]
        have okt := ok.tick same
        obtain ⟨b, t', run', out⟩ := ufsAlloccg_spec io (okt.group cg inside) hf le
        refine ⟨b, t', run', ?_⟩
        rcases out with ⟨zero, same'⟩ | ⟨bno, cgp, result, moves, group, takes⟩
        · exact ⟨fun _ => by rw [same', same], fun h => absurd zero h⟩
        · have took := moves.allocates inside (okt.group cg inside) takes hf
          rw [← result] at took
          have notBoot : b ≠ 0 := by
            rintro rfl
            have free := took.wasFree 0 le_rfl (by omega)
            rw [State.free, groups] at free
            rw [State.free, free] at boot
            cases boot
          have start : AllocFrame s t := by rw [same]; rfl
          refine ⟨fun h => absurd h notBoot, fun _ => ⟨notBoot, took.inBlock, fun x low high => ?_,
            start.trans took.step.frame, fun c => ?_, fun x => ?_⟩⟩
          · have := took.wasFree x low high
            rwa [State.free, groups] at this
          · have := took.step.groups c
            rwa [groups] at this
          · have := took.step.map x
            rwa [State.free.eq_1 fs t, groups] at this)
      valid
    obtain ⟨b, t, ran, failed, found⟩ := tries s rfl
    rw [Prog.bind_of_done ran] at run
    split at run
    · next zero => cases run; exact .inl ⟨rfl, failed zero⟩
    · next taken => cases run; exact .inr ⟨rfl, found taken⟩

/-- Freeing used fragments of one block puts exactly them back. -/
theorem ufsBlockFree_spec (io : env.IoOk) {s : State} (ok : AllocOk fs s) {b f : Nat}
    (run : InBlock fs b f) (hf : 0 < f) (used : ∀ x, b ≤ x → x < b + f → s.free fs x = false) :
    ∃ s', ufsBlockFree env fs b (f * fs.fsFsize) s = .done () s' ∧ AllocOk fs s' ∧
      (if fs.fsSize ≤ b % 2 ^ 32 then s' = s else Frees fs s s' b f) := by
  unfold ufsBlockFree
  by_cases bad : fs.fsSize ≤ b % 2 ^ 32
  · exact ⟨s, by rw [if_pos bad, Prog.pure_apply], ok, by rw [if_pos bad]⟩
  · simp only [if_neg bad]
    set cg := fs.dtog b with hcg
    have group := ok.group cg run.group
    have bound := run.below
    have fragPos := fs.frag_pos
    have le : f ≤ fs.fsFrag := by have := run.fits; omega
    have parts : fs.dtogd b = fs.dtogd b / fs.fsFrag * fs.fsFrag + b % fs.fsFrag := by
      have low : fs.dtogd b % fs.fsFrag = b % fs.fsFrag := Nat.mod_mod_of_dvd _ fs.frag_dvd_fpg
      rw [← low, Nat.div_add_mod']
    set h := fs.dtogd b / fs.fsFrag with hh
    have inside : h < fs.fsFpg / fs.fsFrag := by
      refine (Nat.div_lt_iff_lt_mul fragPos).mpr ?_
      rw [fs.fpg_eq_mul]; omega
    have stamped : CgOk fs cg { s.cgs cg with cgTime := env.now } :=
      ⟨⟨group.nbfree, group.nffree, group.frsum⟩, group.magic, group.cgx, group.rotor,
        group.frotor, group.padding⟩
    have core₀ : InCore s { s with tick := s.tick + 1 } cg (s.cgs cg).cgCs
      ({ s.cgs cg with cgTime := env.now } : Cg).cgCs := ⟨rfl, rfl, fun _ _ => rfl, rfl, rfl⟩
    have onDisk : CgFrame (s.cgs cg) { s.cgs cg with cgTime := env.now } :=
      ⟨rfl, rfl, rfl, rfl, rfl, rfl, rfl, rfl⟩
    have clear : ∀ j < f, (s.cgs cg).cgBlksfree.block fs.fsFrag h (b % fs.fsFrag + j) = false := by
      intro j hj
      have out := used (b + j) (by omega) (by omega)
      obtain ⟨here, -, -⟩ := (place_iff (x := b + j) bound).mp ⟨by omega, by omega⟩
      have place : fs.dtogd (b + j) = h * fs.fsFrag + (b % fs.fsFrag + j) := by
        have := Nat.div_add_mod (b + j) fs.fsFpg
        have := Nat.div_add_mod b fs.fsFpg
        unfold Superblock.dtog Superblock.dtogd at *
        rw [here] at *
        omega
      rwa [State.free, here, place] at out
    -- both branches give the fragments back and leave the summaries in step
    have freed : ∃ cgp' s₁,
        freeSize fs cg { s.cgs cg with cgTime := env.now } (fs.dtogd b) (f * fs.fsFsize)
          { s with tick := s.tick + 1 } = .done cgp' s₁ ∧
        InCore { s with tick := s.tick + 1 } s₁ cg (s.cgs cg).cgCs cgp'.cgCs ∧
        CgOk fs cg cgp' ∧ Gives { s.cgs cg with cgTime := env.now } cgp' (fs.dtogd b) f := by
      unfold freeSize
      by_cases whole : f = fs.fsFrag
      · have aligned : b % fs.fsFrag = 0 := by have := run.fits; omega
        rw [aligned, Nat.add_zero] at parts
        rw [if_pos (by rw [fs.bsize_eq_mul, whole]), whole, parts]
        refine freeBlock_spec stamped inside (fun j hj => ?_) _
        have := clear j (by omega)
        rwa [aligned, Nat.zero_add] at this
      · have partial' : f * fs.fsFsize ≠ fs.fsBsize := by
          rw [fs.bsize_eq_mul]
          exact fun e => whole (Nat.eq_of_mul_eq_mul_right fs.fsize_pos e)
        have count : fs.numfrags (f * fs.fsFsize) = f := by
          rw [fs.numfrags_eq, Nat.mul_div_cancel _ fs.fsize_pos]
        rw [if_neg partial', count, parts]
        exact freeFrags_spec stamped inside hf run.fits clear _
    obtain ⟨cgp', s₁, ran, core, ok', gives⟩ := freed
    have tailed : CgOk fs cg { cgp' with cgTail := env.heap } :=
      ⟨⟨ok'.nbfree, ok'.nffree, ok'.frsum⟩, ok'.magic, ok'.cgx, ok'.rotor, ok'.frotor, ok'.padding⟩
    have core' : InCore s { s₁ with fsFmod := true } cg (s.cgs cg).cgCs cgp'.cgCs := by
      have both := core₀.trans core
      exact ⟨both.frame.trans rfl, both.cgs, both.others, both.own, both.total⟩
    have moves := core'.write { cgp' with cgTail := env.heap } rfl
    refine ⟨_, ?_, ok.moves run.group moves tailed, ?_⟩
    · rw [Prog.bind_of_done (blkreadCg_ok io s)]
      simp only [group.magic, Bool.true_eq_false, if_false]
      rw [Prog.bind_of_done ran, Prog.modify_bind_apply, Prog.bind_of_done (blkwriteCg_ok io _ _),
        Prog.pure_apply]
    · have frame : CgFrame (s.cgs cg) { cgp' with cgTail := env.heap } := by
        have := onDisk.trans gives.frame
        exact ⟨this.magic, this.cgx, this.irotor, this.niblk, this.initediblk, this.inosused,
          this.ndir, this.nifree⟩
      refine ⟨moves.frame, groups_moves moves frame, fun x => ?_⟩
      rw [free_moves moves]
      by_cases here : fs.dtog x = cg
      · rw [if_pos here, State.free, here]
        refine (gives.map (fs.dtogd x)).trans ?_
        congr 1
        exact decide_eq_decide.mpr (by rw [place_iff bound, and_iff_right here])
      · rw [if_neg here, decide_eq_false (by rw [place_iff bound]; exact fun h => here h.1)]
        simp

/-! ## The small mount is in order -/

theorem smallState_allocOk : AllocOk smallFs smallState := by
  have counts : Counts smallFs smallCg := by
    refine ⟨by decide +kernel, by decide +kernel, fun k hk less => ?_⟩
    have : k < 8 := less
    interval_cases k <;> decide +kernel
  have ends : ∀ i, smallFs.fsFpg ≤ i → smallCg.cgBlksfree.isset i = false := by
    intro i hi
    have past : ¬ (4 ≤ i / 8 ∧ i / 8 < 16) := by
      have : 128 ≤ i := hi
      omega
    simp [BitMap.isset, smallCg, past]
  have group : CgOk smallFs 0 smallCg := ⟨counts, by decide, rfl, by decide, by decide, ends⟩
  refine ⟨fun cg inside => ?_, fun _ _ => rfl, by decide +kernel⟩
  have : cg < 1 := inside
  obtain rfl : cg = 0 := by omega
  exact group

theorem smallState_boot : smallState.free smallFs 0 = false := by decide

/-! ## Runs of calls -/

/-- A size that callers ask for: some fragments, at most a block. -/
def Superblock.FragSize (fs : Superblock) (size : Nat) : Prop :=
  0 < size ∧ size ≤ fs.fsBsize ∧ fs.fsFsize ∣ size

theorem Superblock.FragSize.frags {size : Nat} (ok : fs.FragSize size) :
    0 < size / fs.fsFsize ∧ size / fs.fsFsize ≤ fs.fsFrag ∧
      size / fs.fsFsize * fs.fsFsize = size := by
  obtain ⟨pos, le, c, rfl⟩ := ok
  have fsizePos := fs.fsize_pos
  rw [fs.bsize_eq_mul, Nat.mul_comm fs.fsFrag] at le
  rw [Nat.mul_div_cancel_left _ fsizePos, Nat.mul_comm c]
  exact ⟨Nat.pos_of_mul_pos_left pos, Nat.le_of_mul_le_mul_left le fsizePos, rfl⟩

/-- The fragments that `size` bytes from fragment `bno` on occupy. -/
def extent (fs : Superblock) (bno size : Nat) : Finset Nat :=
  Finset.Ico bno (bno + size / fs.fsFsize)

/-- A free that callers may make: used fragments of one block, each of them in `may`. -/
structure FreeAllowed (fs : Superblock) (may : Nat → Prop) (s : State) (bno size : Nat) : Prop where
  sized : fs.FragSize size
  inBlock : InBlock fs bno (size / fs.fsFsize)
  used : ∀ x ∈ extent fs bno size, may x ∧ s.free fs x = false

/-- A run of calls from `s₀` on, with the extents that are handed out and not freed. Every
    call may see its own clock and memory, but its transfers succeed. -/
inductive AllocRun (fs : Superblock) (may : Nat → Prop) (s₀ : State) :
    State → List (Finset Nat) → Prop where
  | start : AllocRun fs may s₀ s₀ []
  | alloc {s s' : State} {out : List (Finset Nat)} {env : Env} {ino size b : Nat} :
      AllocRun fs may s₀ s out → env.IoOk → fs.ValidIno ino → fs.FragSize size →
      ufsBlockAlloc env fs ino size s = .done (0, b) s' →
      AllocRun fs may s₀ s' (extent fs b size :: out)
  | allocFails {s s' : State} {out : List (Finset Nat)} {env : Env} {ino size b : Nat}
      {error : Int} :
      AllocRun fs may s₀ s out → env.IoOk → fs.ValidIno ino → fs.FragSize size →
      ufsBlockAlloc env fs ino size s = .done (error, b) s' → error ≠ 0 →
      AllocRun fs may s₀ s' out
  | free {s s' : State} {out : List (Finset Nat)} {env : Env} {bno size : Nat} :
      AllocRun fs may s₀ s out → env.IoOk → FreeAllowed fs may s bno size →
      ufsBlockFree env fs bno size s = .done () s' →
      AllocRun fs may s₀ s' (out.map (· \ extent fs bno size))

/-- A call from a state in order returns and leaves the state in order. -/
theorem alloc_keeps {s : State} (ok : AllocOk fs s) (io : env.IoOk) {ino size : Nat}
    (valid : fs.ValidIno ino) (frags : fs.FragSize size) :
    ∃ r s', ufsBlockAlloc env fs ino size s = .done r s' ∧ AllocOk fs s' := by
  obtain ⟨pos, le, same⟩ := frags.frags
  rw [← same]
  exact ufsBlockAlloc_keeps io ok valid pos le

theorem free_keeps {may : Nat → Prop} {s : State} (ok : AllocOk fs s) (io : env.IoOk)
    {bno size : Nat} (allowed : FreeAllowed fs may s bno size) :
    ∃ s', ufsBlockFree env fs bno size s = .done () s' ∧ AllocOk fs s' ∧
      (s' = s ∨ Frees fs s s' bno (size / fs.fsFsize)) := by
  obtain ⟨pos, le, same⟩ := allowed.sized.frags
  obtain ⟨s', run, after, step⟩ := ufsBlockFree_spec io ok allowed.inBlock pos fun x low high =>
    (allowed.used x (Finset.mem_Ico.mpr ⟨low, high⟩)).2
  rw [same] at run
  refine ⟨s', run, after, ?_⟩
  split at step
  · exact .inl step
  · exact .inr step

theorem smallState_alloc (may : Nat → Prop) : ∃ s, AllocRun smallFs may smallState s
    [extent smallFs 32 1024] := by
  have ran : (ufsBlockAlloc calmEnv smallFs 2 (1024 : Nat) smallState).value? = some (0, 32) := by
    decide +kernel
  obtain ⟨s, ran⟩ := Outcome.value?_eq_some.mp ran
  exact ⟨s, .alloc .start calmEnv_ioOk (by decide : smallFs.inoToCg 2 < smallFs.fsNcg)
    ⟨by decide, by decide, by decide⟩ ran⟩

/-! ## No double allocation -/

/-- The boot block is never handed out: `ufs_block_alloc` takes its number for a failure, and
    callers take it for a hole. -/
def notBoot (x : Nat) : Prop := x ≠ 0

/-- The extents that are out are used, and no two of them meet. -/
structure Ledger (fs : Superblock) (s : State) (out : List (Finset Nat)) : Prop where
  ok : AllocOk fs s
  boot : s.free fs 0 = false
  used : ∀ e ∈ out, ∀ x ∈ e, s.free fs x = false
  apart : out.Pairwise Disjoint

theorem alloc_spec {s : State} (ok : AllocOk fs s) (boot : s.free fs 0 = false) (io : env.IoOk)
    {ino size : Nat} (valid : fs.ValidIno ino) (frags : fs.FragSize size) :
    ∃ r s', ufsBlockAlloc env fs ino size s = .done r s' ∧ AllocOk fs s' ∧
      AllocResult fs s (size / fs.fsFsize) r s' := by
  obtain ⟨pos, le, same⟩ := frags.frags
  have spec := ufsBlockAlloc_spec io ok boot valid pos le
  rwa [same] at spec

private theorem Ledger.alloc {s s' : State} {out : List (Finset Nat)} (ledger : Ledger fs s out)
    {b size : Nat} (after : AllocOk fs s') (took : Allocates fs s s' b (size / fs.fsFsize)) :
    Ledger fs s' (extent fs b size :: out) := by
  have stays : ∀ x, s.free fs x = false → s'.free fs x = false := fun x used => by
    rw [took.step.map, used, Bool.false_and]
  refine ⟨after, stays 0 ledger.boot, fun e he x hx => ?_, List.pairwise_cons.mpr ⟨fun e he => ?_,
    ledger.apart⟩⟩
  · rcases List.mem_cons.mp he with rfl | he
    · rw [took.step.map, decide_eq_true (Finset.mem_Ico.mp hx), Bool.not_true, Bool.and_false]
    · exact stays x (ledger.used e he x hx)
  · -- what is handed out was free, what is out already was not
    refine Finset.disjoint_left.mpr fun x new old => ?_
    obtain ⟨low, high⟩ := Finset.mem_Ico.mp new
    have wasFree := took.wasFree x low high
    rw [ledger.used e he x old] at wasFree
    cases wasFree

private theorem Ledger.free {s s' : State} {out : List (Finset Nat)} (ledger : Ledger fs s out)
    {bno size : Nat} (after : AllocOk fs s') (notZero : 0 ∉ extent fs bno size)
    (step : s' = s ∨ Frees fs s s' bno (size / fs.fsFsize)) :
    Ledger fs s' (out.map (· \ extent fs bno size)) := by
  have stays : ∀ x ∉ extent fs bno size, s.free fs x = false → s'.free fs x = false := by
    intro x outside used
    rcases step with rfl | step
    · exact used
    · rw [step.map, used, decide_eq_false (mt Finset.mem_Ico.mpr outside)]
      rfl
  refine ⟨after, stays 0 notZero ledger.boot, fun e he x hx => ?_, ?_⟩
  · obtain ⟨e', he', rfl⟩ := List.mem_map.mp he
    obtain ⟨old, outside⟩ := Finset.mem_sdiff.mp hx
    exact stays x outside (ledger.used e' he' x old)
  · exact ledger.apart.map _ fun a b apart =>
      apart.mono Finset.sdiff_subset Finset.sdiff_subset

theorem allocRun_ledger {s₀ s : State} {out : List (Finset Nat)} (start : AllocOk fs s₀)
    (boot : s₀.free fs 0 = false) (run : AllocRun fs notBoot s₀ s out) : Ledger fs s out := by
  induction run with
  | start => exact ⟨start, boot, by simp, List.Pairwise.nil⟩
  | alloc _ io valid frags ran ih =>
      obtain ⟨r, s', ran', after, result⟩ := alloc_spec ih.ok ih.boot io valid frags
      rw [ran] at ran'
      cases ran'
      rcases result with ⟨failed, -⟩ | ⟨-, -, took⟩
      · cases failed
      · exact ih.alloc after took
  | allocFails _ io valid frags ran error ih =>
      obtain ⟨r, s', ran', after, result⟩ := alloc_spec ih.ok ih.boot io valid frags
      rw [ran] at ran'
      cases ran'
      rcases result with ⟨-, same⟩ | ⟨done, -⟩
      · refine ⟨after, ?_, fun e he x hx => ?_, ih.apart⟩
        · rw [same]; exact ih.boot
        · rw [same]; exact ih.used e he x hx
      · exact absurd done error
  | free _ io allowed ran ih =>
      obtain ⟨s', ran', after, step⟩ := free_keeps ih.ok io allowed
      rw [ran] at ran'
      cases ran'
      exact ih.free after (fun zero => (allowed.used 0 zero).1 rfl) step

end FuseUfs
