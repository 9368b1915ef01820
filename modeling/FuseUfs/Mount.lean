import FuseUfs.Effects

/-! # Mounting and unmounting

`op_init` loads the summary area a block of fragments at a time; `op_destroy` writes it
back in steps of a block of bytes, and after it the superblock with the total, but only
when `fs_fmod` is set. Allocation and freeing raise that flag with every change of a
summary, so a mount that ends with the flag down has nothing to write.

Both loops count in an `int`. The one of `op_destroy` overflows when the area ends less
than a block below `2 ^ 31`: it then starts over below 0 and never ends.
-/

namespace FuseUfs

open Lib Prog

/-- `sizeof(struct csum)`. -/
def csumBytes : Nat := 16

/-- Copy `bytes` bytes of summaries from offset `srcOff` of `src` to offset `dstOff` of `dst`. -/
def copyCsum (dst src : Nat → Csum) (dstOff srcOff bytes : Nat) : Nat → Csum := fun k =>
  if dstOff ≤ k * csumBytes ∧ k * csumBytes < dstOff + bytes then
    src ((srcOff + (k * csumBytes - dstOff)) / csumBytes)
  else dst k

section

variable (env : Env) (fs : Superblock)

/-- The pieces of the summary area, from fragment `i` on, into memory from byte `space` on. -/
def loadCsum (blks : Nat) : (left i space : Nat) → M Unit
  | 0, _, _ => pure ()
  | left + 1, i, space =>
      if i < blks then do
        let size := if blks < i + fs.fsFrag then (blks - i) * fs.fsFsize else fs.fsBsize
        let ok ← tryRead env
        if ok then do
          Prog.modify fun s => { s with
            fsCsp := copyCsum s.fsCsp s.csumArea space (i * fs.fsFsize) size }
          loadCsum blks left (i + fs.fsFrag) (space + size)
        else Prog.halt
      else pure ()

/-- The memory that `op_init` asks for, for the summaries and the two tables behind them. -/
def csumSpace : Nat :=
  fs.fsCssize + (if 0 < fs.fsContigsumsize then fs.fsNcg * 4 else 0) + fs.fsNcg

/-- Mount the device. The process is new, so nothing is cached and nothing is open; a size
    that an `int` cannot hold gets no memory. -/
def opInit (readonly : Bool) : M Unit := do
  let ok ← tryRead env
  if ok then do
    Prog.modify fun s => { s with
      fsCstotal := s.sbCstotal
      fsFmod := s.sbFmod
      dInomin := 0
      dInomax := 0
      vnodes := fun _ => none
      files := fun _ => none }
    if 2 ^ 31 ≤ csumSpace fs then Prog.halt
    else do
      let blks := howmany fs.fsCssize fs.fsFsize
      loadCsum env fs blks blks 0 0
      Prog.modify fun s => { s with
        fsMaxcluster := if 0 < fs.fsContigsumsize then
          fun cg => if cg < fs.fsNcg then fs.fsContigsumsize else s.fsMaxcluster cg
          else s.fsMaxcluster
        fsContigdirs := fun cg => if cg < fs.fsNcg then 0 else s.fsContigdirs cg
        fsRonly := readonly }
  else Prog.halt

/-- Write the summaries from byte `i` on. -/
def flushCsum : (left i : Nat) → M Unit
  | 0, _ => pure ()
  | left + 1, i =>
      if i < fs.fsCssize then do
        let size := if fs.fsCssize - i < fs.fsBsize then fs.fsCssize - i else fs.fsBsize
        let ok ← tryWrite env
        if ok then
          Prog.modify fun s => { s with
            csumArea := copyCsum s.csumArea s.fsCsp (fs.numfrags i * fs.fsFsize) i size }
        else pure ()
        if 2 ^ 31 ≤ i + fs.fsBsize then Prog.halt else flushCsum left (i + fs.fsBsize)
      else pure ()

/-- The copies of the superblock in the groups; the first failure ends the loop. -/
def altSuperblocks : (left : Nat) → M Int
  | 0 => pure 0
  | left + 1 => do
      let ok ← tryWrite env
      if ok then altSuperblocks left else pure (-1)

/-- `sbwrite`; the copies are never read again. -/
def sbwrite (all : Bool) : M Int := do
  let ok ← tryWrite env
  if ok then do
    Prog.modify fun s => { s with sbCstotal := s.fsCstotal, sbFmod := s.fsFmod }
    if all then altSuperblocks env fs.fsNcg else pure 0
  else pure (-1)

def opDestroy : M Unit := do
  let s ← Prog.get
  if s.fsFmod then do
    flushCsum env fs (howmany fs.fsCssize fs.fsBsize) 0
    let _ ← sbwrite env fs true
    pure ()
  else pure ()

end

variable {env : Env} {fs : Superblock}

/-! ## The two loops -/

theorem csumBytes_dvd_fsize (fs : Superblock) : csumBytes ∣ fs.fsFsize := by
  have shifts := fs.bshift_eq
  have low := fs.bshift_range.1
  have few := fs.fragshift_le
  rw [fs.fsize_eq, show fs.fsFshift = 4 + (fs.fsFshift - 4) by omega, Nat.pow_add]
  exact Nat.dvd_mul_right _ _

/-- A piece that keeps its offset. -/
theorem copyCsum_same (dst src : Nat → Csum) (off bytes k : Nat) :
    copyCsum dst src off off bytes k
      = if off ≤ k * csumBytes ∧ k * csumBytes < off + bytes then src k else dst k := by
  unfold copyCsum
  split
  · next inside =>
    rw [Nat.add_sub_cancel' inside.1, Nat.mul_div_cancel _ (by decide)]
  · rfl

/-- Loading is reads, and stores into the table. -/
theorem loadCsum_kept (blks : Nat) (I : State → Prop) (kept : ∀ s t csp, I s → I { s with tick := t, fsCsp := csp }) :
    ∀ left i space, Keeps I (loadCsum env fs blks left i space)
  | 0, _, _ => .pure _
  | left + 1, _, _ => .ite
      (fun _ => .bind (fun s h => kept s (s.tick + 1) s.fsCsp h) fun _ => .ite
        (fun _ => .bind (.modify fun s h => kept s s.tick _ h) fun _ => loadCsum_kept blks I kept left _ _) fun _ => .halt)
      fun _ => .pure _

/-- Loading from fragment `i` on fills the rest of the table from the device. -/
theorem loadCsum_ok (io : env.IoOk) (blks : Nat) : ∀ (left i : Nat) (s : State), blks ≤ i + left →
    ∃ t csp, loadCsum env fs blks left i (i * fs.fsFsize) s = .done () { s with tick := t, fsCsp := csp } ∧
      ∀ k, k * csumBytes < blks * fs.fsFsize →
        csp k = if i * fs.fsFsize ≤ k * csumBytes then s.csumArea k else s.fsCsp k
  | 0, i, s, enough => by
      refine ⟨s.tick, s.fsCsp, rfl, fun k hk => ?_⟩
      have : blks * fs.fsFsize ≤ i * fs.fsFsize := Nat.mul_le_mul_right _ enough
      rw [if_neg (by omega)]
  | left + 1, i, s, enough => by
      rw [loadCsum]
      by_cases more : i < blks
      · have read : tryRead env s = .done true (s.atTick (s.tick + 1)) := by
          rw [tryRead, io.read]; rfl
        rw [if_pos more, Prog.bind_of_done read, if_pos rfl, Prog.modify_bind_apply]
        set size := if blks < i + fs.fsFrag then (blks - i) * fs.fsFsize else fs.fsBsize with hsize
        have step : i * fs.fsFsize + fs.fsBsize = (i + fs.fsFrag) * fs.fsFsize := by
          rw [fs.bsize_eq_mul, Nat.add_mul]
        by_cases last : blks < i + fs.fsFrag
        · -- the short piece ends the area, and the next turn ends the loop
          have whole : i * fs.fsFsize + size = blks * fs.fsFsize := by
            rw [hsize, if_pos last, ← Nat.add_mul, Nat.add_sub_cancel' more.le]
          refine ⟨s.tick + 1, copyCsum s.fsCsp s.csumArea (i * fs.fsFsize) (i * fs.fsFsize) size, ?_,
            fun k hk => ?_⟩
          · cases left with
            | zero => rfl
            | succ left => rw [loadCsum, if_neg (by omega)]; rfl
          · simp only [copyCsum_same, whole, hk, and_true]
        · have full : size = fs.fsBsize := by rw [hsize, if_neg last]
          have fragPos := fs.frag_pos
          obtain ⟨t, csp, run, filled⟩ := loadCsum_ok io blks left (i + fs.fsFrag)
            { s.atTick (s.tick + 1) with
              fsCsp := copyCsum s.fsCsp s.csumArea (i * fs.fsFsize) (i * fs.fsFsize) size } (by omega)
          rw [← step, ← full] at run
          refine ⟨t, csp, run, fun k hk => ?_⟩
          rw [filled k hk]
          simp only [State.atTick, copyCsum_same, full, step]
          by_cases early : (i + fs.fsFrag) * fs.fsFsize ≤ k * csumBytes
          · rw [if_pos early, if_pos (by omega)]
          · rw [if_neg early]
            simp only [show k * csumBytes < (i + fs.fsFrag) * fs.fsFsize by omega, and_true]
      · rw [if_neg more]
        refine ⟨s.tick, s.fsCsp, rfl, fun k hk => ?_⟩
        have : blks * fs.fsFsize ≤ i * fs.fsFsize := Nat.mul_le_mul_right _ (by omega)
        rw [if_neg (by omega)]

/-- Writing from byte `i` on brings the rest of the table to the device. -/
theorem flushCsum_ok (io : env.IoOk) (short : fs.fsCssize + fs.fsBsize ≤ 2 ^ 31) :
    ∀ (left i : Nat) (s : State), fs.fsCssize ≤ i + left * fs.fsBsize → fs.fsFsize ∣ i →
    ∃ t l area, flushCsum env fs left i s = .done () { s with tick := t, log := l, csumArea := area } ∧
      ∀ k, k * csumBytes < fs.fsCssize →
        area k = if i ≤ k * csumBytes then s.fsCsp k else s.csumArea k
  | 0, i, s, enough, _ => by
      refine ⟨s.tick, s.log, s.csumArea, rfl, fun k hk => ?_⟩
      rw [if_neg (by omega)]
  | left + 1, i, s, enough, aligned => by
      rw [flushCsum]
      by_cases more : i < fs.fsCssize
      · have write : tryWrite env s
            = .done true { s with tick := s.tick + 1, log := .bwrite :: s.log } := by
          rw [tryWrite, io.write]
        have offset : fs.numfrags i * fs.fsFsize = i := by
          rw [Superblock.numfrags_eq, Nat.div_mul_cancel aligned]
        rw [if_pos more]
        simp only []
        rw [Prog.bind_of_done write, if_pos rfl, Prog.modify_bind_apply, if_neg (by omega), offset]
        set size := if fs.fsCssize - i < fs.fsBsize then fs.fsCssize - i else fs.fsBsize with hsize
        have next : fs.fsFsize ∣ i + fs.fsBsize :=
          (Nat.dvd_add_right aligned).mpr (fs.bsize_eq_mul ▸ Nat.dvd_mul_left _ _)
        have room : fs.fsCssize ≤ i + fs.fsBsize + left * fs.fsBsize := by
          rw [Nat.add_mul, Nat.one_mul] at enough
          omega
        obtain ⟨t, l, area, run, filled⟩ := flushCsum_ok io short left (i + fs.fsBsize)
          { s with
            tick := s.tick + 1
            log := .bwrite :: s.log
            csumArea := copyCsum s.csumArea s.fsCsp i i size } room next
        refine ⟨t, l, area, run, fun k hk => ?_⟩
        rw [filled k hk]
        simp only [copyCsum_same]
        by_cases early : i + fs.fsBsize ≤ k * csumBytes
        · rw [if_pos early, if_pos (by omega)]
        · have inside : k * csumBytes < i + size := by
            rw [hsize]
            split <;> omega
          rw [if_neg early]
          simp only [inside, and_true]
      · rw [if_neg more]
        refine ⟨s.tick, s.log, s.csumArea, rfl, fun k hk => ?_⟩
        rw [if_neg (by omega)]

/-- With less than a block between the end of the area and `2 ^ 31`, the loop never ends. -/
theorem flushCsum_halts (io : env.IoOk) (long : 2 ^ 31 < fs.fsCssize + fs.fsBsize) :
    ∀ (left i : Nat) (s : State), i < fs.fsCssize → fs.fsCssize ≤ i + left * fs.fsBsize →
    fs.fsBsize ∣ i → ∃ s', flushCsum env fs left i s = .halt s'
  | 0, i, s, more, enough, _ => by omega
  | left + 1, i, s, more, enough, aligned => by
      have write : tryWrite env s
          = .done true { s with tick := s.tick + 1, log := .bwrite :: s.log } := by
        rw [tryWrite, io.write]
      rw [flushCsum, if_pos more]
      simp only []
      rw [Prog.bind_of_done write, if_pos rfl, Prog.modify_bind_apply]
      by_cases overflow : 2 ^ 31 ≤ i + fs.fsBsize
      · rw [if_pos overflow]
        exact ⟨_, rfl⟩
      · rw [if_neg overflow]
        -- both ends are multiples of the block size, so the area goes on past the next block
        have whole : fs.fsBsize ∣ 2 ^ 31 := by
          rw [fs.bsize_eq]
          exact Nat.pow_dvd_pow 2 (by have := fs.bshift_range.2; omega)
        obtain ⟨a, ha⟩ := aligned
        obtain ⟨b, hb⟩ := whole
        have beyond : i + fs.fsBsize < fs.fsCssize := by
          have below : fs.fsBsize * (a + 1) < fs.fsBsize * b := by
            rw [← hb, Nat.mul_add, ← ha]; omega
          have : fs.fsBsize * (a + 1 + 1) ≤ fs.fsBsize * b :=
            Nat.mul_le_mul_left _ (Nat.lt_of_mul_lt_mul_left below)
          rw [← hb, Nat.mul_add, Nat.mul_add, ← ha] at this
          omega
        have room : fs.fsCssize ≤ i + fs.fsBsize + left * fs.fsBsize := by
          rw [Nat.add_mul, Nat.one_mul] at enough
          omega
        exact flushCsum_halts io long left (i + fs.fsBsize) _ beyond room ⟨a + 1, by rw [ha]; ring⟩

/-! ## From one mount to the next -/

/-- The summaries a new mount would load, and what it would find in memory if nothing had
    changed since the last one. -/
structure Persisted (fs : Superblock) (area : Nat → Csum) (total : Csum) (s : State) : Prop where
  onDevice : s.csumArea = area
  inSuperblock : s.sbCstotal = total
  clean : s.fsFmod = false → (∀ cg < fs.fsNcg, s.fsCsp cg = area cg) ∧ s.fsCstotal = total

/-- Every change of a summary raises `fs_fmod`, and nothing lowers it. -/
theorem persisted_keptByAll (area : Nat → Csum) (total : Csum) :
    KeptByAll (Persisted fs area total) where
  clock _ _ _ h := ⟨h.onDevice, h.inSuperblock, h.clean⟩
  groups _ _ h := ⟨h.onDevice, h.inSuperblock, h.clean⟩
  summary _ _ _ h := ⟨h.onDevice, h.inSuperblock, fun down => by cases down⟩
  clusters _ _ h := ⟨h.onDevice, h.inSuperblock, h.clean⟩
  data _ _ h := ⟨h.onDevice, h.inSuperblock, h.clean⟩
  cache _ _ _ _ h := ⟨h.onDevice, h.inSuperblock, h.clean⟩
  dinodes _ _ h := ⟨h.onDevice, h.inSuperblock, h.clean⟩
  vnodes _ _ h := ⟨h.onDevice, h.inSuperblock, h.clean⟩
  contigdirs _ _ h := ⟨h.onDevice, h.inSuperblock, h.clean⟩

/-- States reached by allocating and freeing fragments and inodes. Between the calls the process
    may do anything that leaves the summaries, the flag and the device's copies alone. -/
inductive SummaryRun (fs : Superblock) (s₀ : State) : State → Prop
  | start : SummaryRun fs s₀ s₀
  | blockAlloc {s s' : State} {env : Env} {ino : Nat} {size : Int} {r : Int × Nat}
      (run : SummaryRun fs s₀ s) (call : ufsBlockAlloc env fs ino size s = .done r s') :
      SummaryRun fs s₀ s'
  | blockFree {s s' : State} {env : Env} {bno size : Nat} (run : SummaryRun fs s₀ s)
      (call : ufsBlockFree env fs bno size s = .done () s') : SummaryRun fs s₀ s'
  | valloc {s s' : State} {env : Env} {parent mode : Nat} {r : Int × Nat}
      (run : SummaryRun fs s₀ s) (call : ufsValloc env fs parent mode s = .done r s') :
      SummaryRun fs s₀ s'
  | freeInode {s s' : State} {env : Env} {ino mode : Nat} {rc : Int} (run : SummaryRun fs s₀ s)
      (call : ufsFreeInode env fs ino mode s = .done rc s') : SummaryRun fs s₀ s'
  | other {s s' : State} (run : SummaryRun fs s₀ s) (area : s'.csumArea = s.csumArea)
      (sb : s'.sbCstotal = s.sbCstotal) (fmod : s'.fsFmod = s.fsFmod) (csp : s'.fsCsp = s.fsCsp)
      (total : s'.fsCstotal = s.fsCstotal) : SummaryRun fs s₀ s'

theorem summaryRun_persisted {s₀ s : State} {area : Nat → Csum} {total : Csum}
    (start : Persisted fs area total s₀) (run : SummaryRun fs s₀ s) : Persisted fs area total s := by
  have kept : KeptByAll (Persisted fs area total) := persisted_keptByAll area total
  induction run with
  | start => exact start
  | blockAlloc _ call ih => exact Keeps.after (ufsBlockAlloc_kept kept.toKeptByGroups _ _) call ih
  | blockFree _ call ih => exact Keeps.after (ufsBlockFree_kept kept.toKeptByGroups _ _) call ih
  | valloc _ call ih => exact Keeps.after (ufsValloc_kept kept _ _) call ih
  | freeInode _ call ih => exact Keeps.after (ufsFreeInode_kept kept.toKeptByGroups _ _) call ih
  | other _ sameArea sb fmod csp sameTotal ih =>
      exact ⟨sameArea.trans ih.onDevice, sb.trans ih.inSuperblock, fun down => by
        rw [csp, sameTotal]; exact ih.clean (fmod ▸ down)⟩

/-- The pieces of an area of whole fragments cover every entry of a group. -/
theorem covers {cg : Nat} (whole : fs.fsFsize ∣ fs.fsCssize)
    (room : fs.fsNcg * csumBytes ≤ fs.fsCssize) (inside : cg < fs.fsNcg) :
    howmany fs.fsCssize fs.fsFsize * fs.fsFsize = fs.fsCssize ∧ cg * csumBytes < fs.fsCssize := by
  have pos := fs.fsize_pos
  refine ⟨?_, ?_⟩
  · obtain ⟨c, hc⟩ := whole
    rw [howmany, hc, Nat.mul_add_div pos, Nat.div_eq_of_lt (by omega), Nat.add_zero, Nat.mul_comm]
  · unfold csumBytes at *
    omega

/-- What `op_init` leaves in memory. -/
theorem opInit_ok (io : env.IoOk) (whole : fs.fsFsize ∣ fs.fsCssize)
    (room : fs.fsNcg * csumBytes ≤ fs.fsCssize) (memory : csumSpace fs < 2 ^ 31) (readonly : Bool)
    (s : State) :
    ∃ s', opInit env fs readonly s = .done () s' ∧ s'.csumArea = s.csumArea ∧
      s'.sbCstotal = s.sbCstotal ∧ s'.fsCstotal = s.sbCstotal ∧ s'.fsFmod = s.sbFmod ∧
      ∀ cg < fs.fsNcg, s'.fsCsp cg = s.csumArea cg := by
  have read : tryRead env s = .done true { s with tick := s.tick + 1 } := by
    rw [tryRead, io.read]
  obtain ⟨t, csp, run, filled⟩ := @loadCsum_ok env fs io (howmany fs.fsCssize fs.fsFsize)
    (howmany fs.fsCssize fs.fsFsize) 0
    { s with
      tick := s.tick + 1
      fsCstotal := s.sbCstotal
      fsFmod := s.sbFmod
      dInomin := 0
      dInomax := 0
      vnodes := fun _ => none
      files := fun _ => none } (by omega)
  rw [Nat.zero_mul] at run
  unfold opInit
  rw [Prog.bind_of_done read, if_pos rfl, Prog.modify_bind_apply, if_neg (by omega),
    Prog.bind_of_done run, Prog.modify_apply]
  refine ⟨_, rfl, rfl, rfl, rfl, rfl, fun cg hc => ?_⟩
  obtain ⟨length, inside⟩ := covers whole room hc
  have := filled cg (by rw [length]; exact inside)
  rw [Nat.zero_mul, if_pos (Nat.zero_le _)] at this
  exact this

theorem altSuperblocks_ok (io : env.IoOk) : ∀ (left : Nat) (s : State),
    ∃ t l, altSuperblocks env left s = .done 0 { s with tick := t, log := l }
  | 0, s => ⟨s.tick, s.log, rfl⟩
  | left + 1, s => by
      have write : tryWrite env s
          = .done true { s with tick := s.tick + 1, log := .bwrite :: s.log } := by
        rw [tryWrite, io.write]
      rw [altSuperblocks, Prog.bind_of_done write, if_pos rfl]
      obtain ⟨t, l, run⟩ := altSuperblocks_ok io left
        { s with tick := s.tick + 1, log := .bwrite :: s.log }
      exact ⟨t, l, run⟩

/-- The turns of the writing loop are enough for the area. -/
theorem le_blocks (fs : Superblock) :
    fs.fsCssize ≤ 0 + howmany fs.fsCssize fs.fsBsize * fs.fsBsize := by
  have bpos := fs.bsize_pos
  have parts := Nat.div_add_mod (fs.fsCssize + (fs.fsBsize - 1)) fs.fsBsize
  have rest := Nat.mod_lt (fs.fsCssize + (fs.fsBsize - 1)) bpos
  rw [howmany, Nat.mul_comm]
  omega

/-- `op_destroy` leaves on the device what is in memory when the flag is up. -/
theorem opDestroy_ok (io : env.IoOk) (short : fs.fsCssize + fs.fsBsize ≤ 2 ^ 31)
    (room : fs.fsNcg * csumBytes ≤ fs.fsCssize) {s : State} {area : Nat → Csum} {total : Csum}
    (persisted : Persisted fs area total s) :
    ∃ s', opDestroy env fs s = .done () s' ∧ s'.sbCstotal = s.fsCstotal ∧
      ∀ cg < fs.fsNcg, s'.csumArea cg = s.fsCsp cg := by
  unfold opDestroy
  rw [Prog.get_bind_apply]
  cases flag : s.fsFmod with
  | false =>
      obtain ⟨csp, sum⟩ := persisted.clean flag
      refine ⟨s, rfl, by rw [persisted.inSuperblock, sum], fun cg hc => ?_⟩
      rw [persisted.onDevice, csp cg hc]
  | true =>
      obtain ⟨t, l, written, flushed, filled⟩ := flushCsum_ok io short
        (howmany fs.fsCssize fs.fsBsize) 0 s (le_blocks fs) (Nat.dvd_zero _)
      set s₁ : State := { s with tick := t, log := l, csumArea := written } with hs₁
      have write : tryWrite env s₁
          = .done true { s₁ with tick := t + 1, log := .bwrite :: l } := by
        rw [tryWrite, io.write]
      obtain ⟨t', l', copies⟩ := altSuperblocks_ok io fs.fsNcg { s₁ with
        tick := t + 1
        log := .bwrite :: l
        sbCstotal := s.fsCstotal
        sbFmod := s.fsFmod }
      have wrote : sbwrite env fs true s₁ = .done 0 { s₁ with
          tick := t'
          log := l'
          sbCstotal := s.fsCstotal
          sbFmod := s.fsFmod } := by
        unfold sbwrite
        rw [Prog.bind_of_done write, if_pos rfl, Prog.modify_bind_apply, if_pos rfl]
        exact copies
      rw [if_pos rfl, Prog.bind_of_done flushed, Prog.bind_of_done wrote]
      refine ⟨_, rfl, rfl, fun cg hc => ?_⟩
      have inside : cg * csumBytes < fs.fsCssize := by
        unfold csumBytes at *
        omega
      have := filled cg inside
      rwa [if_pos (Nat.zero_le _)] at this

/-- An unmount with something to write does not come to an end when the area is too long. -/
theorem opDestroy_halts (io : env.IoOk) (long : 2 ^ 31 < fs.fsCssize + fs.fsBsize)
    (some : 0 < fs.fsCssize) {s : State} (flag : s.fsFmod = true) :
    ∃ s', opDestroy env fs s = .halt s' := by
  obtain ⟨s', stuck⟩ := flushCsum_halts io long (howmany fs.fsCssize fs.fsBsize) 0 s some
    (le_blocks fs) (Nat.dvd_zero _)
  refine ⟨s', ?_⟩
  unfold opDestroy
  rw [Prog.get_bind_apply, flag, if_pos rfl, Prog.bind_apply, stuck]

/-- As `smallFs`, with a summary area that ends one fragment below `2 ^ 31`. -/
def longFs : Superblock := { smallFs with fsCssize := 2 ^ 31 - 512 }

end FuseUfs
