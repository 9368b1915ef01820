import FuseUfs.AllocRuns
import FuseUfs.InodeAlloc

/-! # Runs of inode allocations and frees

`InoOk` says that the free-inode counters count the clear bits of the inode maps and that
every rotor lies inside its map. It is enough for the search in a group to succeed
whenever the group's counter is not 0, and for `ufs_valloc` to find a free inode wherever
it is. Inode numbers travel as `int`, so all of this is about devices whose inodes can be
numbered by one.
-/

namespace FuseUfs

open Lib BitMap

variable {env : Env} {fs : Superblock}

/-! ## Searching an inode map -/

theorem findByte_some {want : BitVec 8 → Bool} {map : BitMap} : ∀ {len i k},
    findByte want map len i = some k → i ≤ k ∧ k < i + len ∧ want (map k) = true
  | 0, _, _, found => by cases found
  | len + 1, i, k, found => by
      rw [findByte] at found
      split at found
      · next here =>
        cases found
        exact ⟨le_rfl, by omega, here⟩
      · obtain ⟨low, high, here⟩ := findByte_some found
        exact ⟨by omega, by omega, here⟩

theorem findByte_none {want : BitVec 8 → Bool} {map : BitMap} : ∀ {len i},
    findByte want map len i = none → ∀ k, i ≤ k → k < i + len → want (map k) = false
  | 0, _, _, k, low, high => by omega
  | len + 1, i, missing, k, low, high => by
      rw [findByte] at missing
      split at missing
      · cases missing
      · next notHere =>
        by_cases here : k = i
        · rw [here]
          exact Bool.eq_false_iff.mpr notHere
        · exact findByte_none missing k (by omega) (by omega)

theorem clearBit_some {byte : BitVec 8} : ∀ {left k j}, clearBit byte left k = some j →
    k ≤ j ∧ j < k + left ∧ byte.getLsbD j = false
  | 0, _, _, found => by cases found
  | left + 1, k, j, found => by
      rw [clearBit] at found
      split at found
      · next here =>
        cases found
        exact ⟨le_rfl, by omega, here⟩
      · obtain ⟨low, high, here⟩ := clearBit_some found
        exact ⟨by omega, by omega, here⟩

theorem clearBit_none {byte : BitVec 8} : ∀ {left k}, clearBit byte left k = none →
    ∀ j, k ≤ j → j < k + left → byte.getLsbD j = true
  | 0, _, _, j, low, high => by omega
  | left + 1, k, missing, j, low, high => by
      rw [clearBit] at missing
      split at missing
      · cases missing
      · next notHere =>
        by_cases here : j = k
        · rw [here]
          exact Bool.eq_true_of_not_eq_false notHere
        · exact clearBit_none missing j (by omega) (by omega)

/-- A byte that is not full has a clear bit. -/
theorem clearBit_of_not_full {byte : BitVec 8} (notFull : byte ≠ 0xff#8) :
    ∃ k < 8, clearBit byte nbby 0 = some k ∧ byte.getLsbD k = false := by
  cases found : clearBit byte nbby 0 with
  | none =>
      have all := clearBit_none found
      refine absurd (BitVec.eq_of_getLsbD_eq fun j hj => ?_) notFull
      rw [all j (Nat.zero_le _) (by unfold nbby; omega)]
      interval_cases j <;> rfl
  | some k =>
      obtain ⟨-, high, clear⟩ := clearBit_some found
      exact ⟨k, by unfold nbby at high; omega, rfl, clear⟩

theorem isset_byte (map : BitMap) {i k : Nat} (hk : k < 8) :
    map.isset (i * nbby + k) = (map i).getLsbD k := by
  have byte : (i * nbby + k) / 8 = i := by unfold nbby; omega
  have bit : (i * nbby + k) % 8 = k := by unfold nbby; omega
  rw [isset, byte, bit]

/-- A map of inodes fills whole bytes. -/
theorem Superblock.eight_dvd_ipg (fs : Superblock) : 8 ∣ fs.fsIpg := by
  refine Dvd.dvd.trans ?_ fs.inopb_dvd_ipg
  have large := fs.bshift_range.1
  have size := fs.inopb_eq
  rw [fs.bsize_eq, show fs.fsBshift = (fs.fsBshift - 11) + 11 by omega, Nat.pow_add] at size
  exact ⟨2 ^ (fs.fsBshift - 11), by omega⟩

theorem howmany_nbby {x : Nat} (whole : 8 ∣ x) : howmany x nbby = x / 8 := by
  unfold howmany nbby
  omega

/-- How many inodes of a group are free. -/
def clearInodes (fs : Superblock) (map : BitMap) : Nat :=
  ((Finset.range fs.fsIpg).filter fun i => map.isset i = false).card

/-- A group whose free inodes are counted. -/
structure InoCgOk (fs : Superblock) (cgp : Cg) : Prop where
  magic : cgp.chkmagic = true
  nifree : cgp.cgCs.csNifree = clearInodes fs cgp.cgInosused
  irotor : cgp.cgIrotor < fs.fsIpg

/-- Both scans stay inside the map. -/
theorem inodeByte_some {cgp : Cg} {i : Nat} (rotor : cgp.cgIrotor < fs.fsIpg)
    (found : inodeByte fs cgp = some i) : i * nbby + 8 ≤ fs.fsIpg ∧ cgp.cgInosused i ≠ 0xff#8 := by
  obtain ⟨c, hc⟩ := fs.eight_dvd_ipg
  simp only [inodeByte] at found
  split at found
  · next k whole =>
    cases found
    obtain ⟨-, high, empty⟩ := findByte_some whole
    have zero : cgp.cgInosused i = 0#8 := by simpa using empty
    refine ⟨?_, by rw [zero]; decide⟩
    unfold howmany nbby at high
    unfold nbby
    omega
  · obtain ⟨-, high, part⟩ := findByte_some found
    rw [howmany_nbby fs.eight_dvd_ipg] at high
    refine ⟨?_, by simpa using part⟩
    unfold nbby
    omega

/-- Only in a full map do both scans fail. -/
theorem inodeByte_none {cgp : Cg} (missing : inodeByte fs cgp = none) {k : Nat} (hk : k < fs.fsIpg) :
    cgp.cgInosused.isset k = true := by
  simp only [inodeByte] at missing
  split at missing
  · cases missing
  · have full := findByte_none missing (k / 8) (Nat.zero_le _) (by
      rw [howmany_nbby fs.eight_dvd_ipg, Nat.zero_add]
      exact Nat.div_lt_div_of_lt_of_dvd fs.eight_dvd_ipg hk)
    have byte : cgp.cgInosused (k / 8) = 0xff#8 := by simpa using full
    have small : k % 8 < 8 := Nat.mod_lt _ (by decide)
    rw [isset, byte]
    interval_cases k % 8 <;> rfl

/-- The search in a group with a free inode. -/
theorem pickInode_spec (cgp : Cg) (ok : InoCgOk fs cgp) (some : cgp.cgCs.csNifree ≠ 0) (ipref : Nat) :
    ∃ k rotor, pickInode fs cgp ipref = Option.some (k, { cgp with cgIrotor := rotor }) ∧
      k < fs.fsIpg ∧ cgp.cgInosused.isset k = false ∧ rotor < fs.fsIpg := by
  unfold pickInode
  by_cases wanted : ipref ≠ 0 ∧ cgp.cgInosused.isset (ipref % fs.fsIpg) = false
  · rw [if_pos wanted]
    exact ⟨_, cgp.cgIrotor, rfl, Nat.mod_lt _ fs.ipg_pos, wanted.2, ok.irotor⟩
  · rw [if_neg wanted]
    cases byte : inodeByte fs cgp with
    | none =>
        -- then no inode is free, and the counter says so
        refine absurd ?_ some
        rw [ok.nifree, clearInodes, Finset.card_eq_zero.mpr]
        · rfl
        · refine Finset.filter_eq_empty_iff.mpr fun k hk => ?_
          rw [inodeByte_none byte (Finset.mem_range.mp hk)]
          decide
    | some i =>
        obtain ⟨inside, notFull⟩ := inodeByte_some ok.irotor byte
        obtain ⟨k, hk, found, clear⟩ := clearBit_of_not_full notFull
        refine ⟨i * nbby + k, i * nbby + k, ?_, by omega, ?_, by omega⟩
        · simp only [Option.bind_eq_bind, Option.bind_some, found]
          rfl
        · rw [isset_byte _ hk, clear]

/-! ## One inode changes hands -/

theorem clearInodes_setbit {map : BitMap} {k : Nat} (hk : k < fs.fsIpg) (clear : map.isset k = false) :
    clearInodes fs (map.setbit k) + 1 = clearInodes fs map := by
  have mem : k ∈ (Finset.range fs.fsIpg).filter fun i => map.isset i = false :=
    Finset.mem_filter.mpr ⟨Finset.mem_range.mpr hk, clear⟩
  rw [clearInodes, clearInodes, ← Finset.card_erase_add_one mem]
  congr 2
  ext i
  simp only [isset_setbit, Bool.or_eq_false_iff, decide_eq_false_iff_not, Finset.mem_filter,
    Finset.mem_erase, ne_eq, Finset.mem_range]
  tauto

theorem clearInodes_clrbit {map : BitMap} {k : Nat} (hk : k < fs.fsIpg) (used : map.isset k = true) :
    clearInodes fs (map.clrbit k) = clearInodes fs map + 1 := by
  have back : clearInodes fs ((map.clrbit k).setbit k) = clearInodes fs map := by
    unfold clearInodes
    congr 1
    refine Finset.filter_congr fun i _ => ?_
    by_cases same : k = i
    · subst same; simp [isset_setbit, isset_clrbit, used]
    · simp [isset_setbit, isset_clrbit, same]
  rw [← back, clearInodes_setbit hk (by simp [isset_clrbit])]

/-- Bit `k` of group `cg` becomes `bit`, and the summaries of the group take the change. Only
    what belongs to the inode maps is said; the vnodes stay. -/
structure InodeMoved (fs : Superblock) (s s' : State) (cg k : Nat) (bit : Bool)
    (change : Csum → Csum) : Prop where
  place : k < fs.fsIpg
  was : (s.cgs cg).cgInosused.isset k = !bit
  group : ∃ cgp, s'.cgs = Function.update s.cgs cg cgp ∧ InoCgOk fs cgp ∧
    cgp.cgCs = change (s.cgs cg).cgCs ∧
    ∀ i, cgp.cgInosused.isset i = if i = k then bit else (s.cgs cg).cgInosused.isset i
  own : s'.fsCsp = Function.update s.fsCsp cg (change (s.fsCsp cg))
  total : s'.fsCstotal = change s.fsCstotal
  vnodes : s'.vnodes = s.vnodes

/-- The free-inode counters are right everywhere. -/
structure InoCounts (fs : Superblock) (s : State) : Prop where
  group : ∀ cg < fs.fsNcg, InoCgOk fs (s.cgs cg)
  cs : ∀ cg < fs.fsNcg, (s.fsCsp cg).csNifree = (s.cgs cg).cgCs.csNifree
  total : s.fsCstotal.csNifree = ∑ cg ∈ Finset.range fs.fsNcg, (s.cgs cg).cgCs.csNifree

theorem inoUsed_at (s : State) {cg k : Nat} (hk : k < fs.fsIpg) :
    s.inoUsed fs (cg * fs.fsIpg + k) = (s.cgs cg).cgInosused.isset k := by
  have group : (cg * fs.fsIpg + k) / fs.fsIpg = cg := by
    rw [Nat.mul_comm, Nat.mul_add_div fs.ipg_pos, Nat.div_eq_of_lt hk, Nat.add_zero]
  have place : (cg * fs.fsIpg + k) % fs.fsIpg = k := by
    rw [Nat.mul_comm, Nat.mul_add_mod, Nat.mod_eq_of_lt hk]
  rw [State.inoUsed, Superblock.inoToCg, group, place]

theorem ino_split (fs : Superblock) (ino : Nat) :
    ino = fs.inoToCg ino * fs.fsIpg + ino % fs.fsIpg := by
  rw [Superblock.inoToCg, Nat.mul_comm]
  exact (Nat.div_add_mod ino fs.fsIpg).symm

theorem inoToCg_lt {ino : Nat} (valid : ino < fs.fsNcg * fs.fsIpg) : fs.inoToCg ino < fs.fsNcg :=
  Nat.div_lt_of_lt_mul (by rwa [Nat.mul_comm])

namespace InodeMoved

variable {s s' : State} {cg k : Nat} {bit : Bool} {change : Csum → Csum}

/-- In terms of inode numbers, one bit changes. -/
theorem used (moved : InodeMoved fs s s' cg k bit change) (ino : Nat) :
    s'.inoUsed fs ino = if ino = cg * fs.fsIpg + k then bit else s.inoUsed fs ino := by
  obtain ⟨cgp, cgs, -, -, map⟩ := moved.group
  have small := Nat.mod_lt ino fs.ipg_pos
  rw [ino_split fs ino, inoUsed_at _ small, inoUsed_at _ small, cgs]
  by_cases here : fs.inoToCg ino = cg
  · rw [here, Function.update_self, map]
    simp only [Nat.add_left_cancel_iff]
  · rw [Function.update_of_ne here, if_neg]
    intro same
    apply here
    have := congrArg (· / fs.fsIpg) same
    simpa [Nat.mul_comm _ fs.fsIpg, Nat.mul_add_div fs.ipg_pos, Nat.div_eq_of_lt small,
      Nat.div_eq_of_lt moved.place] using this

theorem counts (moved : InodeMoved fs s s' cg k bit change) (inside : cg < fs.fsNcg)
    (linear : ∃ n, ∀ cs, (change cs).csNifree = cs.csNifree + n) (ok : InoCounts fs s) :
    InoCounts fs s' := by
  obtain ⟨cgp, cgs, group, own, -⟩ := moved.group
  obtain ⟨n, linear⟩ := linear
  refine ⟨fun c hc => ?_, fun c hc => ?_, ?_⟩
  · rw [cgs]
    by_cases here : c = cg
    · rw [here, Function.update_self]; exact group
    · rw [Function.update_of_ne here]; exact ok.group c hc
  · rw [cgs, moved.own]
    by_cases here : c = cg
    · rw [here, Function.update_self, Function.update_self, own, linear, linear, ok.cs cg inside]
    · rw [Function.update_of_ne here, Function.update_of_ne here]; exact ok.cs c hc
  · have sum := congrArg Csum.csNifree (csumTotal_update inside s.cgs cgp)
    simp only [Csum.csNifree_add, csumTotal] at sum
    rw [moved.total, linear, ok.total, cgs]
    rw [own, linear] at sum
    omega

end InodeMoved

/-! ## Allocation in one group -/

theorem initInodes_ok (fs : Superblock) (io : env.IoOk) (cgp : Cg) (ipref : Nat) (s : State) :
    ∃ init ibp t, initInodes env fs cgp ipref s
      = .done (0, { cgp with cgInitediblk := init }, ibp) (s.atTick t) := by
  unfold initInodes
  split
  · have run : tryReadIno env s = .done true (s.atTick (s.tick + 1)) := by
      rw [tryReadIno, io.inoRead]; rfl
    rw [Prog.bind_of_done run]
    exact ⟨_, _, _, rfl⟩
  · exact ⟨cgp.cgInitediblk, none, s.tick, rfl⟩

theorem writeInodes_ok (fs : Superblock) (io : env.IoOk) (first : Nat) (ibp : Option (Nat → Dinode)) (s : State) :
    ∃ t l d, writeInodes env fs first ibp s = .done 0 { s with tick := t, log := l, dinodes := d } := by
  cases ibp with
  | none => exact ⟨s.tick, s.log, s.dinodes, rfl⟩
  | some ibp =>
      have run : tryWriteIno env s = .done true { s with tick := s.tick + 1, log := .bwrite :: s.log } := by
        rw [tryWriteIno, io.inoWrite]
      rw [writeInodes, Prog.bind_of_done run, if_pos rfl]
      exact ⟨_, _, _, rfl⟩

theorem takeInode_spec (io : env.IoOk) {s : State} (cgp : Cg) (mode cg : Nat) {k : Nat}
    (old : InoCgOk fs (s.cgs cg)) (counters : cgp.cgCs = (s.cgs cg).cgCs)
    (map : cgp.cgInosused = (s.cgs cg).cgInosused) (magic : cgp.chkmagic = true)
    (rotor : cgp.cgIrotor < fs.fsIpg) (hk : k < fs.fsIpg)
    (clear : (s.cgs cg).cgInosused.isset k = false) :
    ∃ s', takeInode env fs mode cg cgp k s = .done (asInt32 (cg * fs.fsIpg + k : Nat)) s' ∧
      InodeMoved fs s s' cg k true (·.takeInode mode) := by
  obtain ⟨init, ibp, t, prepared⟩ := initInodes_ok fs io cgp k s
  set taken : Cg := { cgp with
    cgInitediblk := init
    cgInosused := cgp.cgInosused.setbit k
    cgCs := cgp.cgCs.takeInode mode } with htaken
  set mid : State := { (s.atTick t).summary cg (·.takeInode mode) with
    tick := t + 1
    log := .bwrite :: s.log
    cgs := Function.update s.cgs cg taken }
  obtain ⟨t', l, d, wrote⟩ := writeInodes_ok fs io (cg * fs.fsIpg + init) ibp mid
  refine ⟨{ mid with tick := t', log := l, dinodes := d }, ?_, hk, clear, ⟨taken, rfl, ⟨magic, ?_, rotor⟩, ?_, fun i => ?_⟩, rfl, rfl, rfl⟩
  rotate_left
  · have one := clearInodes_setbit hk clear
    have before := old.nifree
    rw [htaken]
    simp only [Csum.takeInode, counters, map]
    omega
  · rw [htaken]
    simp only [counters]
  · rw [htaken]
    simp only [map, isset_setbit]
    by_cases here : i = k
    · simp [here]
    · simp [here, Ne.symm here]
  · unfold takeInode
    rw [Prog.bind_of_done prepared]
    simp only [ne_eq, not_true_eq_false, if_false, Prog.modify_bind_apply]
    rw [Prog.bind_of_done (blkwriteCg_ok io _ _), if_neg (by decide)]
    simp only [← htaken]
    exact Prog.bind_of_done wrote _

/-- A group whose counter is 0 is passed over; any other group gives an inode. -/
theorem ufsInodeAlloc_spec (io : env.IoOk) {s : State} (ok : InoCounts fs s) (mode : Nat) {cg : Nat}
    (inside : cg < fs.fsNcg) {ipref : Nat} (positive : ipref < 2 ^ 63) :
    ((s.cgs cg).cgCs.csNifree = 0 ∧ ufsInodeAlloc env fs mode cg ipref s = .done 0 s) ∨
    ((s.cgs cg).cgCs.csNifree ≠ 0 ∧ ∃ k s', ufsInodeAlloc env fs mode cg ipref s
        = .done (asU64 (asInt32 (cg * fs.fsIpg + k : Nat))) s' ∧
      InodeMoved fs s s' cg k true (·.takeInode mode)) := by
  have group := ok.group cg inside
  unfold ufsInodeAlloc
  simp only [Prog.get_bind_apply, ok.cs cg inside]
  by_cases empty : (s.cgs cg).cgCs.csNifree = 0
  · exact .inl ⟨empty, by rw [if_pos empty, Prog.pure_apply]⟩
  · refine .inr ⟨empty, ?_⟩
    rw [if_neg empty, Prog.bind_of_done (blkreadCg_ok io s)]
    have fine : ¬ ((s.cgs cg).chkmagic = false ∨ (s.cgs cg).cgCs.csNifree = 0) := by
      simp [group.magic, empty]
    obtain ⟨k, rotor, found, hk, clear, below⟩ := pickInode_spec
      { s.cgs cg with cgTime := env.now } ⟨group.magic, group.nifree, group.irotor⟩ empty ipref
    obtain ⟨s', taken, moved⟩ := takeInode_spec (s := { s with tick := s.tick + 1 }) io
      { s.cgs cg with cgTime := env.now, cgIrotor := rotor } mode cg group rfl rfl group.magic below
      hk clear
    refine ⟨k, s', ?_, ⟨moved.place, moved.was, moved.group, moved.own, moved.total, moved.vnodes⟩⟩
    simp only [if_neg fine, if_neg (by omega : ¬ 2 ^ 63 ≤ ipref), found]
    rw [Prog.bind_of_done taken, Prog.pure_apply]

/-! ## Allocation on the mount -/

/-- Nothing that allocation of inodes looks at differs. -/
structure SameMaps (s s' : State) : Prop where
  cgs : s'.cgs = s.cgs
  csp : s'.fsCsp = s.fsCsp
  total : s'.fsCstotal = s.fsCstotal

theorem SameMaps.counts {s s' : State} (same : SameMaps s s') (ok : InoCounts fs s) :
    InoCounts fs s' := by
  refine ⟨?_, ?_, ?_⟩
  · rw [same.cgs]; exact ok.group
  · rw [same.cgs, same.csp]; exact ok.cs
  · rw [same.cgs, same.total]; exact ok.total

theorem SameMaps.used {s s' : State} (same : SameMaps s s') (ino : Nat) :
    s'.inoUsed fs ino = s.inoUsed fs ino := by
  rw [State.inoUsed, State.inoUsed, same.cgs]

/-- A free inode becomes used, and no other bit changes. -/
structure InodeTaken (fs : Superblock) (s s' : State) (ino : Nat) : Prop where
  valid : ino < fs.fsNcg * fs.fsIpg
  wasFree : s.inoUsed fs ino = false
  used : ∀ i, s'.inoUsed fs i = (s.inoUsed fs i || decide (i = ino))

theorem ino_lt {cg k : Nat} (inside : cg < fs.fsNcg) (hk : k < fs.fsIpg) :
    cg * fs.fsIpg + k < fs.fsNcg * fs.fsIpg := by
  have : (cg + 1) * fs.fsIpg ≤ fs.fsNcg * fs.fsIpg := Nat.mul_le_mul_right _ inside
  rw [Nat.add_mul, Nat.one_mul] at this
  omega

theorem InodeMoved.taken {s s' : State} {cg k : Nat} {change : Csum → Csum}
    (moved : InodeMoved fs s s' cg k true change) (inside : cg < fs.fsNcg) :
    InodeTaken fs s s' (cg * fs.fsIpg + k) := by
  refine ⟨ino_lt inside moved.place, ?_, fun i => ?_⟩
  · rw [inoUsed_at _ moved.place]; exact moved.was
  · rw [moved.used]
    by_cases here : i = cg * fs.fsIpg + k
    · simp [here]
    · simp [here]

/-- A counter of 0 means that no inode of the group is free. -/
theorem InoCounts.full {s : State} (ok : InoCounts fs s) {ino : Nat}
    (valid : ino < fs.fsNcg * fs.fsIpg) (zero : (s.cgs (fs.inoToCg ino)).cgCs.csNifree = 0) :
    s.inoUsed fs ino = true := by
  have none : clearInodes fs (s.cgs (fs.inoToCg ino)).cgInosused = 0 := by
    have := (ok.group _ (inoToCg_lt valid)).nifree
    omega
  have small := Nat.mod_lt ino fs.ipg_pos
  have notClear := (Finset.filter_eq_empty_iff.mp (Finset.card_eq_zero.mp none))
    (Finset.mem_range.mpr small)
  rw [State.inoUsed]
  exact Bool.eq_true_of_not_eq_false notClear

/-- With a total of 0 every inode is used. -/
theorem InoCounts.full_of_total {s : State} (ok : InoCounts fs s) (zero : s.fsCstotal.csNifree = 0)
    {ino : Nat} (valid : ino < fs.fsNcg * fs.fsIpg) : s.inoUsed fs ino = true := by
  have each : ∀ cg ∈ Finset.range fs.fsNcg, 0 ≤ (s.cgs cg).cgCs.csNifree := fun cg hc => by
    have := (ok.group cg (Finset.mem_range.mp hc)).nifree
    omega
  have sum := ok.total.symm.trans zero
  exact ok.full valid ((Finset.sum_eq_zero_iff_of_nonneg each).mp sum _
    (Finset.mem_range.mpr (inoToCg_lt valid)))

/-- The search has taken inode `ino`; the counters are right and no vnode is touched. -/
structure InodeGiven (fs : Superblock) (s : State) (ino : Nat) (s' : State) : Prop where
  taken : InodeTaken fs s s' ino
  counts : InoCounts fs s'
  vnodes : s'.vnodes = s.vnodes

section Valloc

variable (io : env.IoOk) (fits : fs.fsNcg * fs.fsIpg < 2 ^ 31) {s : State}
  (ok : InoCounts fs s) (zeroUsed : s.inoUsed fs 0 = true)

include fits in
/-- An inode number survives its way through an `int`. -/
theorem ino_returned {ino : Nat} (valid : ino < fs.fsNcg * fs.fsIpg) :
    asU64 (asInt32 ino) = ino ∧ asInt32 ino = ino := by
  have small : asInt32 ino = ino := asInt32_of_lt (by omega)
  exact ⟨by rw [small]; exact asU64_of_lt (by omega), small⟩

include fits in
/-- The preferred inode is one of the mount. -/
theorem vallocPref_lt (s : State) (pip : Inode) (mode : Nat) :
    vallocPref fs s pip mode < fs.fsNcg * fs.fsIpg := by
  have product : asU64 (asInt32 (fs.fsNcg * fs.fsIpg : Nat)) = fs.fsNcg * fs.fsIpg := by
    rw [asInt32_of_lt fits]
    exact asU64_of_lt (by omega)
  have some : 0 < fs.fsNcg * fs.fsIpg := Nat.mul_pos fs.ncg_pos fs.ipg_pos
  have pick : ∀ p, (if fs.fsNcg * fs.fsIpg ≤ p then 0 else p) < fs.fsNcg * fs.fsIpg := by
    intro p
    split <;> omega
  simp only [vallocPref, product]
  exact pick _

include io fits ok zeroUsed

/-- One group tried by `ufs_hashalloc`: passed over, or it gives an inode that is not 0. -/
theorem inodeAlloc_tries (mode : Nat) {cg pref : Nat} (inside : cg < fs.fsNcg) (positive : pref < 2 ^ 63) :
    ((s.cgs cg).cgCs.csNifree = 0 ∧ ufsInodeAlloc env fs mode cg pref s = .done 0 s) ∨
    ((s.cgs cg).cgCs.csNifree ≠ 0 ∧ ∃ ino s', ufsInodeAlloc env fs mode cg pref s = .done ino s' ∧
      ino ≠ 0 ∧ InodeGiven fs s ino s') := by
  rcases ufsInodeAlloc_spec io ok mode inside positive with failed | ⟨some, k, s', run, moved⟩
  · exact .inl failed
  · have taken := moved.taken inside
    rw [(ino_returned fits taken.valid).1] at run
    refine .inr ⟨some, _, s', run, ?_, taken, moved.counts inside ⟨-1, fun cs => ?_⟩ ok, moved.vnodes⟩
    · intro zero
      have free := taken.wasFree
      rw [zero, zeroUsed] at free
      cases free
    · simp only [Csum.takeInode]; omega

/-- The search over the groups: it gives a free inode, or there is none and nothing happened. -/
theorem hashalloc_inode (mode : Nat) {cg pref : Nat} (inside : cg < fs.fsNcg) (positive : pref < 2 ^ 63) :
    ∃ ino s', ufsHashalloc fs cg pref (ufsInodeAlloc env fs mode) s = .done ino s' ∧
      InoCounts fs s' ∧ s'.vnodes = s.vnodes ∧
      ((ino = 0 ∧ s' = s ∧ ∀ i < fs.fsNcg * fs.fsIpg, s.inoUsed fs i = true) ∨
        (ino ≠ 0 ∧ InodeTaken fs s s' ino)) := by
  have step : ∀ c p, c < fs.fsNcg → p = pref ∨ p = 0 →
      Tries (· = s) (InodeGiven fs s) (ufsInodeAlloc env fs mode c p) := by
    intro c p hc which t same
    rw [same]
    rcases inodeAlloc_tries io fits ok zeroUsed mode hc (by omega : p < 2 ^ 63) with
      ⟨-, run⟩ | ⟨-, ino, t', run, nonzero, effect⟩
    · exact ⟨0, s, run, fun _ => rfl, fun h => absurd rfl h⟩
    · exact ⟨ino, t', run, fun h => absurd h nonzero, fun _ => effect⟩
  obtain ⟨ino, s', run, failed, found⟩ := ufsHashalloc_spec step inside s rfl
  by_cases zero : ino = 0
  · have same := failed zero
    rw [same] at run
    refine ⟨ino, s, run, ok, rfl, .inl ⟨zero, rfl, fun i hi => ok.full hi ?_⟩⟩
    -- a group with a free inode would have been reached
    by_contra notFull
    have sure : ∀ p, p = pref ∨ p = 0 →
        Finds (· = s) (InodeGiven fs s) (ufsInodeAlloc env fs mode (fs.inoToCg i) p) := by
      intro p which t same
      rw [same]
      rcases inodeAlloc_tries io fits ok zeroUsed mode (inoToCg_lt hi) (by omega : p < 2 ^ 63) with
        ⟨full, -⟩ | ⟨-, r, t', ran, nonzero, effect⟩
      · exact absurd full notFull
      · exact ⟨r, t', ran, nonzero, effect⟩
    obtain ⟨r, t, ran, nonzero, -⟩ := ufsHashalloc_finds step (inoToCg_lt hi) sure inside s rfl
    rw [ran] at run
    cases run
    exact nonzero zero
  · have given := found zero
    exact ⟨ino, s', run, given.counts, given.vnodes, .inr ⟨zero, given.taken⟩⟩

end Valloc

/-- What a call of `ufs_valloc` comes to. -/
def VallocResult (fs : Superblock) (s : State) (r : Int × Nat) (s' : State) : Prop :=
  (r.1 = 0 ∧ InodeTaken fs s s' r.2 ∧ (s'.vnodes r.2).isSome) ∨
    (r.1 = -enospc ∧ (∀ i < fs.fsNcg * fs.fsIpg, s.inoUsed fs i = true) ∧
      ∀ i, s'.inoUsed fs i = s.inoUsed fs i)

theorem ufsValloc_spec (io : env.IoOk) (fits : fs.fsNcg * fs.fsIpg < 2 ^ 31) {s : State}
    (ok : InoCounts fs s) (zeroUsed : s.inoUsed fs 0 = true) {parent : Nat} {pv : Vnode}
    (there : s.vnodes parent = some pv) (mode : Nat) :
    ∃ r s', ufsValloc env fs parent mode s = .done r s' ∧ InoCounts fs s' ∧
      VallocResult fs s r s' := by
  unfold ufsValloc
  rw [Prog.bind_of_done (vnode2inode_ok there), Prog.get_bind_apply]
  by_cases empty : s.fsCstotal.csNifree = 0
  · rw [if_pos empty]
    exact ⟨_, s, rfl, ok, .inr ⟨rfl, fun i hi => ok.full_of_total empty hi, fun _ => rfl⟩⟩
  rw [if_neg empty]
  have prefValid := vallocPref_lt fits s pv.inode mode
  simp only [(ino_returned fits prefValid).1, countContigdirs, Prog.modify_bind_apply]
  set cg := fs.inoToCg (vallocPref fs s pv.inode mode) with hcg
  set s₁ : State := { s with
    fsContigdirs := Function.update s.fsContigdirs cg
      (if mode &&& ifmt = ifdir then
        if s.fsContigdirs cg < 255 then s.fsContigdirs cg + 1 else s.fsContigdirs cg
      else s.fsContigdirs cg - 1) }
  have same₁ : SameMaps s s₁ := ⟨rfl, rfl, rfl⟩
  obtain ⟨ino, s₂, searched, counts, -, outcome⟩ := hashalloc_inode io fits (same₁.counts ok)
    ((same₁.used 0).trans zeroUsed) mode (inoToCg_lt prefValid)
    (by omega : vallocPref fs s pv.inode mode < 2 ^ 63)
  rw [Prog.bind_of_done searched]
  rcases outcome with ⟨rfl, rfl, full⟩ | ⟨nonzero, taken⟩
  · rw [if_pos (by decide)]
    exact ⟨_, s₁, rfl, counts, .inr ⟨rfl, full, fun _ => rfl⟩⟩
  · have positive : ¬ asInt32 ino ≤ 0 := by
      rw [(ino_returned fits taken.valid).2]; omega
    obtain ⟨v, t, l, b, lo, hi, got, -, -⟩ := vnodeGet_total env fs ino s₂
    set s₃ : State := { s₂ with
      tick := t, log := l, dInoblock := b, dInomin := lo, dInomax := hi
      vnodes := Function.update s₂.vnodes ino (some v) }
    have mine : s₃.vnodes ino = some v := Function.update_self ..
    have mine' : (s₃.setVnode ino { v with inode := renewInode env t v.inode }).vnodes ino
        = some { v with inode := renewInode env t v.inode } := Function.update_self ..
    rw [if_neg positive, Prog.bind_of_done got, Prog.get_bind_apply,
      Prog.bind_of_done (updateInode_ok mine _), Prog.bind_of_done (vnode2inode_ok mine'),
      Prog.modify_bind_apply, Prog.pure_apply]
    refine ⟨_, _, rfl, ⟨counts.group, counts.cs, counts.total⟩,
      .inl ⟨rfl, ⟨taken.valid, taken.wasFree, taken.used⟩, ?_⟩⟩
    exact congrArg Option.isSome mine'

theorem ufsFreeInode_spec (io : env.IoOk) (fits : fs.fsNcg * fs.fsIpg < 2 ^ 31) {s : State}
    (ok : InoCounts fs s) {ino : Nat} (valid : ino < fs.fsNcg * fs.fsIpg)
    (used : s.inoUsed fs ino = true) (mode : Nat) :
    ∃ s', ufsFreeInode env fs ino mode s = .done 0 s' ∧
      InodeMoved fs s s' (fs.inoToCg ino) (ino % fs.fsIpg) false (·.giveInode mode) := by
  have inside := inoToCg_lt valid
  have group := ok.group _ inside
  have small := Nat.mod_lt ino fs.ipg_pos
  have below : ¬ (asInt32 (fs.fsIpg * fs.fsNcg : Nat) % 2 ^ 32).toNat ≤ ino % 2 ^ 32 := by
    rw [Nat.mul_comm, asInt32_of_lt fits]
    omega
  unfold ufsFreeInode
  simp only [if_neg below]
  rw [Prog.bind_of_done (blkreadCg_ok io s)]
  simp only [group.magic, Bool.true_eq_false, if_false, Prog.modify_bind_apply]
  rw [Prog.bind_of_done (blkwriteCg_ok io _ _), if_neg (by decide), Prog.pure_apply]
  refine ⟨_, rfl, small, used, ⟨_, rfl, ⟨group.magic, ?_, ?_⟩, rfl, fun i => ?_⟩, rfl, rfl, rfl⟩
  · have one := clearInodes_clrbit small used
    have before := group.nifree
    simp only [Csum.giveInode]
    omega
  · have rotor := group.irotor
    simp only
    split <;> omega
  · simp only [isset_clrbit]
    by_cases here : i = ino % fs.fsIpg
    · simp [here]
    · simp [here, Ne.symm here]

/-! ## Runs -/

/-- States reached by allocating inodes and by freeing allocated ones, each call with a device
    and a memory that do not fail. Between the calls the process may do anything that leaves
    the groups and the summaries alone. -/
inductive InoRun (fs : Superblock) (s₀ : State) : State → Prop
  | start : InoRun fs s₀ s₀
  | valloc {s s' : State} {env : Env} {parent mode : Nat} {r : Int × Nat} (run : InoRun fs s₀ s)
      (io : env.IoOk) (there : (s.vnodes parent).isSome)
      (call : ufsValloc env fs parent mode s = .done r s') : InoRun fs s₀ s'
  | free {s s' : State} {env : Env} {ino mode : Nat} {rc : Int} (run : InoRun fs s₀ s)
      (io : env.IoOk) (valid : ino < fs.fsNcg * fs.fsIpg) (real : ino ≠ 0)
      (used : s.inoUsed fs ino = true) (call : ufsFreeInode env fs ino mode s = .done rc s') :
      InoRun fs s₀ s'
  | other {s s' : State} (run : InoRun fs s₀ s) (same : SameMaps s s') : InoRun fs s₀ s'

/-- A used inode becomes free, and no other bit changes. -/
def InodeReleased (fs : Superblock) (s s' : State) (ino : Nat) : Prop :=
  ∀ i, s'.inoUsed fs i = (s.inoUsed fs i && !decide (i = ino))

theorem InodeMoved.released {s s' : State} {ino : Nat} {change : Csum → Csum}
    (moved : InodeMoved fs s s' (fs.inoToCg ino) (ino % fs.fsIpg) false change) :
    InodeReleased fs s s' ino := by
  intro i
  rw [moved.used, ← ino_split]
  by_cases here : i = ino
  · simp [here]
  · simp [here]

theorem giveInode_nifree (mode : Nat) (cs : Csum) :
    (cs.giveInode mode).csNifree = cs.csNifree + 1 := rfl

theorem inoRun_counts (fits : fs.fsNcg * fs.fsIpg < 2 ^ 31) {s₀ s : State} (start : InoCounts fs s₀)
    (zeroUsed : s₀.inoUsed fs 0 = true) (run : InoRun fs s₀ s) :
    InoCounts fs s ∧ s.inoUsed fs 0 = true := by
  induction run with
  | start => exact ⟨start, zeroUsed⟩
  | valloc run io there call ih =>
      obtain ⟨pv, hpv⟩ := Option.isSome_iff_exists.mp there
      obtain ⟨r, s', ran, counts, result⟩ := ufsValloc_spec io fits ih.1 ih.2 hpv _
      rw [call] at ran
      cases ran
      refine ⟨counts, ?_⟩
      rcases result with ⟨-, taken, -⟩ | ⟨-, -, same⟩
      · rw [taken.used, ih.2]; rfl
      · rw [same, ih.2]
  | free run io valid real used call ih =>
      obtain ⟨s', ran, moved⟩ := ufsFreeInode_spec io fits ih.1 valid used _
      rw [call] at ran
      cases ran
      refine ⟨moved.counts (inoToCg_lt valid) ⟨1, giveInode_nifree _⟩ ih.1, ?_⟩
      rw [moved.released, ih.2, decide_eq_false (Ne.symm real)]
      rfl
  | other run same ih => exact ⟨same.counts ih.1, by rw [same.used, ih.2]⟩

/-- The root directory of the small mount is in core. -/
def rootedState : State :=
  { smallState with
    vnodes := fun i =>
      if i = rootino then some ⟨copyOndiskToIncore { blankDinode with diMode := ifdir } rootino, 1⟩
      else none }

theorem smallState_inoCounts : InoCounts smallFs smallState := by
  have group : InoCgOk smallFs smallCg := ⟨by decide, by decide, by decide⟩
  exact ⟨fun _ _ => group, fun _ _ => rfl, by decide⟩

/-! ## More inodes than an `int` can number -/

/-- As `smallFs`, with so many groups that the last inodes have numbers from `2 ^ 31` on. -/
def wideFs : Superblock :=
  { smallFs with
    fsNcg := 2 ^ 27 + 1
    fsSize := 128 * (2 ^ 27 + 1)
    ncg_pos := by decide
    device_fits := by decide }

/-- A group without a free inode, but for the first one if that is wanted. -/
def wideCg (firstFree : Bool) : Cg :=
  { smallCg with
    cgCs := { smallCg.cgCs with csNifree := if firstFree then 1 else 0 }
    cgInosused := fun i => if firstFree ∧ i = 0 then 0xfe#8 else 0xff#8 }

/-- Only inode `2 ^ 31` is free; a directory of the group before it is in core. -/
def wideState : State :=
  { smallState with
    cgs := fun cg => wideCg (cg == 2 ^ 27)
    fsCsp := fun cg => (wideCg (cg == 2 ^ 27)).cgCs
    fsCstotal := { smallCg.cgCs with csNifree := 1 }
    vnodes := fun i =>
      if i = 2 ^ 31 - 14 then
        some ⟨copyOndiskToIncore { blankDinode with diMode := ifdir } (2 ^ 31 - 14), 1⟩
      else none }

theorem wideState_inoCounts : InoCounts wideFs wideState := by
  have each : ∀ b, InoCgOk wideFs (wideCg b) := by
    rintro (_ | _)
    · exact ⟨by decide, by decide, by decide⟩
    · exact ⟨by decide, by decide, by decide⟩
  refine ⟨fun cg _ => each _, fun _ _ => rfl, ?_⟩
  have only : ∀ cg ∈ Finset.range wideFs.fsNcg, cg ≠ 2 ^ 27 →
      (wideState.cgs cg).cgCs.csNifree = 0 := by
    intro cg _ other
    have : (cg == 2 ^ 27) = false := by simpa using other
    simp only [wideState, this]
    rfl
  rw [Finset.sum_eq_single (2 ^ 27) only]
  · rfl
  · intro out
    exact absurd (Finset.mem_range.mpr (by decide)) out

end FuseUfs
