import FuseUfs.Dropping

/-! # What a cut leaves of a file

`ufs_truncate` gives back every block from the last one down to the block of the new end,
that one included: the bytes before the new end go with it. A cut inside the last direct
block does nothing when the number of fragments stays the same, and otherwise frees the
first fragments of the block where it should free the last ones.
-/

namespace FuseUfs

open Lib

/-- A file in order, each indirect block of which leads to a block of the file. -/
structure TrimFile (fs : Superblock) (s : State) (ino : Nat) (v : Vnode) : Prop
    extends ConsistentFile fs s ino v where
  inUse : ∀ sl : Slot, sl.Indirect → fileAddr fs s v sl ≠ 0 →
    sl.first fs * fs.fsBsize < v.inode.iSize
  blocks : (∃ sl, fileAddr fs s v sl ≠ 0) → v.inode.iBlocks ≠ 0

/-- What a cut needs of a file: its blocks, and whatever its indirect blocks lead to, lie before
    its end. The inode in core may be ahead of the one on the device. -/
structure FileShape (fs : Superblock) (s : State) (ino : Nat) (v : Vnode) : Prop
    extends FileInv fs s ino v (fs.ownFrags v.inode.iSize) where
  cache : InoCache fs s
  ends : ∀ b, v.inode.iSize ≤ b * fs.fsBsize → fileAddr fs s v (.data b) = 0
  inUse : ∀ sl : Slot, sl.Indirect → fileAddr fs s v sl ≠ 0 →
    sl.first fs * fs.fsBsize < v.inode.iSize

theorem TrimFile.shape {fs : Superblock} {s : State} {ino : Nat} {v : Vnode}
    (ok : TrimFile fs s ino v) : FileShape fs s ino v :=
  ⟨ok.toFileInv, ok.cache, ok.ends, ok.inUse⟩

/-- The vnode with another size. -/
def Vnode.resized (v : Vnode) (size : Nat) : Vnode := { v with inode := { v.inode with iSize := size } }

section Cut

variable {env : Env} {fs : Superblock} {ino : Nat} {own : Nat → Nat} {s s' t : State} {v : Vnode}
  {size : Nat}

/-! ## The run of a cut -/

/-- Writing the inode gives nothing back. -/
theorem InodeWritten.dropped (written : InodeWritten fs ino s v s') (inv : FileInv fs s ino v own) :
    Dropped fs ino own ∅ s v s' (v.synced fs) := by
  obtain ⟨inv', addr, moved, data⟩ := written.file True inv
  have free : s'.free fs = s.free fs := by rw [written.frame]; rfl
  refine ⟨inv', fun _ => written.cache, moved.dinodes, moved.vnodes, moved.files, moved.ronly,
    fun _ h => h.elim, fun sl _ => by rw [addr], fun x => ?_, ?_,
    fun _ => by rw [written.frame], id⟩
  · rw [free]
    exact ⟨.inl, fun h => h.resolve_right fun ⟨_, out, _⟩ => out⟩
  · rw [data]
    exact fun _ _ _ _ => rfl

theorem dropped_resized (inv : FileInv fs s ino v own) (size : Nat) :
    Dropped fs ino own ∅ s v (s.setVnode ino (v.resized size)) (v.resized size) := by
  refine ⟨⟨⟨⟨inv.alloc.group, inv.alloc.cs, inv.alloc.total⟩, inv.boot, inv.zero, inv.device⟩,
    Function.update_self .., inv.number, inv.valid, inv.owned⟩,
    fun cache => cache.core (setVnode_core (v.resized size)), fun _ _ => rfl,
    (setVnode_core _).others, rfl, rfl, fun _ h => h.elim, fun _ _ => rfl, fun x => ?_,
    fun _ _ _ _ => rfl, fun _ => rfl, id⟩
  exact ⟨.inl, fun h => h.resolve_right fun ⟨_, out, _⟩ => out⟩

/-- The length with which the walk frees a block is the length of the block. -/
theorem cut_width {b : Nat} (inside : b * fs.fsBsize < size) :
    0 < fs.ownFrags size b ∧ fs.ownFrags size b * fs.fsFsize
      = if size / fs.fsBsize < ndaddr ∧ b = size / fs.fsBsize then lastBlockSize fs size
        else fs.fsBsize := by
  have bpos := fs.bsize_pos
  have fpos := fs.fsize_pos
  have below : size < (size / fs.fsBsize + 1) * fs.fsBsize := by
    rw [Nat.mul_comm]
    exact Nat.lt_mul_div_succ size bpos
  by_cases full : ndaddr ≤ b ∨ (b + 1) * fs.fsBsize ≤ size
  · rw [ownFrags_full full, if_neg, ← fs.bsize_eq_mul]
    · exact ⟨fs.frag_pos, rfl⟩
    · rintro ⟨few, rfl⟩
      omega
  · have last : b = size / fs.fsBsize := (Nat.div_eq_of_lt_le inside.le (by omega)).symm
    have rest : size % fs.fsBsize ≠ 0 := by
      have := Nat.div_add_mod' size fs.fsBsize
      rw [← last] at this
      omega
    refine ⟨?_, ?_⟩
    · rw [ownFrags_last (by omega) inside (by omega)]
      exact lastFrags_pos size
    · rw [if_pos ⟨by omega, last⟩]
      unfold Superblock.ownFrags Superblock.blksize lastBlockSize
      rw [fs.smalllblktosize_eq, if_neg (by omega), if_pos rest, fs.blkoff_eq, fs.fragroundup_eq,
        Nat.mul_div_cancel _ fpos]

theorem lblknoInt_eq {x : Nat} (low : x / fs.fsBsize < 2 ^ 31) :
    lblknoInt fs x = (x / fs.fsBsize : Nat) := by
  unfold lblknoInt
  rw [← Int.natCast_ediv]
  exact asInt32_of_lt low

/-- The fragments up to a position in a direct block. -/
theorem fragsOf_eq {b x : Nat} (few : b < ndaddr) (low : b * fs.fsBsize < x)
    (high : x < (b + 1) * fs.fsBsize) : fragsOf fs x = (b * fs.fsFrag + fs.ownFrags x b : Nat) := by
  rw [ownFrags_last few low high, frags_eq low high.le]
  unfold fragsOf
  rw [← Int.natCast_add, ← Int.natCast_ediv]

theorem fragsOf_start (b : Nat) : fragsOf fs (b * fs.fsBsize : Nat) = (b * fs.fsFrag : Nat) := by
  rw [fs.bsize_eq_mul, ← Nat.mul_assoc]
  exact fragsOf_mul _

/-- What a cut that moves the last block leaves behind: the first `k` fragments of the block were
    freed, as many were taken at `w`, and nothing else was freed. -/
structure Shifted (fs : Superblock) (ino b k w : Nat) (s : State) (v : Vnode) (s' : State)
    (v' : Vnode) : Prop where
  there : s'.vnodes ino = some v'
  addr_ne : w ≠ 0
  addr : ∀ b', fileAddr fs s' v' (.data b') = if b' = b then w else fileAddr fs s v (.data b')
  used : ∀ x, s.free fs x = false →
    ¬ (fileAddr fs s v (.data b) ≤ x ∧ x < fileAddr fs s v (.data b) + k) → s'.free fs x = false
  taken : ∀ x, w ≤ x → x < w + k → s.free fs x = true ∨
    (fileAddr fs s v (.data b) ≤ x ∧ x < fileAddr fs s v (.data b) + k)

/-- The part of `ufs_truncate` that moves the last block. -/
theorem truncatePartial_spec (io : env.IoOk) (cache : InoCache fs s) (inv : FileInv fs s ino v own)
    {b k : Nat} (small : b < 2 ^ 32) (there : fileAddr fs s v (.data b) ≠ 0) (pos : 0 < k)
    (le : k ≤ own b) {iSize : Nat} {newsize : Int}
    (run : truncatePartial env fs ino b (fileAddr fs s v (.data b)) (k * fs.fsFsize) iSize newsize s
      = .done 0 s') :
    ∃ w v', Shifted fs ino b k w s v s' v' ∧ InoCache fs s' ∧
      FileInv fs s' ino v' (Function.update own b k) := by
  have bytes : 0 < k * fs.fsFsize := Nat.mul_pos pos fs.fsize_pos
  have width : own b ≤ fs.fsFrag := by
    have := (inv.owned.fits (.data b) there).fits
    rw [slotWidth] at this
    omega
  unfold truncatePartial partialBuf at run
  obtain ⟨buf, s₁, read, run⟩ := Prog.bind_eq_done.mp run
  rw [Prog.bind_of_done (blkread_ok io bytes _ s)] at read
  obtain ⟨-, rfl⟩ := Prog.pure_eq_done.mp read
  obtain ⟨⟨⟩, s₂, freeing, run⟩ := Prog.bind_eq_done.mp run
  obtain ⟨inv₂, core₂, data₂, map₂⟩ := ufsBlockFree_file io (inv.atTick (s.tick + 1)) there pos le freeing
  rw [Prog.bind_of_done (vnode2inode_ok inv₂.there)] at run
  obtain ⟨⟨rc, w⟩, s₃, alloc, run⟩ := Prog.bind_eq_done.mp run
  simp only at run
  split at run
  · next failed => exact absurd (Prog.pure_eq_done.mp run).1 failed
  next fine =>
  obtain rfl : rc = 0 := not_not.mp fine
  obtain ⟨inv₃, reserved, core₃, data₃, -, wasFree, map₃⟩ :=
    ufsBlockAlloc_file io inv₂ pos (le.trans width) alloc
  obtain ⟨rc, s₄, set, run⟩ := Prog.bind_eq_done.mp run
  split at run
  · next failed => exact absurd (Prog.pure_eq_done.mp run).1 failed
  next fine =>
  obtain rfl : rc = 0 := not_not.mp fine
  rw [asBlk_of_lt small] at set
  obtain ⟨v₄, stored⟩ := ufsSetBlock_spec io inv₃ (.inr reserved) set
  have here : fileAddr fs s₄ v₄ (.data b) = w := by rw [stored.addr, if_pos rfl]
  rw [Prog.bind_of_done (blkwrite_ok io reserved.inBlock.offset_fits _ _)] at run
  cases run
  have before : fileAddr fs s₃ v = fileAddr fs s v := by
    rw [fileAddr, fileAddr, data₃, data₂]
    rfl
  obtain ⟨inv₅, addr₅, -, -⟩ := put_data True stored.inv buf (here ▸ reserved.addr_ne)
    (by rw [Function.update_self])
  rw [here] at inv₅ addr₅
  have all : CoreFrame ino s (s₄.put fs w buf (k * fs.fsFsize)) :=
    (atTick_core ino s _).trans (core₂.trans (core₃.trans (stored.step.core.trans (put_core _ _ _ _))))
  refine ⟨w, v₄, ⟨inv₅.there, reserved.addr_ne, fun b' => ?_, fun x used outside => ?_,
    fun x low high => ?_⟩, cache.core all, ?_⟩
  · rw [addr₅, stored.addr, before]
  · refine stored.step.free x ?_
    rw [map₃, map₂, fileAddr_atTick, decide_eq_false outside, Bool.or_false]
    change (s.free fs x && _) = false
    rw [used, Bool.false_and]
  · have free := wasFree x low high
    rw [map₂, fileAddr_atTick, Bool.or_eq_true, decide_eq_true_eq] at free
    exact free
  · rwa [Function.update_idem] at inv₅

section Run

variable (io : env.IoOk) (ok : FileShape fs s ino v)

include ok

theorem FileShape.indirect_past {sl : Slot} (ind : sl.Indirect)
    (past : v.inode.iSize / fs.fsBsize < sl.first fs) : fileAddr fs s v sl = 0 := by
  by_contra there
  have reach := ok.inUse sl ind there
  have : v.inode.iSize < sl.first fs * fs.fsBsize := (Nat.div_lt_iff_lt_mul fs.bsize_pos).mp past
  omega

theorem FileShape.data_past {b : Nat} (past : v.inode.iSize / fs.fsBsize < b) :
    fileAddr fs s v (.data b) = 0 :=
  ok.ends b ((Nat.div_lt_iff_lt_mul fs.bsize_pos).mp past).le

theorem FileShape.data_inside {b : Nat} (there : fileAddr fs s v (.data b) ≠ 0) :
    b * fs.fsBsize < v.inode.iSize := by
  by_contra past
  exact there (ok.ends b (not_lt.mp past))

include io

/-- The second half of a cut: the indirect blocks, and then the inode. -/
theorem truncate_rest {gone : Set Slot} {s₁ : State} {v₁ : Vnode} (new left : Nat)
    (range : v.inode.iSize / fs.fsBsize < fs.maxBlocks)
    (enough : v.inode.iSize / fs.fsBsize ≤ new + left)
    (drop : Dropped fs ino (fs.ownFrags v.inode.iSize) gone s v s₁ v₁)
    (only : ∀ sl ∈ gone, ¬ sl.Indirect)
    (empty : new < v.inode.iSize / fs.fsBsize → ∀ b, new ≤ b → fileAddr fs s₁ v₁ (.data b) = 0) :
    ∃ t v', (truncateIndir env fs ino new left (v.inode.iSize / fs.fsBsize : Nat) >>=
      fun _ => ufsWriteInode env fs ino) s₁ = .done 0 t ∧
      Dropped fs ino (fs.ownFrags v.inode.iSize) (gone ∪ indirPast fs new) s v t v' := by
  have later : ∀ sl : Slot, sl.Indirect → v.inode.iSize / fs.fsBsize < sl.first fs →
      fileAddr fs s₁ v₁ sl = 0 := by
    intro sl ind past
    rw [drop.stays sl fun out => only sl out ind]
    exact ok.indirect_past ind past
  have walk : ∃ s₂ v₂, truncateIndir env fs ino new left (v.inode.iSize / fs.fsBsize : Nat) s₁
      = .done () s₂ ∧ Dropped fs ino (fs.ownFrags v.inode.iSize) (indirPast fs new) s₁ v₁ s₂ v₂ := by
    by_cases more : new < v.inode.iSize / fs.fsBsize
    · exact truncateIndir_spec io left (by omega) (by omega) drop.inv (empty more)
        fun sl ind past => later sl ind (by omega)
    · refine ⟨s₁, v₁, ?_, (Dropped.refl drop.inv).grow (Set.empty_subset _) ?_⟩
      · cases left with
        | zero => rfl
        | succ left =>
            rw [truncateIndir, if_neg (by omega)]
            rfl
      · rintro sl ⟨ind, past⟩ -
        exact later sl ind (by omega)
  obtain ⟨s₂, v₂, walked, drop'⟩ := walk
  have both := drop.trans drop'
  obtain ⟨s₃, wrote, written⟩ := ufsWriteInode_ok io.toInoOk (both.cache ok.cache) both.inv.there
  have all := both.trans (written.dropped both.inv)
  rw [Set.union_empty] at all
  exact ⟨s₃, _, by rw [Prog.bind_of_done walked, wrote], all⟩

/-- A cut that does not end in the last direct block gives back every block from its end on, unless
    it comes to the address at which `ufs_bmap` exits. -/
theorem ufsTruncate_walks (less : size < v.inode.iSize)
    (range : v.inode.iSize / fs.fsBsize < fs.maxBlocks)
    (whole : ¬ (v.inode.iSize / fs.fsBsize < ndaddr ∧
      size / fs.fsBsize = v.inode.iSize / fs.fsBsize)) :
    (¬ Unpoisoned fs s v (dataFrom (size / fs.fsBsize)) ∧ ∃ t, ufsTruncate env fs ino size s = .halt t) ∨
    (Unpoisoned fs s v (dataFrom (size / fs.fsBsize)) ∧ ∃ t v', ufsTruncate env fs ino size s = .done 0 t ∧
      Dropped fs ino (fs.ownFrags v.inode.iSize)
        (dataFrom (size / fs.fsBsize) ∪ indirPast fs (size / fs.fsBsize)) s v t v') := by
  have order : size / fs.fsBsize ≤ v.inode.iSize / fs.fsBsize := Nat.div_le_div_right less.le
  have big : fs.maxBlocks < 2 ^ 31 := maxBlocks_lt
  have turns : (((v.inode.iSize / fs.fsBsize : Nat) : Int) - (size / fs.fsBsize : Nat) + 1).toNat
      = v.inode.iSize / fs.fsBsize - size / fs.fsBsize + 1 := by omega
  unfold ufsTruncate
  rw [Prog.bind_of_done (vnode2inode_ok ok.there)]
  simp only [lblknoInt_eq (by omega : size / fs.fsBsize < 2 ^ 31),
    lblknoInt_eq (by omega : v.inode.iSize / fs.fsBsize < 2 ^ 31), turns]
  set new := size / fs.fsBsize with hnew
  set old := v.inode.iSize / fs.fsBsize with hold
  have start : ((old : Nat) : Int) = new + (old - new + 1 : Nat) - 1 := by omega
  have sub : dataRange new (old - new + 1) ⊆ dataFrom new := by
    rintro sl ⟨b, low, -, rfl⟩
    exact ⟨b, low, rfl⟩
  have past : ∀ sl ∈ dataFrom new, sl ∉ dataRange new (old - new + 1) → fileAddr fs s v sl = 0 := by
    rintro sl ⟨b, low, rfl⟩ out
    refine ok.data_past ?_
    by_contra inside
    exact out ⟨b, low, by omega, rfl⟩
  have walk := truncateData_walks io size range whole (old - new + 1) (by omega)
    ok.toFileInv (fun b _ _ there => cut_width (ok.data_inside there))
  rw [← start] at walk
  rcases walk with ⟨found, t, stop⟩ | ⟨clean, s₁, v₁, walked, drop⟩
  · exact .inl ⟨fun clean => found fun sl mem => clean sl (sub mem), t, Prog.bind_of_halt stop _⟩
  · have all : Unpoisoned fs s v (dataFrom new) := by
      intro sl mem
      by_cases inside : sl ∈ dataRange new (old - new + 1)
      · exact clean sl inside
      · rw [past sl mem inside]
        decide
    have drop := drop.grow sub past
    have only : ∀ sl ∈ dataFrom new, ¬ sl.Indirect := by
      rintro sl ⟨b, -, rfl⟩ ind
      exact ind
    obtain ⟨t, v', rest, done⟩ := truncate_rest io ok new (old - new + 1) range (by omega) drop only
      fun _ b low => drop.cleared _ ⟨b, low, rfl⟩
    exact .inr ⟨all, t, v', (Prog.bind_of_done walked _).trans rest, done⟩

/-- The same, of a cut that returns. -/
theorem ufsTruncate_whole (less : size < v.inode.iSize)
    (range : v.inode.iSize / fs.fsBsize < fs.maxBlocks)
    (whole : ¬ (v.inode.iSize / fs.fsBsize < ndaddr ∧
      size / fs.fsBsize = v.inode.iSize / fs.fsBsize)) {rc : Int}
    (run : ufsTruncate env fs ino size s = .done rc t) :
    rc = 0 ∧ ∃ v', Dropped fs ino (fs.ownFrags v.inode.iSize)
      (dataFrom (size / fs.fsBsize) ∪ indirPast fs (size / fs.fsBsize)) s v t v' := by
  rcases ufsTruncate_walks io ok less range whole with ⟨-, t', stop⟩ | ⟨-, t', v', ran, drop⟩
  · rw [stop] at run
    cases run
  · rw [ran] at run
    cases run
    exact ⟨rfl, v', drop⟩

/-- A cut inside the last direct block does nothing, or it works on that block alone. -/
theorem ufsTruncate_last (size : Nat) (few : v.inode.iSize / fs.fsBsize < ndaddr)
    (same : size / fs.fsBsize = v.inode.iSize / fs.fsBsize) :
    ∃ n, ufsTruncate env fs ino size s =
      if fileAddr fs s v (.data (size / fs.fsBsize)) = poisonBlock then .halt (s.atTick n)
      else if fragsOf fs size = fragsOf fs v.inode.iSize then .done 0 (s.atTick n)
      else (truncateData.cutLast env fs ino v.inode.iSize size
          (fileAddr fs s v (.data (size / fs.fsBsize)))
          ((fragsOf fs v.inode.iSize - fragsOf fs size) * fs.fsFsize).toNat
          (size / fs.fsBsize : Nat) >>= fun rc => if rc ≠ 0 then pure rc else
        truncateIndir env fs ino (size / fs.fsBsize : Nat) 1 (v.inode.iSize / fs.fsBsize : Nat) >>=
          fun _ => ufsWriteInode env fs ino) (s.atTick n) := by
  have few' : size / fs.fsBsize < 12 := same ▸ few
  have direct : size / fs.fsBsize < fs.maxBlocks := by
    unfold Superblock.maxBlocks ndaddr
    omega
  obtain ⟨n, bmap⟩ := ufsBmap_ok io ok.there direct (.inl ok.zero)
  refine ⟨n, ?_⟩
  unfold ufsTruncate
  rw [Prog.bind_of_done (vnode2inode_ok ok.there)]
  simp only [lblknoInt_eq (by omega : size / fs.fsBsize < 2 ^ 31),
    lblknoInt_eq (by omega : v.inode.iSize / fs.fsBsize < 2 ^ 31), ← same, sub_self, zero_add,
    Int.toNat_one]
  set new := size / fs.fsBsize with hnew
  change ufsBmap env fs ino new s = if fileAddr fs s v (.data new) = poisonBlock then _ else
    .done (0, fileAddr fs s v (.data new)) _ at bmap
  have last : (new : Int) < ndaddr := Int.ofNat_lt.mpr few'
  rw [truncateData, if_neg (by omega), asBlk_of_lt (by omega)]
  by_cases poison : fileAddr fs s v (.data new) = poisonBlock
  · rw [if_pos poison] at bmap ⊢
    exact Prog.bind_of_halt (Prog.bind_of_halt bmap _) _
  rw [if_neg poison] at bmap ⊢
  rw [Prog.bind_apply, Prog.bind_of_done bmap]
  simp only [ne_eq, not_true_eq_false, if_false, last, and_self, if_true]
  by_cases equal : fragsOf fs size = fragsOf fs v.inode.iSize
  · simp only [if_pos equal]
    rfl
  simp only [if_neg equal]
  rw [Prog.bind_apply, Prog.bind_apply]
  cases truncateData.cutLast env fs ino v.inode.iSize size (fileAddr fs s v (.data new))
    ((fragsOf fs v.inode.iSize - fragsOf fs size) * fs.fsFsize).toNat new (s.atTick n) with
  | halt t => rfl
  | done rc t =>
      by_cases fine : rc = 0
      · simp only [fine, not_true_eq_false, if_false]
        rfl
      · simp only [fine, not_false_eq_true, if_true]
        rfl

theorem ufsTruncate_inside (few : v.inode.iSize / fs.fsBsize < ndaddr)
    (same : size / fs.fsBsize = v.inode.iSize / fs.fsBsize)
    (run : ufsTruncate env fs ino size s = .done 0 t) :
    ∃ n, (fragsOf fs size = fragsOf fs v.inode.iSize ∧ t = s.atTick n) ∨
      (fragsOf fs size ≠ fragsOf fs v.inode.iSize ∧ ∃ s₁,
        truncateData.cutLast env fs ino v.inode.iSize size
          (fileAddr fs s v (.data (size / fs.fsBsize)))
          ((fragsOf fs v.inode.iSize - fragsOf fs size) * fs.fsFsize).toNat
          (size / fs.fsBsize : Nat) (s.atTick n) = .done 0 s₁ ∧
        (truncateIndir env fs ino (size / fs.fsBsize : Nat) 1 (v.inode.iSize / fs.fsBsize : Nat) >>=
          fun _ => ufsWriteInode env fs ino) s₁ = .done 0 t) := by
  obtain ⟨n, cut⟩ := ufsTruncate_last io ok size few same
  rw [run] at cut
  refine ⟨n, ?_⟩
  split at cut
  · cases cut
  split at cut
  · next equal =>
    cases cut
    exact .inl ⟨equal, rfl⟩
  · next other =>
    obtain ⟨rc, s₃, ran, rest⟩ := Prog.bind_eq_done.mp cut.symm
    split at rest
    · next failed => exact absurd (Prog.pure_eq_done.mp rest).1 failed
    · next fine =>
      obtain rfl : rc = 0 := not_not.mp fine
      exact .inr ⟨other, s₃, ran, rest⟩

/-- A cut inside the last direct block, where that block is a hole. -/
theorem ufsTruncate_hole (few : v.inode.iSize / fs.fsBsize < ndaddr)
    (same : size / fs.fsBsize = v.inode.iSize / fs.fsBsize)
    (other : fragsOf fs size ≠ fragsOf fs v.inode.iSize)
    (hole : fileAddr fs s v (.data (size / fs.fsBsize)) = 0)
    (run : ufsTruncate env fs ino size s = .done 0 t) :
    ∃ v', Dropped fs ino (fs.ownFrags v.inode.iSize) (indirPast fs (size / fs.fsBsize)) s v t v' := by
  obtain ⟨n, ⟨equal, -⟩ | ⟨-, s₁, cut, rest⟩⟩ := ufsTruncate_inside io ok few same run
  · exact absurd equal other
  unfold truncateData.cutLast at cut
  rw [if_pos hole] at cut
  cases cut
  have range : v.inode.iSize / fs.fsBsize < fs.maxBlocks := by
    unfold Superblock.maxBlocks
    omega
  obtain ⟨t', v', ran, drop⟩ := truncate_rest io ok (size / fs.fsBsize) 1 range (by omega)
    (Dropped.atTick ok.toFileInv n) (fun _ out => out.elim) (fun less => by omega)
  rw [ran] at rest
  cases rest
  rw [Set.empty_union] at drop
  exact ⟨v', drop⟩

/-- Cutting a file of one block to nothing. -/
theorem ufsTruncate_block (few : v.inode.iSize < fs.fsBsize) (some : 0 < v.inode.iSize) :
    (¬ Unpoisoned fs s v (dataFrom 0) ∧ ∃ t, ufsTruncate env fs ino (0 : Nat) s = .halt t) ∨
    (Unpoisoned fs s v (dataFrom 0) ∧ ∃ t v', ufsTruncate env fs ino (0 : Nat) s = .done 0 t ∧
      Dropped fs ino (fs.ownFrags v.inode.iSize) (dataFrom 0 ∪ indirPast fs 0) s v t v') := by
  have bpos := fs.bsize_pos
  have last : v.inode.iSize / fs.fsBsize = 0 := Nat.div_eq_of_lt few
  have first : (0 : Nat) / fs.fsBsize = 0 := Nat.zero_div _
  have range : v.inode.iSize / fs.fsBsize < fs.maxBlocks := by
    unfold Superblock.maxBlocks ndaddr
    omega
  have frags : fragsOf fs v.inode.iSize = (fs.ownFrags v.inode.iSize 0 : Nat) := by
    rw [fragsOf_eq (b := 0) (by decide) (by omega) (by omega), Nat.zero_mul, Nat.zero_add]
  have none : fragsOf fs ((0 : Nat) : Int) = 0 := by
    have start : fragsOf fs (0 * fs.fsBsize : Nat) = (0 * fs.fsFrag : Nat) := fragsOf_start 0
    rwa [Nat.zero_mul, Nat.zero_mul] at start
  have pos : 0 < fs.ownFrags v.inode.iSize 0 := (cut_width (by omega)).1
  have late : ∀ sl ∈ dataFrom 0, sl ∉ ({.data 0} : Set Slot) → fileAddr fs s v sl = 0 := by
    rintro sl ⟨b, -, rfl⟩ other
    refine ok.data_past ?_
    have : b ≠ 0 := by simpa using other
    omega
  have bytes : ((fs.ownFrags v.inode.iSize 0 : Int) * fs.fsFsize).toNat
      = fs.ownFrags v.inode.iSize 0 * fs.fsFsize := by
    rw [← Int.natCast_mul, Int.toNat_natCast]
  obtain ⟨n, run⟩ := ufsTruncate_last io ok 0 (by rw [last]; decide) (by rw [first, last])
  simp only [first, none, frags, sub_zero, bytes] at run
  rw [run]
  by_cases poison : fileAddr fs s v (.data 0) = poisonBlock
  · exact .inl ⟨fun clean => clean _ ⟨0, le_rfl, rfl⟩ poison, _, if_pos poison⟩
  rw [if_neg poison, if_neg (by omega)]
  have clean : Unpoisoned fs s v (dataFrom 0) := by
    intro sl mem
    by_cases here : sl = .data 0
    · rw [here]
      exact poison
    · rw [late sl mem here]
      decide
  have tick := Dropped.atTick ok.toFileInv n
  have gone : ∃ s₁ v₁, truncateData.cutLast env fs ino v.inode.iSize (0 : Nat)
      (fileAddr fs s v (.data 0)) (fs.ownFrags v.inode.iSize 0 * fs.fsFsize) (0 : Nat) (s.atTick n)
      = .done 0 s₁ ∧ Dropped fs ino (fs.ownFrags v.inode.iSize) (dataFrom 0) s v s₁ v₁ := by
    unfold truncateData.cutLast
    by_cases hole : fileAddr fs s v (.data 0) = 0
    · rw [if_pos hole]
      refine ⟨_, v, rfl, tick.grow (Set.empty_subset _) fun sl out _ => ?_⟩
      by_cases here : sl = .data 0
      · rw [here, hole]
      · exact late sl out here
    · obtain ⟨s₂, v₂, ran, drop⟩ := truncateBlock_spec io (ok.toFileInv.atTick n) (by omega) hole pos
      rw [if_neg hole, if_pos (by simp)]
      rw [fileAddr_atTick] at ran
      have both := tick.trans drop
      rw [Set.empty_union] at both
      refine ⟨s₂, v₂, ran, both.grow ?_ late⟩
      rintro sl rfl
      exact ⟨0, le_rfl, rfl⟩
  obtain ⟨s₁, v₁, cut, drop⟩ := gone
  have only : ∀ sl ∈ dataFrom 0, ¬ sl.Indirect := by
    rintro sl ⟨b, -, rfl⟩ ind
    exact ind
  obtain ⟨t, v', rest, all⟩ := truncate_rest io ok 0 1 range (by omega) drop only
    fun _ b low => drop.cleared _ ⟨b, low, rfl⟩
  refine .inr ⟨clean, t, v', ?_, all⟩
  exact (Prog.bind_of_done cut _).trans rest

theorem ufsTruncate_nothing (few : v.inode.iSize < fs.fsBsize) (some : 0 < v.inode.iSize)
    (run : ufsTruncate env fs ino (0 : Nat) s = .done 0 t) :
    ∃ v', Dropped fs ino (fs.ownFrags v.inode.iSize) (dataFrom 0 ∪ indirPast fs 0) s v t v' := by
  rcases ufsTruncate_block io ok few some with ⟨-, t', stop⟩ | ⟨-, t', v', ran, drop⟩
  · rw [stop] at run
    cases run
  · rw [ran] at run
    cases run
    exact ⟨v', drop⟩

end Run

/-! ## Setting the size -/

/-- `ufs_file_set_size` through a handle with nothing to flush: the cut, and then the size. -/
theorem setSize_cases (there : s.vnodes ino = some v) {file file' : UfsFile} (same : file.ino = ino)
    (clean : file.bufValid = false ∨ file.bufDirty = false) {rc : Int}
    (run : ufsFileSetSize env fs file size s = .done (rc, file') s') :
    (¬ (size < v.inode.iSize ∧ v.inode.iBlocks ≠ 0) ∧ rc = 0 ∧
        s' = s.setVnode ino (v.resized (size % 2 ^ 32))) ∨
      (size < v.inode.iSize ∧ v.inode.iBlocks ≠ 0 ∧ ∃ t, ufsTruncate env fs ino (asInt32 size) s = .done rc t ∧
        updateInode ino (fun i => { i with iSize := size % 2 ^ 32 }) t = .done () s') := by
  subst same
  have flush : ufsFileFlush env fs file s = .done (0, file) s := by
    unfold ufsFileFlush
    rw [Prog.bind_of_done (vnode2inode_ok there), if_pos clean]
    rfl
  unfold ufsFileSetSize ufsFileSetSize.cut at run
  rw [Prog.bind_of_done flush] at run
  simp only at run
  rw [Prog.bind_of_done (vnode2inode_ok there)] at run
  obtain ⟨rc', t, cut, run⟩ := Prog.bind_eq_done.mp run
  obtain ⟨⟨⟩, s₁, update, run⟩ := Prog.bind_eq_done.mp run
  cases run
  split at cut
  · next less => exact .inr ⟨less.1, less.2, t, cut, update⟩
  · next keep =>
    cases cut
    rw [updateInode_ok there] at update
    cases update
    exact .inl ⟨keep, rfl, rfl⟩

/-- Growing a file changes nothing but its size. -/
theorem setSize_grow (there : s.vnodes ino = some v) {file : UfsFile} (same : file.ino = ino)
    (clean : file.bufValid = false ∨ file.bufDirty = false) (grow : v.inode.iSize ≤ size) :
    ufsFileSetSize env fs file size s
      = .done (0, file) (s.setVnode ino (v.resized (size % 2 ^ 32))) := by
  subst same
  have flush : ufsFileFlush env fs file s = .done (0, file) s := by
    unfold ufsFileFlush
    rw [Prog.bind_of_done (vnode2inode_ok there), if_pos clean]
    rfl
  unfold ufsFileSetSize ufsFileSetSize.cut
  rw [Prog.bind_of_done flush]
  simp only
  rw [Prog.bind_of_done (vnode2inode_ok there), if_neg (by omega), Prog.pure_bind_apply,
    Prog.bind_of_done (updateInode_ok there _)]
  rfl

/-- The cut and the new size together. -/
theorem Dropped.resize {gone : Set Slot} {v₁ : Vnode} (drop : Dropped fs ino own gone s v t v₁)
    (run : updateInode ino (fun i => { i with iSize := size % 2 ^ 32 }) t = .done () s') :
    Dropped fs ino own gone s v s' (v₁.resized (size % 2 ^ 32)) := by
  rw [updateInode_ok drop.inv.there] at run
  cases run
  have both := drop.trans (dropped_resized drop.inv (size % 2 ^ 32))
  rwa [Set.union_empty] at both

theorem Dropped.byte_gone {gone : Set Slot} {v' : Vnode} (drop : Dropped fs ino own gone s v s' v')
    {p : Nat} (out : .data (p / fs.fsBsize) ∈ gone) : s'.byte fs v' p = 0 := by
  rw [byte_eq, drop.cleared _ out]
  exact if_pos rfl

theorem Dropped.byte_stays {gone : Set Slot} {v' : Vnode} (drop : Dropped fs ino own gone s v s' v')
    (inv : FileInv fs s ino v own) {p : Nat} (left : .data (p / fs.fsBsize) ∉ gone)
    (inside : fileAddr fs s v (.data (p / fs.fsBsize)) ≠ 0 →
      p % fs.fsBsize < own (p / fs.fsBsize) * fs.fsFsize) : s'.byte fs v' p = s.byte fs v p := by
  rw [byte_eq, byte_eq, drop.stays _ left]
  unfold blockByte
  split
  · rfl
  · next there =>
    refine agree_byte (drop.bytes.mono fun x hx => ?_) (inside there)
    exact inv.owned.data_indir ⟨there, hx.1, hx.2⟩

end Cut

/-! ## The contents -/

section Contents

variable (env : Env) (fs : Superblock)

/-- What setting the size must do to the contents: what is left of the file stays, and what a
    later call adds to it reads as zeros. -/
structure CutContents (s : State) (ino : Nat) (v : Vnode) (size : Nat) (s' : State) : Prop where
  kept : ∃ v', s'.vnodes ino = some v' ∧
    ∀ p, p < size → p < v.inode.iSize → s'.byte fs v' p = s.byte fs v p
  zero : ∀ t file file' s'', size < t → t < 2 ^ 64 → file.ino = ino →
    file.bufValid = false ∨ file.bufDirty = false →
    ufsFileSetSize env fs file t s' = .done (0, file') s'' →
    ∃ v'', s''.vnodes ino = some v'' ∧ ∀ p, size ≤ p → p < t → s''.byte fs v'' p = 0

/-- When setting the size is as it must be. Nothing is cut, and the bytes from the new end on
    are zero already; or the cut is inside the last direct block and has nothing to move; or
    it gives back the block of the new end, and the bytes of that block before it are zero. -/
def ContentsSafe (s : State) (v : Vnode) (size : Nat) : Prop :=
  if v.inode.iSize ≤ size then ∀ p, size ≤ p → s.byte fs v p = 0
  else if size / fs.fsBsize = v.inode.iSize / fs.fsBsize ∧ v.inode.iSize / fs.fsBsize < ndaddr then
    if fragsOf fs size = fragsOf fs v.inode.iSize then ∀ p, size ≤ p → s.byte fs v p = 0
    else size = 0 ∨ fileAddr fs s v (.data (size / fs.fsBsize)) = 0
  else v.inode.iSize / fs.fsBsize < fs.maxBlocks ∧
    ∀ p, size / fs.fsBsize * fs.fsBsize ≤ p → p < size → s.byte fs v p = 0

/-- The cut moves the last block. -/
def MovesLast (s : State) (v : Vnode) (size : Nat) : Prop :=
  0 < size ∧ size < v.inode.iSize ∧ size / fs.fsBsize = v.inode.iSize / fs.fsBsize ∧
    v.inode.iSize / fs.fsBsize < ndaddr ∧ fragsOf fs size ≠ fragsOf fs v.inode.iSize ∧
    fileAddr fs s v (.data (size / fs.fsBsize)) ≠ 0

end Contents

section Contents

variable {env : Env} {fs : Superblock} {ino : Nat} {s s' : State} {v v' : Vnode} {size : Nat}

/-- Past the reach of the map everything reads as zeros. -/
theorem byte_beyond (s : State) (v : Vnode) {p : Nat} (far : fs.maxBlocks * fs.fsBsize ≤ p) :
    s.byte fs v p = 0 := by
  have block : fs.maxBlocks ≤ p / fs.fsBsize := (Nat.le_div_iff_mul_le fs.bsize_pos).mpr far
  rw [byte_eq, show fileAddr fs s v (.data (p / fs.fsBsize)) = 0 from blockAt_beyond _ _ block]
  exact if_pos rfl

/-- A later call only grows the file, so that what it adds is there to be read before it. -/
theorem cutContents_iff (there : s'.vnodes ino = some v') (resized : v'.inode.iSize ≤ size) :
    CutContents env fs s ino v size s' ↔
      (∀ p, p < size → p < v.inode.iSize → s'.byte fs v' p = s.byte fs v p) ∧
      ∀ p, size ≤ p → s'.byte fs v' p = 0 := by
  constructor
  · rintro ⟨⟨w, there', kept⟩, zero⟩
    cases there.symm.trans there'
    refine ⟨kept, fun p low => ?_⟩
    by_cases far : fs.maxBlocks * fs.fsBsize ≤ p
    · exact byte_beyond s' v' far
    · have bound : fs.maxBlocks * fs.fsBsize < 2 ^ 63 := maxBytes_lt
      obtain ⟨w, there'', reads⟩ := zero (p + 1) (freshFile ino true fun _ => 0) _ _ (by omega)
        (by omega) rfl (.inl rfl) (setSize_grow there rfl (.inl rfl) (by omega))
      have found : (s'.setVnode ino (v'.resized ((p + 1) % 2 ^ 32))).vnodes ino
          = some (v'.resized ((p + 1) % 2 ^ 32)) := Function.update_self ..
      cases found.symm.trans there''
      exact reads p low (Nat.lt_succ_self p)
  · rintro ⟨kept, zero⟩
    refine ⟨⟨v', there, kept⟩, fun t file file' s'' more _ same clean run => ?_⟩
    rw [setSize_grow there same clean (by omega)] at run
    cases run
    exact ⟨_, Function.update_self .., fun p low _ => zero p low⟩

/-- Nothing was cut. -/
theorem contents_unchanged {own : Nat → Nat} (drop : Dropped fs ino own ∅ s v s' v')
    (data : s'.data = s.data) (resized : v'.inode.iSize ≤ size) :
    CutContents env fs s ino v size s' ↔ ∀ p, size ≤ p → s.byte fs v p = 0 := by
  have same : ∀ p, s'.byte fs v' p = s.byte fs v p := fun p => by
    rw [byte_eq, byte_eq, drop.stays _ (Set.notMem_empty _), data]
  rw [cutContents_iff drop.inv.there resized]
  constructor
  · rintro ⟨-, zero⟩ p low
    rw [← same]
    exact zero p low
  · intro zero
    exact ⟨fun p _ _ => same p, fun p low => by rw [same]; exact zero p low⟩

/-- Every block from the one of the new end on was given back. -/
theorem contents_dropped (ok : TrimFile fs s ino v) {gone : Set Slot}
    (drop : Dropped fs ino (fs.ownFrags v.inode.iSize) gone s v s' v')
    (exactly : ∀ b, .data b ∈ gone ↔ size / fs.fsBsize ≤ b) (resized : v'.inode.iSize ≤ size)
    (less : size ≤ v.inode.iSize) :
    CutContents env fs s ino v size s' ↔
      ∀ p, size / fs.fsBsize * fs.fsBsize ≤ p → p < size → s.byte fs v p = 0 := by
  have bpos := fs.bsize_pos
  have gone_of : ∀ p, size / fs.fsBsize * fs.fsBsize ≤ p → s'.byte fs v' p = 0 := fun p low =>
    drop.byte_gone ((exactly _).mpr ((Nat.le_div_iff_mul_le bpos).mpr low))
  have start := Nat.div_mul_le_self size fs.fsBsize
  rw [cutContents_iff drop.inv.there resized]
  constructor
  · rintro ⟨kept, -⟩ p low high
    rw [← kept p high (by omega)]
    exact gone_of p low
  · refine fun zero => ⟨fun p high _ => ?_, fun p low => gone_of p (by omega)⟩
    by_cases low : size / fs.fsBsize * fs.fsBsize ≤ p
    · rw [gone_of p low, zero p low high]
    · refine drop.byte_stays ok.toFileInv (fun out => low ?_) fun _ => lt_ownFrags (by omega)
      exact (Nat.le_div_iff_mul_le bpos).mp ((exactly _).mp out)

end Contents

theorem oneState_trim {size k : Nat} (known : OneSize size k) :
    TrimFile smallFs (oneState size k) 3 (oneVnode size) := by
  refine ⟨oneState_consistent known, fun sl ind there => ?_,
    fun _ => (by decide : (8 : Nat) ≠ 0)⟩
  rw [oneState_addr] at there
  cases sl with
  | data b => exact ind.elim
  | single => exact absurd rfl there
  | double => exact absurd rfl there
  | middle m => exact absurd rfl there

end FuseUfs
