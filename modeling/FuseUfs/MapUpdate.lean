import FuseUfs.BmapLookup
import FuseUfs.Effects
import FuseUfs.WriteCorrect

/-! # Changing one entry of the map

`ufs_set_block` checks each transfer it makes, so that what it does to the map follows from
its result alone. It relies on the allocator for one thing: a block it is given is not an
indirect block of the same file. When the second of two allocations finds no space, the first
block is already in the inode, cleared.
-/

namespace FuseUfs

open Lib Prog

/-- The indirect blocks of a file are blocks of their own. -/
def IndirApart (fs : Superblock) (addr : Slot → Nat) : Prop :=
  ∀ sl sl' : Slot, sl.Indirect → sl'.Indirect → sl ≠ sl' → addr sl ≠ 0 → addr sl' ≠ 0 →
    Disjoint (blockSet fs (addr sl)) (blockSet fs (addr sl'))

/-- The block is none of the indirect blocks. -/
structure Unused (fs : Superblock) (addr : Slot → Nat) (b : Nat) : Prop where
  addr_ne : b ≠ 0
  apart : ∀ sl : Slot, sl.Indirect → addr sl ≠ 0 → Disjoint (blockSet fs (addr sl)) (blockSet fs b)

/-- The vnode with another indirect block. -/
def Vnode.setIb (v : Vnode) (k b : Nat) : Vnode :=
  { v with
    inode := { v.inode with
      iDin2 := { v.inode.iDin2 with diIb := Function.update v.inode.iDin2.diIb k b } } }

/-- A new top of the double tree, cleared and in the inode. -/
def State.withTop (fs : Superblock) (t : State) (ino : Nat) (v : Vnode) (top : Nat) : State :=
  (t.put fs top (fun _ => 0) fs.fsBsize).setVnode ino (v.setIb 1 top)

/-- The block addresses that `ufs_block_alloc` returns to `ufs_set_block`, with the state and the
    vnode at the time of the call. -/
inductive AllocReturns (env : Env) (fs : Superblock) (ino fbn : Nat) (s : State) (v : Vnode) :
    State → Vnode → Nat → Prop
  | single {b : Nat} {t : State} (low : ndaddr ≤ fbn) (high : fbn < ndaddr + fs.fsNindir)
      (missing : v.inode.iDin2.diIb 0 = 0)
      (got : ufsBlockAlloc env fs v.inode.iNumber fs.fsBsize s = .done (0, b) t) :
      AllocReturns env fs ino fbn s v s v b
  | top {b : Nat} {t : State} (low : ndaddr + fs.fsNindir ≤ fbn) (missing : v.inode.iDin2.diIb 1 = 0)
      (got : ufsBlockAlloc env fs v.inode.iNumber fs.fsBsize s = .done (0, b) t) :
      AllocReturns env fs ino fbn s v s v b
  | middle {b : Nat} {t : State} (low : ndaddr + fs.fsNindir ≤ fbn) (there : v.inode.iDin2.diIb 1 ≠ 0)
      (missing : fileAddr fs s v (.middle ((fbn - ndaddr - fs.fsNindir) / fs.fsNindir)) = 0)
      (got : ufsBlockAlloc env fs v.inode.iNumber fs.fsBsize (s.atTick (s.tick + 1)) = .done (0, b) t) :
      AllocReturns env fs ino fbn s v (s.atTick (s.tick + 1)) v b
  | below {top b : Nat} {t t' : State} (low : ndaddr + fs.fsNindir ≤ fbn)
      (missing : v.inode.iDin2.diIb 1 = 0)
      (first : ufsBlockAlloc env fs v.inode.iNumber fs.fsBsize s = .done (0, top) t)
      (got : ufsBlockAlloc env fs v.inode.iNumber fs.fsBsize (t.withTop fs ino v top) = .done (0, b) t') :
      AllocReturns env fs ino fbn s v (t.withTop fs ino v top) (v.setIb 1 top) b

section Map

variable {env : Env} {fs : Superblock} {ino : Nat} {s s' t : State} {v v' : Vnode}

/-! ## Transfers that are checked -/

theorem ufsBlockAlloc_frame {i : Nat} {size : Int} {r : Int × Nat}
    (run : ufsBlockAlloc env fs i size s = .done r t) : t.data = s.data ∧ t.vnodes = s.vnodes := by
  set I : State → Prop := fun t => t.data = s.data ∧ t.vnodes = s.vnodes with hI
  have kept : KeptByGroups I := ⟨fun _ _ _ h => h, fun _ _ h => h, fun _ _ _ h => h, fun _ _ h => h⟩
  have after : I t := Keeps.after (ufsBlockAlloc_kept kept i size) run ⟨rfl, rfl⟩
  exact after

theorem blkwrite_cases {bno size : Nat} {buf : Buf} {rc : Int}
    (run : blkwrite env fs bno buf size s = .done rc s') :
    rc = -1 ∨ (s' = s.put fs bno buf size ∧ bno * fs.fsFsize < 2 ^ 63) := by
  have tried : tryWrite env s
      = .done (env.writeOk s.tick) { s with tick := s.tick + 1, log := .bwrite :: s.log } := rfl
  unfold blkwrite at run
  rw [Prog.bind_of_done tried] at run
  split at run
  · next fine =>
    rw [Prog.modify_bind_apply] at run
    obtain ⟨-, rfl⟩ := pure_eq_done.mp run
    exact .inr ⟨rfl, fine.2.2⟩
  · exact .inl (pure_eq_done.mp run).1.symm

theorem addr_lt_of_fits {b : Nat} (fits : b * fs.fsFsize < 2 ^ 63) : b < 2 ^ 64 := by
  have : b * 1 ≤ b * fs.fsFsize := Nat.mul_le_mul_left _ fs.fsize_pos
  omega

theorem readIndir_cases {b : Nat} {ind : Indir} (run : readIndir env fs b s = .done ind s') :
    s' = s.atTick (s.tick + 1) ∧
      (ind.1 = -enomem ∨ (ind.1 = 0 ∧ ind.2.1 = b ∧ Mirrors fs s.data b ind.2.2)) := by
  unfold readIndir at run
  rw [Prog.bind_of_done (blkread_run b _ fs.bsize_pos s)] at run
  cases ok : env.readOk s.tick with
  | true =>
      simp only [ok, if_true] at run
      rw [if_neg (by have := fs.bsize_pos; omega)] at run
      obtain ⟨rfl, rfl⟩ := pure_eq_done.mp run
      exact ⟨rfl, .inr ⟨rfl, rfl, mirrors_read _ _⟩⟩
  | false =>
      simp only [ok, Bool.false_eq_true, if_false, if_true] at run
      obtain ⟨rfl, rfl⟩ := pure_eq_done.mp run
      exact ⟨rfl, .inl rfl⟩

theorem writeIndir_cases {ind : Indir} {i w : Nat} {rc : Int}
    (run : writeIndir env fs ind i w s = .done rc s') :
    rc = -eio ∨ (rc = 0 ∧ s' = s.put fs ind.2.1 (setPtr ind.2.2 i w) fs.fsBsize ∧
      ind.2.1 * fs.fsFsize < 2 ^ 63) := by
  unfold writeIndir at run
  obtain ⟨r, t, wrote, run⟩ := bind_eq_done.mp run
  split at run
  · exact .inl (pure_eq_done.mp run).1.symm
  · next fine =>
    obtain ⟨rfl, rfl⟩ := pure_eq_done.mp run
    rcases blkwrite_cases wrote with rfl | done
    · exact absurd (by decide) fine
    · exact .inr ⟨rfl, done⟩

/-! ## The states of the tree -/

/-- The vnode is in core and its indirect blocks are apart. -/
structure Tree (fs : Superblock) (ino : Nat) (s : State) (v : Vnode) : Prop where
  there : s.vnodes ino = some v
  apart : IndirApart fs (fileAddr fs s v)

theorem Tree.atTick (tree : Tree fs ino s v) (n : Nat) : Tree fs ino (s.atTick n) v :=
  ⟨tree.there, tree.apart⟩

/-- An indirect block that was missing takes an unused one. -/
theorem IndirApart.put {addr : Slot → Nat} {sl : Slot} {b : Nat} (apart : IndirApart fs addr)
    (unused : Unused fs addr b) : IndirApart fs (Function.update addr sl b) := by
  intro x y hx hy ne mappedX mappedY
  by_cases isX : x = sl
  · subst isX
    rw [Function.update_self, Function.update_of_ne (Ne.symm ne)] at *
    exact (unused.apart y hy mappedY).symm
  · rw [Function.update_of_ne isX] at *
    by_cases isY : y = sl
    · subst isY
      rw [Function.update_self]
      exact unused.apart x hx mappedX
    · rw [Function.update_of_ne isY] at *
      exact apart x y hx hy ne mappedX mappedY

theorem fileAddr_middle (s : State) (v : Vnode) {m : Nat} (hm : m < fs.fsNindir) :
    fileAddr fs s v (.middle m) = lookup fs s.data (v.inode.iDin2.diIb 1) m := if_pos hm

/-- An address goes into an old single indirect block. -/
theorem Tree.putSingle (tree : Tree fs ino s v) {i w : Nat} (hi : i < fs.fsNindir)
    (there : v.inode.iDin2.diIb 0 ≠ 0) {buf : Buf} (mirrors : Mirrors fs s.data (v.inode.iDin2.diIb 0) buf)
    (small : w < 2 ^ 64) :
    fileAddr fs (s.put fs (v.inode.iDin2.diIb 0) (setPtr buf i w) fs.fsBsize) v
      = Function.update (fileAddr fs s v) (.data (ndaddr + i)) w := by
  refine slotAddr_single hi there agree_storeBlock (ptrAt_put mirrors small) (fun top => ?_)
    (fun m hm mid => ?_)
  · exact tree.apart .double .single trivial trivial (by simp) top there
  · have apart := tree.apart (.middle m) .single trivial trivial (by simp)
      (by rw [fileAddr_middle s v hm]; exact mid) there
    rwa [fileAddr_middle s v hm] at apart

/-- An address goes into a new single indirect block. -/
theorem Tree.newSingle {i w b : Nat} (hi : i < fs.fsNindir) (missing : v.inode.iDin2.diIb 0 = 0)
    (unused : Unused fs (fileAddr fs s v) b) (small : w < 2 ^ 64) {t : State} (data : t.data = s.data) :
    fileAddr fs (t.put fs b (setPtr (fun _ => 0) i w) fs.fsBsize) (v.setIb 0 b)
      = Function.update (Function.update (fileAddr fs s v) .single b) (.data (ndaddr + i)) w := by
  have before : fileAddr fs s v = fileAddr fs t v := by rw [fileAddr, fileAddr, data]
  rw [before] at unused ⊢
  refine slotAddr_newSingle hi missing unused.addr_ne agree_storeBlock (fun i' hi' => ?_)
    (fun top => unused.apart .double trivial top) (fun m hm mid => ?_)
  · refine (ptrAt_store hi').trans ?_
    rw [getPtr_setPtr _ small, getPtr_zero]
  · have apart := unused.apart (.middle m) trivial (by rw [fileAddr_middle t v hm]; exact mid)
    rwa [fileAddr_middle t v hm] at apart

/-- A new top of the double tree leads nowhere. -/
theorem Tree.newTop {b : Nat} (missing : v.inode.iDin2.diIb 1 = 0)
    (unused : Unused fs (fileAddr fs s v) b) {t : State} (data : t.data = s.data) :
    fileAddr fs (t.withTop fs ino v b) (v.setIb 1 b) = Function.update (fileAddr fs s v) .double b := by
  have before : fileAddr fs s v = fileAddr fs t v := by rw [fileAddr, fileAddr, data]
  rw [before] at unused ⊢
  have mirrors : Mirrors fs (t.withTop fs ino v b).data b fun _ => 0 := mirrors_zero
  refine slotAddr_newDouble missing unused.addr_ne (agree_put t b fun _ => 0) (fun i hi => ?_)
    (fun low => unused.apart .single trivial low)
  exact (mirrors i hi).symm.trans (getPtr_zero i)

/-- A new block below the top of the double tree. -/
theorem Tree.newMiddle (tree : Tree fs ino s v) {i b : Nat} (hi : i < fs.fsNindir)
    (top : v.inode.iDin2.diIb 1 ≠ 0) (missing : fileAddr fs s v (.middle i) = 0)
    (unused : Unused fs (fileAddr fs s v) b) (small : b < 2 ^ 64) {buf : Buf}
    (mirrors : Mirrors fs s.data (v.inode.iDin2.diIb 1) buf) {t : State} (data : t.data = s.data) :
    fileAddr fs ((t.put fs (v.inode.iDin2.diIb 1) (setPtr buf i b) fs.fsBsize).put fs b (fun _ => 0)
        fs.fsBsize) v = Function.update (fileAddr fs s v) (.middle i) b := by
  have before : fileAddr fs s v = fileAddr fs t v := by rw [fileAddr, fileAddr, data]
  rw [before] at unused missing ⊢
  rw [← data] at mirrors
  set a := v.inode.iDin2.diIb 1 with ha
  set s₁ := (t.put fs a (setPtr buf i b) fs.fsBsize).put fs b (fun _ => 0) fs.fsBsize with hs
  have cleared : Mirrors fs s₁.data b (fun _ => 0) := mirrors_zero
  have topFresh : Disjoint (blockSet fs a) (blockSet fs b) := unused.apart .double trivial top
  -- the other indirect blocks are apart from the two blocks written here
  have apart : ∀ sl : Slot, sl.Indirect → sl ≠ .double → fileAddr fs t v sl ≠ 0 →
      Disjoint (blockSet fs (fileAddr fs t v sl)) (blockSet fs a ∪ blockSet fs b) := by
    intro sl ind ne mapped
    refine Set.disjoint_union_right.mpr ⟨?_, unused.apart sl ind mapped⟩
    rw [← before] at mapped ⊢
    exact tree.apart sl .double ind trivial ne mapped top
  have agree : AgreeOn fs (blockSet fs a ∪ blockSet fs b)ᶜ t.data s₁.data := by
    refine ((agree_put t a (setPtr buf i b)).mono ?_).trans ((agree_put _ b fun _ => 0).mono ?_)
    · exact Set.compl_subset_compl.mpr Set.subset_union_left
    · exact Set.compl_subset_compl.mpr Set.subset_union_right
  refine slotAddr_newMiddle hi top unused.addr_ne ?_ agree (fun i' hi' => ?_)
    (fun j hj => (cleared j hj).symm.trans (getPtr_zero j))
    (fun low => apart .single trivial (by simp) low) (fun m hm mid => ?_)
  · exact (fileAddr_middle t v hi).symm.trans missing
  · have kept : ptrAt fs s₁.data a i' = ptrAt fs (store t.data (a * fs.fsFsize)
        (setPtr buf i b) fs.fsBsize) a i' :=
      ptrAt_agree ((agree_put (t.put fs a (setPtr buf i b) fs.fsBsize) b fun _ => 0).mono
        topFresh.subset_compl_right) hi'
    rw [kept]
    exact ptrAt_put mirrors small i' hi'
  · have here := apart (.middle m) trivial (by simp) (by rw [fileAddr_middle t v hm]; exact mid)
    rwa [fileAddr_middle t v hm] at here

/-- An address goes into a block below the top of the double tree. -/
theorem Tree.putDouble (tree : Tree fs ino s v) {i j w : Nat} (hi : i < fs.fsNindir) (hj : j < fs.fsNindir)
    (there : fileAddr fs s v (.middle i) ≠ 0) {buf : Buf}
    (mirrors : Mirrors fs s.data (fileAddr fs s v (.middle i)) buf) (small : w < 2 ^ 64) :
    fileAddr fs (s.put fs (fileAddr fs s v (.middle i)) (setPtr buf j w) fs.fsBsize) v
      = Function.update (fileAddr fs s v) (.data (ndaddr + fs.fsNindir + (i * fs.fsNindir + j))) w := by
  have place : fileAddr fs s v (.middle i) = lookup fs s.data (v.inode.iDin2.diIb 1) i :=
    fileAddr_middle s v hi
  have apart : ∀ sl : Slot, sl.Indirect → sl ≠ .middle i → fileAddr fs s v sl ≠ 0 →
      Disjoint (blockSet fs (fileAddr fs s v sl)) (blockSet fs (fileAddr fs s v (.middle i))) :=
    fun sl ind ne mapped => tree.apart sl (.middle i) ind trivial ne mapped there
  rw [place] at there mirrors apart ⊢
  refine slotAddr_double hi hj there agree_storeBlock (ptrAt_put mirrors small)
    (fun low => apart .single trivial (by simp) low) (fun up => apart .double trivial (by simp) up)
    (fun m hm ne mid => ?_)
  have here := apart (.middle m) trivial (by simpa using ne) (by rw [fileAddr_middle s v hm]; exact mid)
  rwa [fileAddr_middle s v hm] at here

/-! ## The run -/

/-- The map has `w` at `fbn` and is as before elsewhere. -/
def MapSet (fs : Superblock) (ino fbn w : Nat) (s : State) (v : Vnode) (s' : State) : Prop :=
  ∃ v', s'.vnodes ino = some v' ∧
    ∀ b, fileAddr fs s' v' (.data b) = if b = fbn then w else fileAddr fs s v (.data b)

/-- The map is as before, and what has been allocated hangs from the inode. -/
def MapHeld (env : Env) (fs : Superblock) (ino fbn : Nat) (s : State) (v : Vnode) (s' : State) : Prop :=
  ∃ v', s'.vnodes ino = some v' ∧ (∀ b, fileAddr fs s' v' (.data b) = fileAddr fs s v (.data b)) ∧
    ∀ t vt b, AllocReturns env fs ino fbn s v t vt b → ∃ sl : Slot, sl.Indirect ∧ fileAddr fs s' v' sl = b

/-- What a result of `ufs_set_block` says. -/
def SetBlockResult (env : Env) (fs : Superblock) (ino fbn w : Nat) (s : State) (v : Vnode) (rc : Int)
    (s' : State) : Prop :=
  (rc = 0 → MapSet fs ino fbn w s v s') ∧ (rc = -enospc → MapHeld env fs ino fbn s v s')

/-- A failed transfer is another error. -/
theorem SetBlockResult.of_error {fbn w : Nat} {rc : Int} (error : rc = -eio ∨ rc = -enomem) :
    SetBlockResult env fs ino fbn w s v rc s' := by
  rcases error with rfl | rfl
  · exact ⟨fun h => absurd h (by decide), fun h => absurd h (by decide)⟩
  · exact ⟨fun h => absurd h (by decide), fun h => absurd h (by decide)⟩

theorem MapSet.of_addr {fbn w : Nat} (there : s'.vnodes ino = some v')
    (addr : ∀ b, fileAddr fs s' v' (.data b)
      = Function.update (fileAddr fs s v) (.data fbn) w (.data b)) : MapSet fs ino fbn w s v s' := by
  refine ⟨v', there, fun b => ?_⟩
  rw [addr b, Function.update_apply]
  simp only [Slot.data.injEq]

variable {fbn w : Nat} {rc : Int}

/-- The allocator finds no block the first time it is asked. -/
theorem SetBlockResult.of_noAlloc {r : Int × Nat} (there : s.vnodes ino = some v)
    (first : ufsBlockAlloc env fs v.inode.iNumber fs.fsBsize s = .done r t) (failed : r.1 ≠ 0)
    (only : ∀ t' vt b, AllocReturns env fs ino fbn s v t' vt b →
      ∃ t'', ufsBlockAlloc env fs v.inode.iNumber fs.fsBsize s = .done (0, b) t'') :
    SetBlockResult env fs ino fbn w s v r.1 t := by
  obtain ⟨data, vnodes⟩ := ufsBlockAlloc_frame first
  refine ⟨fun ok => absurd ok failed, fun _ => ⟨v, vnodes ▸ there, fun b => ?_, fun t' vt b call => ?_⟩⟩
  · rw [fileAddr, fileAddr, data]
  · obtain ⟨t'', got⟩ := only t' vt b call
    rw [first] at got
    cases got
    exact absurd rfl failed

theorem setBlock_single_result (tree : Tree fs ino s v) {i : Nat} (hi : i < fs.fsNindir) (small : w < 2 ^ 64)
    (unused : ∀ t vt b, AllocReturns env fs ino (ndaddr + i) s v t vt b → Unused fs (fileAddr fs t vt) b)
    (run : ufsSetBlock env fs ino (ndaddr + i) w s = .done rc s') :
    SetBlockResult env fs ino (ndaddr + i) w s v rc s' := by
  unfold ufsSetBlock at run
  simp only at run
  rw [if_neg (by omega), Nat.add_sub_cancel_left, if_pos (Nat.div_eq_of_lt hi),
    Nat.mod_eq_of_lt hi] at run
  obtain ⟨ind, t, single, run⟩ := bind_eq_done.mp run
  unfold singleIndir at single
  rw [Prog.bind_of_done (vnode2inode_ok tree.there)] at single
  by_cases there : v.inode.iDin2.diIb 0 = 0
  · rw [if_neg (by simpa using there)] at single
    obtain ⟨⟨rc₁, b⟩, t₁, alloc, single⟩ := bind_eq_done.mp single
    simp only at single
    split at single
    · next failed =>
      obtain ⟨rfl, rfl⟩ := pure_eq_done.mp single
      rw [if_pos failed] at run
      obtain ⟨rfl, rfl⟩ := pure_eq_done.mp run
      refine SetBlockResult.of_noAlloc tree.there alloc failed fun t' vt b' call => ?_
      cases call with
      | single _ _ _ got => exact ⟨_, got⟩
      | top low => omega
      | middle low => omega
      | below low => omega
    · next fine =>
      obtain rfl : rc₁ = 0 := not_not.mp fine
      obtain ⟨data, vnodes⟩ := ufsBlockAlloc_frame alloc
      have fresh := unused s v b (.single (by omega) (by omega) there alloc)
      rw [Prog.bind_of_done (updateInode_ok (vnodes ▸ tree.there) _)] at single
      obtain ⟨rfl, rfl⟩ := pure_eq_done.mp single
      rw [if_neg (by simp)] at run
      rcases writeIndir_cases run with rfl | ⟨rfl, rfl, -⟩
      · exact .of_error (.inl rfl)
      · refine ⟨fun _ => ?_, fun h => absurd h (by decide)⟩
        set s₁ := t₁.setVnode ino (v.setIb 0 b) with hs₁
        have inCore : (s₁.put fs b (setPtr (fun _ => 0) i w) fs.fsBsize).vnodes ino = some (v.setIb 0 b) :=
          Function.update_self ..
        have addr : fileAddr fs (s₁.put fs b (setPtr (fun _ => 0) i w) fs.fsBsize) (v.setIb 0 b) = _ :=
          Tree.newSingle hi there fresh small data
        refine MapSet.of_addr inCore fun b' => ?_
        refine (congrFun addr (.data b')).trans ?_
        rw [Function.update_apply, update_indirect_data .single trivial]
        exact (Function.update_apply ..).symm
  · rw [if_pos there] at single
    obtain ⟨rfl, failed | ⟨ok, here, mirrors⟩⟩ := readIndir_cases single
    · rw [if_pos (by rw [failed]; decide)] at run
      obtain ⟨rfl, rfl⟩ := pure_eq_done.mp run
      exact .of_error (.inr failed)
    · rw [if_neg (by simpa using ok)] at run
      rcases writeIndir_cases run with rfl | ⟨rfl, rfl, -⟩
      · exact .of_error (.inl rfl)
      · refine ⟨fun _ => .of_addr tree.there fun b => ?_, fun h => absurd h (by decide)⟩
        rw [here]
        exact congrFun ((tree.atTick (s.tick + 1)).putSingle hi there mirrors small) (.data b)

/-- The top of the double tree is there, and the buffer has what is in it. -/
structure TopReady (env : Env) (fs : Superblock) (ino fbn : Nat) (s : State) (v : Vnode) (ind : Indir)
    (s' : State) (v' : Vnode) : Prop where
  tree : Tree fs ino s' v'
  same : ∀ b, fileAddr fs s' v' (.data b) = fileAddr fs s v (.data b)
  here : v'.inode.iDin2.diIb 1 = ind.2.1
  addr_ne : ind.2.1 ≠ 0
  mirrors : Mirrors fs s'.data ind.2.1 ind.2.2
  call : ∀ b t, fileAddr fs s' v' (.middle ((fbn - ndaddr - fs.fsNindir) / fs.fsNindir)) = 0 →
    ufsBlockAlloc env fs v'.inode.iNumber fs.fsBsize s' = .done (0, b) t →
      AllocReturns env fs ino fbn s v s' v' b
  calls : ∀ t vt b, AllocReturns env fs ino fbn s v t vt b → b = ind.2.1 ∨
    ∃ t', ufsBlockAlloc env fs v'.inode.iNumber fs.fsBsize s' = .done (0, b) t'

theorem doubleIndir_result (w : Nat) (tree : Tree fs ino s v) (low : ndaddr + fs.fsNindir ≤ fbn)
    (unused : ∀ t vt b, AllocReturns env fs ino fbn s v t vt b → Unused fs (fileAddr fs t vt) b)
    {ind : Indir} (run : doubleIndir env fs ino s = .done ind s') :
    (ind.1 ≠ 0 ∧ SetBlockResult env fs ino fbn w s v ind.1 s') ∨
      (ind.1 = 0 ∧ ∃ v', TopReady env fs ino fbn s v ind s' v') := by
  unfold doubleIndir at run
  rw [Prog.bind_of_done (vnode2inode_ok tree.there)] at run
  by_cases there : v.inode.iDin2.diIb 1 = 0
  · rw [if_neg (by simpa using there)] at run
    obtain ⟨⟨rc₁, b⟩, t₁, alloc, run⟩ := bind_eq_done.mp run
    simp only at run
    split at run
    · next failed =>
      obtain ⟨rfl, rfl⟩ := pure_eq_done.mp run
      refine .inl ⟨failed, SetBlockResult.of_noAlloc tree.there alloc failed fun t' vt b' call => ?_⟩
      cases call with
      | single _ high => omega
      | top _ _ got => exact ⟨_, got⟩
      | middle _ present => exact absurd there present
      | below _ _ first =>
          rw [alloc] at first
          cases first
          exact absurd rfl failed
    · next fine =>
      obtain rfl : rc₁ = 0 := not_not.mp fine
      obtain ⟨data, vnodes⟩ := ufsBlockAlloc_frame alloc
      have fresh := unused s v b (.top low there alloc)
      obtain ⟨rc₂, t₂, wrote, run⟩ := bind_eq_done.mp run
      split at run
      · next failed =>
        obtain ⟨rfl, rfl⟩ := pure_eq_done.mp run
        exact .inl ⟨(by decide : -eio ≠ 0), .of_error (.inl rfl)⟩
      · next good =>
        rcases blkwrite_cases wrote with rfl | ⟨rfl, -⟩
        · exact absurd (by decide) good
        have inCore : (t₁.put fs b (fun _ => 0) fs.fsBsize).vnodes ino = some v := vnodes ▸ tree.there
        rw [Prog.bind_of_done (updateInode_ok inCore _)] at run
        obtain ⟨rfl, rfl⟩ := pure_eq_done.mp run
        have addr : fileAddr fs (t₁.withTop fs ino v b) (v.setIb 1 b)
            = Function.update (fileAddr fs s v) .double b := Tree.newTop there fresh data
        have top : (v.setIb 1 b).inode.iDin2.diIb 1 = b := by
          change Function.update v.inode.iDin2.diIb 1 b 1 = b
          rw [Function.update_self]
        refine .inr ⟨rfl, v.setIb 1 b, ⟨Function.update_self .., ?_⟩, fun b' => ?_, top, fresh.addr_ne, mirrors_zero, fun b' t' _ got => .below low there alloc got,
          fun t' vt b' call => ?_⟩
        · change IndirApart fs (fileAddr fs (t₁.withTop fs ino v b) (v.setIb 1 b))
          rw [addr]
          exact tree.apart.put fresh
        · change fileAddr fs (t₁.withTop fs ino v b) (v.setIb 1 b) (.data b') = _
          rw [addr, update_indirect_data .double trivial]
        · cases call with
          | single _ high => omega
          | top _ _ got =>
              rw [alloc] at got
              cases got
              exact .inl rfl
          | middle _ present => exact absurd there present
          | below _ _ first got =>
              rw [alloc] at first
              cases first
              exact .inr ⟨_, got⟩
  · rw [if_pos there] at run
    obtain ⟨rfl, failed | ⟨ok, here, mirrors⟩⟩ := readIndir_cases run
    · exact .inl ⟨by rw [failed]; decide, .of_error (.inr failed)⟩
    · refine .inr ⟨ok, v, tree.atTick _, fun _ => rfl, here.symm, here ▸ there, here ▸ mirrors,
        fun b t' missing got => .middle low there missing got, fun t' vt b call => ?_⟩
      cases call with
      | single _ high => omega
      | top _ absent => exact absurd absent there
      | middle _ _ _ got => exact .inr ⟨_, got⟩
      | below _ absent => exact absurd absent there

/-- The block below the top: an error, or the block and what is in it. -/
theorem middleIndir_result (w : Nat) {top ind : Indir} {i : Nat} (ready : TopReady env fs ino fbn s v top s' v')
    (place : (fbn - ndaddr - fs.fsNindir) / fs.fsNindir = i) (hi : i < fs.fsNindir)
    (unused : ∀ t vt b, AllocReturns env fs ino fbn s v t vt b → Unused fs (fileAddr fs t vt) b)
    (run : middleIndir env fs ino top i s' = .done ind t) :
    (ind.1 ≠ 0 ∧ SetBlockResult env fs ino fbn w s v ind.1 t) ∨
      (ind.1 = 0 ∧ Tree fs ino t v' ∧ (∀ b, fileAddr fs t v' (.data b) = fileAddr fs s v (.data b)) ∧
        fileAddr fs t v' (.middle i) = ind.2.1 ∧ ind.2.1 ≠ 0 ∧ Mirrors fs t.data ind.2.1 ind.2.2) := by
  obtain ⟨e, a, buf⟩ := top
  have root : v'.inode.iDin2.diIb 1 = a := ready.here
  have there : a ≠ 0 := ready.addr_ne
  have mirrors : Mirrors fs s'.data a buf := ready.mirrors
  have below : fileAddr fs s' v' (.middle i) = getPtr buf i := by
    rw [mirrors i hi, ← lookup_of_ne there, ← root]
    exact fileAddr_middle s' v' hi
  unfold middleIndir at run
  simp only at run
  by_cases missing : getPtr buf i = 0
  · rw [if_neg (by simpa using missing), Prog.bind_of_done (vnode2inode_ok ready.tree.there)] at run
    rw [missing] at below
    obtain ⟨⟨rc₁, b⟩, t₁, alloc, run⟩ := bind_eq_done.mp run
    obtain ⟨data, vnodes⟩ := ufsBlockAlloc_frame alloc
    simp only at run
    split at run
    · next failed =>
      obtain ⟨rfl, rfl⟩ := pure_eq_done.mp run
      have same : fileAddr fs t₁ v' = fileAddr fs s' v' := by rw [fileAddr, fileAddr, data]
      refine .inl ⟨failed, fun ok => absurd ok failed, fun _ => ⟨v', vnodes ▸ ready.tree.there,
        fun b' => by rw [same, ready.same], fun t' vt b' call => ⟨.double, trivial, ?_⟩⟩⟩
      -- the second call is the one that failed
      rcases ready.calls t' vt b' call with rfl | ⟨t'', got⟩
      · rw [same]
        exact root
      · rw [alloc] at got
        cases got
        exact absurd rfl failed
    · next fine =>
      obtain rfl : rc₁ = 0 := not_not.mp fine
      have fresh := unused s' v' b (ready.call b t₁ (by rw [place]; exact below) alloc)
      obtain ⟨rc₂, t₂, wrote, run⟩ := bind_eq_done.mp run
      rcases writeIndir_cases wrote with rfl | ⟨rfl, rfl, -⟩
      · rw [if_pos (by decide)] at run
        obtain ⟨rfl, rfl⟩ := pure_eq_done.mp run
        exact .inl ⟨(by decide : -eio ≠ 0), .of_error (.inl rfl)⟩
      rw [if_neg (by simp)] at run
      obtain ⟨rc₃, t₃, cleared, run⟩ := bind_eq_done.mp run
      split at run
      · obtain ⟨rfl, rfl⟩ := pure_eq_done.mp run
        exact .inl ⟨(by decide : -eio ≠ 0), .of_error (.inl rfl)⟩
      · next good =>
        rcases blkwrite_cases cleared with rfl | ⟨rfl, fits⟩
        · exact absurd (by decide) good
        obtain ⟨rfl, rfl⟩ := pure_eq_done.mp run
        have addr := ready.tree.newMiddle hi (root ▸ there) below fresh (addr_lt_of_fits fits)
          (root ▸ mirrors) data
        rw [root] at addr
        refine .inr ⟨rfl, ⟨vnodes ▸ ready.tree.there, ?_⟩, fun b' => ?_, ?_, fresh.addr_ne, mirrors_zero⟩
        · rw [addr]
          exact ready.tree.apart.put fresh
        · rw [addr, update_indirect_data (.middle i) trivial, ready.same]
        · rw [addr, Function.update_self]
  · rw [if_pos missing] at run
    obtain ⟨rfl, failed | ⟨ok, here, read⟩⟩ := readIndir_cases run
    · exact .inl ⟨by rw [failed]; decide, .of_error (.inr failed)⟩
    · exact .inr ⟨ok, ready.tree.atTick _, ready.same, below.trans here.symm, here ▸ missing, here ▸ read⟩

theorem setBlock_double_result (tree : Tree fs ino s v) {i j : Nat} (hi : i < fs.fsNindir)
    (hj : j < fs.fsNindir) (small : w < 2 ^ 64)
    (unused : ∀ t vt b, AllocReturns env fs ino (ndaddr + fs.fsNindir + (i * fs.fsNindir + j)) s v t vt b →
      Unused fs (fileAddr fs t vt) b)
    (run : ufsSetBlock env fs ino (ndaddr + fs.fsNindir + (i * fs.fsNindir + j)) w s = .done rc s') :
    SetBlockResult env fs ino (ndaddr + fs.fsNindir + (i * fs.fsNindir + j)) w s v rc s' := by
  have npos : 0 < fs.fsNindir := nindir_pos
  have rest : ndaddr + fs.fsNindir + (i * fs.fsNindir + j) - ndaddr - fs.fsNindir
      = i * fs.fsNindir + j := by omega
  have notSingle : (ndaddr + fs.fsNindir + (i * fs.fsNindir + j) - ndaddr) / fs.fsNindir ≠ 0 :=
    (Nat.div_pos (by omega) npos).ne'
  unfold ufsSetBlock at run
  simp only at run
  rw [if_neg (by omega), if_neg notSingle, rest, if_pos (Nat.div_eq_of_lt (double_bound hi hj)),
    double_div i hj, double_mod i hj] at run
  obtain ⟨top, s₁, first, run⟩ := bind_eq_done.mp run
  rcases doubleIndir_result w tree (Nat.le_add_right _ _) unused first with
    ⟨failed, result⟩ | ⟨ok, v₁, ready⟩
  · rw [if_pos failed] at run
    obtain ⟨rfl, rfl⟩ := pure_eq_done.mp run
    exact result
  rw [if_neg (by simpa using ok)] at run
  obtain ⟨ind, s₂, second, run⟩ := bind_eq_done.mp run
  rcases middleIndir_result w ready (by rw [rest, double_div i hj]) hi unused second with
    ⟨failed, result⟩ | ⟨ok, tree₂, same, here, there, mirrors⟩
  · rw [if_pos failed] at run
    obtain ⟨rfl, rfl⟩ := pure_eq_done.mp run
    exact result
  rw [if_neg (by simpa using ok)] at run
  rcases writeIndir_cases run with rfl | ⟨rfl, rfl, -⟩
  · exact .of_error (.inl rfl)
  refine ⟨fun _ => .of_addr tree₂.there fun b => ?_, fun h => absurd h (by decide)⟩
  have addr := tree₂.putDouble hi hj (here ▸ there) (here ▸ mirrors) small
  rw [here] at addr
  rw [addr, Function.update_apply, Function.update_apply, same]

end Map

end FuseUfs
