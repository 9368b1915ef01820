import FuseUfs.OpsEffects

/-! # Sizes past two and four gigabytes

A size is a 64-bit number on the device and in core. On its way through a write or a truncation it
is cut down to 32 bits by a mask, and to an `int` by the parameter of `ufs_truncate`. What follows
says what a call leaves, or looks at, for every size, and for which sizes that is what it should be.
-/

namespace FuseUfs

open Lib Prog

variable {env : Env} {fs : Superblock} {s s' : State} {ino : Nat}

/-! ## The size that a call leaves -/

/-- The in-core inode has this size. -/
def HasSize (ino n : Nat) (s : State) : Prop := ∃ v, s.vnodes ino = some v ∧ v.inode.iSize = n

/-- The block map, and what is written of an inode, have nothing to do with its size. -/
theorem hasSize_keptByStore (ino n i : Nat) : KeptByStore i (HasSize ino n) where
  clock _ _ _ h := h
  groups _ _ h := h
  summary _ _ _ h := h
  clusters _ _ h := h
  data _ _ h := h
  cache _ _ _ _ h := h
  dinodes _ _ h := h
  map s w d b here h := by
    obtain ⟨v, there, size⟩ := h
    by_cases same : i = ino
    · subst same
      rw [there] at here
      cases here
      exact ⟨_, Function.update_self .., size⟩
    · exact ⟨v, (Function.update_of_ne (Ne.symm same) ..).trans there, size⟩

theorem HasSize.unique {m n : Nat} (one : HasSize ino m s) (other : HasSize ino n s) : m = n := by
  obtain ⟨v, there, rfl⟩ := one
  obtain ⟨w, here, rfl⟩ := other
  rw [there] at here
  cases here
  rfl

/-! A flush hands the handle of the same file back. -/

theorem flushAlloc_ino (file : UfsFile) (size : Int) :
    Prog.Gives (fun r => r.2.ino = file.ino) (flushAlloc env fs file size) := by
  refine .after fun inode => .after fun r => ?_
  dsimp only
  split
  · exact .pure rfl
  · exact .after fun rc => .pure rfl

theorem flushPlace_ino (file : UfsFile) (size osize : Int) :
    Prog.Gives (fun r => r.2.ino = file.ino) (flushPlace env fs file size osize) := by
  unfold flushPlace
  split
  · exact flushAlloc_ino file size
  · split
    · refine .after fun _ => .after fun rc => ?_
      split
      · exact .pure rfl
      · exact flushAlloc_ino { file with physblock := 0 } size
    · exact .pure rfl

theorem flushWrite_ino (file : UfsFile) (size : Int) :
    Prog.Gives (fun r => r.2.ino = file.ino) (flushWrite env fs file size) := by
  refine .after fun rc => ?_
  split
  · exact .pure rfl
  · dsimp only
    split
    · exact .after fun rc => .pure rfl
    · exact .pure rfl

theorem ufsFileFlush_ino (file : UfsFile) : Prog.Gives (fun r => r.2.ino = file.ino) (ufsFileFlush env fs file) := by
  refine .after fun inode => ?_
  split
  · exact .pure rfl
  · dsimp only
    split
    · exact .pure rfl
    · refine .bind (flushPlace_ino file _ _) fun r same => ?_
      split
      · exact .pure same
      · intro t r' t' run
        exact (flushWrite_ino r.2 _ t r' t' run).trans same

theorem ufsFileSetSize_hasSize {file : UfsFile} {size : Nat} {r : Int × UfsFile}
    (run : ufsFileSetSize env fs file size s = .done r s') : HasSize file.ino (size % 2 ^ 32) s' := by
  unfold ufsFileSetSize at run
  obtain ⟨⟨rc, flushed⟩, s₁, flush, run⟩ := Prog.bind_eq_done.mp run
  have same : flushed.ino = file.ino := ufsFileFlush_ino file _ _ _ flush
  obtain ⟨inode, s₂, -, run⟩ := Prog.bind_eq_done.mp run
  obtain ⟨rc', s₃, -, run⟩ := Prog.bind_eq_done.mp run
  obtain ⟨u, s₄, update, run⟩ := Prog.bind_eq_done.mp run
  obtain ⟨-, rfl⟩ := Prog.pure_eq_done.mp run
  rw [same] at update
  cases there : s₃.vnodes file.ino with
  | none =>
      unfold updateInode at update
      rw [Prog.get_bind_apply, there] at update
      cases update
  | some v =>
      rw [updateInode_ok there] at update
      cases update
      exact ⟨_, Function.update_self .., rfl⟩

/-- However a call of `do_write` ends, if it returns it leaves this size. -/
theorem doWrite_hasSize {file : UfsFile} {src : Buf} {count offset old : Nat} {r : Int × UfsFile}
    (sized : HasSize file.ino old s) (room : offset + count < 2 ^ 64)
    (run : doWrite env fs file src count offset s = .done r s') :
    HasSize file.ino (if old < offset + count then (offset + count) % 2 ^ 32 else old) s' := by
  set n := if old < offset + count then (offset + count) % 2 ^ 32 else old with hn
  have kept : ∀ i, KeptByStore i (HasSize file.ino n) := hasSize_keptByStore file.ino n
  unfold doWrite at run
  obtain ⟨⟨rc, grown⟩, s₁, grow, run⟩ := Prog.bind_eq_done.mp run
  have big : HasSize file.ino n s₁ := by
    obtain ⟨v, there, rfl⟩ := sized
    unfold doWriteGrow at grow
    rw [Prog.bind_of_done (vnode2inode_ok there), Nat.mod_eq_of_lt room] at grow
    split at grow
    · next larger =>
      rw [hn, if_pos larger]
      exact ufsFileSetSize_hasSize grow
    · next smaller =>
      obtain ⟨-, rfl⟩ := Prog.pure_eq_done.mp grow
      rw [hn, if_neg smaller]
      exact ⟨v, there, rfl⟩
  refine Keeps.after (?_ : Keeps (HasSize file.ino n) _) run big
  exact .ite (fun _ => .pure _) fun _ => .bind (doWriteLoop_kept kept _ _ _ _ _ _) fun _ =>
    .ite (fun _ => .pure _) fun _ => .bind (ufsFileFlush_kept kept _) fun _ => .ite (fun _ => .pure _) fun _ => .pure _

/-! ## The blocks that a truncation comes to -/

section Truncation

variable (env : Env) (fs : Superblock) (ino iSize : Nat) (newsize oldFbn newFbn : Int)

/-- One turn of the walk over the data blocks: `none` goes on to the block before. -/
def truncateTurn (i : Int) : M (Option Int) := do
  let (rc, blkno) ← ufsBmap env fs ino (asBlk i)
  if rc ≠ 0 then pure (some rc)
  else
    let last := oldFbn < ndaddr ∧ i = oldFbn
    if last ∧ newFbn = oldFbn then
      if fragsOf fs newsize = fragsOf fs iSize then pure (some 0)
      else do
        let size := ((fragsOf fs iSize - fragsOf fs newsize) * fs.fsFsize).toNat
        let rc ← truncateData.cutLast env fs ino iSize newsize blkno size i
        pure (if rc ≠ 0 then some rc else none)
    else do
      let rc ← truncateData.dropBlock env fs ino blkno (if last then lastBlockSize fs iSize else fs.fsBsize) i
      pure (if rc ≠ 0 then some rc else none)

/-- What the walk does after a turn. -/
def afterTurn (left : Nat) (i : Int) : Option Int → M (Option Int)
  | some rc => pure (some rc)
  | none => truncateData env fs ino iSize newsize oldFbn newFbn left (i - 1)

theorem truncateData_succ (left : Nat) {i : Int} (more : newFbn ≤ i) :
    truncateData env fs ino iSize newsize oldFbn newFbn (left + 1) i =
      truncateTurn env fs ino iSize newsize oldFbn newFbn i >>=
        afterTurn env fs ino iSize newsize oldFbn newFbn left i := by
  unfold truncateTurn
  rw [truncateData, if_neg (by omega), bind_assoc]
  congr 1
  funext ⟨rc, blkno⟩
  dsimp only
  split
  · rfl
  · split
    · split
      · rfl
      · rw [bind_assoc]
        congr 1
        funext rc
        rw [pure_bind]
        split <;> rfl
    · rw [bind_assoc]
      congr 1
      funext rc
      rw [pure_bind]
      split <;> rfl

/-- The walk from block `i` comes to block `j`, which it looks up, and gives back or moves if it is there. -/
inductive Comes : State → Int → Int → Prop
  | here {s : State} {i : Int} (more : newFbn ≤ i) : Comes s i i
  | next {s s' : State} {i j : Int} (more : newFbn ≤ i)
      (turn : truncateTurn env fs ino iSize newsize oldFbn newFbn i s = .done none s') (later : Comes s' (i - 1) j) :
      Comes s i j

/-- How far the walk over the indirect blocks goes back from block `i`. -/
def indirStep (i : Int) : Nat :=
  if (asBlk i - ndaddr) % fs.fsNindir ≠ 0 then (asBlk i - ndaddr) % fs.fsNindir else fs.fsNindir

/-- The walk over the indirect blocks from block `i` comes to block `j`. -/
inductive ComesIndir : State → Int → Int → Prop
  | here {s : State} {i : Int} (more : newFbn < i) (indirect : ndaddr ≤ asBlk i) : ComesIndir s i i
  | next {s s' : State} {i j : Int} (more : newFbn < i) (indirect : ndaddr ≤ asBlk i)
      (turn : truncateIndirAt env fs ino (asBlk i) s = .done () s')
      (later : ComesIndir s' (i - indirStep fs i) j) : ComesIndir s i j

variable {env fs ino iSize newsize oldFbn newFbn}

theorem Comes.range {i j : Int} (comes : Comes env fs ino iSize newsize oldFbn newFbn s i j) :
    newFbn ≤ j ∧ j ≤ i := by
  induction comes with
  | here more => exact ⟨more, le_refl _⟩
  | next more turn later ih => exact ⟨ih.1, by omega⟩

theorem ComesIndir.range {i j : Int} (comes : ComesIndir env fs ino newFbn s i j) : newFbn < j ∧ j ≤ i := by
  induction comes with
  | here more indirect => exact ⟨more, le_refl _⟩
  | next more indirect turn later ih => exact ⟨ih.1, by omega⟩

/-- A turn that ends the walk well is the one turn of a walk within the last block. -/
theorem truncateTurn_ends {i : Int} (run : truncateTurn env fs ino iSize newsize oldFbn newFbn i s = .done (some 0) s') :
    i = oldFbn ∧ newFbn = oldFbn := by
  unfold truncateTurn at run
  obtain ⟨⟨rc, blkno⟩, s₁, -, run⟩ := Prog.bind_eq_done.mp run
  dsimp only at run
  split at run
  · next failed =>
    have := (Prog.pure_eq_done.mp run).1
    exact absurd (Option.some.inj this) failed
  · split at run
    · next both => exact ⟨both.1.2, both.2⟩
    · obtain ⟨rc, s₂, -, run⟩ := Prog.bind_eq_done.mp run
      have ended := (Prog.pure_eq_done.mp run).1
      split at ended
      · next failed => exact absurd (Option.some.inj ended) failed
      · cases ended

/-- A walk that ends well comes to every block from the last one down to the new end. -/
theorem truncateData_comes : ∀ (left : Nat) (s : State) (i : Int) {r : Option Int}, i - newFbn < left →
    i ≤ oldFbn → (r = none ∨ r = some 0) →
    truncateData env fs ino iSize newsize oldFbn newFbn left i s = .done r s' →
    ∀ j, newFbn ≤ j → j ≤ i → Comes env fs ino iSize newsize oldFbn newFbn s i j := by
  intro left
  induction left with
  | zero =>
      intro s i r enough inside well run j low high
      omega
  | succ left ih =>
      intro s i r enough inside well run j low high
      have more : newFbn ≤ i := by omega
      rw [truncateData_succ _ _ _ _ _ _ _ _ more] at run
      obtain ⟨turned, s₁, turn, run⟩ := Prog.bind_eq_done.mp run
      rcases Int.lt_or_eq_of_le high with before | rfl
      · cases turned with
        | none => exact .next more turn (ih s₁ (i - 1) (by omega) (by omega) well run j low (by omega))
        | some rc =>
            -- the walk has ended in the block of the new end
            obtain ⟨same, -⟩ := Prog.pure_eq_done.mp run
            rcases well with rfl | rfl
            · cases same
            · obtain rfl := Option.some.inj same
              obtain ⟨here, last⟩ := truncateTurn_ends turn
              omega
      · exact .here more

end Truncation

/-- Asked for `size` bytes, the truncation comes to blocks between the new end and the old one only. -/
structure StaysWithin (env : Env) (fs : Superblock) (ino iSize size : Nat) (s : State) : Prop where
  data : ∀ j, Comes env fs ino iSize (asInt32 size) (lblknoInt fs iSize) (lblknoInt fs (asInt32 size)) s
    (lblknoInt fs iSize) j → size / fs.fsBsize ≤ asBlk j ∧ asBlk j ≤ iSize / fs.fsBsize
  indirect : ∀ s₁ j, ComesIndir env fs ino (lblknoInt fs (asInt32 size)) s₁ (lblknoInt fs iSize) j →
    size / fs.fsBsize ≤ asBlk j ∧ asBlk j ≤ iSize / fs.fsBsize

/-- The size is a positive `int`; or its block number is above that of the old end once both have been cut
    down; or both are negative, and as unsigned numbers in order. -/
def CutsDown (fs : Superblock) (iSize size : Nat) : Prop :=
  size < 2 ^ 31 ∨ lblknoInt fs iSize < lblknoInt fs (asInt32 size) ∨
    lblknoInt fs iSize < 0 ∧ size / fs.fsBsize ≤ asBlk (lblknoInt fs (asInt32 size))

/-- A value stored in an `int` loses a multiple of `2 ^ 32`. -/
theorem asInt32_range (n : Int) : -2 ^ 31 ≤ asInt32 n ∧ asInt32 n < 2 ^ 31 ∧ ∃ k, n = asInt32 n + k * 2 ^ 32 := by
  have parts := Int.emod_add_mul_ediv n (2 ^ 32)
  unfold asInt32
  rw [Int.bmod_def]
  split
  · exact ⟨by omega, by omega, n / 2 ^ 32, by omega⟩
  · exact ⟨by omega, by omega, n / 2 ^ 32 + 1, by omega⟩

/-- The block numbers from `n` to `o`, as unsigned ones, against those from `q` to `p`, where `o` is `p` cut
    down and `n` is `q` if that is small, and else smaller than `q` or negative. -/
theorem blocks_within {n o k : Int} {q p : Nat} {small : Prop} (new : -2 ^ 31 ≤ n ∧ n < 2 ^ 31)
    (old : -2 ^ 31 ≤ o ∧ o < 2 ^ 31) (cut : (p : Int) = o + k * 2 ^ 32) (short : small → n = q)
    (long : ¬ small → 0 < q ∧ n < q) :
    (small ∨ o < n ∨ o < 0 ∧ q ≤ asBlk n) ↔ ∀ j, n ≤ j → j ≤ o → q ≤ asBlk j ∧ asBlk j ≤ p := by
  unfold asBlk
  constructor
  · rintro (less | none | ⟨behind, order⟩) j low high
    · have := short less
      omega
    · omega
    · omega
  · intro within
    by_cases less : small
    · exact .inl less
    · obtain ⟨some, far⟩ := long less
      by_cases none : o < n
      · exact .inr (.inl none)
      · have start := within n (le_refl _) (by omega)
        have behind : o < 0 := by
          by_contra ahead
          have := within (max n 0) (by omega) (by omega)
          omega
        exact .inr (.inr ⟨behind, start.1⟩)

theorem cutsDown_iff (fs : Superblock) (iSize size : Nat) : CutsDown fs iSize size ↔
    ∀ j, lblknoInt fs (asInt32 size) ≤ j → j ≤ lblknoInt fs iSize →
      size / fs.fsBsize ≤ asBlk j ∧ asBlk j ≤ iSize / fs.fsBsize := by
  have pos : (0 : Int) < fs.fsBsize := by exact_mod_cast fs.bsize_pos
  have small : (fs.fsBsize : Int) ≤ 65536 := by exact_mod_cast fs.bsize_le
  obtain ⟨low, high, m, cut⟩ := asInt32_range size
  obtain ⟨lowOld, highOld, k, old⟩ := asInt32_range ((iSize : Int) / fs.fsBsize)
  obtain ⟨lowNew, highNew, l, new⟩ := asInt32_range (asInt32 size / fs.fsBsize)
  -- cut down to an `int`, the size has a block number that is one
  have below : asInt32 size / (fs.fsBsize : Int) < 2 ^ 31 := Int.ediv_lt_of_lt_mul pos (by omega)
  have above : -2 ^ 31 ≤ asInt32 size / (fs.fsBsize : Int) := Int.le_ediv_of_mul_le pos (by omega)
  have newFbn : lblknoInt fs (asInt32 size) = asInt32 size / fs.fsBsize := by
    change asInt32 (asInt32 size / fs.fsBsize) = _
    omega
  have oldFbn : ((iSize / fs.fsBsize : Nat) : Int) = lblknoInt fs iSize + k * 2 ^ 32 := by
    rw [Int.natCast_div]
    exact old
  refine blocks_within ⟨lowNew, highNew⟩ ⟨lowOld, highOld⟩ oldFbn (fun less => ?_) fun large => ⟨?_, ?_⟩
  · have same : asInt32 size = size := by omega
    rw [newFbn, same, Int.natCast_div]
  · have := fs.bsize_le
    exact Nat.div_pos (by omega) fs.bsize_pos
  · rw [newFbn, Int.natCast_div]
    have shifted : (asInt32 size + 1 * fs.fsBsize) / (fs.fsBsize : Int) = asInt32 size / fs.fsBsize + 1 :=
      Int.add_mul_ediv_right _ _ (by omega)
    have before := Int.ediv_le_ediv pos (by omega : asInt32 size + 1 * fs.fsBsize ≤ size)
    rw [shifted] at before
    exact Int.lt_of_add_one_le before

theorem CutsDown.stays {iSize size : Nat} (down : CutsDown fs iSize size) : StaysWithin env fs ino iSize size s := by
  have within := (cutsDown_iff fs iSize size).mp down
  refine ⟨fun j comes => ?_, fun s₁ j comes => ?_⟩
  · obtain ⟨low, high⟩ := comes.range
    exact within j low high
  · obtain ⟨low, high⟩ := comes.range
    exact within j (by omega) high

theorem StaysWithin.cutsDown {v : Vnode} {size : Nat} (there : s.vnodes ino = some v)
    (run : ufsTruncate env fs ino (asInt32 size) s = .done 0 s') (stays : StaysWithin env fs ino v.inode.iSize size s) :
    CutsDown fs v.inode.iSize size := by
  refine (cutsDown_iff fs v.inode.iSize size).mpr fun j low high => stays.data j ?_
  unfold ufsTruncate at run
  rw [Prog.bind_of_done (vnode2inode_ok there)] at run
  obtain ⟨r, s₁, walk, run⟩ := Prog.bind_eq_done.mp run
  refine truncateData_comes _ s _ (by omega) (le_refl _) ?_ walk j low high
  cases r with
  | none => exact .inl rfl
  | some rc =>
      obtain ⟨rfl, -⟩ := Prog.pure_eq_done.mp run
      exact .inr rfl

/-- **Sizes.** A call of `ufs_file_set_size` leaves the size it is given exactly if that has 32 bits, and a call of
    `do_write` leaves what it should exactly if the file is not grown or its new end has 32 bits. A
    truncation to a size that is a positive `int` looks at, frees and remaps blocks between the new end and
    the old one only; one that succeeds does so exactly if its size, cut down, is still in order. -/
theorem sizes_exact (env : Env) (fs : Superblock) (s : State) :
    (∀ file size r s', ufsFileSetSize env fs file size s = .done r s' →
      (HasSize file.ino size s' ↔ size < 2 ^ 32)) ∧
    (∀ file src count offset old r s', HasSize file.ino old s → offset + count < 2 ^ 64 →
      doWrite env fs file src count offset s = .done r s' →
      (HasSize file.ino (max old (offset + count)) s' ↔ offset + count ≤ old ∨ offset + count < 2 ^ 32)) ∧
    (∀ ino v size, s.vnodes ino = some v →
      (CutsDown fs v.inode.iSize size → StaysWithin env fs ino v.inode.iSize size s) ∧
      ∀ s', ufsTruncate env fs ino (asInt32 size) s = .done 0 s' →
        (StaysWithin env fs ino v.inode.iSize size s ↔ CutsDown fs v.inode.iSize size)) := by
  refine ⟨fun file size r s' run => ?_, fun file src count offset old r s' sized room run => ?_,
    fun ino v size there => ⟨CutsDown.stays, fun s' run => ⟨StaysWithin.cutsDown there run, CutsDown.stays⟩⟩⟩
  · have left := ufsFileSetSize_hasSize run
    constructor
    · intro right
      have same := left.unique right
      have := Nat.mod_lt size (Nat.two_pow_pos 32)
      omega
    · intro small
      rw [Nat.mod_eq_of_lt small] at left
      exact left
  · have left := doWrite_hasSize sized room run
    by_cases grows : old < offset + count
    · rw [if_pos grows] at left
      rw [Nat.max_eq_right grows.le]
      constructor
      · intro right
        have same := left.unique right
        have := Nat.mod_lt (offset + count) (Nat.two_pow_pos 32)
        omega
      · intro small
        rw [Nat.mod_eq_of_lt (by omega)] at left
        exact left
    · rw [if_neg grows] at left
      rw [Nat.max_eq_left (by omega)]
      exact iff_of_true left (by omega)

/-- An empty file 3 is in core. -/
def emptyFileState : State := smallState.setVnode 3 ⟨copyOndiskToIncore { blankDinode with diMode := ifreg, diNlink := 1 } 3, 1⟩

theorem sizes_exact_small : ∃ r s', ufsFileSetSize calmEnv smallFs (freshFile 3 true fun _ => 0) 5000 emptyFileState
    = .done r s' ∧ HasSize 3 5000 s' :=
  ⟨_, _, rfl, ((sizes_exact calmEnv smallFs emptyFileState).1 (freshFile 3 true fun _ => 0) 5000 _ _ rfl).mpr (by decide)⟩

/-- Asked for four gigabytes and seven bytes, the file has seven bytes. -/
theorem setSize_wraps : ∃ r s', ufsFileSetSize calmEnv smallFs (freshFile 3 true fun _ => 0) (2 ^ 32 + 7) emptyFileState
    = .done r s' ∧ r.1 = 0 ∧ HasSize 3 7 s' ∧ ¬ HasSize 3 (2 ^ 32 + 7) s' := by
  refine ⟨_, _, rfl, rfl, ⟨_, rfl, rfl⟩, fun wrong => ?_⟩
  obtain ⟨v, there, size⟩ := wrong
  cases there
  revert size
  decide

end FuseUfs
