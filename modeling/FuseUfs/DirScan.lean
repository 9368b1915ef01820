import FuseUfs.DirImage
import FuseUfs.DirWalk
import FuseUfs.TruncateCorrect

/-! # A walk over a directory, seen from its contents

`ufs_dir_iterate` reads a block of the file, hands the records in it to a procedure, and writes
the block back when the procedure has changed it. Seen from the contents of the directory it
goes from record to record, from the first byte to the last one, and each step may change the
contents. `Scan` says that; the theorem here is that the code does it, for a directory in order
and with devices that work.
-/

namespace FuseUfs

open Lib Prog

/-- A directory in core with these contents. -/
structure DirFile (fs : Superblock) (s : State) (dir : Nat) (v : Vnode) (img : Buf) : Prop
    extends FileInv fs s dir v (fs.ownFrags v.inode.iSize) where
  dsize : v.inode.iDin2.diSize = v.inode.iSize
  /-- Every block is within the reach of the double tree. -/
  range : v.inode.iSize ≤ fs.maxBlocks * fs.fsBsize
  /-- Positions are kept in an `int`. -/
  small : v.inode.iSize < 2 ^ 31
  /-- No block is at the address at which `ufs_bmap` exits. -/
  clean : ∀ b, fileAddr fs s v (.data b) ≠ poisonBlock
  bytes : ∀ p < v.inode.iSize, s.byte fs v p = img p

section Steps

variable {env : Env} {fs : Superblock} {s s' : State} {dir : Nat} {v : Vnode} {img img' buf : Buf}

/-- How much of block `i` the walk has in its buffer. -/
def Superblock.dirLen (fs : Superblock) (size i : Nat) : Nat := loadLen fs size (i * fs.fsBsize)

/-- The buffer has the contents of block `i`. -/
def ShowsBlock (fs : Superblock) (size i : Nat) (img buf : Buf) : Prop :=
  ∀ j < fs.fsBsize, i * fs.fsBsize + j < size → buf j = img (i * fs.fsBsize + j)

theorem dirblksiz_dvd (fs : Superblock) : dirblksiz ∣ fs.fsBsize := by
  rw [fs.bsize_eq]
  exact pow_dvd_pow 2 (by have := fs.bshift_range; omega : 9 ≤ fs.fsBshift)

/-- Part of a block fits into the fragments of a block. -/
theorem fragroundup_frags (fs : Superblock) {n : Nat} (le : n ≤ fs.fsBsize) :
    (n + (fs.fsFsize - 1)) / fs.fsFsize ≤ fs.fsFrag := by
  refine Nat.lt_succ_iff.mp ((Nat.div_lt_iff_lt_mul fs.fsize_pos).mpr ?_)
  have := fs.bsize_eq_mul
  have := fs.fsize_pos
  rw [Nat.succ_mul]
  omega

theorem fragroundup_le (fs : Superblock) {n : Nat} (le : n ≤ fs.fsBsize) : fs.fragroundup n ≤ fs.fsBsize := by
  rw [fs.fragroundup_eq, fs.bsize_eq_mul]
  exact Nat.mul_le_mul_right _ (fragroundup_frags fs le)

theorem dirLen_eq (fs : Superblock) {size i : Nat} (inside : i * fs.fsBsize < size) :
    0 < fs.ownFrags size i ∧ fs.dirLen size i = fs.ownFrags size i * fs.fsFsize := by
  have bpos := fs.bsize_pos
  obtain ⟨pos, width⟩ := cut_width inside
  refine ⟨pos, ?_⟩
  rw [width]
  unfold Superblock.dirLen loadLen
  by_cases long : fs.fsBsize * ndaddr ≤ size
  · rw [if_pos long, if_neg]
    rintro ⟨few, -⟩
    have := (Nat.div_lt_iff_lt_mul bpos).mp few
    rw [Nat.mul_comm] at this
    omega
  · have few : size / fs.fsBsize < ndaddr := by
      rw [Nat.div_lt_iff_lt_mul bpos, Nat.mul_comm]
      omega
    have parts := Nat.div_add_mod' size fs.fsBsize
    have rest := Nat.mod_lt size bpos
    rw [if_neg long]
    by_cases last : i = size / fs.fsBsize
    · have left : size - i * fs.fsBsize = size % fs.fsBsize := by rw [last]; omega
      have some : size % fs.fsBsize ≠ 0 := by omega
      rw [if_pos ⟨few, last⟩, left, lastBlockSize, if_pos some]
      exact min_eq_right (fragroundup_le fs rest.le)
    · have less : i < size / fs.fsBsize := by
        have : i ≤ size / fs.fsBsize := (Nat.le_div_iff_mul_le bpos).mpr inside.le
        omega
      have more : (i + 1) * fs.fsBsize ≤ size := by
        have : (i + 1) * fs.fsBsize ≤ size / fs.fsBsize * fs.fsBsize := Nat.mul_le_mul_right _ less
        omega
      rw [if_neg fun both => last both.2]
      refine min_eq_left (le_trans ?_ (le_fragroundup _))
      rw [Nat.succ_mul] at more
      omega

/-- The buffer has all of the directory that lies in the block. -/
theorem lt_dirLen {size i j : Nat} (low : j < fs.fsBsize) (inside : i * fs.fsBsize + j < size) :
    j < fs.dirLen size i :=
  Nat.lt_of_lt_of_le (by omega) (le_loadLen size (i * fs.fsBsize))

theorem dirLen_le (size i : Nat) : fs.dirLen size i ≤ fs.fsBsize := loadLen_le size _

theorem dirLen_full (fs : Superblock) {size i : Nat} (more : (i + 1) * fs.fsBsize ≤ size) :
    fs.dirLen size i = fs.fsBsize := by
  refine Nat.le_antisymm (dirLen_le size i) ?_
  rw [Nat.succ_mul] at more
  have bpos := fs.bsize_pos
  have := lt_dirLen (show fs.fsBsize - 1 < fs.fsBsize by omega)
    (show i * fs.fsBsize + (fs.fsBsize - 1) < size by omega)
  omega

theorem DirFile.atTick (file : DirFile fs s dir v img) (t : Nat) : DirFile fs (s.atTick t) dir v img :=
  ⟨file.toFileInv.atTick t, file.dsize, file.range, file.small, file.clean, file.bytes⟩

theorem block_parts (fs : Superblock) (i : Nat) {j : Nat} (low : j < fs.fsBsize) :
    (i * fs.fsBsize + j) / fs.fsBsize = i ∧ (i * fs.fsBsize + j) % fs.fsBsize = j := by
  rw [Nat.mul_comm]
  exact ⟨by rw [Nat.mul_add_div fs.bsize_pos, Nat.div_eq_of_lt low, Nat.add_zero],
    by rw [Nat.mul_add_mod, Nat.mod_eq_of_lt low]⟩

/-- The bytes of block `i` on the device; a hole is read at the start of the device. -/
theorem DirFile.block_byte (file : DirFile fs s dir v img) {i j : Nat} (low : j < fs.fsBsize)
    (inside : i * fs.fsBsize + j < v.inode.iSize) :
    s.data (fileAddr fs s v (.data i) * fs.fsFsize + j) = img (i * fs.fsBsize + j) := by
  obtain ⟨block, place⟩ := block_parts fs i low
  rw [← file.bytes _ inside, byte_eq, block, place, blockByte]
  split
  · next hole =>
    rw [hole, Nat.zero_mul, Nat.zero_add]
    exact file.zero j low
  · rfl

/-- Reading block `i` fills the buffer with the contents of that block. -/
theorem DirFile.read (file : DirFile fs s dir v img) (old : Buf) (i : Nat) :
    ShowsBlock fs v.inode.iSize i img
      (fill old (fun j => s.data (fileAddr fs s v (.data i) * fs.fsFsize + j)) (fs.dirLen v.inode.iSize i)) := by
  intro j low inside
  rw [fill_inside (lt_dirLen low inside)]
  exact file.block_byte low inside

/-- Writing block `i` back. -/
theorem DirFile.write (file : DirFile fs s dir v img) {i : Nat} (inside : i * fs.fsBsize < v.inode.iSize)
    (there : fileAddr fs s v (.data i) ≠ 0) (shows : ShowsBlock fs v.inode.iSize i img' buf)
    (same : ∀ p, p / fs.fsBsize ≠ i → img' p = img p) :
    DirFile fs (s.put fs (fileAddr fs s v (.data i)) buf (fs.dirLen v.inode.iSize i)) dir v img' ∧
      fileAddr fs (s.put fs (fileAddr fs s v (.data i)) buf (fs.dirLen v.inode.iSize i)) v
        = fileAddr fs s v := by
  obtain ⟨-, len⟩ := dirLen_eq fs inside
  rw [len]
  obtain ⟨inv, addr, -, agree⟩ := put_data True file.toFileInv buf there (le_refl (fs.ownFrags v.inode.iSize i))
  refine ⟨⟨inv, file.dsize, file.range, file.small, fun b => by rw [addr]; exact file.clean b,
    fun p below => ?_⟩, addr⟩
  have bpos := fs.bsize_pos
  have parts := Nat.div_add_mod' p fs.fsBsize
  have low := Nat.mod_lt p bpos
  rw [byte_eq, addr]
  by_cases here : p / fs.fsBsize = i
  · rw [here] at parts ⊢
    rw [blockByte, if_neg there, ← parts, (block_parts fs i low).2, ← shows _ low (by omega)]
    have within : p % fs.fsBsize < fs.ownFrags v.inode.iSize i * fs.fsFsize := by
      rw [← len]
      exact lt_dirLen low (by omega)
    change store s.data _ buf _ _ = _
    rw [store_inside (by omega) (by omega), Nat.add_sub_cancel_left]
  · rw [same p here, ← file.bytes p below, byte_eq]
    unfold blockByte
    split
    · rfl
    · next mapped =>
      refine agree_byte (agree.mono fun x mine inside => ?_) (lt_ownFrags below)
      have apart := file.owned.apart (show Slot.data (p / fs.fsBsize) ≠ .data i by simpa using here)
      exact Set.disjoint_left.mp apart ⟨mapped, mine⟩ ⟨there, inside⟩

/-- Neither a core structure nor a file is touched but for the bytes on the device. -/
def Rewrites (s s' : State) : Prop := ∃ t l d, s' = { s with tick := t, log := l, data := d }

theorem Rewrites.refl (s : State) : Rewrites s s := ⟨s.tick, s.log, s.data, rfl⟩

theorem Rewrites.trans {s'' : State} (first : Rewrites s s') (second : Rewrites s' s'') : Rewrites s s'' := by
  obtain ⟨t, l, d, rfl⟩ := first
  obtain ⟨t', l', d', rfl⟩ := second
  exact ⟨t', l', d', rfl⟩

theorem Rewrites.atTick (s : State) (t : Nat) : Rewrites s (s.atTick t) := ⟨t, s.log, s.data, rfl⟩

theorem Rewrites.put (s : State) (bno : Nat) (buf : Buf) (size : Nat) : Rewrites s (s.put fs bno buf size) :=
  ⟨_, _, _, rfl⟩

/-- A record does not cross a block of the file. -/
theorem RecordOk.inBlock (fs : Superblock) {p : Nat} (ok : RecordOk img p) :
    p % fs.fsBsize + dReclen img p ≤ fs.fsBsize := by
  obtain ⟨k, whole⟩ := dirblksiz_dvd fs
  have within := ok.block
  have small : p % fs.fsBsize % dirblksiz = p % dirblksiz := Nat.mod_mod_of_dvd p (dirblksiz_dvd fs)
  have low := Nat.mod_lt p fs.bsize_pos
  have parts := Nat.div_add_mod (p % fs.fsBsize) dirblksiz
  have below : p % fs.fsBsize / dirblksiz < k :=
    (Nat.div_lt_iff_lt_mul (by decide)).mpr (by rw [Nat.mul_comm, ← whole]; exact low)
  have room : dirblksiz * (p % fs.fsBsize / dirblksiz + 1) ≤ dirblksiz * k := Nat.mul_le_mul_left _ below
  rw [Nat.mul_add, Nat.mul_one] at room
  omega

/-- What a buffer has of a record is the record. -/
theorem ShowsBlock.record {size p : Nat} (shows : ShowsBlock fs size (p / fs.fsBsize) img buf) (ok : RecordOk img p)
    (within : p + dReclen img p ≤ size) : ∀ k < dReclen img p, buf (p % fs.fsBsize + k) = img (p + k) := by
  intro k hk
  have inBlock := ok.inBlock fs
  have parts := Nat.div_add_mod' p fs.fsBsize
  rw [shows _ (by omega) (by omega)]
  congr 1
  omega

/-- A change in the block, made in the buffer. -/
theorem ShowsBlock.putLe {size p : Nat} (shows : ShowsBlock fs size (p / fs.fsBsize) img buf) (d k n : Nat) :
    ShowsBlock fs size (p / fs.fsBsize) (putLe img (p + d) k n) (putLe buf (p % fs.fsBsize + d) k n) := by
  intro j low inside
  have parts := Nat.div_add_mod' p fs.fsBsize
  by_cases here : p % fs.fsBsize + d ≤ j ∧ j < p % fs.fsBsize + d + k
  · rw [FuseUfs.putLe, FuseUfs.putLe, if_pos here, if_pos (by omega)]
    congr 1
    omega
  · rw [putLe_outside here, putLe_outside (by omega)]
    exact shows j low inside

/-- It is a change in no other block. -/
theorem putLe_frame {p x d k n : Nat} (inBlock : p % fs.fsBsize + d + k ≤ fs.fsBsize)
    (other : x / fs.fsBsize ≠ p / fs.fsBsize) : putLe img (p + d) k n x = img x := by
  refine putLe_outside fun here => other ?_
  have parts := Nat.div_add_mod' p fs.fsBsize
  obtain ⟨block, -⟩ := block_parts fs (p / fs.fsBsize) (show p % fs.fsBsize + (x - p) < fs.fsBsize by omega)
  rw [← Nat.add_assoc, parts, show p + (x - p) = x by omega] at block
  exact block

/-- A block with a record in it is on the device. -/
theorem DirFile.mapped (file : DirFile fs s dir v img) {p : Nat} (ok : RecordOk img p)
    (within : p + dReclen img p ≤ v.inode.iSize) : fileAddr fs s v (.data (p / fs.fsBsize)) ≠ 0 := by
  intro hole
  have head := ok.head
  have inBlock := ok.inBlock fs
  have zeros : ∀ i < 2, img (p + 4 + i) = 0 := by
    intro i hi
    obtain ⟨block, -⟩ := block_parts fs (p / fs.fsBsize) (show p % fs.fsBsize + (4 + i) < fs.fsBsize by omega)
    have parts := Nat.div_add_mod' p fs.fsBsize
    rw [← Nat.add_assoc, parts] at block
    rw [Nat.add_assoc, ← file.bytes _ (by omega), byte_eq, block, blockByte, if_pos hole]
  have none : dReclen img p = dReclen (fun _ => 0) p := dReclen_congr zeros
  have zero : dReclen (fun _ => (0 : Byte)) p = 0 := by simp [dReclen, leGet]
  omega

end Steps

/-! ## From record to record -/

section Scans

variable {env : Env} {fs : Superblock} {σ : Type} {func : DirProc σ} {dir : Nat} {v : Vnode} {s : State}

/-- What the procedure does with the record at `p`, in any buffer that has the block around it. -/
structure RecordStep (fs : Superblock) (size : Nat) (func : DirProc σ) (p : Nat) (img : Buf) (priv : σ) (ret : Int)
    (img' : Buf) (priv' : σ) : Prop where
  call : ∀ buf, ShowsBlock fs size (p / fs.fsBsize) img buf →
    ∃ buf', func buf (p % fs.fsBsize) priv = some (ret, buf', priv') ∧
      ShowsBlock fs size (p / fs.fsBsize) img' buf'
  /-- A change is announced. -/
  quiet : hasBit ret 0 = false → img' = img
  frame : ∀ x, x / fs.fsBsize ≠ p / fs.fsBsize → img' x = img x

/-- A walk over the records from `p` on, with the value returned by the record before, to its
    value, contents and private data at the end. -/
inductive Scan (fs : Superblock) (size : Nat) (func : DirProc σ) :
    (p : Nat) → (img : Buf) → σ → (ret : Int) → Int × Buf × σ → Prop
  | ends (img : Buf) (priv : σ) (ret : Int) : Scan fs size func size img priv ret (ret, img, priv)
  | stops {p : Nat} {img img' : Buf} {priv priv' : σ} {ret ret' : Int} (ok : RecordOk img p)
      (within : p + dReclen img p ≤ size) (step : RecordStep fs size func p img priv ret' img' priv')
      (stop : hasBit ret' 1 = true) : Scan fs size func p img priv ret (0, img', priv')
  | goes {p : Nat} {img img' : Buf} {priv priv' : σ} {ret ret' : Int} {final : Int × Buf × σ}
      (ok : RecordOk img p) (within : p + dReclen img p ≤ size)
      (step : RecordStep fs size func p img priv ret' img' priv') (goes : hasBit ret' 1 = false)
      (ok' : RecordOk img' p) (within' : p + dReclen img' p ≤ size)
      (rest : Scan fs size func (p + dReclen img' p) img' priv' ret' final) :
      Scan fs size func p img priv ret final

/-- The walk from offset `off` of block `i` on. -/
def walkOn (env : Env) (fs : Superblock) (func : DirProc σ) (dir size blkno n i left off : Nat) (w : Walk σ) :
    M (Walk σ) := do
  let w ← dirRecords env fs func size (i * fs.fsBsize : Nat) blkno (fs.dirLen size i) left off w
  if w.out then pure w
  else dirBlocks env fs func dir size n (i + 1) (asInt32 ((i * fs.fsBsize : Nat) + fs.dirLen size i)) w

/-- The read length at the start of block `i`. -/
theorem ioSize_dirLen {inode : Inode} (dsize : inode.iDin2.diSize = inode.iSize) (small : inode.iSize < 2 ^ 31) {i : Nat}
    (inside : i * fs.fsBsize < inode.iSize) :
    ufsInodeIoSize fs inode (i * fs.fsBsize : Nat) false = fs.dirLen inode.iSize i := by
  rw [← asInt32_of_lt (show i * fs.fsBsize < 2 ^ 31 by omega)]
  exact ioSize_read dsize inside

theorem dirLen_pos (fs : Superblock) {size i : Nat} (inside : i * fs.fsBsize < size) : 0 < fs.dirLen size i := by
  obtain ⟨pos, len⟩ := dirLen_eq fs inside
  rw [len]
  exact Nat.mul_pos pos fs.fsize_pos

/-- Entering block `i`: its address is found and the block is read. -/
theorem dirBlocks_enter (func : DirProc σ) (io : env.IoOk) (there : s.vnodes dir = some v)
    (dsize : v.inode.iDin2.diSize = v.inode.iSize) (range : v.inode.iSize ≤ fs.maxBlocks * fs.fsBsize)
    (small : v.inode.iSize < 2 ^ 31) {i : Nat} (inside : i * fs.fsBsize < v.inode.iSize)
    (walk : WalkOk fs s.data v.inode.iDin2 i) (clean : blockAt fs s.data v.inode.iDin2 i ≠ poisonBlock)
    (n : Nat) (w : Walk σ) :
    ∃ t, dirBlocks env fs func dir v.inode.iSize (n + 1) i (i * fs.fsBsize : Nat) w s
      = walkOn env fs func dir v.inode.iSize (blockAt fs s.data v.inode.iDin2 i) n i fs.fsBsize 0
          ⟨0, false, fill w.buf (fun j => s.data (blockAt fs s.data v.inode.iDin2 i * fs.fsFsize + j))
            (fs.dirLen v.inode.iSize i), w.priv⟩ (s.atTick t) := by
  have bpos := fs.bsize_pos
  have counted : i < fs.maxBlocks := Nat.lt_of_mul_lt_mul_right (Nat.lt_of_lt_of_le inside range)
  have few : ¬ 2 ^ 31 ≤ i := by
    have : i * 1 ≤ i * fs.fsBsize := Nat.mul_le_mul_left _ bpos
    omega
  obtain ⟨t, mapped⟩ := ufsBmap_ok io there counted walk
  rw [if_neg clean] at mapped
  have inode := vnode2inode_ok (show (s.atTick t).vnodes dir = some v from there)
  have size := ioSize_dirLen dsize small inside
  have some := dirLen_pos fs inside
  have read : blkread env fs (blockAt fs s.data v.inode.iDin2 i) w.buf (fs.dirLen v.inode.iSize i) (s.atTick t)
      = _ := blkread_ok io some w.buf (s.atTick t)
  refine ⟨t + 1, ?_⟩
  rw [dirBlocks, if_neg few]
  refine (Prog.bind_of_done mapped _).trans ?_
  simp only [ne_eq, not_true_eq_false, if_false]
  rw [Prog.bind_of_done inode, size, Int.toNat_natCast]
  refine (Prog.bind_of_done read _).trans ?_
  simp only [if_neg (show ¬ (fs.dirLen v.inode.iSize i : Int) = -1 by omega)]
  rfl

/-- What a walk needs of the directory: `held s img` says that it is there in `s`, with its blocks
    at `addr` and with these contents. -/
structure Carries (env : Env) (fs : Superblock) (func : DirProc σ) (dir size : Nat) (addr : Nat → Nat)
    (held : State → Buf → Prop) : Prop where
  small : size < 2 ^ 31
  tick : ∀ {s img}, held s img → ∀ t, held (s.atTick t) img
  enter : ∀ {s img i}, held s img → i * fs.fsBsize < size → ∀ n (w : Walk σ),
    ∃ t buf, ShowsBlock fs size i img buf ∧
      dirBlocks env fs func dir size (n + 1) i (i * fs.fsBsize : Nat) w s
        = walkOn env fs func dir size (addr i) n i fs.fsBsize 0 ⟨0, false, buf, w.priv⟩ (s.atTick t)
  turn : ∀ {s img img' i off priv priv' ret'} {w : Walk σ}, held s img → off < fs.fsBsize →
    RecordOk img (i * fs.fsBsize + off) →
    i * fs.fsBsize + off + dReclen img (i * fs.fsBsize + off) ≤ size →
    RecordStep fs size func (i * fs.fsBsize + off) img priv ret' img' priv' →
    ShowsBlock fs size i img w.buf → w.priv = priv → ∀ left,
    ∃ buf' s', ShowsBlock fs size i img' buf' ∧ held s' img' ∧ Rewrites s s' ∧
      dirRecords env fs func size (i * fs.fsBsize : Nat) (addr i) (fs.dirLen size i) (left + 1) off w s
        = if hasBit ret' 1 then .done ⟨0, true, buf', priv'⟩ s'
          else dirRecords env fs func size (i * fs.fsBsize : Nat) (addr i) (fs.dirLen size i) left
            (off + dReclen buf' off) ⟨ret', false, buf', priv'⟩ s'

section Sound

variable {size : Nat} {img : Buf}

/-- The loop over a block has a record at every place of the directory. -/
theorem inRecords (fs : Superblock) {i off : Nat} (low : off < fs.fsBsize) (inside : i * fs.fsBsize + off < size)
    (small : size < 2 ^ 31) :
    InRecords size (i * fs.fsBsize : Nat) (fs.dirLen size i) off := by
  refine ⟨by exact_mod_cast lt_dirLen low inside, ?_⟩
  rw [← Int.natCast_add, asInt32_of_lt (by omega), asU64_of_lt (by omega)]
  exact inside

/-- It has none where the directory ends. -/
theorem not_inRecords {i off : Nat} (past : size = i * fs.fsBsize + off) (small : size < 2 ^ 31) :
    ¬ InRecords size (i * fs.fsBsize : Nat) (fs.dirLen size i) off := by
  rintro ⟨-, inside⟩
  rw [← Int.natCast_add, asInt32_of_lt (by omega), asU64_of_lt (by omega)] at inside
  omega

/-- The number of blocks left after block `i`. -/
theorem howmany_blocks {i off : Nat} (low : off ≤ fs.fsBsize) (some : 0 < off)
    (past : size = i * fs.fsBsize + off) : howmany size fs.fsBsize = i + 1 := by
  have bpos := fs.bsize_pos
  unfold howmany
  rw [past, show i * fs.fsBsize + off + (fs.fsBsize - 1) = off - 1 + (i + 1) * fs.fsBsize by
    rw [Nat.succ_mul]; omega, Nat.add_mul_div_right _ _ bpos, Nat.div_eq_of_lt (by omega), Nat.zero_add]

theorem lt_howmany {i : Nat} (inside : i * fs.fsBsize < size) : i < howmany size fs.fsBsize := by
  refine (Nat.le_div_iff_mul_le fs.bsize_pos).mpr ?_
  rw [Nat.succ_mul]
  omega

/-- A turn of the loop over the records: the procedure is called, and the block is written if it
    says so. -/
theorem dirRecords_called {img' : Buf} {priv priv' : σ} {ret' : Int} (small : size < 2 ^ 31) {i off : Nat}
    (low : off < fs.fsBsize) (ok : RecordOk img (i * fs.fsBsize + off))
    (within : i * fs.fsBsize + off + dReclen img (i * fs.fsBsize + off) ≤ size)
    (step : RecordStep fs size func (i * fs.fsBsize + off) img priv ret' img' priv')
    {w : Walk σ} (shows : ShowsBlock fs size i img w.buf) (same : w.priv = priv) (blkno left : Nat) (s : State) :
    ∃ buf', ShowsBlock fs size i img' buf' ∧
      dirRecords env fs func size (i * fs.fsBsize : Nat) blkno (fs.dirLen size i) (left + 1) off w s
      = (writeChanged env fs blkno (fs.dirLen size i) ret' buf' >>= fun rc =>
        if rc = -1 then pure ⟨-eio, true, buf', priv'⟩
        else if hasBit ret' 1 then pure ⟨0, true, buf', priv'⟩
        else dirRecords env fs func size (i * fs.fsBsize : Nat) blkno (fs.dirLen size i) left
          (off + dReclen buf' off) ⟨ret', false, buf', priv'⟩) s := by
  subst same
  obtain ⟨block, place⟩ := block_parts fs i low
  have head := ok.head
  obtain ⟨buf', called, shows'⟩ := step.call w.buf (by rw [block]; exact shows)
  rw [place] at called
  rw [block] at shows'
  have here := inRecords fs low (show i * fs.fsBsize + off < size by omega) small
  refine ⟨buf', shows', ?_⟩
  rw [dirRecords, if_pos (show _ ∧ _ from here)]
  simp only [called]

/-- A turn that changes nothing. -/
theorem dirRecords_quiet {img' : Buf} {priv priv' : σ} {ret' : Int} (small : size < 2 ^ 31) {i off : Nat}
    (low : off < fs.fsBsize) (ok : RecordOk img (i * fs.fsBsize + off))
    (within : i * fs.fsBsize + off + dReclen img (i * fs.fsBsize + off) ≤ size)
    (step : RecordStep fs size func (i * fs.fsBsize + off) img priv ret' img' priv') (quiet : hasBit ret' 0 = false)
    {w : Walk σ} (shows : ShowsBlock fs size i img w.buf) (same : w.priv = priv) (blkno left : Nat) (s : State) :
    ∃ buf', ShowsBlock fs size i img' buf' ∧
      dirRecords env fs func size (i * fs.fsBsize : Nat) blkno (fs.dirLen size i) (left + 1) off w s
        = if hasBit ret' 1 then .done ⟨0, true, buf', priv'⟩ s
          else dirRecords env fs func size (i * fs.fsBsize : Nat) blkno (fs.dirLen size i) left
            (off + dReclen buf' off) ⟨ret', false, buf', priv'⟩ s := by
  obtain ⟨buf', shows', turn⟩ := dirRecords_called small low ok within step shows same blkno left s
  refine ⟨buf', shows', turn.trans ?_⟩
  rw [writeChanged, quiet]
  refine (Prog.bind_of_done rfl _).trans ?_
  rw [if_neg (by decide)]
  split
  · rfl
  · rfl

/-- A directory of a mount in order, on devices that work, can be walked over and changed. -/
theorem DirFile.carries (func : DirProc σ) (io : env.IoOk) (dir : Nat) (v : Vnode) (addr : Slot → Nat)
    (small : v.inode.iSize < 2 ^ 31) :
    Carries env fs func dir v.inode.iSize (fun i => addr (.data i))
      fun s img => DirFile fs s dir v img ∧ fileAddr fs s v = addr where
  small := small
  tick := fun held t => ⟨held.1.atTick t, held.2⟩
  enter := by
    rintro s img i ⟨file, rfl⟩ inside n w
    obtain ⟨t, entered⟩ := dirBlocks_enter func io file.there file.dsize file.range file.small inside (.inl file.zero)
      (file.clean i) n w
    exact ⟨t, _, file.read w.buf i, entered⟩
  turn := by
    rintro s img img' i off priv priv' ret' w ⟨file, rfl⟩ low ok within step shows same left
    cases changed : hasBit ret' 0 with
    | false =>
        obtain rfl := step.quiet changed
        obtain ⟨buf', shows', turn⟩ := dirRecords_quiet file.small low ok within step changed shows same
          (fileAddr fs s v (.data i)) left s
        exact ⟨buf', s, shows', ⟨file, rfl⟩, .refl s, turn⟩
    | true =>
        obtain ⟨buf', shows', turn⟩ := dirRecords_called file.small low ok within step shows same
          (fileAddr fs s v (.data i)) left s
        obtain ⟨block, -⟩ := block_parts fs i low
        have head := ok.head
        have there : fileAddr fs s v (.data i) ≠ 0 := by
          have := file.mapped ok within
          rwa [block] at this
        have fits := (file.owned.fits _ there).offset_fits
        have wrote : blkwrite env fs (fileAddr fs s v (.data i)) buf' (fs.dirLen v.inode.iSize i : Nat) s = _ :=
          blkwrite_ok io fits buf' s
        have inside : i * fs.fsBsize < v.inode.iSize := by omega
        obtain ⟨file', addr⟩ := file.write inside there shows' (by rw [← block]; exact step.frame)
        refine ⟨buf', _, shows', ⟨file', addr⟩, .put .., turn.trans ?_⟩
        rw [writeChanged, changed, if_pos rfl]
        refine (Prog.bind_of_done wrote _).trans ?_
        rw [if_neg (by omega)]
        split
        · rfl
        · rfl

/-- Nothing is left to do at the end. -/
theorem Scan.at_end {priv : σ} {ret : Int} {final : Int × Buf × σ}
    (scan : Scan fs size func size img priv ret final) : final = (ret, img, priv) := by
  cases scan with
  | ends => rfl
  | stops ok within =>
      have := ok.head
      omega
  | goes ok within =>
      have := ok.head
      omega

theorem walkOn_congr {blkno n i left off left' off' : Nat} {w w' : Walk σ} {s' : State}
    (same : dirRecords env fs func size (i * fs.fsBsize : Nat) blkno (fs.dirLen size i) left off w s
      = dirRecords env fs func size (i * fs.fsBsize : Nat) blkno (fs.dirLen size i) left' off' w' s') :
    walkOn env fs func dir size blkno n i left off w s = walkOn env fs func dir size blkno n i left' off' w' s' := by
  unfold walkOn
  rw [Prog.bind_apply, Prog.bind_apply, same]

/-- The code does what the walk over the contents does. -/
theorem Scan.sound {addr : Nat → Nat} {held : State → Buf → Prop}
    (carries : Carries env fs func dir size addr held) {p : Nat} {priv : σ} {ret : Int} {final : Int × Buf × σ}
    (scan : Scan fs size func p img priv ret final) :
    ∀ s i off n left (w : Walk σ), held s img → p = i * fs.fsBsize + off → off < fs.fsBsize →
      i * fs.fsBsize < size → n + (i + 1) = howmany size fs.fsBsize →
      fs.fsBsize ≤ left + off → ShowsBlock fs size i img w.buf → w.priv = priv → w.out = false →
      (p = size → w.ret = ret) →
      ∃ w' s', walkOn env fs func dir size (addr i) n i left off w s = .done w' s' ∧
        held s' final.2.1 ∧ Rewrites s s' ∧ w'.ret = final.1 ∧ w'.priv = final.2.2 := by
  have small := carries.small
  induction scan with
  | ends img priv ret =>
      intro s i off n left w file place low inside total enough shows same out value
      have past := not_inRecords place small
      have blocks := howmany_blocks low.le (by omega) place
      obtain rfl : n = 0 := by omega
      refine ⟨w, s, ?_, file, .refl s, value rfl, same⟩
      unfold walkOn
      rw [Prog.bind_of_done (dirRecords_past past), out]
      rfl
  | stops ok within step stop =>
      intro s i off n left w file place low inside total enough shows same out value
      subst place
      obtain ⟨left, rfl⟩ := Nat.exists_eq_succ_of_ne_zero (show left ≠ 0 by omega)
      obtain ⟨buf', s', -, file', kept, turn⟩ := carries.turn file low ok within step shows same left
      rw [if_pos stop] at turn
      refine ⟨⟨0, true, buf', _⟩, s', ?_, file', kept, rfl, rfl⟩
      unfold walkOn
      rw [Prog.bind_of_done turn]
      rfl
  | goes ok within step goes ok' within' rest ih =>
      intro s i off n left w file place low inside total enough shows same out value
      subst place
      obtain ⟨left, rfl⟩ := Nat.exists_eq_succ_of_ne_zero (show left ≠ 0 by omega)
      obtain ⟨buf', s', shows', file', kept, turn⟩ := carries.turn file low ok within step shows same left
      rename_i img img' priv priv' ret ret' final
      have inBlock := ok'.inBlock fs
      rw [(block_parts fs i low).2] at inBlock
      have head := ok'.head
      have len : dReclen buf' off = dReclen img' (i * fs.fsBsize + off) :=
        dReclen_congr fun k hk => by
          rw [Nat.add_assoc, shows' _ (by omega) (by omega)]
          simp only [Nat.add_assoc]
      rw [if_neg (by rw [goes]; decide), len] at turn
      rw [walkOn_congr turn]
      set q := dReclen img' (i * fs.fsBsize + off) with hq
      rcases Nat.lt_or_ge (off + q) fs.fsBsize with short | ended
      · obtain ⟨w', s'', run, last, kept', values⟩ := ih s' i (off + q) n left ⟨ret', false, buf', priv'⟩ file'
          (Nat.add_assoc ..) short inside total (by omega) shows' rfl rfl fun _ => rfl
        exact ⟨w', s'', run, last, kept.trans kept', values⟩
      · have whole : off + q = fs.fsBsize := by omega
        have next : i * fs.fsBsize + off + q = (i + 1) * fs.fsBsize := by rw [Nat.succ_mul]; omega
        have past : ¬ InRecords size (i * fs.fsBsize : Nat) (fs.dirLen size i) (off + q) := by
          rintro ⟨less, -⟩
          have : fs.dirLen size i ≤ fs.fsBsize := dirLen_le _ i
          omega
        have onward : walkOn env fs func dir size (addr i) n i left (off + q)
            ⟨ret', false, buf', priv'⟩ s' = dirBlocks env fs func dir size n (i + 1)
              (asInt32 ((i * fs.fsBsize : Nat) + fs.dirLen size i)) ⟨ret', false, buf', priv'⟩ s' := by
          unfold walkOn
          rw [Prog.bind_of_done (dirRecords_past past)]
          rfl
        rw [onward]
        rw [next] at within' rest ih
        rcases Nat.eq_or_lt_of_le within' with last | more
        · rw [last] at rest
          cases rest.at_end
          have blocks := howmany_blocks (le_refl fs.fsBsize) fs.bsize_pos
            (show size = i * fs.fsBsize + fs.fsBsize by rw [← last, Nat.succ_mul])
          obtain rfl : n = 0 := by omega
          exact ⟨_, s', rfl, file', kept, rfl, rfl⟩
        · have blocks : (i + 1) + 1 ≤ howmany size fs.fsBsize := lt_howmany more
          obtain ⟨n, rfl⟩ := Nat.exists_eq_succ_of_ne_zero (show n ≠ 0 by omega)
          rw [dirLen_full fs more.le, ← Int.natCast_add, ← Nat.add_one_mul, asInt32_of_lt (by omega)]
          obtain ⟨t, buf, shown, enter⟩ := carries.enter file' more n ⟨ret', false, buf', priv'⟩
          obtain ⟨w', s'', run, done⟩ := ih (s'.atTick t) (i + 1) 0 n fs.fsBsize ⟨0, false, buf, priv'⟩
            (carries.tick file' t) rfl fs.bsize_pos more (by omega) (Nat.le_refl _) shown rfl rfl fun e => by omega
          exact ⟨w', s'', enter.trans run, done.1, kept.trans ((Rewrites.atTick s' t).trans done.2.1), done.2.2⟩

/-- The whole walk. -/
theorem Scan.run {addr : Nat → Nat} {held : State → Buf → Prop} (carries : Carries env fs func dir size addr held)
    {priv : σ} {final : Int × Buf × σ} (scan : Scan fs size func 0 img priv 0 final) (file : held s img) (buf : Buf) :
    ∃ w s', dirBlocks env fs func dir size (howmany size fs.fsBsize) 0 0 ⟨0, false, buf, priv⟩ s = .done w s' ∧
      held s' final.2.1 ∧ Rewrites s s' ∧ w.ret = final.1 ∧ w.priv = final.2.2 := by
  rcases Nat.eq_zero_or_pos size with empty | some
  · have none : howmany size fs.fsBsize = 0 := by
      have bpos := fs.bsize_pos
      rw [empty, howmany, Nat.zero_add]
      exact Nat.div_eq_of_lt (by omega)
    rw [empty] at scan
    cases scan.at_end
    rw [none]
    exact ⟨_, s, rfl, file, .refl s, rfl, rfl⟩
  · have inside : 0 * fs.fsBsize < size := by omega
    obtain ⟨n, blocks⟩ := Nat.exists_eq_add_of_le' (lt_howmany inside)
    obtain ⟨t, buf', shown, enter⟩ := carries.enter file inside n ⟨0, false, buf, priv⟩
    rw [Nat.zero_mul] at enter
    obtain ⟨w, s', run, last, kept, values⟩ := scan.sound carries (s.atTick t) 0 0 n fs.fsBsize ⟨0, false, buf', priv⟩
      (carries.tick file t) (by rw [Nat.zero_mul]) fs.bsize_pos inside (by omega) (le_refl _) shown rfl rfl fun _ => rfl
    rw [blocks]
    exact ⟨w, s', enter.trans run, last, (Rewrites.atTick s t).trans kept, values⟩

end Sound

end Scans

end FuseUfs
