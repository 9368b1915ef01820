import FuseUfs.Vnode

/-! # The number of sectors of a file

`calc_num_blocks` works out from the size alone how many sectors a file without holes owns. The
count it should give is that of the blocks themselves: for every data block the bytes that
`blksize` says it owns, and every indirect block on the way to one of them.
-/

namespace FuseUfs

open Finset

variable {fs : Superblock}

/-- The indirect blocks on the way to logical block `lbn`, each by the root of its tree and the
    indices that lead to it from there. -/
def indirPath (n lbn : Nat) : List (Nat × List Nat) :=
  if lbn < ndaddr then []
  else
    let r := lbn - ndaddr
    if r < n then [(0, [])]
    else if r < n + n * n then [(1, []), (1, [(r - n) / n])]
    else
      let r := r - n - n * n
      [(2, []), (2, [r / (n * n)]), (2, [r / (n * n), r / n % n])]

/-- The indirect blocks of a file of `blocks` blocks. -/
def indirBlocks (n blocks : Nat) : Finset (Nat × List Nat) :=
  (range blocks).biUnion fun lbn => (indirPath n lbn).toFinset

/-- The bytes of all the blocks of a file without holes. -/
def Superblock.ownedBytes (fs : Superblock) (size : Nat) : Nat :=
  ∑ lbn ∈ range (howmany size fs.fsBsize), fs.blksize size lbn +
    (indirBlocks fs.fsNindir (howmany size fs.fsBsize)).card * fs.fsBsize

/-! ## Counting the indirect blocks -/

section Indirect

variable {n : Nat}

/-- The single indirect blocks in the order of the data blocks they point at. -/
def singleBlock (n k : Nat) : Nat × List Nat :=
  if k = 0 then (0, [])
  else if k ≤ n then (1, [k - 1])
  else (2, [(k - 1 - n) / n, (k - 1 - n) % n])

/-- The double indirect blocks, in the same order. -/
def doubleBlock (j : Nat) : Nat × List Nat := if j = 0 then (1, []) else (2, [j - 1])

/-- The indirect blocks on the way to the data blocks of the `k`-th single indirect block. -/
def chainBlocks (n k : Nat) : List (Nat × List Nat) :=
  if k = 0 then [singleBlock n k]
  else if (k - 1) / n = 0 then [doubleBlock 0, singleBlock n k]
  else [(2, []), doubleBlock ((k - 1) / n), singleBlock n k]

theorem indirPath_eq (pos : 0 < n) (r : Nat) : indirPath n (ndaddr + r) = chainBlocks n (r / n) := by
  have one : r / n = 0 ↔ r < n := Nat.div_eq_zero_iff_lt pos
  have lowered : (r - n) / n = r / n - 1 := by simpa using Nat.sub_mul_div r n 1
  have lowest : (r - n - n * n) / n = r / n - 1 - n := by rw [Nat.sub_mul_div, lowered]
  have two : r < n + n * n ↔ r / n ≤ n := by
    rw [← Nat.lt_succ_iff, Nat.div_lt_iff_lt_mul pos, Nat.succ_mul, Nat.add_comm]
  have level : (r / n - 1) / n = 0 ↔ r / n - 1 < n := Nat.div_eq_zero_iff_lt pos
  unfold indirPath chainBlocks
  rw [if_neg (by omega), Nat.add_sub_cancel_left]
  by_cases small : r < n
  · simp only [if_pos small, if_pos (one.mpr small), singleBlock]
  · have some : r / n ≠ 0 := mt one.mp small
    simp only [if_neg small, if_neg some, level, two]
    by_cases mid : r / n ≤ n
    · rw [if_pos mid, if_pos (by omega), doubleBlock, if_pos rfl, singleBlock, if_neg some, if_pos mid, lowered]
    · have deep : (r / n - 1) / n = (r / n - 1 - n) / n + 1 := by
        rw [← Nat.add_div_right _ pos, Nat.sub_add_cancel (by omega)]
      rw [if_neg mid, if_neg (by omega), deep, doubleBlock, if_neg (by omega), singleBlock, if_neg some, if_neg mid,
        ← lowest, Nat.add_sub_cancel, Nat.div_div_eq_div_mul]

theorem lt_howmany_iff (pos : 0 < n) (x k : Nat) : k < howmany x n ↔ k * n < x := by
  rw [howmany, Nat.lt_iff_add_one_le, Nat.le_div_iff_mul_le pos, Nat.succ_mul]
  omega

theorem mem_indirBlocks (pos : 0 < n) (blocks : Nat) (x : Nat × List Nat) :
    x ∈ indirBlocks n blocks ↔ ∃ k < howmany (blocks - ndaddr) n, x ∈ chainBlocks n k := by
  simp only [indirBlocks, mem_biUnion, mem_range, List.mem_toFinset]
  constructor
  · rintro ⟨lbn, less, mem⟩
    by_cases near : lbn < ndaddr
    · rw [indirPath, if_pos near] at mem
      cases mem
    · obtain ⟨r, rfl⟩ := Nat.exists_eq_add_of_le (not_lt.mp near)
      rw [indirPath_eq pos] at mem
      refine ⟨r / n, (lt_howmany_iff pos _ _).mpr ?_, mem⟩
      have := Nat.div_mul_le_self r n
      omega
  · rintro ⟨k, less, mem⟩
    have inside := (lt_howmany_iff pos _ _).mp less
    refine ⟨ndaddr + k * n, by omega, ?_⟩
    rw [indirPath_eq pos, Nat.mul_div_cancel _ pos]
    exact mem

theorem singleBlock_injective (n : Nat) : Function.Injective (singleBlock n) := by
  intro j k same
  unfold singleBlock at same
  split_ifs at same <;> simp only [Prod.mk.injEq, List.cons.injEq, and_true, true_and, reduceCtorEq, and_false,
    OfNat.one_ne_ofNat, OfNat.ofNat_ne_one, OfNat.zero_ne_ofNat, OfNat.ofNat_ne_zero, zero_ne_one, one_ne_zero] at same
  · omega
  · omega
  · have first := Nat.div_add_mod (j - 1 - n) n
    have second := Nat.div_add_mod (k - 1 - n) n
    rw [same.1, same.2] at first
    omega

theorem doubleBlock_injective : Function.Injective doubleBlock := by
  intro j k same
  unfold doubleBlock at same
  split_ifs at same <;> simp only [Prod.mk.injEq, List.cons.injEq, and_true, true_and, reduceCtorEq, and_false,
    OfNat.one_ne_ofNat, OfNat.ofNat_ne_one] at same <;> omega

/-- The three levels of the trees are told apart by the root and the number of indices. -/
theorem singleBlock_level (n k : Nat) : (singleBlock n k).1 = (singleBlock n k).2.length := by
  unfold singleBlock
  split_ifs <;> rfl

theorem doubleBlock_level (j : Nat) : (doubleBlock j).1 = (doubleBlock j).2.length + 1 := by
  unfold doubleBlock
  split_ifs <;> rfl

theorem indirBlocks_eq (pos : 0 < n) (blocks : Nat) : indirBlocks n blocks =
    (range (howmany (blocks - ndaddr) n)).image (singleBlock n) ∪
      (range (howmany (howmany (blocks - ndaddr) n - 1) n)).image doubleBlock ∪
      (range (howmany (howmany (blocks - ndaddr) n - 1) n - 1)).image fun _ => (2, []) := by
  set l1 := howmany (blocks - ndaddr) n
  set l2 := howmany (l1 - 1) n with hl2
  have second : ∀ j, j < l2 ↔ j * n < l1 - 1 := fun j => lt_howmany_iff pos _ _
  ext x
  simp only [mem_indirBlocks pos, mem_union, mem_image, mem_range]
  constructor
  · rintro ⟨k, less, mem⟩
    unfold chainBlocks at mem
    have inside : k ≠ 0 → (k - 1) / n < l2 := fun some => by
      rw [second]
      have := Nat.div_mul_le_self (k - 1) n
      omega
    split_ifs at mem with zero one
    · rw [List.mem_singleton] at mem
      exact .inl (.inl ⟨k, less, mem.symm⟩)
    · rcases List.mem_pair.mp mem with rfl | rfl
      · exact .inl (.inr ⟨0, one ▸ inside zero, rfl⟩)
      · exact .inl (.inl ⟨k, less, rfl⟩)
    · simp only [List.mem_cons, List.not_mem_nil, or_false] at mem
      rcases mem with rfl | rfl | rfl
      · exact .inr ⟨0, Nat.sub_pos_of_lt (lt_of_le_of_lt (Nat.pos_of_ne_zero one) (inside zero)), rfl⟩
      · exact .inl (.inr ⟨_, inside zero, rfl⟩)
      · exact .inl (.inl ⟨k, less, rfl⟩)
  · rintro ((⟨k, less, rfl⟩ | ⟨j, less, rfl⟩) | ⟨j, less, rfl⟩)
    · refine ⟨k, less, ?_⟩
      unfold chainBlocks
      split_ifs <;> simp
    · have start := (second j).mp less
      have back : (j * n + 1 - 1) / n = j := by rw [Nat.add_sub_cancel, Nat.mul_div_cancel _ pos]
      refine ⟨j * n + 1, by omega, ?_⟩
      unfold chainBlocks
      rw [if_neg (by omega), back]
      split_ifs with first
      · rw [first]
        exact List.mem_cons_self
      · simp
    · have start := (second 1).mp (by omega)
      have back : (1 * n + 1 - 1) / n = 1 := by rw [Nat.add_sub_cancel, Nat.mul_div_cancel _ pos]
      refine ⟨1 * n + 1, by omega, ?_⟩
      unfold chainBlocks
      rw [if_neg (by omega), back, if_neg (by decide)]
      exact List.mem_cons_self

theorem howmany_le (pos : 0 < n) {x m : Nat} (le : x ≤ m * n) : howmany x n ≤ m := by
  by_contra more
  have := (lt_howmany_iff pos x m).mp (by omega)
  omega

/-- The triple tree has one root at most. -/
theorem card_image_root (pos : 0 < n) {x : Nat} (le : x ≤ n) :
    ((range x).image fun _ => ((2, []) : Nat × List Nat)).card = howmany x n := by
  have most : howmany x n ≤ 1 := howmany_le pos (by omega)
  have some := lt_howmany_iff pos x 0
  cases x with
  | zero =>
      rw [range_zero, image_empty, card_empty]
      omega
  | succ x =>
      rw [image_const ⟨0, mem_range.mpr (Nat.succ_pos x)⟩, card_singleton]
      omega

/-- There are as many indirect blocks as the divisions level by level give, in the range of the map. -/
theorem card_indirBlocks (pos : 0 < n) {blocks : Nat} (le : blocks ≤ ndaddr + n + n * n + n * n * n) :
    (indirBlocks n blocks).card =
      howmany (blocks - ndaddr) n + howmany (howmany (blocks - ndaddr) n - 1) n +
        howmany (howmany (howmany (blocks - ndaddr) n - 1) n - 1) n := by
  rw [indirBlocks_eq pos]
  have first : howmany (blocks - ndaddr) n ≤ 1 + n + n * n := howmany_le pos (by
    rw [Nat.add_mul, Nat.add_mul, Nat.one_mul]
    omega)
  set l1 := howmany (blocks - ndaddr) n
  have second : howmany (l1 - 1) n ≤ 1 + n := howmany_le pos (by
    rw [Nat.add_mul, Nat.one_mul]
    omega)
  set l2 := howmany (l1 - 1) n
  rw [card_union_of_disjoint, card_union_of_disjoint, card_image_of_injective _ (singleBlock_injective n),
    card_image_of_injective _ doubleBlock_injective, card_image_root pos (by omega), card_range, card_range]
  · refine disjoint_left.mpr fun x single double => ?_
    obtain ⟨k, -, rfl⟩ := mem_image.mp single
    obtain ⟨j, -, same⟩ := mem_image.mp double
    have upper := doubleBlock_level j
    rw [same, singleBlock_level] at upper
    omega
  · refine disjoint_left.mpr fun x lower top => ?_
    obtain ⟨i, -, rfl⟩ := mem_image.mp top
    rcases mem_union.mp lower with single | double
    · obtain ⟨k, -, same⟩ := mem_image.mp single
      have level := singleBlock_level n k
      rw [same] at level
      cases level
    · obtain ⟨j, -, same⟩ := mem_image.mp double
      have level := doubleBlock_level j
      rw [same] at level
      cases level

end Indirect

/-! ## Counting the data blocks -/

/-- Whole blocks stay whole when the rest is rounded up. -/
theorem fragroundup_blocks (fs : Superblock) (q r : Nat) :
    fs.fragroundup (q * fs.fsBsize + r) = q * fs.fsBsize + fs.fragroundup r := by
  have whole : q * fs.fsBsize = q * fs.fsFrag * fs.fsFsize := by rw [fs.bsize_eq_mul, Nat.mul_assoc]
  rw [fs.fragroundup_eq, fs.fragroundup_eq, whole, Nat.add_assoc, Nat.add_comm, Nat.add_mul_div_right _ _ fs.fsize_pos,
    Nat.add_mul, Nat.add_comm]

theorem fragroundup_zero (fs : Superblock) : fs.fragroundup 0 = 0 := by
  rw [fs.fragroundup_eq, Nat.div_eq_of_lt (by have := fs.fsize_pos; omega), Nat.zero_mul]

/-- Only the last block of a small file owns less than a block. -/
theorem sum_blksize (fs : Superblock) (size : Nat) : ∑ lbn ∈ range (howmany size fs.fsBsize), fs.blksize size lbn =
    if howmany size fs.fsBsize ≤ ndaddr then fs.fragroundup size else howmany size fs.fsBsize * fs.fsBsize := by
  have reaches := lt_howmany_iff fs.bsize_pos size
  cases blocks : howmany size fs.fsBsize with
  | zero =>
      have empty : size = 0 := by
        have := reaches 0
        omega
      rw [empty, range_zero, sum_empty, if_pos (Nat.zero_le _), fragroundup_zero]
  | succ q =>
      have last := (reaches q).mp (by omega)
      have ends : size ≤ (q + 1) * fs.fsBsize := by
        have := reaches (q + 1)
        omega
      have full : ∀ lbn ∈ range q, fs.blksize size lbn = fs.fsBsize := by
        intro lbn mem
        have below : (lbn + 1) * fs.fsBsize ≤ q * fs.fsBsize :=
          Nat.mul_le_mul_right _ (by have := mem_range.mp mem; omega)
        rw [Superblock.blksize, fs.smalllblktosize_eq, if_pos (.inr (by omega))]
      rw [sum_range_succ, sum_congr rfl full, sum_const, card_range, smul_eq_mul, Superblock.blksize,
        fs.smalllblktosize_eq, fs.blkoff_eq]
      rw [Nat.succ_mul] at ends ⊢
      by_cases direct : q + 1 ≤ ndaddr
      · rw [if_pos direct]
        by_cases whole : q * fs.fsBsize + fs.fsBsize ≤ size
        · have exact' : size = (q + 1) * fs.fsBsize + 0 := by
            rw [Nat.succ_mul]
            omega
          rw [if_pos (.inr whole), exact', fragroundup_blocks, fragroundup_zero, Nat.succ_mul, Nat.add_zero]
        · have parts : size = q * fs.fsBsize + size % fs.fsBsize := by
            have : size / fs.fsBsize = q := Nat.div_eq_of_lt_le last.le (by rw [Nat.succ_mul]; omega)
            rw [← this, Nat.div_add_mod']
          rw [if_neg (by omega)]
          nth_rewrite 2 [parts]
          rw [fragroundup_blocks]
      · rw [if_neg direct, if_pos (.inl (by omega))]

/-! ## The count of the code -/

/-- The fragments that the code counts, if no `int` overflows. -/
def Superblock.fragCount (fs : Superblock) (size : Nat) : Nat :=
  let blocks := howmany size fs.fsBsize
  let l1 := howmany (blocks - ndaddr) fs.fsNindir
  let l2 := howmany (l1 - 1) fs.fsNindir
  if blocks < ndaddr then fs.numfrags (fs.fragroundup size)
  else (blocks + l1 + l2 + howmany (l2 - 1) fs.fsNindir) * fs.fsFrag

theorem howmanyInt_natCast {x n : Nat} (pos : 0 < n) (small : x + n ≤ 2 ^ 31) :
    howmanyInt x n = (howmany x n : Nat) := by
  have sum : (x : Int) + ((n : Int) - 1) = ((x + (n - 1) : Nat) : Int) := by omega
  rw [howmanyInt, sum, asInt32_of_lt (by omega), howmany, ← Int.ofNat_tdiv]

/-- The blocks above a level are counted without its first block, which has a root of its own. -/
theorem howmanyInt_pred {l n : Nat} (many : 2 ≤ n) (small : l + n ≤ 2 ^ 31) :
    howmanyInt ((l : Int) - 1) n = (howmany (l - 1) n : Nat) := by
  cases l with
  | zero =>
      have sum : ((0 : Nat) : Int) - 1 + ((n : Int) - 1) = ((n - 2 : Nat) : Int) := by omega
      rw [howmanyInt, sum, asInt32_of_lt (by omega), ← Int.ofNat_tdiv, howmany, Nat.div_eq_of_lt (by omega),
        Nat.div_eq_of_lt (by omega)]
  | succ l =>
      rw [Nat.add_sub_cancel, ← howmanyInt_natCast (by omega) (by omega)]
      congr 1
      omega

theorem nindir_le (fs : Superblock) : fs.fsNindir ≤ 8192 := by
  have := fs.nindir_eq
  have := fs.bsize_le
  omega

theorem nindir_many (fs : Superblock) : 2 ≤ fs.fsNindir := by
  have := fs.nindir_ge
  omega

theorem calcNumBlocks_eq {inode : Inode}
    (long : ¬ (sIslnk inode.iMode = true ∧ inode.iSize < fs.fsMaxsymlinklen))
    (small : fs.fragCount inode.iSize * (fs.fsFsize >>> 9) < 2 ^ 31) (sector : 0 < fs.fsFsize >>> 9) :
    calcNumBlocks fs inode = (fs.fragCount inode.iSize * (fs.fsFsize >>> 9) : Nat) := by
  have frags : fs.fragCount inode.iSize < 2 ^ 31 := lt_of_le_of_lt (Nat.le_mul_of_pos_right _ sector) small
  set size := inode.iSize
  have many := nindir_many fs
  have few := nindir_le fs
  have fragPos := fs.frag_pos
  set n := fs.fsNindir with hn
  set blocks := howmany size fs.fsBsize with hblocks
  unfold Superblock.fragCount at small frags ⊢
  dsimp only at small frags ⊢
  rw [← hn, ← hblocks] at small frags ⊢
  have counts : ∀ x : Int, (if sIslnk inode.iMode = true ∧ inode.iSize < fs.fsMaxsymlinklen then 0 else x) = x :=
    fun x => if_neg long
  unfold calcNumBlocks
  simp only [counts]
  by_cases direct : blocks < ndaddr
  · have : ndaddr < 2 ^ 31 := by decide
    rw [if_pos direct] at small frags ⊢
    rw [asInt32_of_lt (n := blocks) (by omega), if_pos (by omega), asInt32_of_lt frags, ← Nat.cast_mul,
      asInt32_of_lt small]
  · rw [if_neg direct] at small frags ⊢
    set l1 := howmany (blocks - ndaddr) n with hl1
    set l2 := howmany (l1 - 1) n with hl2
    have total : blocks + l1 + l2 + howmany (l2 - 1) n < 2 ^ 31 :=
      lt_of_le_of_lt (Nat.le_mul_of_pos_right _ fragPos) frags
    -- so many blocks that adding an entry count overflows would need more than `n` single blocks
    have room : blocks + n ≤ 2 ^ 31 := by
      by_contra more
      have square : n * n ≤ 8192 * 8192 := Nat.mul_le_mul few few
      have twelve : ndaddr = 12 := rfl
      have full : n < l1 := by
        rw [hl1, lt_howmany_iff (by omega)]
        omega
      omega
    have below1 : l1 ≤ blocks := by
      refine (howmany_le (by omega) ?_ : l1 ≤ blocks)
      exact (Nat.sub_le ..).trans (Nat.le_mul_of_pos_right _ (by omega))
    have below2 : l2 ≤ blocks := by
      refine (howmany_le (by omega) ?_ : l2 ≤ blocks)
      exact ((Nat.sub_le ..).trans below1).trans (Nat.le_mul_of_pos_right _ (by omega))
    have start : ((blocks : Int) - (ndaddr : Nat)) = ((blocks - ndaddr : Nat) : Int) := by omega
    have third : ∀ b : Nat, b + howmany (l2 - 1) n < 2 ^ 31 →
        (if ((l2 : Nat) : Int) ≠ 0 then asInt32 ((b : Int) + (howmany (l2 - 1) n : Nat)) else (b : Int))
          = ((b + howmany (l2 - 1) n : Nat) : Int) := by
      intro b inside
      split
      · rw [← Nat.cast_add, asInt32_of_lt inside]
      · next none =>
          have zero : l2 = 0 := by omega
          have empty : howmany (l2 - 1) n = 0 := by
            rw [zero]
            exact Nat.div_eq_of_lt (by omega)
          rw [empty, Nat.add_zero]
    rw [asInt32_of_lt (n := blocks) (by omega), if_neg (by omega), start, howmanyInt_natCast (by omega) (by omega),
      ← hl1, howmanyInt_pred many (by omega), ← hl2, howmanyInt_pred many (by omega), ← Nat.cast_add,
      asInt32_of_lt (by omega), ← Nat.cast_add, asInt32_of_lt (by omega), third _ (by omega), ← Nat.cast_mul,
      asInt32_of_lt frags, ← Nat.cast_mul, asInt32_of_lt small]

theorem asInt32_lt (n : Int) : asInt32 n < 2 ^ 31 := by
  have := Int.bmod_lt (x := n) (m := 2 ^ 32) (by decide)
  unfold asInt32
  omega

/-- The twelfth block is the last one, and it owns less than a block. -/
def PartialTwelfth (fs : Superblock) (size : Nat) : Prop :=
  (ndaddr - 1) * fs.fsBsize < size ∧ size + fs.fsFsize ≤ ndaddr * fs.fsBsize

/-- The count of the code is the one of the blocks, but for a file that ends early in its twelfth block. -/
theorem fragCount_eq_iff {size : Nat}
    (le : size ≤ (ndaddr + fs.fsNindir + fs.fsNindir ^ 2 + fs.fsNindir ^ 3) * fs.fsBsize) :
    fs.fragCount size * fs.fsFsize = fs.ownedBytes size ↔ ¬ PartialTwelfth fs size := by
  have pos : 0 < fs.fsNindir := by
    have := nindir_many fs
    omega
  have fsizePos := fs.fsize_pos
  have reaches := lt_howmany_iff fs.bsize_pos size
  have range : howmany size fs.fsBsize ≤ ndaddr + fs.fsNindir + fs.fsNindir * fs.fsNindir
      + fs.fsNindir * fs.fsNindir * fs.fsNindir := howmany_le fs.bsize_pos (by
    rw [← pow_two, ← pow_succ]
    exact le)
  rw [Superblock.ownedBytes, sum_blksize, card_indirBlocks pos range, Superblock.fragCount]
  have rounded : ∀ x, fs.fragroundup x / fs.fsFsize * fs.fsFsize = fs.fragroundup x := by
    intro x
    rw [fs.fragroundup_eq, Nat.mul_div_cancel _ fsizePos]
  by_cases direct : howmany size fs.fsBsize < ndaddr
  · have none : howmany size fs.fsBsize - ndaddr = 0 := by omega
    have zero : howmany 0 fs.fsNindir = 0 := Nat.div_eq_of_lt (by omega)
    have early : ¬ PartialTwelfth fs size := fun late => by
      have := (reaches (ndaddr - 1)).mpr late.1
      omega
    rw [if_pos direct, if_pos direct.le, none, zero, Nat.zero_sub, zero, Nat.zero_sub, zero, fs.numfrags_eq, rounded]
    exact iff_of_true (by omega) early
  · have whole : ∀ x, x * fs.fsFrag * fs.fsFsize = x * fs.fsBsize := by
      intro x
      rw [fs.bsize_eq_mul, Nat.mul_assoc]
    rw [if_neg direct, whole]
    by_cases twelve : howmany size fs.fsBsize = ndaddr
    · have zero : howmany 0 fs.fsNindir = 0 := Nat.div_eq_of_lt (by omega)
      have exact' : fs.fragroundup size = ndaddr * fs.fsBsize ↔ howmany size fs.fsFsize = ndaddr * fs.fsFrag := by
        rw [← whole, fs.fragroundup_eq]
        exact Nat.mul_left_inj fsizePos.ne'
      have last := (reaches (ndaddr - 1)).mp (by have : ndaddr = 12 := rfl; omega)
      have ends : size ≤ ndaddr * fs.fsBsize := by
        have := reaches ndaddr
        omega
      rw [twelve, Nat.sub_self, zero, Nat.zero_sub, zero, Nat.zero_sub, zero, if_pos le_rfl]
      simp only [Nat.add_zero, Nat.zero_mul]
      rw [eq_comm, exact']
      -- rounded up to fragments, the size fills the twelfth block or leaves a fragment of it
      have short := lt_howmany_iff fsizePos size (ndaddr * fs.fsFrag - 1)
      have beyond := lt_howmany_iff fsizePos size (ndaddr * fs.fsFrag)
      have positive : 0 < ndaddr * fs.fsFrag := Nat.mul_pos (by decide) fs.frag_pos
      rw [Nat.sub_mul, whole, Nat.one_mul] at short
      rw [whole] at beyond
      unfold PartialTwelfth
      omega
    · have far := (reaches ndaddr).mp (by omega)
      rw [if_neg (by omega), ← Nat.add_mul, Nat.add_assoc, Nat.add_assoc]
      refine iff_of_true (by rw [Nat.add_assoc]) fun early => ?_
      have := early.2
      omega

/-- A file that ends in its twelfth block is counted as twelve whole blocks. -/
theorem fragCount_twelfth {size : Nat} (twelfth : PartialTwelfth fs size) :
    fs.fragCount size = ndaddr * fs.fsFrag := by
  have pos : 0 < fs.fsNindir := by
    have := nindir_many fs
    omega
  have blocks : howmany size fs.fsBsize = ndaddr := by
    have reaches := lt_howmany_iff fs.bsize_pos size
    have last := (reaches (ndaddr - 1)).mpr twelfth.1
    have ends := reaches ndaddr
    have := twelfth.2
    have : ndaddr = 12 := rfl
    omega
  have zero : howmany 0 fs.fsNindir = 0 := Nat.div_eq_of_lt (by omega)
  rw [Superblock.fragCount, blocks, Nat.sub_self, zero, Nat.zero_sub, zero, Nat.zero_sub, zero]
  rfl

theorem ownedBytes_eq_zero {size : Nat} (empty : fs.ownedBytes size = 0) : size = 0 := by
  by_contra some
  have first := Nat.mod_lt size fs.bsize_pos
  have fsizePos := fs.fsize_pos
  have rounded : size ≤ fs.fragroundup size := by
    have := lt_howmany_iff fsizePos size (howmany size fs.fsFsize)
    rw [fs.fragroundup_eq]
    rw [howmany] at this
    omega
  have blocks : 0 < howmany size fs.fsBsize := (lt_howmany_iff fs.bsize_pos size 0).mpr (by omega)
  rw [Superblock.ownedBytes, sum_blksize] at empty
  have data := (Nat.add_eq_zero_iff.mp empty).1
  split at data
  · omega
  · have := Nat.mul_pos blocks fs.bsize_pos
    omega

/-- **The sectors of a file without holes**: the count of the code is the one of the blocks
    that the file owns except where it ends early in its twelfth block, where the fragments
    are smaller than a sector, and where the count does not fit an `int`. -/
theorem calcNumBlocks_iff {inode : Inode} (regular : inode.iMode &&& ifmt = ifreg)
    (le : inode.iSize ≤ (ndaddr + fs.fsNindir + fs.fsNindir ^ 2 + fs.fsNindir ^ 3) * fs.fsBsize) :
    calcNumBlocks fs inode * 512 = fs.ownedBytes inode.iSize ↔ inode.iSize = 0 ∨
      512 ≤ fs.fsFsize ∧ ¬ PartialTwelfth fs inode.iSize ∧ fs.ownedBytes inode.iSize < 2 ^ 31 * 512 := by
  have notLink : sIslnk inode.iMode = false := by
    rw [sIslnk, regular]
    decide
  cases Nat.lt_or_ge fs.fsFsize 512 with
  | inl tiny =>
      have sector : fs.fsFsize >>> 9 = 0 := by
        rw [Nat.shiftRight_eq_div_pow]
        exact Nat.div_eq_of_lt tiny
      have nothing : calcNumBlocks fs inode = 0 := by
        unfold calcNumBlocks
        simp only [notLink, Bool.false_eq_true, false_and, if_false, sector, Nat.cast_zero, mul_zero]
        rfl
      have empty : fs.ownedBytes 0 = 0 := by
        have zero : howmany 0 fs.fsBsize = 0 := Nat.div_eq_of_lt (by have := fs.bsize_pos; omega)
        rw [Superblock.ownedBytes, zero, range_zero, sum_empty, indirBlocks, range_zero, biUnion_empty, card_empty,
          Nat.zero_mul]
      rw [nothing]
      constructor
      · intro same
        exact .inl (ownedBytes_eq_zero (by omega : fs.ownedBytes inode.iSize = 0))
      · rintro (zero | ⟨large, -⟩)
        · rw [zero, empty]
          rfl
        · omega
  | inr large =>
      have sectors : fs.fsFsize >>> 9 * 512 = fs.fsFsize := by
        rw [Nat.shiftRight_eq_div_pow]
        have shift : 9 ≤ fs.fsFshift := by
          rw [fs.fsize_eq] at large
          exact (Nat.pow_le_pow_iff_right (by decide : 1 < 2)).mp large
        apply Nat.div_mul_cancel
        rw [fs.fsize_eq]
        exact pow_dvd_pow 2 shift
      have sector : 0 < fs.fsFsize >>> 9 := by omega
      have whole : ∀ count, count * (fs.fsFsize >>> 9) * 512 = count * fs.fsFsize := by
        intro count
        rw [Nat.mul_assoc, sectors]
      have counted : fs.fragCount inode.iSize * (fs.fsFsize >>> 9) < 2 ^ 31 →
          calcNumBlocks fs inode * 512 = (fs.fragCount inode.iSize * fs.fsFsize : Nat) := by
        intro small
        rw [calcNumBlocks_eq (by simp [notLink]) small sector, ← whole, Nat.cast_mul _ 512]
        rfl
      have same := fragCount_eq_iff le
      have bound := asInt32_lt
      have short : calcNumBlocks fs inode < 2 ^ 31 := by
        unfold calcNumBlocks
        simp only [notLink, Bool.false_eq_true, false_and, if_false]
        apply asInt32_lt
      by_cases twelfth : PartialTwelfth fs inode.iSize
      · -- twelve blocks are few sectors, so the count is the one of `fragCount`
        have few : fs.fragCount inode.iSize * fs.fsFsize = ndaddr * fs.fsBsize := by
          rw [fragCount_twelfth twelfth, fs.bsize_eq_mul, Nat.mul_assoc]
        have := fs.bsize_le
        have := whole (fs.fragCount inode.iSize)
        have room : fs.fragCount inode.iSize * (fs.fsFsize >>> 9) < 2 ^ 31 := by
          rw [few, show ndaddr = 12 from rfl] at this
          omega
        have := counted room
        have nonempty := twelfth.1
        constructor
        · intro agree
          exact absurd twelfth (same.mp (by omega))
        · rintro (zero | ⟨-, early, -⟩)
          · omega
          · exact absurd twelfth early
      · have agree := same.mpr twelfth
        have := whole (fs.fragCount inode.iSize)
        constructor
        · intro equal
          exact .inr ⟨large, twelfth, by omega⟩
        · rintro (zero | ⟨-, -, fits⟩)
          · have none : fs.fragCount inode.iSize = 0 := by
              have blocks : howmany 0 fs.fsBsize = 0 := Nat.div_eq_of_lt (by have := fs.bsize_pos; omega)
              rw [zero, Superblock.fragCount, blocks, if_pos (by decide), fragroundup_zero, fs.numfrags_eq,
                Nat.zero_div]
            have := counted (by rw [none, Nat.zero_mul]; decide)
            omega
          · have := counted (by omega)
            omega

/-- A regular file of `size` bytes. -/
def regularOf (size : Nat) : Inode :=
  copyOndiskToIncore { blankDinode with diMode := ifreg, diSize := size } 3

theorem calcNumBlocks_iff_small :
    calcNumBlocks smallFs (regularOf 5000) * 512 = smallFs.ownedBytes (regularOf 5000).iSize ↔
      (regularOf 5000).iSize = 0 ∨ 512 ≤ smallFs.fsFsize ∧ ¬ PartialTwelfth smallFs (regularOf 5000).iSize ∧
        smallFs.ownedBytes (regularOf 5000).iSize < 2 ^ 31 * 512 :=
  calcNumBlocks_iff rfl (by norm_num [regularOf, copyOndiskToIncore, smallFs, ndaddr])

/-- Eleven blocks and a fragment are 89 fragments, and the code counts twelve blocks. -/
theorem calcNumBlocks_twelfth_small :
    calcNumBlocks smallFs (regularOf (11 * 4096 + 512)) = 96 ∧ smallFs.ownedBytes (11 * 4096 + 512) = 89 * 512 := by
  constructor
  · decide +kernel
  · decide +kernel

end FuseUfs
