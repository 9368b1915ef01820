import FuseUfs.Tables
import FuseUfs.Disk

/-! # Free maps of a cylinder group

The bit-level routines of the allocator: testing, taking and giving back a block of
the map, the search for a free run, and the two summaries kept beside the map (runs
of fragments in a block, runs of blocks in a group). Each routine is followed by
what it does to the bits of the map.
-/

namespace FuseUfs

open Lib BitMap

variable (fs : Superblock)

/-! ## Blocks of the map -/

/-- The bits of one block as a number (`blkmap`). -/
def blkmap (map : BitMap) (loc : Nat) : Nat :=
  ((map (loc / nbby)).toNat >>> (loc % nbby)) &&& (0xff >>> (nbby - fs.fsFrag))

def ffsIsblock (cp : BitMap) (h : Nat) : Bool :=
  match fs.fsFrag with
  | 8 => cp h == 0xff#8
  | 4 => let mask := 0x0f#8 <<< ((h &&& 0x1) <<< 2); (cp (h >>> 1) &&& mask) == mask
  | 2 => let mask := 0x03#8 <<< ((h &&& 0x3) <<< 1); (cp (h >>> 2) &&& mask) == mask
  | 1 => let mask := 0x01#8 <<< (h &&& 0x7); (cp (h >>> 3) &&& mask) == mask
  | _ => false

/-- Take a block out of the map. -/
def ffsClrblock (cp : BitMap) (h : Nat) : BitMap :=
  match fs.fsFrag with
  | 8 => Function.update cp h 0#8
  | 4 => Function.update cp (h >>> 1) (cp (h >>> 1) &&& ~~~(0x0f#8 <<< ((h &&& 0x1) <<< 2)))
  | 2 => Function.update cp (h >>> 2) (cp (h >>> 2) &&& ~~~(0x03#8 <<< ((h &&& 0x3) <<< 1)))
  | 1 => Function.update cp (h >>> 3) (cp (h >>> 3) &&& ~~~(0x01#8 <<< (h &&& 0x7)))
  | _ => cp

/-- Put a block back into the map. -/
def ffsSetblock (cp : BitMap) (h : Nat) : BitMap :=
  match fs.fsFrag with
  | 8 => Function.update cp h 0xff#8
  | 4 => Function.update cp (h >>> 1) (cp (h >>> 1) ||| 0x0f#8 <<< ((h &&& 0x1) <<< 2))
  | 2 => Function.update cp (h >>> 2) (cp (h >>> 2) ||| 0x03#8 <<< ((h &&& 0x3) <<< 1))
  | 1 => Function.update cp (h >>> 3) (cp (h >>> 3) ||| 0x01#8 <<< (h &&& 0x7))
  | _ => cp

section Blocks

/-- The mask of block `h` in its byte. -/
private def blockMask (h : Nat) : BitVec 8 :=
  BitVec.ofNat 8 (2 ^ fs.fsFrag - 1) <<< (h * fs.fsFrag % 8)

private theorem getLsbD_blockMask (h i : Nat) (hi : i < 8) :
    (blockMask fs h).getLsbD i =
      decide (h * fs.fsFrag % 8 ≤ i ∧ i < h * fs.fsFrag % 8 + fs.fsFrag) := by
  rw [blockMask, BitVec.getLsbD_shiftLeft, BitVec.getLsbD_ofNat, Nat.testBit_two_pow_sub_one]
  by_cases low : i < h * fs.fsFrag % 8
  · simp [low, show ¬ (h * fs.fsFrag % 8 ≤ i) by omega]
  · simp [low, hi, show h * fs.fsFrag % 8 ≤ i by omega, show i - h * fs.fsFrag % 8 < 8 by omega]
    omega

/-- A block lies in one byte of the map. -/
theorem block_in_byte (h : Nat) : h * fs.fsFrag % 8 + fs.fsFrag ≤ 8 := by
  rcases fs.frag_cases with e | e | e | e <;> rw [e] <;> omega

private theorem mem_block_iff (h x : Nat) :
    (x / 8 = h * fs.fsFrag / 8 ∧ h * fs.fsFrag % 8 ≤ x % 8 ∧
      x % 8 < h * fs.fsFrag % 8 + fs.fsFrag) ↔ x / fs.fsFrag = h := by
  rcases fs.frag_cases with e | e | e | e <;> rw [e] <;> omega

private theorem place_one (h : Nat) : h * 1 / 8 = h >>> 3 ∧ h * 1 % 8 = h &&& 7 := by
  rw [show (7 : Nat) = 2 ^ 3 - 1 from rfl, Nat.and_two_pow_sub_one_eq_mod]
  omega

private theorem place_two (h : Nat) : h * 2 / 8 = h >>> 2 ∧ h * 2 % 8 = (h &&& 3) <<< 1 := by
  rw [show (3 : Nat) = 2 ^ 2 - 1 from rfl, Nat.and_two_pow_sub_one_eq_mod]
  omega

private theorem place_four (h : Nat) : h * 4 / 8 = h >>> 1 ∧ h * 4 % 8 = (h &&& 1) <<< 2 := by
  rw [show (1 : Nat) = 2 ^ 1 - 1 from rfl, Nat.and_two_pow_sub_one_eq_mod]
  omega

private theorem place_eight (h : Nat) : h * 8 / 8 = h ∧ h * 8 % 8 = 0 := by
  omega

private theorem isblock_eq (cp : BitMap) (h : Nat) :
    ffsIsblock fs cp h =
      ((cp (h * fs.fsFrag / 8) &&& blockMask fs h) == blockMask fs h) := by
  rcases fs.frag_cases with e | e | e | e <;> simp only [ffsIsblock, blockMask, e]
  · rw [(place_one h).1, (place_one h).2]; rfl
  · rw [(place_two h).1, (place_two h).2]; rfl
  · rw [(place_four h).1, (place_four h).2]; rfl
  · rw [(place_eight h).1, (place_eight h).2]
    have : BitVec.ofNat 8 (2 ^ 8 - 1) <<< 0 = 255#8 := by decide
    rw [this, show (255#8 : BitVec 8) = BitVec.allOnes 8 by decide, BitVec.and_allOnes]

private theorem clrblock_eq (cp : BitMap) (h : Nat) :
    ffsClrblock fs cp h =
      Function.update cp (h * fs.fsFrag / 8) (cp (h * fs.fsFrag / 8) &&& ~~~ blockMask fs h) := by
  rcases fs.frag_cases with e | e | e | e <;> simp only [ffsClrblock, blockMask, e]
  · rw [(place_one h).1, (place_one h).2]; rfl
  · rw [(place_two h).1, (place_two h).2]; rfl
  · rw [(place_four h).1, (place_four h).2]; rfl
  · rw [(place_eight h).1, (place_eight h).2]
    have : ~~~(BitVec.ofNat 8 (2 ^ 8 - 1) <<< 0) = 0#8 := by decide
    rw [this, BitVec.and_zero]

private theorem setblock_eq (cp : BitMap) (h : Nat) :
    ffsSetblock fs cp h =
      Function.update cp (h * fs.fsFrag / 8) (cp (h * fs.fsFrag / 8) ||| blockMask fs h) := by
  rcases fs.frag_cases with e | e | e | e <;> simp only [ffsSetblock, blockMask, e]
  · rw [(place_one h).1, (place_one h).2]; rfl
  · rw [(place_two h).1, (place_two h).2]; rfl
  · rw [(place_four h).1, (place_four h).2]; rfl
  · rw [(place_eight h).1, (place_eight h).2]
    have : BitVec.ofNat 8 (2 ^ 8 - 1) <<< 0 = 255#8 := by decide
    rw [this, show (255#8 : BitVec 8) = BitVec.allOnes 8 by decide, BitVec.or_allOnes]

private theorem place_in_byte {h x : Nat} (byte : x / 8 = h * fs.fsFrag / 8) :
    decide (h * fs.fsFrag % 8 ≤ x % 8 ∧ x % 8 < h * fs.fsFrag % 8 + fs.fsFrag)
      = decide (x / fs.fsFrag = h) :=
  decide_eq_decide.mpr ((and_iff_right byte).symm.trans (mem_block_iff fs h x))

private theorem ne_block {h x : Nat} (byte : x / 8 ≠ h * fs.fsFrag / 8) : x / fs.fsFrag ≠ h :=
  fun e => byte ((mem_block_iff fs h x).mpr e).1

theorem isset_ffsClrblock (cp : BitMap) (h x : Nat) :
    isset (ffsClrblock fs cp h) x = (isset cp x && !decide (x / fs.fsFrag = h)) := by
  rw [clrblock_eq, isset, isset]
  by_cases byte : x / 8 = h * fs.fsFrag / 8
  · rw [byte, Function.update_self, BitVec.getLsbD_and, BitVec.getLsbD_not,
      getLsbD_blockMask fs h _ (by omega), place_in_byte fs byte]
    simp [show x % 8 < 8 by omega]
  · rw [Function.update_of_ne byte]
    simp [ne_block fs byte]

theorem isset_ffsSetblock (cp : BitMap) (h x : Nat) :
    isset (ffsSetblock fs cp h) x = (isset cp x || decide (x / fs.fsFrag = h)) := by
  rw [setblock_eq, isset, isset]
  by_cases byte : x / 8 = h * fs.fsFrag / 8
  · rw [byte, Function.update_self, BitVec.getLsbD_or, getLsbD_blockMask fs h _ (by omega),
      place_in_byte fs byte]
  · rw [Function.update_of_ne byte]
    simp [ne_block fs byte]

theorem ffsIsblock_iff (cp : BitMap) (h : Nat) :
    ffsIsblock fs cp h = true ↔ Whole fs.fsFrag (cp.block fs.fsFrag h) := by
  have fits := block_in_byte fs h
  rw [isblock_eq, beq_iff_eq]
  constructor
  · intro same j hj
    have bit := congrArg (fun v => v.getLsbD (h * fs.fsFrag % 8 + j)) same
    simp only [BitVec.getLsbD_and, getLsbD_blockMask fs h _ (show h * fs.fsFrag % 8 + j < 8 by omega)]
      at bit
    rw [block, isset, show (h * fs.fsFrag + j) / 8 = h * fs.fsFrag / 8 by omega,
      show (h * fs.fsFrag + j) % 8 = h * fs.fsFrag % 8 + j by omega]
    simpa [show h * fs.fsFrag % 8 ≤ h * fs.fsFrag % 8 + j ∧
      h * fs.fsFrag % 8 + j < h * fs.fsFrag % 8 + fs.fsFrag by omega] using bit
  · intro whole
    apply BitVec.eq_of_getLsbD_eq
    intro i hi
    rw [BitVec.getLsbD_and, getLsbD_blockMask fs h i hi]
    by_cases mem : h * fs.fsFrag % 8 ≤ i ∧ i < h * fs.fsFrag % 8 + fs.fsFrag
    · have set := whole (i - h * fs.fsFrag % 8) (by omega)
      rw [block, isset,
        show (h * fs.fsFrag + (i - h * fs.fsFrag % 8)) / 8 = h * fs.fsFrag / 8 by omega,
        show (h * fs.fsFrag + (i - h * fs.fsFrag % 8)) % 8 = i by omega] at set
      simp [mem, set]
    · simp [mem]

theorem blkmap_eq_window (map : BitMap) (loc : Nat) :
    blkmap fs map loc = window fs.fsFrag map loc := by
  rw [blkmap, window]
  rcases fs.frag_cases with e | e | e | e <;> rw [e] <;> rfl

/-- The number read by `blkmap` has the bits of the block. -/
theorem testBit_blkmap (map : BitMap) (h j : Nat) (hj : j < fs.fsFrag) :
    (blkmap fs map (h * fs.fsFrag)).testBit j = map.block fs.fsFrag h j := by
  rw [blkmap_eq_window, testBit_window fs.frag_dvd_eight map h j hj, block]

end Blocks

/-! ## Searching the map -/

/-- Bytes left, this one included, when the first byte with its table bit set is met. -/
def scanc (frag allocsiz : Nat) (map : BitMap) : (size cp : Nat) → Nat
  | 0, _ => 0
  | size + 1, cp =>
      if fragtblHas frag allocsiz (map cp).toNat then size + 1
      else scanc frag allocsiz map size (cp + 1)

/-- The first position of a block at which the shifted masks match. -/
def siftBlock (blk : Nat) : (left pos field subfield : Nat) → Option Nat
  | 0, _, _, _ => none
  | left + 1, pos, field, subfield =>
      if blk &&& field = subfield then some pos
      else siftBlock blk left (pos + 1) (field <<< 1) (subfield <<< 1)

/-- The blocks of one byte of the map, one after the other. -/
def siftByte (map : BitMap) (allocsiz : Nat) : (left bno : Nat) → Option Nat
  | 0, _ => none
  | left + 1, bno =>
      match siftBlock (blkmap fs map bno <<< 1) (fs.fsFrag - allocsiz + 1) 0
          (around.getD allocsiz 0) (inside.getD allocsiz 0) with
      | some pos => some (bno + pos)
      | none => siftByte map allocsiz left (bno + fs.fsFrag)

/-- Where the byte with the wanted pattern is; when no byte has it the code reports a
    corrupted map and carries on one byte past the start. -/
def mapsearchByte (map : BitMap) (start allocsiz : Nat) : Nat :=
  let len := howmany fs.fsFpg nbby - start
  let loc := scanc fs.fsFrag allocsiz map len start
  if loc = 0 then
    let len' := start + 1
    len' - scanc fs.fsFrag allocsiz map len' 0
  else start + len - loc

/-- Find a free run of exactly `allocsiz` fragments; `none` stands for -1. -/
def ffsMapsearch (cgp : Cg) (bpref allocsiz : Nat) : Option Nat × Cg :=
  let start := if bpref ≠ 0 then fs.dtogd bpref / nbby else cgp.cgFrotor / nbby
  let bno := mapsearchByte fs cgp.cgBlksfree start allocsiz * nbby
  (siftByte fs cgp.cgBlksfree allocsiz (nbby / fs.fsFrag) bno, { cgp with cgFrotor := bno })

section Search

theorem siftBlock_some {blk k : Nat} {field subfield : Nat} :
    ∀ {left p r}, siftBlock blk left p (field <<< p) (subfield <<< p) = some r →
      p ≤ r ∧ r < p + left ∧ blk &&& (field <<< r) = subfield <<< r
  | 0, p, r, h => by simp [siftBlock] at h
  | left + 1, p, r, h => by
      rw [siftBlock] at h
      split at h
      · next hit => cases h; exact ⟨le_rfl, by omega, hit⟩
      · rw [← Nat.shiftLeft_add, ← Nat.shiftLeft_add] at h
        obtain ⟨low, high, hit⟩ := siftBlock_some (k := k) h
        exact ⟨by omega, by omega, hit⟩

theorem siftBlock_none {blk : Nat} {field subfield : Nat} :
    ∀ {left p}, siftBlock blk left p (field <<< p) (subfield <<< p) = none →
      ∀ r, p ≤ r → r < p + left → blk &&& (field <<< r) ≠ subfield <<< r
  | 0, p, _, r, low, high => by omega
  | left + 1, p, h, r, low, high => by
      rw [siftBlock] at h
      split at h
      · cases h
      · next miss =>
          rw [← Nat.shiftLeft_add, ← Nat.shiftLeft_add] at h
          by_cases here : r = p
          · subst here; exact miss
          · exact siftBlock_none h r (by omega) (by omega)

variable {k : Nat}

/-- The sift over the bytes' blocks finds a maximal run of exactly `k`. -/
theorem siftByte_some (map : BitMap) (hk : 0 < k) (le : k ≤ fs.fsFrag) :
    ∀ {left h r}, siftByte fs map k left (h * fs.fsFrag) = some r →
      ∃ h' p, h ≤ h' ∧ h' < h + left ∧ r = h' * fs.fsFrag + p ∧
        ExactRun fs.fsFrag (map.block fs.fsFrag h') k p
  | 0, h, r, found => by simp [siftByte] at found
  | left + 1, h, r, found => by
      have small : blkmap fs map (h * fs.fsFrag) < 2 ^ fs.fsFrag := by
        rw [blkmap_eq_window]; exact window_lt _ _ _
      have k8 : k ≤ 8 := le.trans fs.frag_le
      rw [siftByte, around_eq k8, inside_eq k8] at found
      split at found
      · next pos hit =>
          cases found
          obtain ⟨-, high, mask⟩ := siftBlock_some (k := k)
            (by simpa only [Nat.shiftLeft_zero] using hit : siftBlock _ _ 0
              ((2 ^ (k + 2) - 1) <<< 0) (((2 ^ k - 1) <<< 1) <<< 0) = some pos)
          have run := (mask_iff_exactRun small hk (by omega)).mp mask
          exact ⟨h, pos, le_rfl, by omega, rfl,
            (ExactRun.congr (fun j hj => testBit_blkmap fs map h j hj) hk).mp run⟩
      · rw [show h * fs.fsFrag + fs.fsFrag = (h + 1) * fs.fsFrag by ring] at found
        obtain ⟨h', p, low, high, eq, run⟩ := siftByte_some map hk le found
        exact ⟨h', p, by omega, by omega, eq, run⟩

theorem siftByte_none (map : BitMap) (hk : 0 < k) (le : k ≤ fs.fsFrag) :
    ∀ {left h}, siftByte fs map k left (h * fs.fsFrag) = none →
      ∀ h' p, h ≤ h' → h' < h + left → ¬ ExactRun fs.fsFrag (map.block fs.fsFrag h') k p
  | 0, h, _, h', p, low, high => by omega
  | left + 1, h, miss, h', p, low, high => by
      have small : blkmap fs map (h * fs.fsFrag) < 2 ^ fs.fsFrag := by
        rw [blkmap_eq_window]; exact window_lt _ _ _
      have k8 : k ≤ 8 := le.trans fs.frag_le
      rw [siftByte, around_eq k8, inside_eq k8] at miss
      split at miss
      · cases miss
      · next none =>
          by_cases here : h' = h
          · subst here
            intro run
            have fits := run.1
            refine siftBlock_none (by simpa only [Nat.shiftLeft_zero] using none : siftBlock _ _ 0
              ((2 ^ (k + 2) - 1) <<< 0) (((2 ^ k - 1) <<< 1) <<< 0) = .none) p (by omega) (by omega)
              ((mask_iff_exactRun small hk fits).mpr ?_)
            exact (ExactRun.congr (fun j hj => testBit_blkmap fs map h' j hj) hk).mpr run
          · rw [show h * fs.fsFrag + fs.fsFrag = (h + 1) * fs.fsFrag by ring] at miss
            exact siftByte_none map hk le miss h' p (by omega) (by omega)

theorem scanc_le (frag allocsiz : Nat) (map : BitMap) : ∀ size cp,
    scanc frag allocsiz map size cp ≤ size
  | 0, _ => le_rfl
  | size + 1, cp => by
      rw [scanc]
      split
      · exact le_rfl
      · exact (scanc_le frag allocsiz map size (cp + 1)).trans (by omega)

theorem scanc_pos {frag allocsiz : Nat} {map : BitMap} : ∀ {size cp},
    scanc frag allocsiz map size cp ≠ 0 →
      fragtblHas frag allocsiz (map (cp + size - scanc frag allocsiz map size cp)).toNat = true
  | 0, _, h => by simp [scanc] at h
  | size + 1, cp, h => by
      rw [scanc] at h ⊢
      split at h
      · next hit => simp [hit]
      · next miss =>
          rw [if_neg miss]
          have := scanc_pos h
          rwa [show cp + 1 + size = cp + (size + 1) by omega] at this

theorem scanc_zero {frag allocsiz : Nat} {map : BitMap} : ∀ {size cp},
    scanc frag allocsiz map size cp = 0 →
      ∀ i, cp ≤ i → i < cp + size → fragtblHas frag allocsiz (map i).toNat = false
  | 0, _, _, i, low, high => by omega
  | size + 1, cp, h, i, low, high => by
      rw [scanc] at h
      split at h
      · omega
      · next miss =>
          by_cases here : i = cp
          · subst here; simpa using miss
          · exact scanc_zero h i (by omega) (by omega)

/-- Both passes over the bytes miss: the branch that reports a corrupted map. -/
def MapsearchLost (map : BitMap) (start allocsiz : Nat) : Prop :=
  scanc fs.fsFrag allocsiz map (howmany fs.fsFpg nbby - start) start = 0 ∧
    scanc fs.fsFrag allocsiz map (start + 1) 0 = 0

/-- The two passes cover the map, so they do not both miss a byte with its table bit set. -/
theorem mapsearch_reached (map : BitMap) (allocsiz : Nat) {start : Nat}
    (inMap : start < howmany fs.fsFpg nbby)
    (some : ∃ y < howmany fs.fsFpg nbby, fragtblHas fs.fsFrag allocsiz (map y).toNat = true) :
    ¬ MapsearchLost fs map start allocsiz := by
  rintro ⟨none, second⟩
  obtain ⟨y, hy, has⟩ := some
  -- the second pass covers the bytes up to the start again
  by_cases low : y < start + 1
  · rw [scanc_zero second y (by omega) (by omega)] at has; cases has
  · rw [scanc_zero none y (by omega) (by omega)] at has; cases has

/-- The byte search finds a byte of the map with its table bit set whenever there is one. -/
theorem mapsearchByte_spec (map : BitMap) (allocsiz : Nat) {start : Nat}
    (inMap : start < howmany fs.fsFpg nbby)
    (some : ∃ y < howmany fs.fsFpg nbby, fragtblHas fs.fsFrag allocsiz (map y).toNat = true) :
    mapsearchByte fs map start allocsiz < howmany fs.fsFpg nbby ∧
      fragtblHas fs.fsFrag allocsiz (map (mapsearchByte fs map start allocsiz)).toNat = true := by
  have reached := mapsearch_reached fs map allocsiz inMap some
  simp only [mapsearchByte]
  split
  · next none =>
      have second : scanc fs.fsFrag allocsiz map (start + 1) 0 ≠ 0 := fun zero => reached ⟨none, zero⟩
      exact ⟨by omega, by simpa using scanc_pos second⟩
  · next found => exact ⟨by omega, scanc_pos found⟩

/-- The blocks of a byte of the map, read through the byte. -/
private theorem blkmap_byte (map : BitMap) (y q : Nat) (hq : q < 8 / fs.fsFrag) :
    blkmap fs map ((y * (8 / fs.fsFrag) + q) * fs.fsFrag)
      = ((map y).toNat >>> (q * fs.fsFrag)) &&& (2 ^ fs.fsFrag - 1) := by
  have byteBlocks : 8 / fs.fsFrag * fs.fsFrag = 8 := Nat.div_mul_cancel fs.frag_dvd_eight
  have place : (y * (8 / fs.fsFrag) + q) * fs.fsFrag = y * 8 + q * fs.fsFrag := by
    rw [Nat.add_mul, Nat.mul_assoc, byteBlocks]
  have low : q * fs.fsFrag < 8 := by
    rw [← byteBlocks]; exact Nat.mul_lt_mul_of_pos_right hq fs.frag_pos
  rw [blkmap_eq_window, window, place, show (y * 8 + q * fs.fsFrag) / 8 = y by omega,
    show (y * 8 + q * fs.fsFrag) % 8 = q * fs.fsFrag by omega]

theorem fragtblHas_iff_run (map : BitMap) (hk : 0 < k) (le : k ≤ fs.fsFrag) (y : Nat) :
    fragtblHas fs.fsFrag k (map y).toNat = true ↔
      ∃ q < 8 / fs.fsFrag, ∃ p,
        ExactRun fs.fsFrag (map.block fs.fsFrag (y * (8 / fs.fsFrag) + q)) k p := by
  rw [fragtbl_iff fs hk le]
  refine exists_congr fun q => and_congr_right fun hq => exists_congr fun p => ?_
  rw [← blkmap_byte fs map y q hq]
  exact ExactRun.congr (fun j hj => testBit_blkmap fs map _ j hj) hk

/-- A run in a block of the map shows in the table entry of its byte. -/
theorem run_shows (map : BitMap) (hk : 0 < k) (le : k ≤ fs.fsFrag)
    (some : ∃ h < fs.fsFpg / fs.fsFrag, ∃ p, ExactRun fs.fsFrag (map.block fs.fsFrag h) k p) :
    ∃ y < howmany fs.fsFpg nbby, fragtblHas fs.fsFrag k (map y).toNat = true := by
  obtain ⟨h, hh, p, run⟩ := some
  have byteBlocks : 8 / fs.fsFrag * fs.fsFrag = 8 := Nat.div_mul_cancel fs.frag_dvd_eight
  have cPos : 0 < 8 / fs.fsFrag := Nat.div_pos fs.frag_le fs.frag_pos
  have below : h * fs.fsFrag < fs.fsFpg := by
    calc h * fs.fsFrag < fs.fsFpg / fs.fsFrag * fs.fsFrag := Nat.mul_lt_mul_of_pos_right hh fs.frag_pos
      _ ≤ fs.fsFpg := Nat.div_mul_le_self ..
  have byte : h / (8 / fs.fsFrag) * 8 ≤ h * fs.fsFrag := by
    calc h / (8 / fs.fsFrag) * 8 = h / (8 / fs.fsFrag) * (8 / fs.fsFrag) * fs.fsFrag := by
          rw [Nat.mul_assoc, byteBlocks]
      _ ≤ h * fs.fsFrag := Nat.mul_le_mul_right _ (Nat.div_mul_le_self h _)
  refine ⟨h / (8 / fs.fsFrag), ?_, (fragtblHas_iff_run fs _ hk le _).mpr
    ⟨h % (8 / fs.fsFrag), Nat.mod_lt _ cPos, p, ?_⟩⟩
  · simp only [howmany, nbby]
    omega
  · rwa [Nat.div_add_mod']

/-- Where the search begins. -/
def mapsearchStart (cgp : Cg) (bpref : Nat) : Nat :=
  if bpref ≠ 0 then fs.dtogd bpref / nbby else cgp.cgFrotor / nbby

theorem mapsearchStart_lt {cgp : Cg} {bpref : Nat} (rotor : bpref = 0 → cgp.cgFrotor < fs.fsFpg) :
    mapsearchStart fs cgp bpref < howmany fs.fsFpg nbby := by
  have place : fs.dtogd bpref < fs.fsFpg := Nat.mod_lt _ fs.fpg_pos
  unfold mapsearchStart
  simp only [howmany, nbby]
  split
  · omega
  · next zero =>
      have := rotor (not_not.mp zero)
      omega

/-- With nothing set past the last fragment of the group, the search finds a maximal free run of
    exactly `k` fragments whenever a block has one, and moves only the rotor. -/
theorem ffsMapsearch_found {cgp : Cg} {bpref : Nat} (hk : 0 < k) (le : k ≤ fs.fsFrag)
    (rotor : bpref = 0 → cgp.cgFrotor < fs.fsFpg)
    (padding : ∀ i, fs.fsFpg ≤ i → i < howmany fs.fsFpg nbby * nbby →
      cgp.cgBlksfree.isset i = false)
    (some : ∃ h < fs.fsFpg / fs.fsFrag, ∃ p,
      ExactRun fs.fsFrag (cgp.cgBlksfree.block fs.fsFrag h) k p) :
    ∃ h p, h < fs.fsFpg / fs.fsFrag ∧
      ExactRun fs.fsFrag (cgp.cgBlksfree.block fs.fsFrag h) k p ∧
      ∃ frotor < fs.fsFpg, ffsMapsearch fs cgp bpref k
        = (.some (h * fs.fsFrag + p), { cgp with cgFrotor := frotor }) := by
  have byteBlocks : 8 / fs.fsFrag * fs.fsFrag = 8 := Nat.div_mul_cancel fs.frag_dvd_eight
  obtain ⟨yIn, found⟩ := mapsearchByte_spec fs cgp.cgBlksfree k (mapsearchStart_lt fs rotor)
    (run_shows fs _ hk le some)
  set y := mapsearchByte fs cgp.cgBlksfree (mapsearchStart fs cgp bpref) k
  set c := 8 / fs.fsFrag with hc
  obtain ⟨q, hq, p', run'⟩ := (fragtblHas_iff_run fs _ hk le y).mp found
  simp only [← hc] at hq run'
  have origin : y * nbby = y * c * fs.fsFrag := by rw [Nat.mul_assoc, byteBlocks]; rfl
  cases sift : siftByte fs cgp.cgBlksfree k c (y * c * fs.fsFrag) with
  | none => exact absurd run' (siftByte_none fs _ hk le sift _ _ (by omega) (by omega))
  | some r =>
      obtain ⟨h', p'', low, high, rfl, last⟩ := siftByte_some fs _ hk le sift
      have fits := last.1
      have ends : (h' + 1) * fs.fsFrag ≤ howmany fs.fsFpg nbby * nbby := by
        calc (h' + 1) * fs.fsFrag ≤ (y * c + c) * fs.fsFrag := Nat.mul_le_mul_right _ high
          _ = (y + 1) * nbby := by rw [← Nat.succ_mul, Nat.mul_assoc, byteBlocks]; rfl
          _ ≤ howmany fs.fsFpg nbby * nbby := Nat.mul_le_mul_right _ yIn
      have bound : h' * fs.fsFrag + p'' < fs.fsFpg := by
        by_contra out
        have set := last.2.1 0 hk
        rw [Nat.succ_mul] at ends
        rw [block, padding _ (by omega) (by omega)] at set
        cases set
      refine ⟨h', p'', ?_, last, y * nbby, ?_, ?_⟩
      · refine Nat.lt_of_mul_lt_mul_right (a := fs.fsFrag) ?_
        rw [fs.fpg_eq_mul]
        omega
      · have : y * c * fs.fsFrag ≤ h' * fs.fsFrag := Nat.mul_le_mul_right _ low
        omega
      · have unfolded : ffsMapsearch fs cgp bpref k
            = (siftByte fs cgp.cgBlksfree k c (y * nbby), { cgp with cgFrotor := y * nbby }) := rfl
        rw [unfolded, origin, sift]

/-- The same for a map with nothing set anywhere past the group. -/
theorem ffsMapsearch_spec {cgp : Cg} (bpref : Nat) (hk : 0 < k) (le : k ≤ fs.fsFrag)
    (rotor : cgp.cgFrotor < fs.fsFpg)
    (padding : ∀ i, fs.fsFpg ≤ i → cgp.cgBlksfree.isset i = false)
    (some : ∃ h p, ExactRun fs.fsFrag (cgp.cgBlksfree.block fs.fsFrag h) k p) :
    ∃ h p, h < fs.fsFpg / fs.fsFrag ∧
      ExactRun fs.fsFrag (cgp.cgBlksfree.block fs.fsFrag h) k p ∧
      ∃ frotor < fs.fsFpg, ffsMapsearch fs cgp bpref k
        = (.some (h * fs.fsFrag + p), { cgp with cgFrotor := frotor }) := by
  obtain ⟨h, p, run⟩ := some
  apply ffsMapsearch_found fs hk le (fun _ => rotor) (fun i low _ => padding i low)
  refine ⟨h, Nat.lt_of_mul_lt_mul_right (a := fs.fsFrag) ?_, p, run⟩
  rw [fs.fpg_eq_mul]
  by_contra out
  have set := run.2.1 0 hk
  rw [block, padding _ (by omega)] at set
  cases set

/-- Whenever a block has a maximal free run of exactly `k` fragments the search returns one, without
    a report of a corrupted map, and only the rotor moves. -/
theorem ffsMapsearch_exact {cgp : Cg} {bpref : Nat} (hk : 0 < k) (le : k ≤ fs.fsFrag)
    (rotor : bpref = 0 → cgp.cgFrotor < fs.fsFpg)
    (padding : ∀ i, fs.fsFpg ≤ i → i < howmany fs.fsFpg nbby * nbby →
      cgp.cgBlksfree.isset i = false)
    (some : ∃ h < fs.fsFpg / fs.fsFrag, ∃ p,
      ExactRun fs.fsFrag (cgp.cgBlksfree.block fs.fsFrag h) k p) :
    ¬ MapsearchLost fs cgp.cgBlksfree (mapsearchStart fs cgp bpref) k ∧
    ∃ h < fs.fsFpg / fs.fsFrag, ∃ p,
      ExactRun fs.fsFrag (cgp.cgBlksfree.block fs.fsFrag h) k p ∧
      ∃ frotor, ffsMapsearch fs cgp bpref k
        = (.some (h * fs.fsFrag + p), { cgp with cgFrotor := frotor }) := by
  constructor
  · exact mapsearch_reached fs _ k (mapsearchStart_lt fs rotor) (run_shows fs _ hk le some)
  · obtain ⟨h, p, inside, run, frotor, -, found⟩ := ffsMapsearch_found fs hk le rotor padding some
    exact ⟨h, inside, p, run, frotor, found⟩

/-- The one free run lies before the place where the search begins. -/
theorem ffsMapsearch_exact_wraps :
    let cgp := { smallCg with cgBlksfree := fun i => if i = 2 then 0x1e#8 else 0 }
    ¬ MapsearchLost smallFs cgp.cgBlksfree (mapsearchStart smallFs cgp 40) 4 ∧
    ∃ h < smallFs.fsFpg / smallFs.fsFrag, ∃ p,
      ExactRun smallFs.fsFrag (cgp.cgBlksfree.block smallFs.fsFrag h) 4 p ∧
      ∃ frotor, ffsMapsearch smallFs cgp 40 4
        = (some (h * smallFs.fsFrag + p), { cgp with cgFrotor := frotor }) :=
  ffsMapsearch_exact smallFs (by decide) (by decide) (by decide)
    (fun i low high => absurd high (by simp only [howmany, nbby, smallFs] at *; omega))
    ⟨2, by decide, 1, by decide⟩

end Search

/-! ## Accounting -/

/-- The inner loop of `ffs_fragacct`: every match of the masks for `siz` counts once. -/
def fragacctSize (fragmap siz : Nat) (cnt : Int) :
    (left pos field subfield : Nat) → (Nat → Int) → (Nat → Int)
  | 0, _, _, _, fraglist => fraglist
  | left + 1, pos, field, subfield, fraglist =>
      if fs.fsFrag < pos then fraglist
      else if fragmap &&& field = subfield then
        fragacctSize fragmap siz cnt left (pos + siz + 1) (field <<< siz <<< 1)
          (subfield <<< siz <<< 1) (Function.update fraglist siz (fraglist siz + cnt))
      else
        fragacctSize fragmap siz cnt left (pos + 1) (field <<< 1) (subfield <<< 1) fraglist

/-- The loop of `ffs_fragacct` over the sizes `siz, siz + 1, …`. -/
def fragacctFrom (fragmap : Nat) (cnt : Int) : (left siz : Nat) → (Nat → Int) → (Nat → Int)
  | 0, _, fraglist => fraglist
  | left + 1, siz, fraglist =>
      let inblk := (fragtbl fs.fsFrag).getD fragmap 0 <<< 1
      if inblk &&& (1 <<< (siz + fs.fsFrag % nbby)) = 0 then
        fragacctFrom fragmap cnt left (siz + 1) fraglist
      else
        fragacctFrom fragmap cnt left (siz + 1)
          (fragacctSize fs (fragmap <<< 1) siz cnt (fs.fsFrag + 1 - siz) siz
            (around.getD siz 0) (inside.getD siz 0) fraglist)

/-- Add `cnt` to `fraglist[k]` for every run of exactly `k` fragments in the pattern. -/
def ffsFragacct (fragmap : Nat) (fraglist : Nat → Int) (cnt : Int) : Nat → Int :=
  fragacctFrom fs fragmap cnt (fs.fsFrag - 1) 1 fraglist

/-- Forward scan of `ffs_clusteracct` with its byte pointer and one-bit mask. -/
def clusterForw (freemapp : BitMap) (stop : Nat) : (left i mapp map bit : Nat) → Nat
  | 0, i, _, _, _ => i
  | left + 1, i, mapp, map, bit =>
      if i < stop then
        if map &&& bit = 0 then i
        else if i &&& (nbby - 1) ≠ nbby - 1 then
          clusterForw freemapp stop left (i + 1) mapp map (bit <<< 1)
        else clusterForw freemapp stop left (i + 1) (mapp + 1) (freemapp mapp).toNat 1
      else i

/-- Backward scan of `ffs_clusteracct`; `i + 1` is the position, so that it can reach -1. -/
def clusterBack (freemapp : BitMap) (stop : Int) : (left : Nat) → (i : Int) → (mapp : Int) →
    (map bit : Nat) → Int
  | 0, i, _, _, _ => i
  | left + 1, i, mapp, map, bit =>
      if stop < i then
        if map &&& bit = 0 then i
        else if i % nbby ≠ 0 then
          clusterBack freemapp stop left (i - 1) mapp map (bit >>> 1)
        else clusterBack freemapp stop left (i - 1) (mapp - 1) (freemapp mapp.toNat).toNat
          (1 <<< (nbby - 1))
      else i

/-- The largest `i ≤ n` with a positive count, 0 if there is none. -/
def maxCluster (sump : Nat → Int) : Nat → Nat
  | 0 => 0
  | n + 1 => if sump (n + 1) > 0 then n + 1 else maxCluster sump n

/-- Account for a block that becomes free (`cnt = 1`) or used (`cnt = -1`); returns the group
    and the new `fs_maxcluster` of the group, if clusters are summarised at all. -/
def ffsClusteracct (cgp : Cg) (blkno : Nat) (cnt : Int) : Cg × Option Nat :=
  if fs.fsContigsumsize = 0 then (cgp, none)
  else
    let freemapp := if cnt > 0 then cgp.cgClustersfree.setbit blkno
      else cgp.cgClustersfree.clrbit blkno
    let startF := blkno + 1
    let endF := min (startF + fs.fsContigsumsize) cgp.cgNclusterblks
    let forw := clusterForw freemapp endF fs.fsContigsumsize startF (startF / nbby + 1)
      (freemapp (startF / nbby)).toNat (1 <<< (startF % nbby)) - startF
    let startB : Int := blkno - 1
    let endB : Int := max (startB - fs.fsContigsumsize) (-1)
    let back := (startB - clusterBack freemapp endB fs.fsContigsumsize startB (startB / nbby - 1)
      (freemapp (startB / nbby).toNat).toNat (1 <<< (startB % nbby).toNat)).toNat
    let i := min (back + forw + 1) fs.fsContigsumsize
    let sump := Function.update cgp.cgClustersum i (cgp.cgClustersum i + cnt)
    let sump := if back > 0 then Function.update sump back (sump back - cnt) else sump
    let sump := if forw > 0 then Function.update sump forw (sump forw - cnt) else sump
    ({ cgp with cgClustersfree := freemapp, cgClustersum := sump },
      some (maxCluster sump fs.fsContigsumsize))

section Accounting

/-- How often the inner loop of `ffs_fragacct` matches. -/
private def sizeHits (frag fragmap siz : Nat) : (left pos field subfield : Nat) → Nat
  | 0, _, _, _ => 0
  | left + 1, pos, field, subfield =>
      if frag < pos then 0
      else if fragmap &&& field = subfield then
        sizeHits frag fragmap siz left (pos + siz + 1) (field <<< siz <<< 1)
          (subfield <<< siz <<< 1) + 1
      else sizeHits frag fragmap siz left (pos + 1) (field <<< 1) (subfield <<< 1)

private theorem fragacctSize_eq (fragmap siz : Nat) (cnt : Int) :
    ∀ left pos field subfield fraglist,
      fragacctSize fs fragmap siz cnt left pos field subfield fraglist
        = Function.update fraglist siz
            (fraglist siz + cnt * sizeHits fs.fsFrag fragmap siz left pos field subfield)
  | 0, _, _, _, fraglist => by simp [fragacctSize, sizeHits]
  | left + 1, pos, field, subfield, fraglist => by
      rw [fragacctSize, sizeHits]
      by_cases past : fs.fsFrag < pos
      · simp [past]
      · rw [if_neg past, if_neg past]
        by_cases hit : fragmap &&& field = subfield
        · rw [if_pos hit, if_pos hit, fragacctSize_eq]
          simp only [Function.update_self, Function.update_idem]
          congr 1
          push_cast
          ring
        · rw [if_neg hit, if_neg hit, fragacctSize_eq]

/-- The matches for one size, guarded by the table as the outer loop does. -/
private def tableHits (frag fragmap siz : Nat) : Nat :=
  if ((fragtbl frag).getD fragmap 0 <<< 1) &&& (1 <<< (siz + frag % nbby)) = 0 then 0
  else sizeHits frag (fragmap <<< 1) siz (frag + 1 - siz) siz (around.getD siz 0)
    (inside.getD siz 0)

private theorem fragacctFrom_eq (fragmap : Nat) (cnt : Int) (k : Nat) : ∀ left siz fraglist,
    fragacctFrom fs fragmap cnt left siz fraglist k
      = fraglist k + (if siz ≤ k ∧ k < siz + left then cnt * tableHits fs.fsFrag fragmap k else 0)
  | 0, siz, fraglist => by
      rw [fragacctFrom, if_neg (by omega), add_zero]
  | left + 1, siz, fraglist => by
      have step : siz + 1 ≤ k ∧ k < siz + 1 + left ↔ k ≠ siz ∧ siz ≤ k ∧ k < siz + (left + 1) := by
        omega
      rw [fragacctFrom]
      by_cases none : ((fragtbl fs.fsFrag).getD fragmap 0 <<< 1) &&&
          (1 <<< (siz + fs.fsFrag % nbby)) = 0
      · rw [if_pos none, fragacctFrom_eq, if_congr step rfl rfl]
        by_cases here : k = siz
        · subst here
          rw [if_neg (by omega), if_pos (by omega), tableHits, if_pos none]
          simp
        · simp [here]
      · rw [if_neg none, fragacctFrom_eq, fragacctSize_eq, if_congr step rfl rfl]
        by_cases here : k = siz
        · subst here
          rw [if_neg (by omega), if_pos (by omega), tableHits, Function.update_self, if_neg none,
            add_zero]
        · simp [here]

private def listRuns (w k m : Nat) : Nat :=
  ((List.range w).filter fun p => Nat.ble (p + k) w &&
    Nat.beq ((m <<< 1) &&& ((2 ^ (k + 2) - 1) <<< p)) (((2 ^ k - 1) <<< 1) <<< p)).length

private theorem tableHits_checked :
    ([1, 2, 4, 8].all fun w => (List.range (2 ^ w)).all fun m => (List.range (w - 1)).all fun k =>
      Nat.beq (tableHits w m (k + 1)) (listRuns w (k + 1) m)) = true := by
  decide +kernel

private theorem listRuns_eq {w k m : Nat} (small : m < 2 ^ w) (hk : 0 < k) :
    listRuns w k m = runCount w m.testBit k := by
  rw [listRuns, runCount]
  change _ = (Multiset.filter _ (Multiset.range w)).card
  rw [Multiset.range, Multiset.filter_coe, Multiset.coe_card]
  congr 1
  refine List.filter_congr fun p hp => ?_
  rw [Bool.eq_iff_iff]
  simp only [Bool.and_eq_true, Nat.ble_eq, Nat.beq_eq, decide_eq_true_eq]
  constructor
  · rintro ⟨fits, hit⟩
    exact (mask_iff_exactRun small hk fits).mp hit
  · intro run
    exact ⟨run.1, (mask_iff_exactRun small hk run.1).mpr run⟩

/-- `ffs_fragacct` adds `cnt` for every maximal run of the pattern, under its size. -/
theorem ffsFragacct_eq {fragmap : Nat} (small : fragmap < 2 ^ fs.fsFrag) (fraglist : Nat → Int)
    (cnt : Int) {k : Nat} (hk : 0 < k) (less : k < fs.fsFrag) :
    ffsFragacct fs fragmap fraglist cnt k
      = fraglist k + cnt * runCount fs.fsFrag fragmap.testBit k := by
  have member : fs.fsFrag ∈ [1, 2, 4, 8] := by
    rcases fs.frag_cases with h | h | h | h <;> simp [h]
  have checked := tableHits_checked
  simp only [List.all_eq_true, List.mem_range, Nat.beq_eq] at checked
  have here := checked _ member _ small (k - 1) (by omega)
  rw [show k - 1 + 1 = k by omega, listRuns_eq small hk] at here
  rw [ffsFragacct, fragacctFrom_eq, if_pos (by omega), here]

end Accounting

/-- Cluster accounting touches the cluster maps only. -/
theorem ffsClusteracct_fst (cgp : Cg) (blkno : Nat) (cnt : Int) :
    ∃ free sum, (ffsClusteracct fs cgp blkno cnt).1
      = { cgp with cgClustersfree := free, cgClustersum := sum } := by
  unfold ffsClusteracct
  split
  · exact ⟨cgp.cgClustersfree, cgp.cgClustersum, rfl⟩
  · exact ⟨_, _, rfl⟩

end FuseUfs
