import FuseUfs.TruncateCorrect

/-! # The lengths of the blocks under cuts

After a cut the file should own what its new size asks for and the rest should be free. The
walk keeps to that when the new end is at the start of a block, or in a hole: otherwise it
takes a block that is still needed. It stops one block short of the indirect block that
starts exactly at the new end, which stays with the file. A cut that moves the last block
never gets it right: it frees as many fragments as should go, but from the wrong end.
-/

namespace FuseUfs

open Lib

/-- What setting the size must leave of the blocks: those that the new size asks for, no others,
    and everything that the file had besides is free. -/
structure Trimmed (fs : Superblock) (s : State) (ino : Nat) (v : Vnode) (size : Nat) (s' : State)
    (v' : Vnode) : Prop where
  inv : FileInv fs s' ino v' (fs.ownFrags size)
  isize : v'.inode.iSize = size
  ends : ∀ b, size ≤ b * fs.fsBsize → fileAddr fs s' v' (.data b) = 0
  mapped : ∀ b, b * fs.fsBsize < size → fileAddr fs s v (.data b) ≠ 0 →
    fileAddr fs s' v' (.data b) ≠ 0
  inUse : ∀ sl : Slot, sl.Indirect → fileAddr fs s' v' sl ≠ 0 → sl.first fs * fs.fsBsize < size
  gained : ∀ x, s.free fs x = true → s'.free fs x = false → Owns fs s' v' (fs.ownFrags size) x
  lost : ∀ x, Owns fs s v (fs.ownFrags v.inode.iSize) x → ¬ Owns fs s' v' (fs.ownFrags size) x →
    s'.free fs x = true
  others : ∀ x, OthersHold fs s v (fs.ownFrags v.inode.iSize) x →
    OthersHold fs s' v' (fs.ownFrags size) x ∧
      ∀ j < fs.fsFsize, s'.data (x * fs.fsFsize + j) = s.data (x * fs.fsFsize + j)

/-- When a cut leaves the right blocks: inside the last direct block, if it has nothing to move;
    elsewhere, if its end is at the start of a block at which no indirect block starts, or in
    a hole. -/
def CutExact (fs : Superblock) (s : State) (v : Vnode) (size : Nat) : Prop :=
  if size / fs.fsBsize = v.inode.iSize / fs.fsBsize ∧ v.inode.iSize / fs.fsBsize < ndaddr then
    fragsOf fs size = fragsOf fs v.inode.iSize ∨ fileAddr fs s v (.data (size / fs.fsBsize)) = 0
  else if size % fs.fsBsize = 0 then
    ∀ sl : Slot, sl.Indirect → sl.first fs = size / fs.fsBsize → fileAddr fs s v sl = 0
  else fileAddr fs s v (.data (size / fs.fsBsize)) = 0

section

variable {env : Env} {fs : Superblock} {ino : Nat} {s s' : State} {v v' : Vnode} {size : Nat}

/-- A set of blocks was given back, of which the smaller file needs none; what is left has the
    lengths that the new size asks for. -/
theorem Dropped.trimmed {gone : Set Slot}
    (drop : Dropped fs ino (fs.ownFrags v.inode.iSize) gone s v s' v')
    (isize : v'.inode.iSize = size)
    (ends : ∀ b, size ≤ b * fs.fsBsize → .data b ∈ gone ∨ fileAddr fs s v (.data b) = 0)
    (mapped : ∀ b, b * fs.fsBsize < size → .data b ∈ gone → fileAddr fs s v (.data b) = 0)
    (inUse : ∀ sl : Slot, sl.Indirect → sl ∉ gone → fileAddr fs s v sl ≠ 0 →
      sl.first fs * fs.fsBsize < size)
    (widths : ∀ b, b * fs.fsBsize < size → fileAddr fs s v (.data b) ≠ 0 →
      fs.ownFrags v.inode.iSize b = fs.ownFrags size b) : Trimmed fs s ino v size s' v' := by
  have cleared : ∀ sl, sl ∈ gone ∨ fileAddr fs s v sl = 0 → fileAddr fs s' v' sl = 0 := by
    intro sl out
    by_cases here : sl ∈ gone
    · exact drop.cleared sl here
    · rw [drop.stays sl here]
      exact out.resolve_left here
  have past : ∀ b, size ≤ b * fs.fsBsize → fileAddr fs s' v' (.data b) = 0 := fun b far =>
    cleared _ (ends b far)
  have same : ∀ b, fileAddr fs s' v' (.data b) ≠ 0 → fs.ownFrags v.inode.iSize b = fs.ownFrags size b := by
    intro b there
    have inside : b * fs.fsBsize < size := by
      by_contra far
      exact there (past b (by omega))
    refine widths b inside fun hole => there (cleared _ (.inr hole))
  have owns : ∀ x, Owns fs s' v' (fs.ownFrags v.inode.iSize) x ↔ Owns fs s' v' (fs.ownFrags size) x :=
    fun x => owns_congr same
  refine ⟨drop.inv.congr same, isize, past, fun b inside there now => ?_, fun sl ind there => ?_,
    fun x free used => ?_, fun x mine not => ?_, fun x hold => ?_⟩
  · by_cases out : .data b ∈ gone
    · exact there (mapped b inside out)
    · rw [drop.stays _ out] at now
      exact there now
  · have left : sl ∉ gone := fun out => there (drop.cleared sl out)
    rw [drop.stays sl left] at there
    exact inUse sl ind left there
  · rw [(drop.free x).mpr (.inl free)] at used
    cases used
  · obtain ⟨sl, mine⟩ := mine
    by_cases out : sl ∈ gone
    · exact (drop.free x).mpr (.inr ⟨sl, out, mine⟩)
    · rw [← drop.ext_of_not_mem out] at mine
      exact absurd ((owns x).mp ⟨sl, mine⟩) not
  · obtain ⟨⟨used, notMine⟩, bytes⟩ := drop.foreign hold
    exact ⟨⟨used, fun now => notMine ((owns x).mpr now)⟩, bytes⟩

/-- Every block that ends before both sizes is a whole block. -/
theorem ownFrags_same {b : Nat} (whole : (b + 1) * fs.fsBsize ≤ size) (less : size ≤ v.inode.iSize) :
    fs.ownFrags v.inode.iSize b = fs.ownFrags size b := by
  rw [ownFrags_full (.inr whole), ownFrags_full (.inr (whole.trans less))]

theorem fragsOf_mono {x y : Nat} (le : x ≤ y) : fragsOf fs x ≤ fragsOf fs y :=
  Int.ediv_le_ediv (Int.natCast_pos.mpr fs.fsize_pos) (by omega)

/-- A short file has no indirect blocks. -/
theorem TrimFile.no_indirect (ok : TrimFile fs s ino v)
    (few : v.inode.iSize / fs.fsBsize < ndaddr) {sl : Slot} (ind : sl.Indirect) :
    fileAddr fs s v sl = 0 :=
  ok.shape.indirect_past ind (few.trans_le (Slot.first_ge ind))

theorem Shifted.after {b k w : Nat} {own : Nat → Nat} {s₁ : State} {v₁ : Vnode}
    (shift : Shifted fs ino b k w s v s₁ v₁) (drop : Dropped fs ino own ∅ s₁ v₁ s' v') :
    Shifted fs ino b k w s v s' v' := by
  have same : ∀ sl, fileAddr fs s' v' sl = fileAddr fs s₁ v₁ sl := fun sl =>
    drop.stays sl (Set.notMem_empty _)
  refine ⟨drop.inv.there, shift.addr_ne, fun b' => by rw [same, shift.addr],
    fun x used outside => ?_, shift.taken⟩
  by_contra free
  rcases (drop.free x).mp (by simpa using free) with was | ⟨_, out, _⟩
  · rw [shift.used x used outside] at was
    cases was
  · exact out

/-- A cut that moves the last block leaves the fragments after the freed ones in use, where no
    block of the file leads any more. -/
theorem Shifted.not_trimmed (ok : TrimFile fs s ino v) {b k w : Nat}
    (few : b < ndaddr) (low' : b * fs.fsBsize ≤ size) (less : size < v.inode.iSize)
    (high' : v.inode.iSize < (b + 1) * fs.fsBsize) (there : fileAddr fs s v (.data b) ≠ 0)
    (frags : (k : Int) = fragsOf fs v.inode.iSize - fragsOf fs size) (pos : 0 < k)
    (shift : Shifted fs ino b k w s v s' v') : ¬ Trimmed fs s ino v size s' v' := by
  intro trim
  have here : fileAddr fs s' v' (.data b) = w := by rw [shift.addr, if_pos rfl]
  rcases low'.eq_or_lt with start | inside
  · -- the cut is at the start of the block, which is still there
    refine shift.addr_ne ?_
    rw [← here]
    exact trim.ends b start.symm.le
  rw [fragsOf_eq few (inside.trans less) high', fragsOf_eq few inside (less.trans high')] at frags
  set p := fileAddr fs s v (.data b) with hp
  set o := fs.ownFrags v.inode.iSize b with ho
  set n := fs.ownFrags size b with hn
  have some : 0 < n := (cut_width inside).1
  have total : o = k + n := by omega
  have mine : ∀ x, p ≤ x → x < p + o →
      x ∈ slotExt fs (fileAddr fs s v) (fs.ownFrags v.inode.iSize) (.data b) :=
    fun x low high => ⟨there, low, high⟩
  -- what was not freed of the block can only be owned through the block itself
  have tail : ∀ x, p + k ≤ x → x < p + o → w ≤ x ∧ x < w + n := by
    intro x low high
    have was := mine x (by omega) high
    have used : s'.free fs x = false :=
      shift.used x (ok.owned.used _ x was).1 fun freed => by omega
    have now : Owns fs s' v' (fs.ownFrags size) x := by
      by_contra not
      rw [trim.lost x ⟨_, was⟩ not] at used
      cases used
    obtain ⟨sl, now⟩ := now
    have direct : ¬ sl.Indirect := by
      intro ind
      have reach := trim.inUse sl ind ((slotExt_indirect ind).mp now).1
      have past : b + 1 ≤ sl.first fs := few.trans_le (Slot.first_ge ind)
      have := Nat.mul_le_mul_right fs.fsBsize past
      omega
    cases sl with
    | data b' =>
        by_cases same : b' = b
        · subst same
          obtain ⟨-, low, high⟩ := now
          rw [here] at low high
          exact ⟨low, high⟩
        · have before : b' * fs.fsBsize < size := by
            by_contra far
            exact now.1 (trim.ends b' (by omega))
          have order : b' < b + 1 := Nat.lt_of_mul_lt_mul_right (before.trans (less.trans high'))
          have whole : (b' + 1) * fs.fsBsize ≤ size :=
            (Nat.mul_le_mul_right _ (by omega)).trans low'
          have old : x ∈ slotExt fs (fileAddr fs s v) (fs.ownFrags v.inode.iSize) (.data b') := by
            simp only [slotExt, slotWidth, shift.addr, if_neg same] at now
            simp only [slotExt, slotWidth, ownFrags_same whole less.le]
            exact now
          have other : Slot.data b ≠ .data b' := fun e => same (by cases e; rfl)
          exact absurd old (Set.disjoint_left.mp (ok.owned.apart other) was)
    | single => exact absurd trivial direct
    | double => exact absurd trivial direct
    | middle m => exact absurd trivial direct
  obtain ⟨first, -⟩ := tail (p + k) le_rfl (by omega)
  obtain ⟨-, last⟩ := tail (p + o - 1) (by omega) (by omega)
  have place : w = p + k := by omega
  rcases shift.taken w le_rfl (by omega) with free | freed
  · rw [(ok.owned.used _ w (mine w (by omega) (by omega))).1] at free
    cases free
  · omega

/-- Every block from the one of the new end on was given back. -/
theorem Dropped.trimmed_iff (less : size < v.inode.iSize)
    (drop : Dropped fs ino (fs.ownFrags v.inode.iSize)
      (dataFrom (size / fs.fsBsize) ∪ indirPast fs (size / fs.fsBsize)) s v s' v')
    (isize : v'.inode.iSize = size) :
    Trimmed fs s ino v size s' v' ↔
      if size % fs.fsBsize = 0 then
        ∀ sl : Slot, sl.Indirect → sl.first fs = size / fs.fsBsize → fileAddr fs s v sl = 0
      else fileAddr fs s v (.data (size / fs.fsBsize)) = 0 := by
  have bpos := fs.bsize_pos
  have place := Nat.div_add_mod' size fs.fsBsize
  constructor
  · intro trim
    split
    · next start =>
      intro sl ind here
      by_contra there
      have left : sl ∉ dataFrom (size / fs.fsBsize) ∪ indirPast fs (size / fs.fsBsize) := by
        rintro (⟨b, -, rfl⟩ | ⟨-, past⟩)
        · exact ind
        · omega
      have := trim.inUse sl ind (by rw [drop.stays sl left]; exact there)
      rw [here] at this
      omega
    · next inside =>
      by_contra there
      exact trim.mapped _ (by omega) there (drop.cleared _ (.inl ⟨_, le_rfl, rfl⟩))
  · intro exact
    have gone : ∀ b, .data b ∈ dataFrom (size / fs.fsBsize) ∪ indirPast fs (size / fs.fsBsize) ↔
        size / fs.fsBsize ≤ b := by
      intro b
      constructor
      · rintro (⟨b', low, same⟩ | out)
        · cases same
          exact low
        · exact out.1.elim
      · exact fun low => .inl ⟨b, low, rfl⟩
    -- a block before the new end is before its block, or that block, which is a hole
    have early : ∀ b, b * fs.fsBsize < size → size / fs.fsBsize ≤ b → fileAddr fs s v (.data b) = 0 := by
      intro b near low
      have upper : b ≤ size / fs.fsBsize := (Nat.le_div_iff_mul_le bpos).mpr near.le
      obtain rfl : b = size / fs.fsBsize := le_antisymm upper low
      rw [if_neg (by omega)] at exact
      exact exact
    refine drop.trimmed isize (fun b far => .inl ((gone b).mpr ?_))
      (fun b near out => early b near ((gone b).mp out)) (fun sl ind left there => ?_)
      (fun b near there => ?_)
    · exact Nat.div_le_of_le_mul (by rwa [Nat.mul_comm])
    · have low : sl.first fs ≤ size / fs.fsBsize := by
        by_contra past
        exact left (.inr ⟨ind, by omega⟩)
      by_cases start : size % fs.fsBsize = 0
      · rw [if_pos start] at exact
        have strict : sl.first fs < size / fs.fsBsize :=
          lt_of_le_of_ne low fun here => there (exact sl ind here)
        calc sl.first fs * fs.fsBsize < size / fs.fsBsize * fs.fsBsize :=
              Nat.mul_lt_mul_of_pos_right strict bpos
          _ ≤ size := by omega
      · calc sl.first fs * fs.fsBsize ≤ size / fs.fsBsize * fs.fsBsize :=
              Nat.mul_le_mul_right _ low
          _ < size := by omega
    · refine ownFrags_same ?_ less.le
      by_contra short
      refine there (early b near ?_)
      by_contra before
      exact short ((Nat.mul_le_mul_right _ (by omega)).trans (Nat.div_mul_le_self size fs.fsBsize))

section Run

variable (io : env.IoOk) (ok : TrimFile fs s ino v) (some : 0 < size) (less : size < v.inode.iSize)

include io ok some less

/-- A cut inside the last direct block that moves the block. -/
theorem ufsTruncate_shifts {t : State} (few : v.inode.iSize / fs.fsBsize < ndaddr)
    (same : size / fs.fsBsize = v.inode.iSize / fs.fsBsize)
    (other : fragsOf fs size ≠ fragsOf fs v.inode.iSize)
    (there : fileAddr fs s v (.data (size / fs.fsBsize)) ≠ 0)
    (run : ufsTruncate env fs ino size s = .done 0 t)
    (update : updateInode ino (fun i => { i with iSize := size % 2 ^ 32 }) t = .done () s') :
    ∃ (k w : Nat) (v' : Vnode), (k : Int) = fragsOf fs v.inode.iSize - fragsOf fs size ∧ 0 < k ∧
      Shifted fs ino (size / fs.fsBsize) k w s v s' v' := by
  have grow : fragsOf fs size ≤ fragsOf fs v.inode.iSize := fragsOf_mono less.le
  obtain ⟨k, frags⟩ : ∃ k : Nat, (k : Int) = fragsOf fs v.inode.iSize - fragsOf fs size :=
    ⟨(fragsOf fs v.inode.iSize - fragsOf fs size).toNat, by omega⟩
  have pos : 0 < k := by omega
  have start := Nat.div_mul_le_self size fs.fsBsize
  have le : k ≤ fs.ownFrags v.inode.iSize (size / fs.fsBsize) := by
    have below : v.inode.iSize < (size / fs.fsBsize + 1) * fs.fsBsize := by
      rw [same, Nat.mul_comm]
      exact Nat.lt_mul_div_succ _ fs.bsize_pos
    have low : fragsOf fs (size / fs.fsBsize * fs.fsBsize : Nat) ≤ fragsOf fs size := fragsOf_mono start
    rw [fragsOf_start] at low
    rw [fragsOf_eq (same ▸ few) (by omega) below] at frags
    omega
  have bytes : ((fragsOf fs v.inode.iSize - fragsOf fs size) * fs.fsFsize).toNat = k * fs.fsFsize := by
    rw [← frags, ← Int.natCast_mul, Int.toNat_natCast]
  obtain ⟨n, ⟨equal, -⟩ | ⟨-, s₁, moved, rest⟩⟩ := ufsTruncate_inside io ok.shape few same run
  · exact absurd equal other
  unfold truncateData.cutLast at moved
  rw [if_neg there, if_neg (by omega), bytes] at moved
  have short : size / fs.fsBsize < 2 ^ 32 := by
    have : size / fs.fsBsize < 12 := same ▸ few
    omega
  obtain ⟨w, v₁, shift, cache, inv⟩ := truncatePartial_spec io
    (ok.cache.core (atTick_core ino s n)) (ok.toFileInv.atTick n) short there pos le moved
  have shift : Shifted fs ino (size / fs.fsBsize) k w s v s₁ v₁ :=
    ⟨shift.there, shift.addr_ne, shift.addr, shift.used, shift.taken⟩
  obtain ⟨s₂, wrote, written⟩ := ufsWriteInode_ok io.toInoOk cache inv.there
  have done : truncateIndir env fs ino (size / fs.fsBsize : Nat) 1 (v.inode.iSize / fs.fsBsize : Nat) s₁
      = .done () s₁ := by
    rw [truncateIndir, if_neg (by rw [same]; omega)]
    rfl
  rw [Prog.bind_of_done done, wrote] at rest
  cases rest
  have drop := (written.dropped inv).resize update
  exact ⟨k, w, _, frags, pos, shift.after drop⟩

end Run

end

end FuseUfs
