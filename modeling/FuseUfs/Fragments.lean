import FuseUfs.WriteCorrect

/-! # The lengths of the blocks under writes

The device does not record how many fragments a block owns: the length has to follow from
the size of the file. A write keeps it so when every block it flushes ends up with the
length that the new size asks for, every extent it frees is freed whole, and no block that
it does not flush changes its length with the size.
-/

namespace FuseUfs

open Lib

/-- What a write must meet, from the sizes and the map alone, to keep the lengths in step. -/
structure Write.Exact (fs : Superblock) (W : Write) (addr : Nat → Nat) : Prop where
  range : W.newSize ≤ fs.maxBlocks * fs.fsBsize
  count : W.count < 2 ^ 32
  grow : W.size < W.stop → W.stop < 2 ^ 32
  small : fs.fsBsize * ndaddr ≤ W.size ∨ W.flushPos fs (W.first fs) < 2 ^ 31
  replaced : ∀ m, W.first fs ≤ m → m * fs.fsBsize < W.stop → W.Replaced fs addr m →
    W.frags fs m = fs.ownFrags W.newSize m
  freed : ∀ m, W.first fs ≤ m → m * fs.fsBsize < W.stop → addr m ≠ 0 →
    W.was fs m < W.frags fs m → W.was fs m = fs.ownFrags W.size m ∧ 0 < W.was fs m
  stays : ∀ m, W.first fs ≤ m → m * fs.fsBsize < W.stop → ¬ W.Replaced fs addr m →
    fs.ownFrags W.size m = fs.ownFrags W.newSize m ∧ W.frags fs m ≤ fs.ownFrags W.size m
  others : ∀ m, m < W.first fs ∨ W.stop ≤ m * fs.fsBsize → addr m ≠ 0 →
    fs.ownFrags W.size m = fs.ownFrags W.newSize m

/-- What a write must not do to the free map: what it takes is the file's, what the file gives
    up is free, and what others have stays theirs. -/
structure LedgerKept (fs : Superblock) (s : State) (ino : Nat) (v : Vnode) (size : Nat)
    (s' : State) : Prop where
  file : ∃ v', v'.inode.iSize = size ∧ ConsistentFile fs s' ino v' ∧
    (∀ x, s.free fs x = true → s'.free fs x = false → Owns fs s' v' (fs.ownFrags size) x) ∧
    (∀ x, Owns fs s v (fs.ownFrags v.inode.iSize) x → ¬ Owns fs s' v' (fs.ownFrags size) x →
      s'.free fs x = true) ∧
    ∀ x, OthersHold fs s v (fs.ownFrags v.inode.iSize) x → OthersHold fs s' v' (fs.ownFrags size) x

section

variable {env : Env} {fs : Superblock} {ino : Nat} {s s' : State} {v : Vnode} {src : Buf}
  {n offset : Nat}

/-- Only the lengths of mapped blocks matter. -/
theorem slotExt_congr {addr : Slot → Nat} {own own' : Nat → Nat}
    (same : ∀ b, addr (.data b) ≠ 0 → own b = own' b) (sl : Slot) :
    slotExt fs addr own sl = slotExt fs addr own' sl := by
  ext x
  cases sl with
  | data b =>
      constructor
      · rintro ⟨there, inside⟩
        exact ⟨there, by simpa only [slotWidth, same b there] using inside⟩
      · rintro ⟨there, inside⟩
        exact ⟨there, by simpa only [slotWidth, same b there] using inside⟩
  | single => exact Iff.rfl
  | double => exact Iff.rfl
  | middle i => exact Iff.rfl

theorem Owned.congr {free : Nat → Bool} {addr : Slot → Nat} {own own' : Nat → Nat}
    (owned : Owned fs free addr own) (same : ∀ b, addr (.data b) ≠ 0 → own b = own' b) :
    Owned fs free addr own' := by
  have ext : ∀ sl, slotExt fs addr own sl = slotExt fs addr own' sl := slotExt_congr same
  refine ⟨fun sl there => ?_, fun sl x mine => owned.used sl x (by rw [ext]; exact mine),
    fun sl sl' ne => ?_⟩
  · have fits := owned.fits sl there
    cases sl with
    | data b => simpa only [slotWidth, same b there] using fits
    | single => exact fits
    | double => exact fits
    | middle i => exact fits
  · have apart : Disjoint (slotExt fs addr own sl) (slotExt fs addr own sl') := owned.apart ne
    rw [ext, ext] at apart
    exact apart

theorem owns_congr {own own' : Nat → Nat} {x : Nat}
    (same : ∀ b, fileAddr fs s v (.data b) ≠ 0 → own b = own' b) :
    Owns fs s v own x ↔ Owns fs s v own' x := by
  constructor
  · rintro ⟨sl, mine⟩
    exact ⟨sl, slotExt_congr same sl ▸ mine⟩
  · rintro ⟨sl, mine⟩
    exact ⟨sl, slotExt_congr same sl ▸ mine⟩

theorem FileInv.congr {own own' : Nat → Nat} (inv : FileInv fs s ino v own)
    (same : ∀ b, fileAddr fs s v (.data b) ≠ 0 → own b = own' b) : FileInv fs s ino v own' :=
  ⟨inv.toMountOk, inv.there, inv.number, inv.valid, inv.owned.congr same⟩

theorem Write.Exact.fits {W : Write} {addr : Nat → Nat} (ok : W.Exact fs addr) :
    W.Fits fs addr (fs.ownFrags W.size) := by
  refine ⟨(Nat.le_max_right _ _).trans ok.range, ok.range.trans_lt maxBytes_lt, ok.small,
    fun m low high => ⟨fun there grow => ?_, fun there less => ?_⟩⟩
  · obtain ⟨same, pos⟩ := ok.freed m low high there grow
    exact ⟨pos, same.le⟩
  · refine (ok.stays m low high ?_).2
    rintro (hole | grow)
    · exact there hole
    · omega

/-- What the blocks own once an exact write is done is what the new size asks for. -/
theorem Written.widths {exact sound : Prop} {W : Write} {own' : Nat → Nat} {v' : Vnode}
    {file' : UfsFile} (ok : W.Exact fs fun b => fileAddr fs s v (.data b))
    (written : Written fs ino exact sound W s v (fs.ownFrags W.size) s' v' own' file') (b : Nat)
    (there : fileAddr fs s' v' (.data b) ≠ 0) : own' b = fs.ownFrags W.newSize b := by
  have prog := written.prog
  have last := written.last
  rw [prog.widths, Write.ownAt]
  by_cases done : W.first fs ≤ b ∧ b < file'.blockno + 1
  · have high := prog.reach b done.1 done.2
    by_cases replaced : W.Replaced fs (fun b => fileAddr fs s v (.data b)) b
    · rw [if_pos ⟨done, replaced⟩]
      exact ok.replaced b done.1 high replaced
    · rw [if_neg (fun both => replaced both.2)]
      exact (ok.stays b done.1 high replaced).1
  · rw [if_neg (fun both => done both.1)]
    rw [prog.addr b (by omega)] at there
    refine ok.others b ?_ there
    by_cases low : b < W.first fs
    · exact .inl low
    · refine .inr (last.trans (Nat.mul_le_mul_right _ ?_))
      omega

end

theorem oneState_exact :
    ((oneState 4096 8).write smallFs (oneVnode 4096) (fun _ => 2) 96 0).Exact smallFs
      fun b => fileAddr smallFs (oneState 4096 8) (oneVnode 4096) (.data b) := by
  have safe := oneState_safe
  set W := (oneState 4096 8).write smallFs (oneVnode 4096) (fun _ => 2) 96 0 with hW
  have only : ∀ m, m * smallFs.fsBsize < W.stop → m = 0 := by
    intro m high
    have : m * 4096 < 96 := high
    omega
  have frags : W.frags smallFs 0 = 1 := by decide
  have was : W.was smallFs 0 = 8 := by decide
  have stays : ¬ W.Replaced smallFs
      (fun b => fileAddr smallFs (oneState 4096 8) (oneVnode 4096) (.data b)) 0 := by
    rintro (hole | grow)
    · exact absurd ((oneState_addr 4096 8 (.data 0)).symm.trans hole) (by decide)
    · rw [frags, was] at grow
      omega
  refine ⟨safe.range, by decide, fun _ => by decide, .inr (by decide), fun m _ high replaced => ?_,
    fun m _ high _ grow => ?_, fun m _ high _ => ?_, fun m _ _ => rfl⟩
  · obtain rfl := only m high
    exact absurd replaced stays
  · obtain rfl := only m high
    rw [frags, was] at grow
    omega
  · obtain rfl := only m high
    exact ⟨rfl, by decide⟩

end FuseUfs
