import FuseUfs.DirScan

/-! # A directory between two calls

A directory is in core while somebody has it open, and on the device otherwise. A call that walks
over it takes a reference and gives it back, so that the vnodes are left as they were: what stays is
what the walk has made of the contents.
-/

namespace FuseUfs

open Lib Prog

/-- The vnode of an inode as a reference to it finds it, in core or on the device. -/
def State.inCore (s : State) (ino : Nat) : Vnode :=
  (s.vnodes ino).getD ⟨copyOndiskToIncore (s.dinodes ino) ino, 0⟩

/-- A directory with these contents that is in core or can be brought there. -/
structure DirAt (fs : Superblock) (s : State) (dir : Nat) (img : Buf) : Prop where
  file : DirFile fs (s.setVnode dir (s.inCore dir)) dir (s.inCore dir) img
  cache : InoCache fs s
  numbered : dir ≠ 0
  /-- A vnode in core is in use. -/
  held : ∀ v, s.vnodes dir = some v → 0 < v.count
  /-- A directory that nobody has open has a link. -/
  linked : 0 < (s.inCore dir).inode.iNlink ∨ 0 < (s.inCore dir).count

/-- How large the directory is. -/
def State.dirSize (s : State) (dir : Nat) : Nat := (s.inCore dir).inode.iSize

/-- Only bytes on the device have changed, and what the transfers leave in memory. -/
def Walked (s s' : State) : Prop := ∃ t l d b lo hi, s' = { s with
  tick := t, log := l, data := d, dInoblock := b, dInomin := lo, dInomax := hi }

section Hold

variable {env : Env} {fs : Superblock} {s : State} {dir : Nat} {img : Buf}

/-- A reference to an inode. -/
theorem vnodeGet_ok (io : env.InoOk) (cache : InoCache fs s) {ino : Nat} (numbered : ino ≠ 0) :
    ∃ t l b lo hi, vnodeGet env fs ino s = .done () { s with
        tick := t, log := l, dInoblock := b, dInomin := lo, dInomax := hi
        vnodes := Function.update s.vnodes ino (some ⟨(s.inCore ino).inode, (s.inCore ino).count + 1⟩) } ∧
      InoCache fs { s with dInoblock := b, dInomin := lo, dInomax := hi } := by
  unfold vnodeGet
  rw [Prog.get_bind_apply, Prog.modify_bind_apply]
  cases here : s.vnodes ino with
  | some w =>
      have found : s.inCore ino = w := by rw [State.inCore, here]; rfl
      rw [found]
      exact ⟨_, _, _, _, _, rfl, cache⟩
  | none =>
      have found : s.inCore ino = ⟨copyOndiskToIncore (s.dinodes ino) ino, 0⟩ := by rw [State.inCore, here]; rfl
      rw [found]
      set s₁ : State := { s with log := .vnodeGet ino (s.inoUsed fs ino) :: s.log } with hs₁
      obtain ⟨t, load, cached, low, high, frame⟩ := loadInoblock_ok (s := s₁) io ⟨cache.aligned, cache.same⟩ ino
      have npos : 0 < fs.fsInopb := by have := fs.inopb_eq; have := fs.bsize_pos; omega
      have := Nat.mod_lt ino npos
      have := Nat.mod_le ino fs.fsInopb
      have same : t.dinodes = s.dinodes := by rw [frame]
      have dinode : t.dInoblock (ino - t.dInomin) = s.dinodes ino := by
        rw [cached.same _ (by omega), same, show t.dInomin + (ino - t.dInomin) = ino by omega]
      have got : vnodeDinode env fs ino s₁ = .done (s.dinodes ino) t := by
        rw [vnodeDinode, if_pos numbered, getino, Prog.bind_of_done load, Prog.get_bind_apply, dinode]
        rfl
      refine ⟨t.tick, t.log, t.dInoblock, t.dInomin, t.dInomax, ?_, cached.aligned, fun i hi => ?_⟩
      · refine (Prog.bind_of_done got _).trans ?_
        rw [frame]
        rfl
      · rw [cached.same i hi, same]

/-- The directory seen from another state with the same blocks. -/
theorem DirFile.moved {t t' : State} {v w : Vnode} (file : DirFile fs t dir v img) (there : t'.vnodes dir = some w)
    (inode : w.inode = v.inode) (same : t' = { t with
      tick := t'.tick, log := t'.log, dInoblock := t'.dInoblock, dInomin := t'.dInomin, dInomax := t'.dInomax
      vnodes := t'.vnodes }) : DirFile fs t' dir w img := by
  obtain ⟨i, c⟩ := v
  obtain ⟨i', c'⟩ := w
  obtain rfl : i' = i := inode
  rw [same]
  exact ⟨⟨⟨⟨file.alloc.group, file.alloc.cs, file.alloc.total⟩, file.boot, file.zero, file.device⟩, there,
    file.number, file.valid, file.owned⟩, file.dsize, file.range, file.small, file.clean, file.bytes⟩

/-- Giving the reference back leaves the vnodes as they were before it was taken. -/
theorem vnodePut_back (env : Env) {t : State} (at' : DirAt fs s dir img)
    (vnodes : t.vnodes = Function.update s.vnodes dir (some ⟨(s.inCore dir).inode, (s.inCore dir).count + 1⟩)) :
    vnodePut env fs dir false t = .done 0 { t with vnodes := s.vnodes } := by
  set v : Vnode := ⟨(s.inCore dir).inode, (s.inCore dir).count + 1⟩ with hv
  have there : t.vnodes dir = some v := by rw [vnodes, Function.update_self]
  have dropped : v.dropped fs false = s.inCore dir := rfl
  unfold vnodePut
  rw [Prog.get_bind_apply, there]
  simp only [Prog.modify_bind_apply, dropped]
  by_cases last : (s.inCore dir).count = 0
  · have alive : ¬ (s.inCore dir).inode.iNlink < 1 := by
      have := at'.linked
      omega
    have out : s.vnodes dir = none := by
      cases here : s.vnodes dir with
      | none => rfl
      | some w =>
          have used := at'.held w here
          have found : s.inCore dir = w := by rw [State.inCore, here]; rfl
          rw [found] at last
          omega
    have back : Function.update (t.setVnode dir (s.inCore dir)).vnodes dir none = s.vnodes := by
      rw [State.setVnode, vnodes, Function.update_idem, Function.update_idem, ← out, Function.update_eq_self]
    rw [if_pos (show v.count - 1 = 0 from last), lastPut, if_neg alive, if_neg (by decide), ← back]
    rfl
  · have here : s.vnodes dir = some (s.inCore dir) := by
      unfold State.inCore at last ⊢
      cases found : s.vnodes dir with
      | none =>
          rw [found] at last
          exact absurd rfl last
      | some w => rfl
    have back : (t.setVnode dir (s.inCore dir)).vnodes = s.vnodes := by
      rw [State.setVnode, vnodes, Function.update_idem, ← here, Function.update_eq_self]
    rw [if_neg (show ¬ v.count - 1 = 0 from last), if_neg (by decide), ← back]
    rfl

/-- What is in the directory. -/
def Contains (fs : Superblock) (s : State) (dir : Nat) (img : Buf) : Prop :=
  ∀ p < s.dirSize dir, s.byte fs (s.inCore dir) p = img p

theorem DirAt.contains (at' : DirAt fs s dir img) : Contains fs s dir img := at'.file.bytes

/-- The directory as a reference to it has it. -/
theorem DirAt.get (io : env.IoOk) (at' : DirAt fs s dir img) :
    ∃ t l b lo hi, vnodeGet env fs dir s = .done () { s with
        tick := t, log := l, dInoblock := b, dInomin := lo, dInomax := hi
        vnodes := Function.update s.vnodes dir (some ⟨(s.inCore dir).inode, (s.inCore dir).count + 1⟩) } ∧
      InoCache fs { s with dInoblock := b, dInomin := lo, dInomax := hi } ∧
      DirFile fs { s with
        tick := t, log := l, dInoblock := b, dInomin := lo, dInomax := hi
        vnodes := Function.update s.vnodes dir (some ⟨(s.inCore dir).inode, (s.inCore dir).count + 1⟩) } dir
        ⟨(s.inCore dir).inode, (s.inCore dir).count + 1⟩ img := by
  obtain ⟨t, l, b, lo, hi, got, cache⟩ := vnodeGet_ok io.toInoOk at'.cache at'.numbered
  exact ⟨t, l, b, lo, hi, got, cache, at'.file.moved (Function.update_self ..) rfl rfl⟩

/-- Giving a changed directory back writes its inode. -/
theorem vnodePut_writes (io : env.InoOk) {t : State} {v : Vnode} (cache : InoCache fs t) (there : t.vnodes dir = some v)
    (linked : 0 < v.inode.iNlink ∨ 1 < v.count) :
    ∃ s', vnodePut env fs dir true t = .done 0 s' ∧ s'.data = t.data ∧
      (s'.inCore dir).inode.iSize = v.inode.iSize ∧
      ∀ p, s'.byte fs (s'.inCore dir) p = t.byte fs v p := by
  have dropped : (v.dropped fs true).inode = copyIncoreToOndisk fs v.inode := rfl
  have here : (t.setVnode dir (v.dropped fs true)).vnodes dir = some (v.dropped fs true) := Function.update_self ..
  obtain ⟨s₁, wrote, written⟩ := ufsWriteInode_ok io (cache.core (setVnode_core _)) here
  have data : s₁.data = t.data := by rw [written.frame]; rfl
  have byte : ∀ p, blockByte fs s₁.data (slotAddr fs s₁.data
      (copyIncoreToOndisk fs (copyIncoreToOndisk fs v.inode)).iDin2 (.data (p / fs.fsBsize))) (p % fs.fsBsize)
        = t.byte fs v p := by
    intro p
    rw [slotAddr_copy, slotAddr_copy, data]
    rfl
  unfold vnodePut
  rw [Prog.get_bind_apply, there]
  simp only [Prog.modify_bind_apply]
  by_cases last : v.count - 1 = 0
  · have alive : ¬ (v.dropped fs true).inode.iNlink < 1 := by
      rw [dropped]
      change ¬ v.inode.iNlink < 1
      omega
    rw [if_pos last, lastPut, if_neg alive, if_pos rfl]
    refine ⟨{ s₁ with vnodes := Function.update s₁.vnodes dir none }, Prog.bind_of_done wrote _, data, ?_⟩
    have found : State.inCore { s₁ with vnodes := Function.update s₁.vnodes dir none } dir
        = ⟨copyOndiskToIncore (copyIncoreToOndisk fs (copyIncoreToOndisk fs v.inode)).iDin2 dir, 0⟩ := by
      unfold State.inCore
      simp only [Function.update_self, Option.getD_none, written.dinodes]
      rfl
    rw [found]
    exact ⟨rfl, byte⟩
  · rw [if_neg last]
    simp only [if_true]
    refine ⟨s₁, wrote, data, ?_⟩
    have found : s₁.inCore dir = ⟨copyIncoreToOndisk fs (copyIncoreToOndisk fs v.inode), v.count - 1⟩ := by
      unfold State.inCore
      rw [written.frame]
      simp only [Function.update_self, Option.getD_some]
      rfl
    rw [found]
    exact ⟨rfl, byte⟩

theorem Walked.inCore {s' : State} (walked : Walked s s') (i : Nat) : s'.inCore i = s.inCore i := by
  obtain ⟨t, l, d, b, lo, hi, rfl⟩ := walked
  rfl

theorem Walked.dirSize {s' : State} (walked : Walked s s') (i : Nat) : s'.dirSize i = s.dirSize i := by
  rw [State.dirSize, walked.inCore, State.dirSize]

/-- A walk over a directory that is in core or on the device, which leaves its blocks where they are. -/
theorem ufsDirIterate_walks {σ : Type} {func : DirProc σ} {priv : σ} {final : Int × Buf × σ} (io : env.IoOk)
    (at' : DirAt fs s dir img) (scan : Scan fs (s.dirSize dir) func 0 img priv 0 final) :
    ∃ s', ufsDirIterate env fs dir func priv s = .done (final.1, final.2.2) s' ∧ DirAt fs s' dir final.2.1 ∧
      Walked s s' ∧ fileAddr fs s' (s.inCore dir) = fileAddr fs s (s.inCore dir) := by
  obtain ⟨t, l, b, lo, hi, got, cache, file⟩ := at'.get io
  set v : Vnode := ⟨(s.inCore dir).inode, (s.inCore dir).count + 1⟩ with hv
  set s₁ : State := { s with
    tick := t, log := l, dInoblock := b, dInomin := lo, dInomax := hi
    vnodes := Function.update s.vnodes dir (some v) } with hs₁
  obtain ⟨w, s₂, run, ⟨last, addr⟩, ⟨t', l', d', rfl⟩, ret, priv'⟩ :=
    Scan.run (DirFile.carries func io dir v (fileAddr fs s₁ v) file.small) scan ⟨file, rfl⟩ env.heap
  refine ⟨{ s with tick := t', log := l', data := d', dInoblock := b, dInomin := lo, dInomax := hi }, ?_,
    ⟨last.moved ?_ ?_ rfl, ⟨cache.aligned, cache.same⟩, at'.numbered, at'.held, at'.linked⟩,
    ⟨t', l', d', b, lo, hi, rfl⟩, addr⟩
  · rw [ufsDirIterate_start got file.there]
    refine (Prog.bind_of_done run _).trans ((Prog.bind_of_done (vnodePut_back env at' rfl) _).trans ?_)
    rw [ret, priv']
    rfl
  · exact Function.update_self ..
  · rfl

theorem ufsDirIterate_scans {σ : Type} {func : DirProc σ} {priv : σ} {final : Int × Buf × σ} (io : env.IoOk)
    (at' : DirAt fs s dir img) (scan : Scan fs (s.dirSize dir) func 0 img priv 0 final) :
    ∃ s', ufsDirIterate env fs dir func priv s = .done (final.1, final.2.2) s' ∧ DirAt fs s' dir final.2.1 ∧
      Walked s s' ∧ s'.dirSize dir = s.dirSize dir := by
  obtain ⟨s', run, after, walked, -⟩ := ufsDirIterate_walks io at' scan
  exact ⟨s', run, after, walked, walked.dirSize dir⟩

end Hold

/-! ## A small mount with a directory -/

/-- A directory of one block, with these contents, as inode 3. -/
def dirDinode : Dinode := { oneDinode 4096 with diMode := ifdir, diNlink := 2 }

def dirVnode : Vnode := ⟨copyOndiskToIncore dirDinode 3, 1⟩

def dirState (img : Buf) : State :=
  { oneState 4096 8 with
    dinodes := Function.update (fun _ => blankDinode) 3 dirDinode
    data := fun a => if 32 * 512 ≤ a ∧ a < 32 * 512 + 4096 then img (a - 32 * 512) else 0
    vnodes := Function.update (fun _ => none) 3 (some dirVnode) }

/-- Such a directory when it is empty: two records, and 512 bytes out of use seven times. -/
def emptyDir : Buf := fun a => if a < 512 then ufsNewDirBlock 3 2 a else if a % 512 = 5 then 2 else 0

theorem dirState_addr (img : Buf) (sl : Slot) :
    fileAddr smallFs (dirState img) dirVnode sl = if sl = .data 0 then 32 else 0 := by
  cases sl with
  | data b =>
      by_cases first : b = 0
      · subst first
        rfl
      · rw [if_neg (by simpa using first)]
        have direct : dirDinode.diDb b = 0 := by
          simp only [dirDinode, oneDinode, Function.update_of_ne first]
        change blockAt smallFs _ dirDinode b = 0
        rcases block_cases smallFs b with h | ⟨i, hi, rfl⟩ | ⟨i, hi, j, hj, rfl⟩ | far
        · rw [blockAt_direct _ _ h, direct]
        · rw [blockAt_single _ _ hi]
          rfl
        · rw [blockAt_double _ _ hi hj]
          rfl
        · exact blockAt_beyond _ _ far
  | single => rfl
  | double => rfl
  | middle i =>
      change (if i < smallFs.fsNindir then 0 else 0) = _
      simp

/-- Its records. -/
def emptyOffs : List Nat := [0, 12, 512, 1024, 1536, 2048, 2560, 3072, 3584]

theorem emptyDir_image : DirImage emptyDir 4096 emptyOffs := by decide +kernel

theorem dirState_at (img : Buf) : DirAt smallFs (dirState img) 3 img := by
  have one := oneState_consistent (.inr ⟨rfl, rfl⟩)
  have found : (dirState img).inCore 3 = dirVnode := rfl
  have zeros : ∀ j < smallFs.fsBsize, (dirState img).data j = 0 := by
    intro j hj
    have : j < 4096 := hj
    exact if_neg (by omega)
  have addr : ∀ sl, fileAddr smallFs (dirState img) dirVnode sl
      = fileAddr smallFs (oneState 4096 8) (oneVnode 4096) sl := by
    intro sl
    rw [dirState_addr, oneState_addr]
  have file : DirFile smallFs (dirState img) 3 dirVnode img := by
    refine ⟨⟨⟨⟨one.alloc.group, one.alloc.cs, one.alloc.total⟩, one.boot, zeros, one.device⟩, rfl, rfl, one.valid,
      ?_⟩, rfl, by decide, by decide, fun b => ?_, fun p below => ?_⟩
    · rw [funext addr]
      exact one.owned
    · rw [dirState_addr]
      split <;> decide
    · have low : p < 4096 := below
      have block : p / smallFs.fsBsize = 0 := Nat.div_eq_of_lt low
      have place : p % smallFs.fsBsize = p := Nat.mod_eq_of_lt low
      rw [byte_eq, block, place, dirState_addr, if_pos rfl, blockByte, if_neg (by decide)]
      change (if 32 * 512 ≤ 32 * 512 + p ∧ 32 * 512 + p < 32 * 512 + 4096 then img (32 * 512 + p - 32 * 512) else 0)
        = img p
      rw [if_pos ⟨by omega, by omega⟩, Nat.add_sub_cancel_left]
  refine ⟨?_, ⟨fun h => ?_, fun i h => ?_⟩, by decide, fun v there => ?_, .inl ?_⟩
  · rw [found]
    exact file.moved (by simp [State.setVnode]) rfl rfl
  · exact absurd h (by simp [dirState, oneState, smallState])
  · exact absurd h (by simp [dirState, oneState, smallState])
  · have here : (dirState img).vnodes 3 = some dirVnode := rfl
    rw [here] at there
    cases there
    decide
  · rw [found]
    decide

end FuseUfs
