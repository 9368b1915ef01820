import FuseUfs.BlockCount
import FuseUfs.Ops
import FuseUfs.Lookup

/-! # The attributes of an inode on the device

`vnode_get` copies a dinode into core and a dirty `vnode_put` copies it back, field by field, but for
the block count, which it works out anew from the type and the size. What that leaves on the device
when nothing was changed in between is the first result; the second is about the callbacks that
change attributes, which are one more step between the two.
-/

namespace FuseUfs

open Lib Prog

variable {env : Env} {fs : Superblock} {s s' : State} {ino : Nat}

/-- The dinode that an in-core inode stands for. -/
def Inode.dinode (i : Inode) : Dinode :=
  { i.iDin2 with
    diMode := i.iMode
    diNlink := i.iNlink
    diSize := i.iSize
    diFlags := i.iFlags
    diGen := i.iGen
    diUid := i.iUid
    diGid := i.iGid
    diAtime := i.iAtime
    diMtime := i.iMtime
    diCtime := i.iCtime }

theorem dinode_copyOndiskToIncore (din : Dinode) (ino : Nat) : (copyOndiskToIncore din ino).dinode = din := rfl

theorem iDin2_copyIncoreToOndisk (fs : Superblock) (i : Inode) :
    (copyIncoreToOndisk fs i).iDin2 = { i.dinode with diBlocks := asU64 (calcNumBlocks fs i) } := rfl

/-- A dirty inode that is given back is written as it is in core. -/
theorem vnodePut_stores (io : env.InoOk) {v : Vnode} (cache : InoCache fs s) (there : s.vnodes ino = some v)
    (linked : 0 < v.inode.iNlink ∨ 1 < v.count) : ∃ s', vnodePut env fs ino true s = .done 0 s' ∧
      s'.dinodes = Function.update s.dinodes ino (copyIncoreToOndisk fs v.inode).iDin2 := by
  have here : (s.setVnode ino (v.dropped fs true)).vnodes ino = some (v.dropped fs true) := Function.update_self ..
  obtain ⟨s₁, wrote, written⟩ := ufsWriteInode_ok io (cache.core (setVnode_core _)) here
  have dinodes : s₁.dinodes = Function.update s.dinodes ino (copyIncoreToOndisk fs v.inode).iDin2 := written.dinodes
  unfold vnodePut
  rw [Prog.get_bind_apply, there]
  simp only [Prog.modify_bind_apply]
  by_cases last : v.count - 1 = 0
  · have alive : ¬ (v.dropped fs true).inode.iNlink < 1 := by
      change ¬ v.inode.iNlink < 1
      omega
    rw [if_pos last, lastPut, if_neg alive, if_pos rfl, Prog.bind_of_done wrote]
    exact ⟨_, rfl, dinodes⟩
  · rw [if_neg last]
    exact ⟨s₁, wrote, dinodes⟩

/-- A reference to an inode, in core or on the device. -/
theorem vnodeGet_inCore (io : env.InoOk) (cache : InoCache fs s) (numbered : ino ≠ 0) :
    ∃ t, vnodeGet env fs ino s = .done () t ∧ InoCache fs t ∧ t.dinodes = s.dinodes ∧
      t.vnodes ino = some ⟨(s.inCore ino).inode, (s.inCore ino).count + 1⟩ := by
  obtain ⟨t, l, b, lo, hi, got, cached⟩ := vnodeGet_ok io cache numbered
  exact ⟨_, got, ⟨cached.aligned, cached.same⟩, rfl, Function.update_self ..⟩

/-- With a link on the device, an inode that is referenced is not given back for the last time without one. -/
theorem linked_of_held (held : ∀ v, s.vnodes ino = some v → 0 < v.count) (linked : 0 < (s.dinodes ino).diNlink) :
    0 < (s.inCore ino).inode.iNlink ∨ 0 < (s.inCore ino).count := by
  cases here : s.vnodes ino with
  | none =>
      have found : s.inCore ino = ⟨copyOndiskToIncore (s.dinodes ino) ino, 0⟩ := by rw [State.inCore, here]; rfl
      rw [found]
      exact .inl linked
  | some v =>
      have found : s.inCore ino = v := by rw [State.inCore, here]; rfl
      rw [found]
      exact .inr (held v here)

/-! ## Nothing changed in between -/

/-- The sectors that `calc_num_blocks` counts for a type and a size, if no `int` overflows. -/
def Superblock.sectors (fs : Superblock) (mode size : Nat) : Nat :=
  if sIslnk mode ∧ size < fs.fsMaxsymlinklen then 0 else fs.fragCount size * (fs.fsFsize >>> 9)

theorem calcNumBlocks_sectors {i : Inode} (small : fs.sectors i.iMode i.iSize < 2 ^ 31) :
    calcNumBlocks fs i = fs.sectors i.iMode i.iSize := by
  unfold Superblock.sectors at small ⊢
  by_cases short : sIslnk i.iMode ∧ i.iSize < fs.fsMaxsymlinklen
  · unfold calcNumBlocks
    simp only [if_pos short]
    rfl
  · rw [if_neg short] at small ⊢
    by_cases sector : 0 < fs.fsFsize >>> 9
    · exact calcNumBlocks_eq short small sector
    · -- fragments smaller than a sector count for nothing
      have zero : fs.fsFsize >>> 9 = 0 := by omega
      have counts : ∀ x : Int, (if sIslnk i.iMode = true ∧ i.iSize < fs.fsMaxsymlinklen then 0 else x) = x :=
        fun x => if_neg short
      unfold calcNumBlocks
      simp only [counts, zero, Nat.cast_zero, mul_zero]
      rfl

/-- The block count of a dinode is the one that its type and size give. -/
def Recounts (fs : Superblock) (din : Dinode) : Prop :=
  if fs.sectors din.diMode din.diSize < 2 ^ 31 then din.diBlocks = fs.sectors din.diMode din.diSize
  else din.diBlocks = asU64 (calcNumBlocks fs (copyOndiskToIncore din 0))

/-- The in-core inode has what the device has, the block count aside. -/
def Inode.Mirrors (i : Inode) (din : Dinode) : Prop := { i.dinode with diBlocks := din.diBlocks } = din

theorem recounts_iff (din : Dinode) (ino : Nat) :
    Recounts fs din ↔ asU64 (calcNumBlocks fs (copyOndiskToIncore din ino)) = din.diBlocks := by
  have same : calcNumBlocks fs (copyOndiskToIncore din ino) = calcNumBlocks fs (copyOndiskToIncore din 0) := rfl
  unfold Recounts
  split
  · next small =>
    rw [calcNumBlocks_sectors (i := copyOndiskToIncore din ino) small]
    have : asU64 (fs.sectors din.diMode din.diSize : Nat) = fs.sectors din.diMode din.diSize :=
      asU64_of_lt (by omega)
    exact ⟨fun h => this.trans h.symm, fun h => h.symm.trans this⟩
  · rw [same]
    exact eq_comm

/-- **Reading an inode and writing it back** leaves its dinode on the device as it was exactly if its
    block count is the one that its type and size give, and an inode that is in core already has
    nothing pending. -/
theorem getPut_unchanged_iff (io : env.InoOk) (cache : InoCache fs s) (numbered : ino ≠ 0)
    (held : ∀ v, s.vnodes ino = some v → 0 < v.count) (linked : 0 < (s.dinodes ino).diNlink) :
    ∃ s', (vnodeGet env fs ino >>= fun _ => vnodePut env fs ino true) s = .done 0 s' ∧
      (s'.dinodes ino = s.dinodes ino ↔
        Recounts fs (s.dinodes ino) ∧ ∀ v, s.vnodes ino = some v → v.inode.Mirrors (s.dinodes ino)) := by
  obtain ⟨t, got, cached, same, there⟩ := vnodeGet_inCore io cache numbered
  have alive : 0 < (s.inCore ino).inode.iNlink ∨ 1 < (s.inCore ino).count + 1 := by
    have := linked_of_held held linked
    omega
  obtain ⟨s', put, dinodes⟩ := vnodePut_stores io cached there alive
  refine ⟨s', (Prog.bind_of_done got _).trans put, ?_⟩
  rw [dinodes, Function.update_self, iDin2_copyIncoreToOndisk, recounts_iff _ ino]
  clear same
  cases here : s.vnodes ino with
  | none =>
      have found : s.inCore ino = ⟨copyOndiskToIncore (s.dinodes ino) ino, 0⟩ := by rw [State.inCore, here]; rfl
      rw [found, dinode_copyOndiskToIncore]
      constructor
      · intro same
        exact ⟨congrArg Dinode.diBlocks same, fun v there => by cases there⟩
      · rintro ⟨same, -⟩
        rw [same]
  | some v =>
      have found : s.inCore ino = v := by rw [State.inCore, here]; rfl
      rw [found]
      have counted : v.inode.Mirrors (s.dinodes ino) →
          calcNumBlocks fs v.inode = calcNumBlocks fs (copyOndiskToIncore (s.dinodes ino) ino) := by
        intro mirrors
        have mode : v.inode.iMode = (s.dinodes ino).diMode := congrArg Dinode.diMode mirrors
        have size : v.inode.iSize = (s.dinodes ino).diSize := congrArg Dinode.diSize mirrors
        unfold calcNumBlocks copyOndiskToIncore
        rw [mode, size]
      constructor
      · intro same
        have blocks : asU64 (calcNumBlocks fs v.inode) = (s.dinodes ino).diBlocks := congrArg Dinode.diBlocks same
        have mirrors : v.inode.Mirrors (s.dinodes ino) := by
          rw [blocks] at same
          exact same
        rw [← counted mirrors]
        refine ⟨blocks, ?_⟩
        rintro _ ⟨⟩
        exact mirrors
      · rintro ⟨same, mirrors⟩
        rw [counted (mirrors v rfl), same]
        exact mirrors v rfl

/-- Inode 3 is a file of 5000 bytes with this block count. -/
def sizedState (blocks : Nat) : State :=
  { smallState with
    dinodes := fun i =>
      if i = 3 then { blankDinode with diMode := ifreg, diNlink := 1, diSize := 5000, diBlocks := blocks }
      else blankDinode }

/-- With all its ten fragments the file stays as it is. -/
theorem getPut_unchanged_sized : ∃ s', (vnodeGet calmEnv smallFs 3 >>= fun _ => vnodePut calmEnv smallFs 3 true)
    (sizedState 10) = .done 0 s' ∧ s'.dinodes 3 = (sizedState 10).dinodes 3 := by
  have cache : InoCache smallFs (sizedState 10) := InoCache.empty rfl
  obtain ⟨s', ran, iff⟩ := getPut_unchanged_iff calmEnv_ioOk.toInoOk cache (by decide : 3 ≠ 0)
    (fun v there => by cases there) (by decide)
  have counted : Recounts smallFs ((sizedState 10).dinodes 3) := by
    unfold Recounts
    decide
  exact ⟨s', ran, iff.mpr ⟨counted, fun v there => by cases there⟩⟩

/-- With a hole in place of its blocks it is given their number all the same. -/
theorem getPut_fills_hole : ∃ s', (vnodeGet calmEnv smallFs 3 >>= fun _ => vnodePut calmEnv smallFs 3 true)
    (sizedState 0) = .done 0 s' ∧ s'.dinodes 3 ≠ (sizedState 0).dinodes 3 := by
  refine ⟨_, rfl, fun same => ?_⟩
  have blocks := congrArg Dinode.diBlocks same
  revert blocks
  decide +kernel

/-! ## One change in between -/

inductive AttrCall where
  | chmod (mode : Nat)
  | chown (uid gid : Nat)
  | utimens (tv : Int × Int)

def AttrCall.run (env : Env) (fs : Superblock) (path : List Byte) : AttrCall → M Int
  | .chmod mode => opChmod env fs path mode
  | .chown uid gid => opChown env fs path uid gid
  | .utimens tv => opUtimens env fs path tv

/-- The type of an inode, and the other bits of the mode that `chmod` does not set. -/
def typeBits (mode : Nat) : Nat := mode - (mode &&& permMask)

/-- A dinode as it is asked for. -/
def AttrCall.requested (call : AttrCall) (din : Dinode) : Dinode :=
  match call with
  | .chmod mode => { din with diMode := typeBits din.diMode ||| (mode &&& permMask) }
  | .chown uid gid =>
      { din with
        diUid := if uid ≠ noId then uid else din.diUid
        diGid := if gid ≠ noId then gid else din.diGid }
  | .utimens tv => { din with diAtime := tv.1, diMtime := tv.2 }

/-- The two dinodes differ in the time of the last change and the block count at most. -/
def Alike (d d' : Dinode) : Prop :=
  { d with diCtime := 0, diBlocks := 0 } = { d' with diCtime := 0, diBlocks := 0 }

/-- The owner and the group that end up in a dinode are the ones asked for: if both are given they are, if
    neither is given what is in core has to be on the device, and if one is given the values are
    those already. -/
def IdsMeet (uid gid : Nat) (i : Inode) (din : Dinode) : Prop :=
  if uid = noId then
    if gid = noId then i.iUid = din.diUid ∧ i.iGid = din.diGid else din.diUid = uid ∧ i.iGid = gid
  else if gid = noId then i.iUid = uid ∧ din.diGid = gid else True

/-- The in-core inode, or that of the device, does not make the call go wrong. -/
def AttrCall.Meets (call : AttrCall) (i : Inode) (din : Dinode) : Prop :=
  match call with
  | .chmod _ => Alike (call.requested i.dinode) (call.requested din)
  | .chown uid gid => IdsMeet uid gid i din ∧
      Alike ((AttrCall.chown 0 0).requested i.dinode) ((AttrCall.chown 0 0).requested din)
  | .utimens tv => tv.1 = tv.2 ∧ Alike (call.requested i.dinode) (call.requested din)

/-- What the call does to the in-core inode. -/
def AttrCall.change (env : Env) : AttrCall → Inode → Inode
  | .chmod mode => chmodInode env mode
  | .chown uid gid => chownInode uid gid
  | .utimens tv => utimensInode tv

/-- A call that succeeds is the change of the in-core inode. -/
theorem AttrCall.run_changes {path : List Byte} (call : AttrCall) (run : call.run env fs path s = .done 0 s') :
    changeAttr env fs path (call.change env) s = .done 0 s' := by
  cases call with
  | chmod mode =>
      replace run : opChmod env fs path mode s = .done 0 s' := run
      unfold opChmod at run
      rw [Prog.get_bind_apply] at run
      split at run
      · cases (Prog.pure_eq_done.mp run).1
      · split at run
        · next failed => exact absurd (Prog.pure_eq_done.mp run).1 failed
        · exact run
  | chown uid gid =>
      replace run : opChown env fs path uid gid s = .done 0 s' := run
      unfold opChown at run
      rw [Prog.get_bind_apply] at run
      split at run
      · cases (Prog.pure_eq_done.mp run).1
      · exact run
  | utimens tv => exact run

theorem AttrCall.change_links (call : AttrCall) (i : Inode) : (call.change env i).iNlink = i.iNlink := by
  cases call <;> rfl

/-- A call meets the request exactly if the change of the in-core inode does. -/
theorem AttrCall.meets_iff (call : AttrCall) (i : Inode) (din : Dinode) (blocks : Nat) :
    Alike { (call.change env i).dinode with diBlocks := blocks } (call.requested din) ↔ call.Meets i din := by
  cases call with
  | chmod mode => exact Iff.rfl
  | chown uid gid =>
      simp only [Alike, AttrCall.Meets, AttrCall.requested, AttrCall.change, chownInode, Inode.dinode, IdsMeet,
        Dinode.mk.injEq]
      have given : ¬ 0 = noId := by decide
      by_cases noUser : uid = noId
      · by_cases noGroup : gid = noId
        · simp [noUser, noGroup, given]
          tauto
        · simp [noUser, noGroup, given]
          tauto
      · by_cases noGroup : gid = noId
        · simp [noUser, noGroup, given]
          tauto
        · simp [noUser, noGroup, given]
  | utimens tv =>
      simp only [Alike, AttrCall.Meets, AttrCall.requested, AttrCall.change, utimensInode, Inode.dinode,
        Dinode.mk.injEq]
      tauto

/-- For an inode that is not in core only the arguments decide, and who owns it. -/
theorem AttrCall.meets_ondisk (call : AttrCall) (din : Dinode) (ino : Nat) :
    call.Meets (copyOndiskToIncore din ino) din ↔ match call with
      | .chmod _ => True
      | .chown uid gid => (uid = noId ↔ gid = noId) ∨ din.diUid = uid ∧ din.diGid = gid
      | .utimens tv => tv.1 = tv.2 := by
  cases call with
  | chmod mode => exact iff_of_true rfl trivial
  | chown uid gid =>
      have same : IdsMeet uid gid (copyOndiskToIncore din ino) din ↔
          (uid = noId ↔ gid = noId) ∨ din.diUid = uid ∧ din.diGid = gid := by
        unfold IdsMeet copyOndiskToIncore
        by_cases noUser : uid = noId
        · by_cases noGroup : gid = noId
          · simp [noUser, noGroup]
          · simp [noUser, noGroup]
        · by_cases noGroup : gid = noId
          · simp [noUser, noGroup]
          · simp [noUser, noGroup]
      exact (and_iff_left rfl).trans same
  | utimens tv => exact and_iff_left rfl

/-- A root directory without contents. -/
def bareRoot : State := rootState fun _ => 0

theorem bareRoot_walkable : Walkable calmEnv smallFs bareRoot [slash] := by
  intro d visits
  cases visits with
  | here => exact ⟨by decide, (fun v there => nomatch there), .inl (by decide)⟩

end FuseUfs
