import FuseUfs.Lookup
import FuseUfs.Sizes

/-! # References to vnodes

A vnode is in core as long as somebody refers to it, and its count is the number of those who do.
What follows counts the references that every callback leaves behind, on every way out of it.
-/

namespace FuseUfs

open Lib Prog

/-! ## Counting -/

/-- The count that a vnode with `n` references has; without a reference it is not in core. -/
def countOf (n : Nat) : Option Nat := if n = 0 then none else some n

/-- What is counted: the references to every vnode, and the inode of every handle. -/
structure Tally where
  refs : Nat → Nat
  handles : Nat → Option Nat

def State.tally (s : State) : Tally := ⟨s.refs, fun fh => (s.files fh).map UfsFile.ino⟩

/-- The references of `base`, and these besides; the handles of `base`. -/
structure Refs (base : Tally) (extra : Multiset Nat) (s : State) : Prop where
  counted : ∀ i, (s.vnodes i).map Vnode.count = countOf (base.refs i + extra.count i)
  handles : ∀ fh, (s.files fh).map UfsFile.ino = base.handles fh

/-- Every vnode in core is referenced. -/
def Held (s : State) : Prop := ∀ i v, s.vnodes i = some v → 0 < v.count

section Count

variable {env : Env} {fs : Superblock} {s s' : State} {base : Tally} {extra : Multiset Nat} {i ino : Nat}

theorem Held.refs (held : Held s) : Refs s.tally 0 s := by
  refine ⟨fun i => ?_, fun fh => rfl⟩
  rw [Multiset.count_zero, Nat.add_zero]
  change _ = countOf (s.refs i)
  unfold State.refs
  cases here : s.vnodes i with
  | none => rfl
  | some v =>
      have used := held i v here
      exact (if_neg (by simpa using used.ne')).symm

theorem Refs.eq (refs : Refs base extra s) (i : Nat) : s.refs i = base.refs i + extra.count i := by
  have counted := refs.counted i
  unfold countOf at counted
  unfold State.refs
  cases here : s.vnodes i with
  | none =>
      rw [here] at counted
      split at counted
      · next none => exact none.symm
      · cases counted
  | some v =>
      rw [here] at counted
      split at counted
      · cases counted
      · exact Option.some.inj counted

theorem Refs.held (refs : Refs base extra s) : Held s := by
  intro i v here
  have counted := refs.counted i
  rw [here, countOf] at counted
  split at counted
  · cases counted
  · next some =>
    have same : v.count = base.refs i + extra.count i := Option.some.inj counted
    omega

theorem count_update (m : Nat → Option Vnode) (o : Option Vnode) (i j : Nat) :
    (Function.update m i o j).map Vnode.count = if j = i then o.map Vnode.count else (m j).map Vnode.count := by
  by_cases same : j = i
  · rw [if_pos same, same, Function.update_self]
  · rw [if_neg same, Function.update_of_ne same]

/-- Changing an in-core inode does not count. -/
theorem counts_keptByInode (c h : Nat → Option Nat) (i : Nat) : KeptByInode i fun s =>
    (∀ j, (s.vnodes j).map Vnode.count = c j) ∧ ∀ fh, (s.files fh).map UfsFile.ino = h fh where
  clock _ _ _ h := h
  groups _ _ h := h
  summary _ _ _ h := h
  clusters _ _ h := h
  data _ _ h := h
  cache _ _ _ _ h := h
  dinodes _ _ h := h
  inode s v f there h := by
    refine ⟨fun j => ?_, h.2⟩
    rw [State.setVnode, count_update, ← h.1 j]
    split
    · next same => rw [same, there]; rfl
    · rfl

theorem refs_keptByInode (base : Tally) (extra : Multiset Nat) (i : Nat) : KeptByInode i (Refs base extra) := by
  have kept := counts_keptByInode (fun i => countOf (base.refs i + extra.count i)) base.handles i
  have same : Refs base extra = fun s => (∀ j, (s.vnodes j).map Vnode.count = countOf (base.refs j + extra.count j)) ∧
      ∀ fh, (s.files fh).map UfsFile.ino = base.handles fh := by
    funext s
    exact propext ⟨fun h => ⟨h.counted, h.handles⟩, fun h => ⟨h.1, h.2⟩⟩
  rw [same]
  exact kept

theorem vnodeGet_refs (run : vnodeGet env fs ino s = .done () s') (refs : Refs base extra s) :
    Refs base (ino ::ₘ extra) s' := by
  obtain ⟨v, t, l, b, lo, hi, ran, count, -⟩ := vnodeGet_total env fs ino s
  rw [ran] at run
  cases run
  refine ⟨fun i => ?_, refs.handles⟩
  dsimp only
  rw [count_update]
  by_cases same : i = ino
  · subst same
    have more : v.count = base.refs i + (extra.count i + 1) := by rw [count, refs.eq]; omega
    rw [if_pos rfl, Multiset.count_cons_self, countOf, if_neg (by omega), ← more]
    rfl
  · rw [Multiset.count_cons_of_ne same, ← refs.counted i, if_neg same]

theorem vnodePut_refs {dirty : Bool} {r : Int} (run : vnodePut env fs ino dirty s = .done r s')
    (refs : Refs base (ino ::ₘ extra) s) : Refs base extra s' := by
  unfold vnodePut at run
  rw [Prog.get_bind_apply] at run
  cases here : s.vnodes ino with
  | none =>
      rw [here] at run
      cases run
  | some v =>
      rw [here] at run
      simp only [Prog.modify_bind_apply] at run
      have count : v.count = base.refs ino + extra.count ino + 1 := by
        have counted := refs.counted ino
        rw [here, Multiset.count_cons_self, countOf, if_neg (by omega)] at counted
        exact Option.some.inj counted
      set c : Nat → Option Nat := Function.update (fun i => countOf (base.refs i + extra.count i)) ino
        (some (base.refs ino + extra.count ino)) with hc
      have dropped : ∀ j, ((s.setVnode ino (v.dropped fs dirty)).vnodes j).map Vnode.count = c j := by
        intro j
        rw [State.setVnode, count_update]
        by_cases same : j = ino
        · subst same
          have less : (v.dropped fs dirty).count = base.refs j + extra.count j := by
            change v.count - 1 = _
            omega
          rw [hc, Function.update_self, if_pos rfl, ← less]
          rfl
        · rw [hc, Function.update_of_ne same, ← Multiset.count_cons_of_ne same extra, ← refs.counted j, if_neg same]
      have kept := counts_keptByInode c base.handles
      split at run
      · next last =>
        obtain ⟨rt, t, dead, run⟩ := Prog.bind_eq_done.mp run
        obtain ⟨-, rfl⟩ := Prog.pure_eq_done.mp run
        obtain ⟨counted, handles⟩ := (lastPut_kept kept ino (v.dropped fs dirty) dirty).after dead ⟨dropped, refs.handles⟩
        refine ⟨fun j => ?_, handles⟩
        dsimp only
        rw [count_update]
        by_cases same : j = ino
        · subst same
          rw [if_pos rfl, countOf, if_pos (by omega)]
          rfl
        · have other := counted j
          rw [hc, Function.update_of_ne same] at other
          rw [← other, if_neg same]
      · next more =>
        obtain ⟨counted, handles⟩ : (∀ j, (s'.vnodes j).map Vnode.count = c j) ∧
            ∀ fh, (s'.files fh).map UfsFile.ino = base.handles fh := by
          split at run
          · exact (ufsWriteInode_kept (kept ino).toStore).after run ⟨dropped, refs.handles⟩
          · obtain ⟨-, rfl⟩ := Prog.pure_eq_done.mp run
            exact ⟨dropped, refs.handles⟩
        refine ⟨fun j => ?_, handles⟩
        rw [counted j, hc]
        by_cases same : j = ino
        · subst same
          rw [Function.update_self, countOf, if_neg (by omega)]
        · rw [Function.update_of_ne same]

/-! ## Programs that give back what they take -/

/-- Whatever a run returns, it has given these references back, and kept no other. -/
def Drops {α : Type} (m : Multiset Nat) (x : M α) : Prop :=
  ∀ base extra s a s', x s = .done a s' → Refs base (m + extra) s → Refs base extra s'

section

variable {α β : Type} {m : Multiset Nat}

theorem Drops.after {x : M α} {a : α} (drops : Drops 0 x) (run : x s = .done a s') (refs : Refs base extra s) :
    Refs base extra s' :=
  drops base extra s a s' run (by rwa [Multiset.zero_add])

theorem Drops.keeps {x : M α} (kept : ∀ base extra, Keeps (Refs base extra) x) : Drops 0 x := by
  intro base extra s a s' run refs
  rw [Multiset.zero_add] at refs
  exact (kept base extra).after run refs

theorem Drops.pure (a : α) : Drops 0 (Pure.pure a : M α) := .keeps fun _ _ => .pure a

theorem Drops.get : Drops 0 (Prog.get : M State) := .keeps fun _ _ => .get

theorem Drops.halt : Drops m (Prog.halt : M α) := by
  intro base extra s a s' run
  cases run

theorem Drops.bind {x : M α} {f : α → M β} (first : Drops 0 x) (rest : ∀ a, Drops m (f a)) : Drops m (x >>= f) := by
  intro base extra s b s'' run refs
  obtain ⟨a, s', ran, run⟩ := Prog.bind_eq_done.mp run
  exact rest a base extra s' b s'' run (first.after ran refs)

theorem Drops.ite {c : Prop} [Decidable c] {x y : M α} (yes : c → Drops m x) (no : ¬ c → Drops m y) :
    Drops m (if c then x else y) := by
  by_cases h : c
  · rw [if_pos h]
    exact yes h
  · rw [if_neg h]
    exact no h

/-- A reference is taken for the rest of the program. -/
theorem Drops.took {x : M β} {ino : Nat} (rest : Drops (ino ::ₘ m) x) : Drops m (vnodeGet env fs ino >>= fun _ => x) := by
  intro base extra s b s₂ run refs
  obtain ⟨⟨⟩, s₁, got, run⟩ := Prog.bind_eq_done.mp run
  refine rest base extra s₁ b s₂ run ?_
  rw [Multiset.cons_add]
  exact vnodeGet_refs got refs

/-- A reference is given back first. -/
theorem Drops.put {f : Int → M β} {ino : Nat} (dirty : Bool) (rest : ∀ r, Drops m (f r)) :
    Drops (ino ::ₘ m) (vnodePut env fs ino dirty >>= f) := by
  intro base extra s b s₂ run refs
  obtain ⟨r, s₁, put, run⟩ := Prog.bind_eq_done.mp run
  rw [Multiset.cons_add] at refs
  exact rest r base extra s₁ b s₂ run (vnodePut_refs put refs)

end

theorem updateInode_balanced (ino : Nat) (change : Inode → Inode) : Drops 0 (updateInode ino change) :=
  .keeps fun base extra => updateInode_kept (refs_keptByInode base extra ino).toKeptByFile change

theorem vnode2inode_balanced (ino : Nat) : Drops 0 (vnode2inode ino) := .keeps fun _ _ => vnode2inode_kept ino

/-! ## Directories and paths -/

theorem ufsDirIterate_balanced {σ : Type} (dir : Nat) (func : DirProc σ) (priv : σ) :
    Drops 0 (ufsDirIterate env fs dir func priv) :=
  .took (.bind (vnode2inode_balanced dir) fun _ => .bind (.keeps fun base extra =>
    dirBlocks_kept (refs_keptByInode base extra) func dir _ _ _ _ _) fun _ => .put false fun _ => .pure _)

theorem ufsDirAppend_balanced (dir ino flags : Nat) (name : List Byte) :
    Drops 0 (ufsDirAppend env fs dir ino flags name) :=
  .took (.bind (.keeps fun base extra => appendBody_kept (refs_keptByInode base extra) dir ino flags name) fun _ =>
    .put true fun _ => .pure _)

theorem ufsAddnamedir_balanced (dir : Nat) (name : List Byte) (ino flags : Nat) :
    Drops 0 (ufsAddnamedir env fs dir name ino flags) :=
  .bind .get fun _ => .ite (fun _ => .pure _) fun _ => .bind (ufsDirIterate_balanced _ _ _) fun _ =>
    .ite (fun _ => .pure _) fun _ => .ite (fun _ => .pure _) fun _ =>
      .bind (ufsDirAppend_balanced _ _ _ _) fun _ => .ite (fun _ => .pure _) fun _ => .pure _

theorem ufsLink_balanced (dir : Nat) (name : List Byte) (vnode mode : Nat) :
    Drops 0 (ufsLink env fs dir name vnode mode) :=
  .bind (vnode2inode_balanced _) fun _ => .ite (fun _ => .pure _) fun _ =>
    .bind (updateInode_balanced _ _) fun _ => .bind (ufsAddnamedir_balanced _ _ _ _) fun _ =>
      .ite (fun _ => .bind (updateInode_balanced _ _) fun _ => .pure _) fun _ => .pure _

theorem ufsUnlink_balanced (dir : Nat) (name : List Byte) (ino : Nat) : Drops 0 (ufsUnlink env fs dir name ino) :=
  .bind .get fun _ => .ite (fun _ => .pure _) fun _ => .bind (ufsDirIterate_balanced _ _ _) fun _ => .pure _

theorem doCheckEmptyDir_balanced (ino : Nat) : Drops 0 (doCheckEmptyDir env fs ino) :=
  .bind (ufsDirIterate_balanced _ _ _) fun _ => .ite (fun _ => .pure _) fun _ => .ite (fun _ => .pure _) fun _ => .pure _

theorem doFixDotdot_balanced (ino dotdot : Nat) : Drops 0 (doFixDotdot env fs ino dotdot) :=
  .bind (ufsDirIterate_balanced _ _ _) fun _ => .ite (fun _ => .pure _) fun _ => .pure _

theorem ufsLookup_balanced (dir : Nat) (name : List Byte) : Drops 0 (ufsLookup env fs dir name) :=
  .bind (ufsDirIterate_balanced _ _ _) fun _ => .ite (fun _ => .pure _) fun _ => .pure _

theorem nameiWalk_balanced : ∀ (rest : List (List Byte)) (dir : Nat) (name : List Byte),
    Drops 0 (nameiWalk env fs dir name rest)
  | [], _, _ => .pure _
  | next :: rest, dir, name => .bind (ufsLookup_balanced dir name) fun _ =>
      .ite (fun _ => .pure _) fun _ => nameiWalk_balanced rest _ next

theorem ufsNamei_balanced (path : List Byte) : Drops 0 (ufsNamei env fs rootino rootino path) := by
  unfold ufsNamei ufsOpenNamei
  rw [ufsDirNamei_root]
  exact .bind (nameiWalk_balanced _ _ _) fun _ => .ite (fun _ => .pure _) fun _ => .ite (fun _ => .pure _) fun _ =>
    .bind (ufsLookup_balanced _ _) fun _ => .ite (fun _ => .pure _) fun _ => .pure _

/-- A path that is found leaves a reference to its inode. -/
theorem doReadvnode_refs {path : List Byte} {r : Int × Nat} (run : doReadvnode env fs path s = .done r s')
    (refs : Refs base extra s) : Refs base (if r.1 = 0 then r.2 ::ₘ extra else extra) s' := by
  obtain ⟨⟨rc, i⟩, s₁, found, run⟩ := Prog.bind_eq_done.mp run
  have looked := (ufsNamei_balanced path).after found refs
  dsimp only at run
  split at run
  · obtain ⟨rfl, rfl⟩ := Prog.pure_eq_done.mp run
    rw [if_neg (by decide)]
    exact looked
  · obtain ⟨⟨⟩, s₂, got, run⟩ := Prog.bind_eq_done.mp run
    obtain ⟨rfl, rfl⟩ := Prog.pure_eq_done.mp run
    rw [if_pos rfl]
    exact vnodeGet_refs got looked

/-- A new inode comes with a reference. -/
theorem ufsValloc_refs {parent mode : Nat} {r : Int × Nat} (run : ufsValloc env fs parent mode s = .done r s')
    (refs : Refs base extra s) : Refs base (if r.1 = 0 then r.2 ::ₘ extra else extra) s' := by
  obtain ⟨pip, s₁, found, run⟩ := Prog.bind_eq_done.mp run
  have refs₁ := (vnode2inode_balanced parent).after found refs
  rw [Prog.get_bind_apply] at run
  split at run
  · obtain ⟨rfl, rfl⟩ := Prog.pure_eq_done.mp run
    rw [if_neg (by decide)]
    exact refs₁
  · obtain ⟨⟨⟩, s₂, counted, run⟩ := Prog.bind_eq_done.mp run
    have refs₂ : Refs base extra s₂ := by
      cases counted
      exact ⟨refs₁.counted, refs₁.handles⟩
    obtain ⟨ino, s₃, hashed, run⟩ := Prog.bind_eq_done.mp run
    have refs₃ := (ufsHashalloc_kept (ufsInodeAlloc_kept (refs_keptByInode base extra 0) mode) _ _).after hashed refs₂
    split at run
    · obtain ⟨rfl, rfl⟩ := Prog.pure_eq_done.mp run
      rw [if_neg (by decide)]
      exact refs₃
    · obtain ⟨⟨⟩, s₄, got, run⟩ := Prog.bind_eq_done.mp run
      have refs₄ := vnodeGet_refs got refs₃
      rw [Prog.get_bind_apply] at run
      obtain ⟨⟨⟩, s₅, renewed, run⟩ := Prog.bind_eq_done.mp run
      have refs₅ := (updateInode_balanced ino _).after renewed refs₄
      obtain ⟨ip, s₆, read, run⟩ := Prog.bind_eq_done.mp run
      have refs₆ := (vnode2inode_balanced ino).after read refs₅
      obtain ⟨rfl, rfl⟩ := Prog.pure_eq_done.mp run
      rw [if_pos rfl]
      exact ⟨refs₆.counted, refs₆.handles⟩

end Count

/-! ## Handles -/

section Files

variable {env : Env} {fs : Superblock} {s s' : State} {base : Tally} {extra m : Multiset Nat} {i ino : Nat}

theorem syncBufferPosition_ino (file : UfsFile) :
    Prog.Gives (fun r => r.2.ino = file.ino) (syncBufferPosition env fs file) := by
  unfold syncBufferPosition
  dsimp only
  split
  · refine .bind (ufsFileFlush_ino file) fun r same => ?_
    split
    · exact .pure same
    · exact .pure same
  · exact .pure rfl

theorem loadBuffer_ino (file : UfsFile) (dontfill : Bool) :
    Prog.Gives (fun r => r.2.ino = file.ino) (loadBuffer env fs file dontfill) := by
  unfold loadBuffer
  split
  · exact .pure rfl
  · refine .after fun r => .after fun inode => ?_
    dsimp only
    split
    · exact .pure rfl
    · split
      · exact .pure rfl
      · refine .bind (P := fun r => r.2.ino = file.ino) ?_ fun r same => .ite (fun _ => .pure same) fun _ => .pure same
        exact .ite (fun _ => .after fun _ => .pure rfl) fun _ => .pure rfl

theorem fileReadLoop_ino : ∀ left file wanted got,
    Prog.Gives (fun r => r.2.2.ino = file.ino) (fileReadLoop env fs left file wanted got)
  | 0, file, wanted, got => by
      rw [fileReadLoop]
      refine .after fun inode => ?_
      split
      · exact .halt
      · exact .pure rfl
  | left + 1, file, wanted, got => by
      rw [fileReadLoop]
      refine .after fun inode => ?_
      split
      · refine .bind (syncBufferPosition_ino file) fun r same => ?_
        refine .ite (fun _ => .pure same) fun _ => ?_
        · refine .bind (P := fun q => q.2.ino = file.ino) ?_ fun q same => ?_
          · intro t q t' run
            exact (loadBuffer_ino r.2 false t q t' run).trans same
          · dsimp only
            split
            · exact .pure same
            · intro t p t' run
              exact (fileReadLoop_ino left _ _ _ t p t' run).trans same
      · exact .pure rfl

theorem doRead_ino (file : UfsFile) (size offset : Nat) :
    Prog.Gives (fun r => r.2.2.ino = file.ino) (doRead env fs file size offset) := by
  exact .bind (fileReadLoop_ino _ { file with pos := offset } _ _) fun r same => .ite (fun _ => .pure same)
    fun _ => .pure same

theorem fileWriteLoop_ino (src : Buf) : ∀ left file nbytes count,
    Prog.Gives (fun r => r.2.2.ino = file.ino) (fileWriteLoop env fs src left file nbytes count)
  | 0, file, nbytes, count => by
      rw [fileWriteLoop]
      split
      · exact .halt
      · exact .pure rfl
  | left + 1, file, nbytes, count => by
      rw [fileWriteLoop]
      split
      · refine .bind (syncBufferPosition_ino file) fun r same => ?_
        refine .ite (fun _ => .pure same) fun _ => ?_
        · refine .bind (P := fun q => q.2.ino = file.ino) ?_ fun q same => ?_
          · intro t q t' run
            exact (loadBuffer_ino r.2 _ t q t' run).trans same
          · dsimp only
            split
            · exact .pure same
            · intro t p t' run
              exact (fileWriteLoop_ino src left _ _ _ t p t' run).trans same
      · exact .pure rfl

theorem ufsFileWrite_ino (file : UfsFile) (src : Buf) (nbytes : Nat) :
    Prog.Gives (fun r => r.2.2.ino = file.ino) (ufsFileWrite env fs file src nbytes) := by
  unfold ufsFileWrite
  split
  · exact .pure rfl
  · exact fileWriteLoop_ino src _ _ _ _

theorem doWriteLoop_ino (src : Buf) : ∀ left file size ptr wr,
    Prog.Gives (fun r => r.2.2.ino = file.ino) (doWriteLoop env fs src left file size ptr wr)
  | 0, file, size, ptr, wr => by
      rw [doWriteLoop]
      split
      · exact .halt
      · exact .pure rfl
  | left + 1, file, size, ptr, wr => by
      rw [doWriteLoop]
      split
      · refine .bind (ufsFileWrite_ino file _ _) fun r same => .ite (fun _ => .pure same) fun _ => ?_
        intro t p t' run
        exact (doWriteLoop_ino src left _ _ _ _ t p t' run).trans same
      · exact .pure rfl

theorem ufsFileSetSize_ino (file : UfsFile) (size : Nat) :
    Prog.Gives (fun r => r.2.ino = file.ino) (ufsFileSetSize env fs file size) :=
  .bind (ufsFileFlush_ino file) fun _ same => .after fun _ => .after fun _ => .after fun _ => .pure same

theorem doWrite_ino (file : UfsFile) (src : Buf) (size offset : Nat) :
    Prog.Gives (fun r => r.2.ino = file.ino) (doWrite env fs file src size offset) := by
  have grow : Prog.Gives (fun r => r.2.ino = file.ino) (doWriteGrow env fs file size offset) := by
    refine .after fun inode => ?_
    split
    · exact ufsFileSetSize_ino file _
    · exact .pure rfl
  refine .bind grow fun r same => .ite (fun _ => .pure same) fun _ => ?_
  · refine .bind (P := fun q => q.2.2.ino = file.ino) ?_ fun q same => ?_
    · intro t q t' run
      exact (doWriteLoop_ino src 3 { r.2 with pos := offset } size 0 0 t q t' run).trans same
    · refine .ite (fun _ => .pure same) fun _ => .bind (P := fun p => p.2.ino = file.ino) ?_ fun p same =>
        .ite (fun _ => .pure same) fun _ => .pure same
      intro t p t' run
      exact (ufsFileFlush_ino q.2.2 t p t' run).trans same

/-- A path that is found is worked on with a reference to its inode. -/
theorem Drops.found {β : Type} {path : List Byte} {f : Int × Nat → M β} (lost : ∀ rc x, rc ≠ 0 → Drops m (f (rc, x)))
    (rest : ∀ ino, Drops (ino ::ₘ m) (f (0, ino))) : Drops m (doReadvnode env fs path >>= f) := by
  intro base extra s b s₂ run refs
  obtain ⟨⟨rc, ino⟩, s₁, found, run⟩ := Prog.bind_eq_done.mp run
  have looked := doReadvnode_refs found refs
  by_cases good : rc = 0
  · subst good
    rw [if_pos rfl, ← Multiset.cons_add] at looked
    exact rest ino base extra s₁ b s₂ run looked
  · rw [if_neg good] at looked
    exact lost rc ino good base extra s₁ b s₂ run looked

theorem doOpen_refs {path : List Byte} {write : Bool} {file : Option UfsFile}
    (run : doOpen env fs path write s = .done file s') (refs : Refs base extra s) :
    Refs base (file.elim 0 (fun f => {f.ino}) + extra) s' := by
  obtain ⟨⟨rc, ino⟩, s₁, found, run⟩ := Prog.bind_eq_done.mp run
  have looked := doReadvnode_refs found refs
  dsimp only at run looked
  split at run
  · next lost =>
    obtain ⟨rfl, rfl⟩ := Prog.pure_eq_done.mp run
    rw [if_neg lost] at looked
    rw [Option.elim_none, Multiset.zero_add]
    exact looked
  · next good =>
    rw [if_pos (not_not.mp good)] at looked
    rw [Prog.get_bind_apply] at run
    split at run
    · obtain ⟨r, s₂, put, run⟩ := Prog.bind_eq_done.mp run
      obtain ⟨rfl, rfl⟩ := Prog.pure_eq_done.mp run
      rw [Option.elim_none, Multiset.zero_add]
      exact vnodePut_refs put looked
    · obtain ⟨rfl, rfl⟩ := Prog.pure_eq_done.mp run
      exact looked

/-- The reference of a handle goes with it. -/
theorem doRelease_drops (file : UfsFile) : Drops {file.ino} (doRelease env fs file) := by
  intro base extra s r s' run refs
  obtain ⟨rc, s₁, closed, run⟩ := Prog.bind_eq_done.mp run
  have same : s₁ = s' := by
    split at run
    · exact (Prog.pure_eq_done.mp run).2
    · exact (Prog.pure_eq_done.mp run).2
  subst same
  obtain ⟨⟨rc, f⟩, s₂, flushed, closed⟩ := Prog.bind_eq_done.mp closed
  have here : f.ino = file.ino := ufsFileFlush_ino file _ _ _ flushed
  have refs₂ := (ufsFileFlush_kept (fun i => (refs_keptByInode base ({file.ino} + extra) i).toStore) file).after flushed refs
  dsimp only at closed
  rw [Prog.get_bind_apply] at closed
  obtain ⟨p, s₃, put, closed⟩ := Prog.bind_eq_done.mp closed
  obtain ⟨-, rfl⟩ := Prog.pure_eq_done.mp closed
  rw [← here] at refs₂
  exact vnodePut_refs put refs₂

/-- Work on a file through a handle of its own. -/
theorem Drops.opened {β : Type} {path : List Byte} {write : Bool} {f : Option UfsFile → M β} (none : Drops m (f none))
    (rest : ∀ file, Drops (file.ino ::ₘ m) (f (some file))) : Drops m (doOpen env fs path write >>= f) := by
  intro base extra s b s₂ run refs
  obtain ⟨file, s₁, opened, run⟩ := Prog.bind_eq_done.mp run
  have refs₁ := doOpen_refs opened refs
  cases file with
  | none =>
      rw [Option.elim_none, Multiset.zero_add] at refs₁
      exact none base extra s₁ b s₂ run refs₁
  | some file =>
      refine rest file base extra s₁ b s₂ run ?_
      rw [Multiset.cons_add, ← Multiset.singleton_add]
      exact refs₁

theorem opTruncate_balanced (path : List Byte) (length : Nat) : Drops 0 (opTruncate env fs path length) := by
  refine .ite (fun _ => .pure _) fun _ => .opened (.pure _) fun file => ?_
  intro base extra s r s' run refs
  obtain ⟨⟨rc, f⟩, s₁, sized, run⟩ := Prog.bind_eq_done.mp run
  have same : f.ino = file.ino := ufsFileSetSize_ino file length _ _ _ sized
  have refs₁ := (ufsFileSetSize_kept (refs_keptByInode base _) file length).after sized refs
  obtain ⟨released, s₂, release, run⟩ := Prog.bind_eq_done.mp run
  rw [Multiset.cons_add, Multiset.zero_add, ← Multiset.singleton_add, ← same] at refs₁
  have refs₂ := doRelease_drops f base extra s₁ _ s₂ release refs₁
  split at run
  · obtain ⟨-, rfl⟩ := Prog.pure_eq_done.mp run
    exact refs₂
  · obtain ⟨-, rfl⟩ := Prog.pure_eq_done.mp run
    exact refs₂

/-- A handle that is worked on stays a handle of its inode. -/
theorem withFile_balanced {α : Type} (fh : Nat) {use : UfsFile → M (α × UfsFile)} (kept : ∀ file, Drops 0 (use file))
    (same : ∀ file, Prog.Gives (fun r => r.2.ino = file.ino) (use file)) : Drops 0 (withFile fh use) := by
  intro base extra s a s' run refs
  unfold withFile at run
  rw [Prog.get_bind_apply] at run
  cases here : s.files fh with
  | none =>
      rw [here] at run
      cases run
  | some file =>
      rw [here] at run
      obtain ⟨⟨b, f⟩, s₁, used, run⟩ := Prog.bind_eq_done.mp run
      dsimp only at run
      rw [Prog.modify_bind_apply] at run
      obtain ⟨-, rfl⟩ := Prog.pure_eq_done.mp run
      have refs₁ := kept file base extra s (b, f) s₁ used refs
      rw [Multiset.zero_add] at refs
      refine ⟨refs₁.counted, fun i => ?_⟩
      dsimp only
      by_cases this : i = fh
      · subst this
        rw [Function.update_self, ← refs.handles i, here]
        exact congrArg some (same file s _ s₁ used)
      · rw [Function.update_of_ne this]
        exact refs₁.handles i

theorem changeAttr_balanced (path : List Byte) (change : Inode → Inode) : Drops 0 (changeAttr env fs path change) :=
  .found (fun rc x lost => .ite (fun _ => .pure _) fun good => absurd lost good) fun ino => .ite (fun lost => absurd rfl lost) fun _ =>
    .bind (updateInode_balanced ino change) fun _ => .put true fun r => .ite (fun _ => .pure _) fun _ => .pure _

theorem opFgetattr_balanced (path : List Byte) : Drops 0 (opFgetattr env fs path) :=
  .found (fun rc x lost => .ite (fun _ => .pure _) fun good => absurd lost good) fun ino => .ite (fun lost => absurd rfl lost) fun _ =>
    .bind (vnode2inode_balanced ino) fun _ => .put false fun _ => .pure _

theorem opReadlink_balanced (path : List Byte) (size : Nat) : Drops 0 (opReadlink env fs path size) :=
  .found (fun rc x lost => .ite (fun _ => .pure _) fun good => absurd lost good) fun ino => .ite (fun lost => absurd rfl lost) fun _ =>
    .bind (vnode2inode_balanced ino) fun inode =>
      .bind (.keeps fun base extra => readlinkTarget_kept (refs_keptByInode base extra) size inode ino) fun _ =>
        .put false fun _ => .pure _

theorem opReaddir_balanced {ρ : Type} (path : List Byte) (filler : ρ → List Byte → Nat → Int × ρ) (r : ρ) :
    Drops 0 (opReaddir env fs path filler r) :=
  .found (fun rc x lost => .ite (fun _ => .pure _) fun good => absurd lost good) fun ino => .ite (fun lost => absurd rfl lost) fun _ =>
    .bind (ufsDirIterate_balanced ino _ r) fun _ => .put false fun _ => .pure _

theorem opLink_balanced (source dest : List Byte) : Drops 0 (opLink env fs source dest) := by
  refine .bind .get fun _ => .ite (fun _ => .pure _) fun _ => .ite (fun _ => .pure _) fun _ => ?_
  cases doCheckSplit dest with
  | error rc => exact .pure _
  | ok halves =>
      refine .found (fun rc x lost => .ite (fun _ => .pure _) fun good => absurd lost good) fun dIno => .ite (fun lost => absurd rfl lost) fun _ => ?_
      refine .put false fun _ => .found (fun rc x lost => .ite (fun _ => .pure _) fun good => absurd lost good) fun ino => .ite (fun lost => absurd rfl lost) fun _ => ?_
      refine .bind (vnode2inode_balanced ino) fun inode => .bind (ufsLink_balanced _ _ _ _) fun rc => .ite (fun _ => ?_)
        fun _ => .bind (updateInode_balanced ino _) fun _ => ?_
      · exact .put false fun _ => .pure _
      · exact .put true fun _ => .ite (fun _ => .pure _) fun _ => .pure _

theorem rmdirBody_balanced (rPath : List Byte) (p r : Nat) : Drops 0 (rmdirBody env fs rPath p r) :=
  .bind (vnode2inode_balanced r) fun _ => .ite (fun _ => .pure _) fun _ => .ite (fun _ => .pure _) fun _ =>
    .bind (doCheckEmptyDir_balanced r) fun _ => .ite (fun _ => .pure _) fun _ => .bind (ufsUnlink_balanced _ _ _) fun _ =>
      .ite (fun _ => .pure _) fun _ => .bind (updateInode_balanced r _) fun _ => .bind (updateInode_balanced p _) fun _ =>
        .pure _

theorem opRmdir_balanced (path : List Byte) : Drops 0 (opRmdir env fs path) := by
  unfold opRmdir
  cases doCheckSplit path with
  | error rc => exact .pure _
  | ok halves =>
      refine .found (fun rc x lost => .ite (fun _ => .pure _) fun good => absurd lost good) fun p => .ite (fun lost => absurd rfl lost) fun _ => ?_
      refine .found (fun rc x lost => .ite (fun _ => .put false fun _ => .pure _) fun good => absurd lost good) fun r =>
        .ite (fun lost => absurd rfl lost) fun _ => ?_
      · rw [Multiset.cons_swap]
        exact .bind (rmdirBody_balanced _ p r) fun _ => .put true fun _ => .put true fun _ => .pure _

theorem sbwrite_balanced (all : Bool) : Drops 0 (sbwrite env fs all) := by
  have tried : Drops 0 (tryWrite env) := .keeps fun base extra => tryWrite_kept (refs_keptByInode base extra 0).toKeptByGroups
  have copies : ∀ left, Drops 0 (altSuperblocks env left) := by
    intro left
    induction left with
    | zero => exact .pure _
    | succ left ih => exact .bind tried fun _ => .ite (fun _ => ih) fun _ => .pure _
  exact .bind tried fun _ => .ite
    (fun _ => .bind (.keeps fun _ _ => .modify fun _ h => ⟨h.counted, h.handles⟩) fun _ => .ite (fun _ => copies _) fun _ => .pure _)
    fun _ => .pure _

theorem opFsync_balanced : Drops 0 (opFsync env fs) :=
  .bind .get fun _ => .ite (fun _ => .pure _) fun _ => .bind (sbwrite_balanced true) fun _ =>
    .ite (fun _ => .pure _) fun _ => .pure _

end Files

end FuseUfs
