import FuseUfs.Balance

/-! # Open handles

Some callbacks lose references, so that vnodes stay in core longer than they should. No callback gives
back a reference that it has not taken: however the calls are mixed, and whatever they return, the vnode
behind an open handle is in core, with a reference for every handle of its inode.
-/

namespace FuseUfs

open Lib Prog

/-- Runs of callbacks from the mount on. A new handle is not null, and is put where none is. -/
inductive CallbackRun (env : Env) (fs : Superblock) : State → Prop
  | mount {s s' : State} {readonly : Bool} (run : opInit env fs readonly s = .done () s') : CallbackRun env fs s'
  | call {s s' : State} {c : Callback} {r : Int} (before : CallbackRun env fs s)
      (new : ∀ fh, c.newHandle = some fh → fh ≠ 0 ∧ s.files fh = none) (run : c.run env fs s = .done r s') :
      CallbackRun env fs s'

/-- Every vnode in core is referenced, at least once for each of the handles of its inode. -/
structure Covered (s : State) : Prop where
  held : Held s
  finite : ∀ i, (s.handlesOn i).Finite
  covered : ∀ i, (s.handlesOn i).ncard ≤ s.refs i

variable {env : Env} {fs : Superblock} {s s' : State}

/-- A call takes back no more than the handle that it releases. -/
theorem Booked.covered {c : Callback} {r : Int} {leak : Multiset Nat} (booked : Booked c s r s' leak) (ok : Covered s)
    (new : ∀ fh, c.newHandle = some fh → s.files fh = none) : Covered s' := by
  refine ⟨booked.held, fun i => (booked.handles new i (ok.finite i)).1, fun i => ?_⟩
  have counts := booked.counts i
  have handles := (booked.handles new i (ok.finite i)).2
  have before := ok.covered i
  omega

theorem callbackRun_covered (run : CallbackRun env fs s) : Covered s := by
  induction run with
  | mount run =>
      have mounted := opInit_accounted run
      exact ⟨mounted.held, mounted.finite, fun i => (mounted.counted i).ge⟩
  | call before new run ih =>
      obtain ⟨leak, -, booked⟩ := callback_booked ih.held run
      exact booked.covered ih fun fh put => (new fh put).2

/-- The vnode behind an open handle is in core, and no other handle of its inode can take its reference away. -/
theorem callbackRun_handles (run : CallbackRun env fs s) {fh : Nat} {file : UfsFile} (there : s.files fh = some file) :
    ∃ v, s.vnodes file.ino = some v ∧ 0 < (s.handlesOn file.ino).ncard ∧ (s.handlesOn file.ino).ncard ≤ v.count := by
  obtain ⟨-, finite, covered⟩ := callbackRun_covered run
  have mine : fh ∈ s.handlesOn file.ino := by
    change (s.files fh).map UfsFile.ino = some file.ino
    rw [there]
    rfl
  have some := (Set.ncard_pos (finite file.ino)).mpr ⟨fh, mine⟩
  have enough := covered file.ino
  cases here : s.vnodes file.ino with
  | none =>
      have out : s.refs file.ino = 0 := by rw [State.refs, here]; rfl
      omega
  | some v =>
      have refs : s.refs file.ino = v.count := by rw [State.refs, here]; rfl
      exact ⟨v, rfl, some, refs ▸ enough⟩

/-- The root directory, opened after the mount. -/
theorem callbackRun_handles_root : ∃ s file v, CallbackRun calmEnv smallFs s ∧ s.files 1 = some file ∧
    s.vnodes file.ino = some v ∧ 0 < v.count := by
  have runs : ∃ s₁ s₂ file, opInit calmEnv smallFs false bareRoot = .done () s₁ ∧ s₁.files 1 = none ∧
      (Callback.openFile [slash] false 1).run calmEnv smallFs s₁ = .done 0 s₂ ∧ s₂.files 1 = some file :=
    ⟨_, _, _, rfl, rfl, rfl, rfl⟩
  obtain ⟨s₁, s₂, file, mounted, free, opened, there⟩ := runs
  have run : CallbackRun calmEnv smallFs s₂ := by
    refine .call (.mount mounted) (fun fh new => ?_) opened
    obtain rfl : 1 = fh := Option.some.inj new
    exact ⟨by decide, free⟩
  obtain ⟨v, vnode, some, enough⟩ := callbackRun_handles run there
  exact ⟨s₂, file, v, run, there, vnode, Nat.lt_of_lt_of_le some enough⟩

end FuseUfs
