import FuseUfs.DirHold
import FuseUfs.Path

/-! # Looking up a path

A look-up walks over one directory after the other, and each walk takes a reference to its
directory and gives it back. As long as every directory on the way has a link, nothing changes but
the copy of an inode block in memory and the tick of the device.
-/

namespace FuseUfs

open Lib Prog

variable {env : Env} {fs : Superblock} {s s' : State}

/-- Nothing has changed but what transfers of inode blocks leave in memory. -/
structure Looked (fs : Superblock) (s s' : State) : Prop where
  frame : s' = { s with
    tick := s'.tick, log := s'.log, dInoblock := s'.dInoblock, dInomin := s'.dInomin, dInomax := s'.dInomax }
  cache : InoCache fs s'

theorem Looked.trans {s'' : State} (first : Looked fs s s') (second : Looked fs s' s'') : Looked fs s s'' := by
  refine ⟨?_, second.cache⟩
  have frame := second.frame
  rw [first.frame] at frame
  exact frame

theorem Looked.inCore (looked : Looked fs s s') (i : Nat) : s'.inCore i = s.inCore i := by
  rw [looked.frame]
  rfl

theorem Looked.vnodes (looked : Looked fs s s') : s'.vnodes = s.vnodes := by
  rw [looked.frame]

/-! ## One directory -/

section Walk

variable {σ : Type} {func : DirProc σ}

theorem ufsBmap_reads {ino fbn : Nat} {r : Int × Nat} {v : Vnode} (there : s.vnodes ino = some v)
    (run : ufsBmap env fs ino fbn s = .done r s') : ∃ t, s' = s.atTick t := by
  rcases ufsBmap_cases env there fbn with ⟨rc, a, t, ran, -⟩ | ⟨-, t, ran⟩ | ⟨-, t, ran⟩
  · rw [ran] at run
    cases run
    exact ⟨t, rfl⟩
  · rw [ran] at run
    cases run
    exact ⟨t, rfl⟩
  · rw [ran] at run
    cases run

theorem blkread_reads {bno size : Nat} {buf : Buf} {r : Int × Buf} (run : blkread env fs bno buf size s = .done r s') :
    s' = s.atTick (s.tick + 1) := by
  unfold blkread at run
  rw [Prog.bind_of_done (rfl : tryRead env s = .done (env.readOk s.tick) (s.atTick (s.tick + 1))),
    Prog.get_bind_apply] at run
  split at run
  · exact (Prog.pure_eq_done.mp run).2.symm
  · exact (Prog.pure_eq_done.mp run).2.symm

/-- A procedure that does not write leaves the state alone. -/
theorem dirRecords_reads (quiet : Quiet func) {dirSize blkno : Nat} {pos blksize : Int} :
    ∀ left offset (w : Walk σ) {w' : Walk σ},
      dirRecords env fs func dirSize pos blkno blksize left offset w s = .done w' s' → s' = s := by
  intro left
  induction left with
  | zero =>
      intro offset w w' run
      rw [dirRecords] at run
      split at run
      · cases run
      · exact (Prog.pure_eq_done.mp run).2.symm
  | succ left ih =>
      intro offset w w' run
      rw [dirRecords] at run
      split at run
      · rcases called : func w.buf offset w.priv with _ | ⟨ret, buf, priv⟩
        · rw [called] at run
          cases run
        · rw [called] at run
          simp only [writeChanged, quiet _ _ _ _ _ _ called, Bool.false_eq_true, if_false] at run
          obtain ⟨rc, t, none, run⟩ := Prog.bind_eq_done.mp run
          obtain ⟨rfl, rfl⟩ := Prog.pure_eq_done.mp none
          split at run
          · exact (Prog.pure_eq_done.mp run).2.symm
          · split at run
            · exact (Prog.pure_eq_done.mp run).2.symm
            · exact ih _ _ run
      · exact (Prog.pure_eq_done.mp run).2.symm

theorem dirBlocks_reads (quiet : Quiet func) {dir dirSize : Nat} {v : Vnode} :
    ∀ left i pos (w : Walk σ) (s : State) {w' : Walk σ}, s.vnodes dir = some v →
      dirBlocks env fs func dir dirSize left i pos w s = .done w' s' → ∃ t, s' = s.atTick t := by
  intro left
  induction left with
  | zero =>
      intro i pos w s w' there run
      exact ⟨s.tick, (Prog.pure_eq_done.mp run).2.symm⟩
  | succ left ih =>
      intro i pos w s w' there run
      rw [dirBlocks] at run
      split at run
      · cases run
      · obtain ⟨⟨rc, blkno⟩, s₁, mapped, run⟩ := Prog.bind_eq_done.mp run
        obtain ⟨t, rfl⟩ := ufsBmap_reads there mapped
        dsimp only at run
        split at run
        · exact ⟨t, (Prog.pure_eq_done.mp run).2.symm⟩
        · rw [Prog.bind_of_done (vnode2inode_ok (show (s.atTick t).vnodes dir = some v from there))] at run
          obtain ⟨⟨rc, buf⟩, s₂, read, run⟩ := Prog.bind_eq_done.mp run
          obtain rfl := blkread_reads read
          dsimp only at run
          split at run
          · exact ⟨_, (Prog.pure_eq_done.mp run).2.symm⟩
          · obtain ⟨w₁, s₃, walked, run⟩ := Prog.bind_eq_done.mp run
            obtain rfl := dirRecords_reads quiet _ _ _ walked
            split at run
            · exact ⟨_, (Prog.pure_eq_done.mp run).2.symm⟩
            · obtain ⟨t', rfl⟩ := ih _ _ _ ((s.atTick t).atTick (t + 1)) there run
              exact ⟨t', rfl⟩

end Walk

/-- A directory can be got and given back: it has a number, and a link or another reference. -/
structure Lookable (s : State) (dir : Nat) : Prop where
  numbered : dir ≠ 0
  held : ∀ v, s.vnodes dir = some v → 0 < v.count
  linked : 0 < (s.inCore dir).inode.iNlink ∨ 0 < (s.inCore dir).count

/-- Giving the reference back leaves the vnodes as they were before it was taken. -/
theorem vnodePut_returns (env : Env) (fs : Superblock) {dir : Nat} (ok : Lookable s dir) {t : State}
    (vnodes : t.vnodes = Function.update s.vnodes dir (some ⟨(s.inCore dir).inode, (s.inCore dir).count + 1⟩)) :
    vnodePut env fs dir false t = .done 0 { t with vnodes := s.vnodes } := by
  set v : Vnode := ⟨(s.inCore dir).inode, (s.inCore dir).count + 1⟩ with hv
  have there : t.vnodes dir = some v := by rw [vnodes, Function.update_self]
  have dropped : v.dropped fs false = s.inCore dir := rfl
  unfold vnodePut
  rw [Prog.get_bind_apply, there]
  simp only [Prog.modify_bind_apply, dropped]
  by_cases last : (s.inCore dir).count = 0
  · have alive : ¬ (s.inCore dir).inode.iNlink < 1 := by
      have := ok.linked
      omega
    have out : s.vnodes dir = none := by
      cases here : s.vnodes dir with
      | none => rfl
      | some w =>
          have used := ok.held w here
          have found : s.inCore dir = w := by rw [State.inCore, here]; rfl
          rw [found] at last
          omega
    have back : Function.update (t.setVnode dir (s.inCore dir)).vnodes dir none = s.vnodes := by
      rw [State.setVnode, vnodes, Function.update_idem, Function.update_idem, ← out, Function.update_eq_self]
    rw [if_pos (show v.count - 1 = 0 from last), lastPut, if_neg alive, if_neg (by decide), ← back]
    rfl
  · have here : s.vnodes dir = some (s.inCore dir) := by
      unfold State.inCore at last ⊢
      cases found : s.vnodes dir with
      | none =>
          rw [found] at last
          exact absurd rfl last
      | some w => rfl
    have back : (t.setVnode dir (s.inCore dir)).vnodes = s.vnodes := by
      rw [State.setVnode, vnodes, Function.update_idem, ← here, Function.update_eq_self]
    rw [if_neg (show ¬ v.count - 1 = 0 from last), if_neg (by decide), ← back]
    rfl

theorem ufsDirIterate_looked (io : env.InoOk) (cache : InoCache fs s) {σ : Type} {func : DirProc σ}
    (quiet : Quiet func) {dir : Nat} (ok : Lookable s dir) {priv : σ} {r : Int × σ}
    (run : ufsDirIterate env fs dir func priv s = .done r s') : Looked fs s s' := by
  obtain ⟨t, l, b, lo, hi, got, cached⟩ := vnodeGet_ok io cache ok.numbered
  rw [ufsDirIterate_start got (Function.update_self ..)] at run
  obtain ⟨w, s₁, walked, run⟩ := Prog.bind_eq_done.mp run
  obtain ⟨t', rfl⟩ := dirBlocks_reads quiet _ _ _ _ _ (Function.update_self ..) walked
  rw [Prog.bind_of_done (vnodePut_returns env fs ok rfl)] at run
  obtain ⟨-, rfl⟩ := Prog.pure_eq_done.mp run
  exact ⟨rfl, cached.aligned, cached.same⟩

theorem ufsLookup_looked (io : env.InoOk) (cache : InoCache fs s) {dir : Nat} (ok : Lookable s dir) {name : List Byte}
    {r : Int × Nat} (run : ufsLookup env fs dir name s = .done r s') :
    Looked fs s s' ∧ (r.1 = 0 → r.2 ≠ 0) := by
  unfold ufsLookup at run
  obtain ⟨⟨rc, ino⟩, s₁, walked, run⟩ := Prog.bind_eq_done.mp run
  have looked := ufsDirIterate_looked io cache (lookupProc_quiet name) ok walked
  dsimp only at run
  split at run
  · next failed =>
    obtain ⟨rfl, rfl⟩ := Prog.pure_eq_done.mp run
    exact ⟨looked, fun fine => absurd fine failed⟩
  · obtain ⟨rfl, rfl⟩ := Prog.pure_eq_done.mp run
    refine ⟨looked, fun fine missing => ?_⟩
    dsimp only at fine missing
    rw [if_neg (by simp [missing])] at fine
    exact absurd fine (by decide)

/-! ## A whole path -/

/-- The directories that a look-up walks over. -/
inductive Visits (env : Env) (fs : Superblock) : State → Nat → List Byte → List (List Byte) → Nat → Prop
  | here {s : State} {dir : Nat} {name : List Byte} {rest : List (List Byte)} : Visits env fs s dir name rest dir
  | next {s s' : State} {dir ino d : Nat} {name next : List Byte} {rest : List (List Byte)}
      (step : ufsLookup env fs dir name s = .done (0, ino) s') (later : Visits env fs s' ino next rest d) :
      Visits env fs s dir name (next :: rest) d

theorem nameiWalk_looked (io : env.InoOk) : ∀ (rest : List (List Byte)) (s : State) (dir : Nat) (name : List Byte)
    {r : Int × List Byte × Nat}, InoCache fs s → (∀ d, Visits env fs s dir name rest d → Lookable s d) →
      nameiWalk env fs dir name rest s = .done r s' → Looked fs s s' ∧ Lookable s r.2.2 := by
  intro rest
  induction rest with
  | nil =>
      intro s dir name r cache ok run
      obtain ⟨rfl, rfl⟩ := Prog.pure_eq_done.mp run
      exact ⟨⟨rfl, cache⟩, ok dir .here⟩
  | cons next rest ih =>
      intro s dir name r cache ok run
      rw [nameiWalk] at run
      obtain ⟨⟨rc, ino⟩, s₁, step, run⟩ := Prog.bind_eq_done.mp run
      obtain ⟨looked, -⟩ := ufsLookup_looked io cache (ok dir .here) step
      dsimp only at run
      split at run
      · obtain ⟨rfl, rfl⟩ := Prog.pure_eq_done.mp run
        exact ⟨looked, ok dir .here⟩
      · next found =>
        obtain rfl := not_not.mp found
        obtain ⟨later, last⟩ := ih s₁ ino next looked.cache (fun d visits => by
          obtain ⟨numbered, held, linked⟩ := ok d (.next step visits)
          rw [← looked.inCore d] at linked
          rw [← looked.vnodes] at held
          exact ⟨numbered, held, linked⟩) run
        refine ⟨looked.trans later, ?_⟩
        obtain ⟨numbered, held, linked⟩ := last
        rw [looked.inCore] at linked
        rw [looked.vnodes] at held
        exact ⟨numbered, held, linked⟩

/-- The components that the look-up of a path starts with, and the rest of them. -/
def pathNames (path : List Byte) : List Byte × List (List Byte) :=
  match path with
  | [] => ([], [])
  | c :: rest => if c = slash then components rest else components (c :: rest)

theorem ufsDirNamei_root (env : Env) (fs : Superblock) (root : Nat) (path : List Byte) :
    ufsDirNamei env fs root root path = nameiWalk env fs root (pathNames path).1 (pathNames path).2 := by
  cases path with
  | nil => rfl
  | cons c rest =>
      by_cases root : c = slash
      · simp only [ufsDirNamei, pathNames, if_pos root]
      · simp only [ufsDirNamei, pathNames, if_neg root]

/-- Every directory that the look-up of a path walks over can be got and given back. -/
def Walkable (env : Env) (fs : Superblock) (s : State) (path : List Byte) : Prop :=
  ∀ d, Visits env fs s rootino (pathNames path).1 (pathNames path).2 d → Lookable s d

theorem ufsNamei_looked (io : env.InoOk) (cache : InoCache fs s) {path : List Byte} (ok : Walkable env fs s path)
    {r : Int × Nat} (run : ufsNamei env fs rootino rootino path s = .done r s') : Looked fs s s' := by
  unfold ufsNamei ufsOpenNamei at run
  rw [ufsDirNamei_root] at run
  obtain ⟨⟨rc, name, dir⟩, s₁, walked, run⟩ := Prog.bind_eq_done.mp run
  obtain ⟨looked, last⟩ := nameiWalk_looked io _ s rootino _ cache ok walked
  have last : Lookable s₁ dir := by
    obtain ⟨numbered, held, linked⟩ := last
    rw [← looked.inCore] at linked
    rw [← looked.vnodes] at held
    exact ⟨numbered, held, linked⟩
  dsimp only at run
  split at run
  · obtain ⟨-, rfl⟩ := Prog.pure_eq_done.mp run
    exact looked
  · split at run
    · obtain ⟨-, rfl⟩ := Prog.pure_eq_done.mp run
      exact looked
    · obtain ⟨⟨rc, ino⟩, s₂, step, run⟩ := Prog.bind_eq_done.mp run
      have both := looked.trans (ufsLookup_looked io looked.cache last step).1
      dsimp only at run
      split at run
      · obtain ⟨-, rfl⟩ := Prog.pure_eq_done.mp run
        exact both
      · obtain ⟨-, rfl⟩ := Prog.pure_eq_done.mp run
        exact both

/-- A path that is found: its inode has one reference more, and nothing else has changed. -/
theorem doReadvnode_found (io : env.InoOk) (cache : InoCache fs s) {path : List Byte} (ok : Walkable env fs s path)
    {ino : Nat} (run : doReadvnode env fs path s = .done (0, ino) s') : ino ≠ 0 ∧ InoCache fs s' ∧ s' = { s with
      tick := s'.tick, log := s'.log, dInoblock := s'.dInoblock, dInomin := s'.dInomin, dInomax := s'.dInomax
      vnodes := Function.update s.vnodes ino (some ⟨(s.inCore ino).inode, (s.inCore ino).count + 1⟩) } := by
  unfold doReadvnode at run
  obtain ⟨⟨rc, i⟩, s₁, found, run⟩ := Prog.bind_eq_done.mp run
  have looked := ufsNamei_looked io cache ok found
  dsimp only at run
  split at run
  · cases (Prog.pure_eq_done.mp run).1
  · next good =>
    obtain ⟨-, numbered⟩ := not_or.mp good
    obtain ⟨t, l, b, lo, hi, got, cached⟩ := vnodeGet_ok io looked.cache numbered
    rw [Prog.bind_of_done got] at run
    obtain ⟨same, rfl⟩ := Prog.pure_eq_done.mp run
    obtain ⟨-, rfl⟩ := Prod.mk.inj same
    refine ⟨numbered, ⟨cached.aligned, cached.same⟩, ?_⟩
    rw [looked.inCore, looked.vnodes]
    conv_lhs => rw [looked.frame]

end FuseUfs
