import FuseUfs.Attributes
import FuseUfs.Callbacks
import FuseUfs.Lookup

/-! # Mounting read-only

Nothing below the callbacks looks at `fs_ronly`, so that a mount with the option writes as soon as a
callback gets to the device past its own check, or without one. What follows says of every callback
when it does not: it has a check, or fails before it has anything to write, and every vnode that it
gives back on the way has a link or another reference.
-/

namespace FuseUfs

open Lib Prog

variable {env : Env} {fs : Superblock} {s s' : State}

/-! ## Programs that only read -/

/-- Only transfers are left of a run, however it ends. -/
def OnlyReads {α : Type} (x : M α) : Prop := ∀ s, ∃ t, (x s).final = s.atTick t

namespace OnlyReads

variable {α β : Type}

theorem pure (a : α) : OnlyReads (Pure.pure a : M α) := fun s => ⟨s.tick, rfl⟩

theorem get : OnlyReads (Prog.get : M State) := fun s => ⟨s.tick, rfl⟩

theorem halt : OnlyReads (Prog.halt : M α) := fun s => ⟨s.tick, rfl⟩

theorem done {x : M α} {a : α} (reads : OnlyReads x) (run : x s = .done a s') : ∃ t, s' = s.atTick t := by
  obtain ⟨t, left⟩ := reads s
  rw [run] at left
  exact ⟨t, left⟩

/-- The second half need only read after what the first can give. -/
theorem given {P : α → Prop} {x : M α} {f : α → M β} (first : OnlyReads x) (gives : Prog.Gives P x)
    (rest : ∀ a, P a → OnlyReads (f a)) : OnlyReads (x >>= f) := by
  intro s
  obtain ⟨t, left⟩ := first s
  rw [Prog.bind_apply]
  cases run : x s with
  | halt s' =>
      rw [run] at left
      exact ⟨t, left⟩
  | done a s' =>
      rw [run] at left
      obtain ⟨u, later⟩ := rest a (gives s a s' run) s'
      refine ⟨u, ?_⟩
      change (f a s').final = _
      rw [later, show s' = s.atTick t from left]
      rfl

theorem bind {x : M α} {f : α → M β} (first : OnlyReads x) (rest : ∀ a, OnlyReads (f a)) : OnlyReads (x >>= f) :=
  given first (P := fun _ => True) (fun _ _ _ _ => trivial) fun a _ => rest a

theorem ite {c : Prop} [Decidable c] {x y : M α} (yes : c → OnlyReads x) (no : ¬ c → OnlyReads y) :
    OnlyReads (if c then x else y) := by
  by_cases h : c
  · rw [if_pos h]
    exact yes h
  · rw [if_neg h]
    exact no h

end OnlyReads

theorem tryRead_reads : OnlyReads (tryRead env) := fun s => ⟨s.tick + 1, rfl⟩

theorem vnode2inode_reads (ino : Nat) : OnlyReads (vnode2inode ino) := by
  refine .bind .get fun s => ?_
  cases s.vnodes ino with
  | none => exact .halt
  | some v => exact .pure _

theorem blkread_only (bno size : Nat) (buf : Buf) : OnlyReads (blkread env fs bno buf size) :=
  .bind tryRead_reads fun _ => .bind .get fun _ => .ite (fun _ => .pure _) fun _ => .pure _

theorem followPtr_reads (r : Int × Nat) (index : Nat) : OnlyReads (followPtr env fs r index) :=
  .ite (fun _ => .pure _) fun _ => .bind (blkread_only _ _ _) fun _ => .ite (fun _ => .pure _) fun _ => .pure _

theorem bmapWalk_reads (din : Dinode) (fbn : Nat) : OnlyReads (bmapWalk env fs din fbn) :=
  .ite (fun _ => .pure _) fun _ => .ite (fun _ => followPtr_reads _ _) fun _ => .ite
    (fun _ => .bind (followPtr_reads _ _) fun _ => followPtr_reads _ _)
    fun _ => .bind (followPtr_reads _ _) fun _ => .bind (followPtr_reads _ _) fun _ => followPtr_reads _ _

theorem ufsBmap_only (ino fbn : Nat) : OnlyReads (ufsBmap env fs ino fbn) :=
  .bind (vnode2inode_reads ino) fun _ => .bind (bmapWalk_reads _ _) fun _ => .ite (fun _ => .halt) fun _ => .pure _

theorem linkTarget_reads (inode : Inode) : OnlyReads (linkTarget env fs inode) :=
  .ite (fun _ => .bind (blkread_only _ _ _) fun _ => .ite (fun _ => .pure _) fun _ => .pure _) fun _ => .pure _

theorem readlinkTarget_reads (size : Nat) (inode : Inode) (ino : Nat) :
    OnlyReads (opReadlink.target env fs size inode ino) :=
  .ite (fun _ => .pure _) fun _ => .ite (fun _ => .pure _) fun _ => .bind (linkTarget_reads _) fun _ => .pure _

/-! ## Walking a directory -/

section Walk

variable {σ : Type} {func : DirProc σ}

theorem dirRecords_only (quiet : Quiet func) {dirSize blkno : Nat} {pos blksize : Int} : ∀ left offset (w : Walk σ),
    OnlyReads (dirRecords env fs func dirSize pos blkno blksize left offset w) := by
  intro left
  induction left with
  | zero =>
      intro offset w
      rw [dirRecords]
      exact .ite (fun _ => .halt) fun _ => .pure _
  | succ left ih =>
      intro offset w
      rw [dirRecords]
      refine .ite (fun _ => ?_) fun _ => .pure _
      cases called : func w.buf offset w.priv with
      | none => exact .halt
      | some r =>
          obtain ⟨ret, buf, priv⟩ := r
          have silent : OnlyReads (writeChanged env fs blkno blksize ret buf) := by
            rw [writeChanged, quiet _ _ _ _ _ _ called]
            exact .pure 0
          exact .bind silent fun _ => .ite (fun _ => .pure _) fun _ => .ite (fun _ => .pure _) fun _ => ih _ _

theorem dirBlocks_only (quiet : Quiet func) {dir dirSize : Nat} : ∀ left i pos (w : Walk σ),
    OnlyReads (dirBlocks env fs func dir dirSize left i pos w) := by
  intro left
  induction left with
  | zero => exact fun _ _ w => .pure w
  | succ left ih =>
      intro i pos w
      rw [dirBlocks]
      exact .ite (fun _ => .halt) fun _ => .bind (ufsBmap_only _ _) fun _ => .ite (fun _ => .pure _) fun _ =>
        .bind (vnode2inode_reads _) fun _ => .bind (blkread_only _ _ _) fun _ => .ite (fun _ => .pure _) fun _ =>
          .bind (dirRecords_only quiet _ _ _) fun _ => .ite (fun _ => .pure _) fun _ => ih _ _ _

end Walk

/-! ## Giving back -/

/-- A vnode that can be given back without a write: it has a link or another reference. -/
def Vnode.Stays (v : Vnode) : Prop := 0 < v.inode.iNlink ∨ 1 < v.count

theorem vnodePut_stays {ino : Nat} {v : Vnode} (there : s.vnodes ino = some v) (stays : v.Stays) :
    vnodePut env fs ino false s = .done 0 { s with
      vnodes := Function.update s.vnodes ino (if v.count - 1 = 0 then none else some ⟨v.inode, v.count - 1⟩) } := by
  unfold vnodePut
  rw [Prog.get_bind_apply, there]
  simp only [Prog.modify_bind_apply]
  by_cases last : v.count - 1 = 0
  · have alive : ¬ (v.dropped fs false).inode.iNlink < 1 := by
      change ¬ v.inode.iNlink < 1
      rcases stays with linked | more
      · omega
      · omega
    rw [if_pos last, if_pos last, lastPut, if_neg alive, if_neg (by decide), Prog.pure_bind_apply,
      Prog.modify_bind_apply, State.setVnode, Function.update_idem]
    rfl
  · rw [if_neg last, if_neg last, if_neg (by decide)]
    rfl

/-- A read-only mount to which nothing has been written, and to which no handle wants to write. -/
structure Unwritten (s : State) : Prop where
  ronly : s.fsRonly = true
  clean : ∀ fh file, s.files fh = some file → file.fileWrite = false ∧ file.bufDirty = false
  silent : Event.bwrite ∉ s.log

theorem Unwritten.reads {α : Type} {x : M α} (ok : Unwritten s) (reads : OnlyReads x) : Unwritten (x s).final := by
  obtain ⟨t, left⟩ := reads s
  rw [left]
  exact ⟨ok.ronly, ok.clean, ok.silent⟩

/-- Two halves, the second from where the first has got to. -/
theorem Unwritten.bind {α β : Type} {x : M α} {f : α → M β} (first : Unwritten (x s).final)
    (rest : ∀ a t, x s = .done a t → Unwritten t → Unwritten (f a t).final) : Unwritten ((x >>= f) s).final := by
  rw [Prog.bind_apply]
  cases run : x s with
  | halt t =>
      rw [run] at first
      exact first
  | done a t =>
      rw [run] at first
      exact rest a t run first

theorem Unwritten.ite {α : Type} {c : Prop} [Decidable c] {x y : M α} (yes : c → Unwritten (x s).final)
    (no : ¬ c → Unwritten (y s).final) : Unwritten ((if c then x else y) s).final := by
  by_cases h : c
  · rw [if_pos h]
    exact yes h
  · rw [if_neg h]
    exact no h

/-- Nothing that is written or open is touched. -/
theorem Unwritten.frame (ok : Unwritten s) (ronly : s'.fsRonly = s.fsRonly) (files : s'.files = s.files)
    (log : s'.log = s.log) : Unwritten s' := by
  refine ⟨ronly.trans ok.ronly, ?_, ?_⟩
  · rw [files]
    exact ok.clean
  · rw [log]
    exact ok.silent

theorem vnodeGet_unwritten (ino : Nat) (ok : Unwritten s) : Unwritten (vnodeGet env fs ino s).final := by
  have noted : Unwritten { s with log := .vnodeGet ino (s.inoUsed fs ino) :: s.log } :=
    ⟨ok.ronly, ok.clean, fun member => by cases member with | tail _ h => exact ok.silent h⟩
  unfold vnodeGet
  rw [Prog.get_bind_apply, Prog.modify_bind_apply]
  cases s.vnodes ino with
  | some v => exact noted.frame rfl rfl rfl
  | none =>
      refine .bind ?_ fun din t _ ok => ok.frame rfl rfl rfl
      refine .ite (fun _ => .bind ?_ fun _ t _ ok => ok) fun _ => noted
      unfold loadInoblock
      refine .ite (fun _ => noted) fun _ => ?_
      exact noted.frame rfl rfl rfl

theorem vnodePut_unwritten {ino : Nat} (ok : Unwritten s) (stays : ∀ v, s.vnodes ino = some v → v.Stays) :
    Unwritten (vnodePut env fs ino false s).final := by
  cases there : s.vnodes ino with
  | none =>
      unfold vnodePut
      rw [Prog.get_bind_apply, there]
      exact ok
  | some v =>
      rw [vnodePut_stays there (stays v there)]
      exact ok.frame rfl rfl rfl

theorem updateInode_unwritten (ino : Nat) (change : Inode → Inode) (ok : Unwritten s) :
    Unwritten (updateInode ino change s).final := by
  unfold updateInode
  rw [Prog.get_bind_apply]
  cases s.vnodes ino with
  | none => exact ok
  | some v => exact ok.frame rfl rfl rfl

/-! ## Looking up -/

/-- The vnode of `ino`, once it is got, can be given back. -/
def Spared (env : Env) (fs : Superblock) (s : State) (ino : Nat) : Prop :=
  ∀ t v, vnodeGet env fs ino s = .done () t → t.vnodes ino = some v → v.Stays

/-- The directory `dir` in which the look-up of a name walks, and the state in which it does. -/
inductive Walks (env : Env) (fs : Superblock) : State → Nat → List Byte → List (List Byte) → Nat → State → Prop
  | inner {s : State} {dir : Nat} {name next : List Byte} {rest : List (List Byte)} :
      Walks env fs s dir name (next :: rest) dir s
  | last {s : State} {dir : Nat} {name : List Byte} (some : name ≠ []) : Walks env fs s dir name [] dir s
  | later {s s' t : State} {dir ino d : Nat} {name next : List Byte} {rest : List (List Byte)}
      (step : ufsLookup env fs dir name s = .done (0, ino) s') (walks : Walks env fs s' ino next rest d t) :
      Walks env fs s dir name (next :: rest) d t

/-- Every directory that the look-up of a path walks can be given back. -/
def Passable (env : Env) (fs : Superblock) (s : State) (path : List Byte) : Prop :=
  ∀ d t, Walks env fs s rootino (pathNames path).1 (pathNames path).2 d t → Spared env fs t d

theorem iterate_unwritten {σ : Type} {func : DirProc σ} (quiet : Quiet func) {dir : Nat} {priv : σ} (ok : Unwritten s)
    (spared : Spared env fs s dir) : Unwritten (ufsDirIterate env fs dir func priv s).final := by
  refine .bind (vnodeGet_unwritten dir ok) fun _ t got ok => ?_
  cases there : t.vnodes dir with
  | none =>
      rw [Prog.bind_of_halt (by unfold vnode2inode; rw [Prog.get_bind_apply, there]; rfl)]
      exact ok
  | some v =>
      rw [Prog.bind_of_done (vnode2inode_ok there)]
      refine .bind (ok.reads (dirBlocks_only quiet _ _ _ _)) fun w u walked ok => ?_
      obtain ⟨k, rfl⟩ := (dirBlocks_only quiet _ _ _ _).done walked
      refine .bind (vnodePut_unwritten ok fun v' there' => spared t v' got there') fun _ _ _ ok => ok

theorem lookup_unwritten {dir : Nat} {name : List Byte} (ok : Unwritten s) (spared : Spared env fs s dir) :
    Unwritten (ufsLookup env fs dir name s).final :=
  .bind (iterate_unwritten (lookupProc_quiet name) ok spared) fun _ _ _ ok => .ite (fun _ => ok) fun _ => ok

/-- The inner directories first; the last one is left for the look-up of the last name. -/
theorem nameiWalk_unwritten : ∀ (rest : List (List Byte)) (s : State) (dir : Nat) (name : List Byte), Unwritten s →
    (∀ d t, Walks env fs s dir name rest d t → Spared env fs t d) →
      Unwritten (nameiWalk env fs dir name rest s).final ∧
        ∀ last d t, nameiWalk env fs dir name rest s = .done (0, last, d) t → last ≠ [] → Spared env fs t d := by
  intro rest
  induction rest with
  | nil =>
      intro s dir name ok spared
      refine ⟨ok, fun last d t run some => ?_⟩
      obtain ⟨same, rfl⟩ := Prog.pure_eq_done.mp run
      cases same
      exact spared dir s (.last some)
  | cons next rest ih =>
      intro s dir name ok spared
      rw [nameiWalk]
      have looked : Unwritten (ufsLookup env fs dir name s).final := lookup_unwritten ok (spared dir s .inner)
      cases step : ufsLookup env fs dir name s with
      | halt t =>
          rw [step] at looked
          rw [Prog.bind_of_halt step]
          exact ⟨looked, fun _ _ _ run => by cases run⟩
      | done r t =>
          obtain ⟨rc, ino⟩ := r
          rw [step] at looked
          rw [Prog.bind_of_done step]
          dsimp only
          by_cases found : rc = 0
          · subst found
            rw [if_neg (not_not.mpr rfl)]
            exact ih t ino next looked fun d u walks => spared d u (.later step walks)
          · rw [if_pos found]
            refine ⟨looked, fun last d u run => ?_⟩
            obtain ⟨same, -⟩ := Prog.pure_eq_done.mp run
            cases same
            exact absurd rfl found

theorem readvnode_unwritten {path : List Byte} (ok : Unwritten s) (passable : Passable env fs s path) :
    Unwritten (doReadvnode env fs path s).final := by
  refine .bind ?_ fun r t _ ok => .ite (fun _ => ok) fun _ => .bind (vnodeGet_unwritten _ ok) fun _ _ _ ok => ok
  unfold ufsNamei ufsOpenNamei
  rw [ufsDirNamei_root]
  obtain ⟨inner, last⟩ := nameiWalk_unwritten _ s rootino _ ok passable
  refine .bind inner fun r t walked ok => ?_
  obtain ⟨rc, name, dir⟩ := r
  refine .ite (fun _ => ok) fun fine => .ite (fun _ => ok) fun some => ?_
  obtain rfl := not_not.mp fine
  exact .bind (lookup_unwritten ok (last _ _ _ walked some)) fun _ _ _ ok => .ite (fun _ => ok) fun _ => ok

/-- The path is looked up, and what is found can be given back. -/
def Returnable (env : Env) (fs : Superblock) (s : State) (path : List Byte) : Prop :=
  Passable env fs s path ∧
    ∀ ino t v, doReadvnode env fs path s = .done (0, ino) t → t.vnodes ino = some v → v.Stays

/-- What is found is referenced. -/
theorem doReadvnode_held {path : List Byte} {ino : Nat} (run : doReadvnode env fs path s = .done (0, ino) s') :
    ∃ v, s'.vnodes ino = some v ∧ 0 < v.count := by
  obtain ⟨⟨rc, i⟩, t, looked, run⟩ := Prog.bind_eq_done.mp run
  dsimp only at run
  split at run
  · cases (Prog.pure_eq_done.mp run).1
  · obtain ⟨⟨⟩, u, got, run⟩ := Prog.bind_eq_done.mp run
    obtain ⟨same, rfl⟩ := Prog.pure_eq_done.mp run
    cases same
    obtain ⟨v, k, l, b, lo, hi, ran, count, -⟩ := vnodeGet_total env fs ino t
    rw [ran] at got
    cases got
    exact ⟨v, Function.update_self .., by omega⟩

/-- Reading a vnode that was found, and giving it back. -/
theorem found_unwritten {α β : Type} {path : List Byte} {x : Inode → Nat → M α} {lost : Int → M β} {f : α → M β}
    (ok : Unwritten s) (may : Returnable env fs s path) (reads : ∀ i ino, OnlyReads (x i ino))
    (failed : ∀ rc t, Unwritten t → Unwritten (lost rc t).final) (rest : ∀ a t, Unwritten t → Unwritten (f a t).final) :
    Unwritten ((doReadvnode env fs path >>= fun r =>
      if r.1 ≠ 0 then lost r.1 else vnode2inode r.2 >>= fun i => x i r.2 >>= fun a => vnodePut env fs r.2 false >>= fun _ =>
        f a) s).final := by
  refine .bind (readvnode_unwritten ok may.1) fun r t found ok => ?_
  obtain ⟨rc, ino⟩ := r
  refine .ite (fun _ => failed rc t ok) fun fine => ?_
  obtain rfl := not_not.mp fine
  refine .bind (ok.reads (vnode2inode_reads ino)) fun i u read ok => ?_
  obtain ⟨k, rfl⟩ := (vnode2inode_reads ino).done read
  refine .bind (ok.reads (reads i ino)) fun a u read ok => ?_
  obtain ⟨k', rfl⟩ := (reads i ino).done read
  exact .bind (vnodePut_unwritten ok fun v there => may.2 ino t v found there) fun _ t _ ok => rest a t ok

/-! ## Reading a directory -/

/-- A filler that ends the walk when the given one says that there is no room, which the walk
    takes for a change of the block. -/
def untilFull {ρ : Type} (filler : ρ → List Byte → Nat → Int × ρ) (a : ρ × Bool) (name : List Byte) (ino : Nat) :
    Int × ρ × Bool :=
  let r := filler a.1 name ino
  if hasBit r.1 0 then (direntAbort, r.2, true) else (r.1, r.2, a.2)

/-- The filler has room for every record that the walk comes to. -/
def Roomy {ρ : Type} (env : Env) (fs : Superblock) (s : State) (dir : Nat) (filler : ρ → List Byte → Nat → Int × ρ)
    (r : ρ) : Prop :=
  ∀ rc q t, ufsDirIterate env fs dir (walkDir (untilFull filler)) (r, false) s ≠ .done (rc, q, true) t

section Fill

variable {ρ : Type} {filler : ρ → List Byte → Nat → Int × ρ}

theorem untilFull_quiet : Quiet (walkDir (untilFull filler)) := by
  intro buf off p ret buf' p' called
  unfold walkDir at called
  split at called
  · cases called
    decide
  · unfold untilFull at called
    dsimp only at called
    split at called
    · cases called
      exact (by decide : hasBit direntAbort 0 = false)
    · next room =>
      cases called
      simpa using room

/-- The walk of a filler that has had room so far. -/
def Walk.roomy (w : Walk ρ) : Walk (ρ × Bool) := ⟨w.ret, w.out, w.buf, (w.priv, false)⟩

/-- Without the flag again. -/
def Walk.plain (w : Walk (ρ × Bool)) : Walk ρ := ⟨w.ret, w.out, w.buf, w.priv.1⟩

/-- A step of the walk that writes nothing. -/
theorem dirRecords_step {σ : Type} {func : DirProc σ} {dirSize blkno : Nat} {pos blksize : Int} {left offset : Nat}
    {w : Walk σ} {ret : Int} {buf : Buf} {priv : σ} (inside : (offset : Int) < blksize ∧ asU64 (asInt32 (pos + offset)) < dirSize)
    (called : func w.buf offset w.priv = some (ret, buf, priv)) (quiet : hasBit ret 0 = false) :
    dirRecords env fs func dirSize pos blkno blksize (left + 1) offset w =
      if hasBit ret 1 then pure ⟨0, true, buf, priv⟩
      else dirRecords env fs func dirSize pos blkno blksize left (offset + dReclen buf offset) ⟨ret, false, buf, priv⟩ := by
  rw [dirRecords, if_pos inside, called]
  dsimp only
  rw [writeChanged, quiet, if_neg (by decide), pure_bind, if_neg (by decide)]

/-- Unless the second walk ends for want of room, the first is the same. -/
def Agree (f : M (Walk ρ)) (g : M (Walk (ρ × Bool))) (s : State) : Prop :=
  (∀ w t, g s = .done w t → w.priv.2 = false) → f s = (Walk.plain <$> g) s

theorem Agree.bind {α : Type} {x : M α} {f : α → M (Walk ρ)} {g : α → M (Walk (ρ × Bool))}
    (rest : ∀ a t, Agree (f a) (g a) t) : Agree (x >>= f) (x >>= g) s := by
  intro room
  rw [Prog.map_apply]
  cases run : x s with
  | halt t => rw [Prog.bind_of_halt run, Prog.bind_of_halt run]
  | done a t =>
      rw [Prog.bind_of_done run] at room
      rw [Prog.bind_of_done run, Prog.bind_of_done run]
      exact rest a t room

theorem Agree.ite {c : Prop} [Decidable c] {f f' : M (Walk ρ)} {g g' : M (Walk (ρ × Bool))} (yes : Agree f g s)
    (no : Agree f' g' s) : Agree (if c then f else f') (if c then g else g') s := by
  by_cases h : c
  · rw [if_pos h, if_pos h]
    exact yes
  · rw [if_neg h, if_neg h]
    exact no

/-- As long as there is room, both fillers make the same walk of a block; for want of it, the walk is over. -/
theorem dirRecords_agree {dirSize blkno : Nat} {pos blksize : Int} : ∀ left offset (w : Walk ρ) (s : State),
    Agree (dirRecords env fs (walkDir filler) dirSize pos blkno blksize left offset w)
        (dirRecords env fs (walkDir (untilFull filler)) dirSize pos blkno blksize left offset w.roomy) s ∧
      ∀ w' t, dirRecords env fs (walkDir (untilFull filler)) dirSize pos blkno blksize left offset w.roomy s = .done w' t →
        w'.priv.2 = true → w'.out = true := by
  intro left
  induction left with
  | zero =>
      intro offset w s
      rw [dirRecords, dirRecords]
      by_cases inside : (offset : Int) < blksize ∧ asU64 (asInt32 (pos + offset)) < dirSize
      · rw [if_pos inside, if_pos inside]
        exact ⟨fun _ => rfl, fun _ _ run => by cases run⟩
      · rw [if_neg inside, if_neg inside]
        refine ⟨fun _ => rfl, fun w' t run full => ?_⟩
        obtain ⟨rfl, -⟩ := Prog.pure_eq_done.mp run
        cases full
  | succ left ih =>
      intro offset w s
      by_cases inside : (offset : Int) < blksize ∧ asU64 (asInt32 (pos + offset)) < dirSize
      · by_cases none : dIno w.buf offset = 0
        · have called : walkDir filler w.buf offset w.priv = some (0, w.buf, w.priv) := if_pos none
          have called' : walkDir (untilFull filler) w.roomy.buf offset w.roomy.priv = some (0, w.buf, (w.priv, false)) :=
            if_pos none
          rw [dirRecords_step inside called' (by decide), if_neg (by decide),
            dirRecords_step inside called (by decide), if_neg (by decide)]
          exact ih _ ⟨0, false, w.buf, w.priv⟩ s
        · set q := filler w.priv (cstring w.buf (offset + 8) (dNamlen w.buf offset)) (dIno w.buf offset) with hq
          have called : walkDir filler w.buf offset w.priv = some (q.1, w.buf, q.2) := if_neg none
          have called' : walkDir (untilFull filler) w.roomy.buf offset w.roomy.priv =
              some (if hasBit q.1 0 then (direntAbort, w.buf, q.2, true) else (q.1, w.buf, q.2, false)) := by
            refine (if_neg none).trans ?_
            change some ((if hasBit q.1 0 then (direntAbort, q.2, true) else (q.1, q.2, false)).1, w.buf,
              (if hasBit q.1 0 then (direntAbort, q.2, true) else (q.1, q.2, false)).2) = _
            split
            · rfl
            · rfl
          by_cases full : hasBit q.1 0 = true
          · rw [if_pos full] at called'
            rw [dirRecords_step inside called' (by decide), if_pos (by decide)]
            refine ⟨fun room => ?_, fun w' t run _ => ?_⟩
            · cases room _ _ rfl
            · obtain ⟨rfl, -⟩ := Prog.pure_eq_done.mp run
              rfl
          · have roomy : hasBit q.1 0 = false := by simpa using full
            rw [if_neg full] at called'
            rw [dirRecords_step inside called' roomy, dirRecords_step inside called roomy]
            by_cases abort : hasBit q.1 1 = true
            · rw [if_pos abort, if_pos abort]
              refine ⟨fun _ => rfl, fun w' t run _ => ?_⟩
              obtain ⟨rfl, -⟩ := Prog.pure_eq_done.mp run
              rfl
            · rw [if_neg abort, if_neg abort]
              exact ih _ ⟨q.1, false, w.buf, q.2⟩ s
      · rw [dirRecords, dirRecords, if_neg inside, if_neg inside]
        refine ⟨fun _ => rfl, fun w' t run full => ?_⟩
        obtain ⟨rfl, -⟩ := Prog.pure_eq_done.mp run
        cases full

/-- A walk that goes on unless it is over. -/
theorem Agree.walk {x : M (Walk ρ)} {y : M (Walk (ρ × Bool))} {f : Walk ρ → M (Walk ρ)}
    {g : Walk (ρ × Bool) → M (Walk (ρ × Bool))} (agree : Agree x y s)
    (ended : ∀ w t, y s = .done w t → w.priv.2 = true → w.out = true) (rest : ∀ w t, Agree (f w) (g w.roomy) t) :
    Agree (x >>= fun w => if w.out then pure w else f w) (y >>= fun w => if w.out then pure w else g w) s := by
  intro room
  rw [Prog.map_apply]
  cases run : y s with
  | halt t =>
      have stopped : ∀ w u, y s = .done w u → w.priv.2 = false := by
        intro w u done
        rw [run] at done
        cases done
      have same : x s = .halt t := by rw [agree stopped, Prog.map_apply, run]
      rw [Prog.bind_of_halt run, Prog.bind_of_halt same]
  | done w t =>
      rw [Prog.bind_of_done run] at room
      rw [Prog.bind_of_done run]
      cases full : w.priv.2 with
      | true =>
          rw [if_pos (ended w t run full)] at room
          rw [room w t rfl] at full
          cases full
      | false =>
          have spare : ∀ w' u, y s = .done w' u → w'.priv.2 = false := by
            intro w' u done
            rw [run] at done
            cases done
            exact full
          have same : x s = .done w.plain t := by rw [agree spare, Prog.map_apply, run]
          rw [Prog.bind_of_done same]
          by_cases ended' : w.out = true
          · rw [if_pos ended', if_pos (show w.plain.out = true from ended')]
            rfl
          · rw [if_neg ended'] at room ⊢
            rw [if_neg (show ¬ w.plain.out = true from ended')]
            have back : w.plain.roomy = w := by
              obtain ⟨ret, out, buf, priv, flag⟩ := w
              cases full
              rfl
            have later := rest w.plain t
            rw [back] at later
            exact later room

theorem dirBlocks_agree {dir dirSize : Nat} : ∀ left i pos (w : Walk ρ) (s : State),
    Agree (dirBlocks env fs (walkDir filler) dir dirSize left i pos w)
      (dirBlocks env fs (walkDir (untilFull filler)) dir dirSize left i pos w.roomy) s := by
  intro left
  induction left with
  | zero => exact fun _ _ _ _ _ => rfl
  | succ left ih =>
      intro i pos w s
      rw [dirBlocks, dirBlocks]
      refine .ite (fun _ => rfl) (.bind fun r t => .ite (fun _ => rfl) (.bind fun inode t => .bind fun b t =>
        .ite (fun _ => rfl) ?_))
      exact .walk (dirRecords_agree fs.fsBsize 0 ⟨0, false, b.2, w.priv⟩ t).1
        (dirRecords_agree fs.fsBsize 0 ⟨0, false, b.2, w.priv⟩ t).2 fun w t => ih _ _ w t

theorem Agree.reads {f : M (Walk ρ)} {g : M (Walk (ρ × Bool))} (agree : Agree f g s)
    (room : ∀ w t, g s = .done w t → w.priv.2 = false) (reads : OnlyReads g) : ∃ k, (f s).final = s.atTick k := by
  obtain ⟨k, left⟩ := reads s
  refine ⟨k, ?_⟩
  rw [agree room, Prog.map_apply, ← left]
  cases g s with
  | halt t => rfl
  | done w t => rfl

/-- A directory that is referenced already is walked and given back as it was. -/
theorem readdir_unwritten {dir : Nat} {r : ρ} {v : Vnode} (ok : Unwritten s) (there : s.vnodes dir = some v)
    (held : 0 < v.count) (roomy : Roomy env fs s dir filler r) :
    Unwritten (ufsDirIterate env fs dir (walkDir filler) r s).final ∧
      ∀ q t, ufsDirIterate env fs dir (walkDir filler) r s = .done q t → t.vnodes dir = some v := by
  have got : Unwritten (vnodeGet env fs dir s).final := vnodeGet_unwritten dir ok
  obtain ⟨w, k, l, b, lo, hi, run, count, same⟩ := vnodeGet_total env fs dir s
  rw [run] at got
  set t : State := { s with tick := k, log := l, dInoblock := b, dInomin := lo, dInomax := hi
                            vnodes := Function.update s.vnodes dir (some w) } with ht
  have more : w = ⟨v.inode, v.count + 1⟩ := by
    rw [State.refs, there] at count
    rw [← same v there]
    exact congrArg (Vnode.mk w.inode) count
  have here : t.vnodes dir = some w := Function.update_self ..
  have stays : w.Stays := .inr (by rw [more]; change 1 < v.count + 1; omega)
  have room : ∀ p u, dirBlocks env fs (walkDir (untilFull filler)) dir w.inode.iSize (howmany w.inode.iSize fs.fsBsize) 0 0
      ⟨0, false, env.heap, (r, false)⟩ t = .done p u → p.priv.2 = false := by
    intro p u walked
    cases full : p.priv.2 with
    | false => rfl
    | true =>
        obtain ⟨k', rfl⟩ := (dirBlocks_only untilFull_quiet _ _ _ _).done walked
        have ended : ufsDirIterate env fs dir (walkDir (untilFull filler)) (r, false) s = _ :=
          ufsDirIterate_start run here (r, false)
        rw [Prog.bind_of_done walked,
          Prog.bind_of_done (vnodePut_stays (show (t.atTick k').vnodes dir = some w from here) stays), Prog.pure_apply,
          show p.priv = (p.priv.1, true) from Prod.ext rfl full] at ended
        exact absurd ended (roomy p.ret p.priv.1 _)
  obtain ⟨k', left⟩ := (dirBlocks_agree _ 0 0 ⟨0, false, env.heap, r⟩ t).reads room (dirBlocks_only untilFull_quiet _ _ _ _)
  rw [ufsDirIterate_start run here, Prog.bind_apply]
  cases walked : dirBlocks env fs (walkDir filler) dir w.inode.iSize (howmany w.inode.iSize fs.fsBsize) 0 0
      ⟨0, false, env.heap, r⟩ t with
  | halt u =>
      rw [walked] at left
      rw [show u = t.atTick k' from left]
      exact ⟨Unwritten.frame (s := t) got rfl rfl rfl, fun q u run => by cases run⟩
  | done p u =>
      rw [walked] at left
      rw [show u = t.atTick k' from left]
      dsimp only
      rw [Prog.bind_of_done (vnodePut_stays (show (t.atTick k').vnodes dir = some w from here) stays)]
      refine ⟨Unwritten.frame (s := t) got rfl rfl rfl, fun q u run => ?_⟩
      obtain ⟨-, rfl⟩ := Prog.pure_eq_done.mp run
      have many : ¬ w.count - 1 = 0 := by rw [more]; change ¬ v.count + 1 - 1 = 0; omega
      rw [if_neg many, more]
      exact Function.update_self ..

end Fill

/-! ## Handles that do not write -/

/-- A handle without the right to write and without anything to write. -/
def UfsFile.Clean (file : UfsFile) : Prop := file.fileWrite = false ∧ file.bufDirty = false

theorem flush_clean {file : UfsFile} (clean : file.Clean) : ufsFileFlush env fs file = (do
    let _ ← vnode2inode file.ino
    pure (0, file)) := by
  unfold ufsFileFlush
  congr 1
  funext inode
  rw [if_pos (.inr clean.2)]

theorem flush_reads {file : UfsFile} (clean : file.Clean) : OnlyReads (ufsFileFlush env fs file) := by
  rw [flush_clean clean]
  exact .bind (vnode2inode_reads _) fun _ => .pure _

theorem flush_gives {file : UfsFile} (clean : file.Clean) :
    Prog.Gives (fun r => r = (0, file)) (ufsFileFlush env fs file) := by
  rw [flush_clean clean]
  exact .after fun _ => .pure rfl

theorem sync_reads {file : UfsFile} (clean : file.Clean) : OnlyReads (syncBufferPosition env fs file) :=
  .ite (fun _ => .bind (flush_reads clean) fun _ => .ite (fun _ => .pure _) fun _ => .pure _) fun _ => .pure _

theorem sync_clean {file : UfsFile} (clean : file.Clean) :
    Prog.Gives (fun r => r.2.Clean) (syncBufferPosition env fs file) := by
  refine .ite (fun _ => .bind (flush_gives clean) fun r same => ?_) fun _ => .pure clean
  subst same
  exact .ite (fun _ => .pure clean) fun _ => .pure clean

theorem load_reads (file : UfsFile) (dontfill : Bool) : OnlyReads (loadBuffer env fs file dontfill) :=
  .ite (fun _ => .pure _) fun _ => .bind (ufsBmap_only _ _) fun _ => .bind (vnode2inode_reads _) fun _ =>
    .ite (fun _ => .pure _) fun _ => .ite (fun _ => .pure _) fun _ =>
      .bind (.ite (fun _ => .bind (blkread_only _ _ _) fun _ => .pure _) fun _ => .pure _) fun _ =>
        .ite (fun _ => .pure _) fun _ => .pure _

theorem load_clean {file : UfsFile} (dontfill : Bool) (clean : file.Clean) :
    Prog.Gives (fun r => r.2.Clean) (loadBuffer env fs file dontfill) := by
  refine .ite (fun _ => .pure clean) fun _ => .after fun r => .after fun inode => .ite (fun _ => .pure clean) fun _ =>
    .ite (fun _ => .pure clean) fun _ => ?_
  refine .bind (P := fun q => q.2.Clean) ?_ fun q same => .ite (fun _ => .pure same) fun _ => .pure same
  exact .ite (fun _ => .after fun _ => .pure clean) fun _ => .pure clean

theorem fileRead_clean : ∀ left (file : UfsFile) wanted got, file.Clean →
    OnlyReads (fileReadLoop env fs left file wanted got) ∧
      Prog.Gives (fun r => r.2.2.Clean) (fileReadLoop env fs left file wanted got) := by
  intro left
  induction left with
  | zero =>
      intro file wanted got clean
      rw [fileReadLoop]
      exact ⟨.bind (vnode2inode_reads _) fun _ => .ite (fun _ => .halt) fun _ => .pure _,
        .after fun _ => .ite (fun _ => .halt) fun _ => .pure clean⟩
  | succ left ih =>
      intro file wanted got clean
      rw [fileReadLoop]
      refine ⟨.bind (vnode2inode_reads _) fun inode => .ite (fun _ => ?_) fun _ => .pure _,
        .after fun inode => .ite (fun _ => ?_) fun _ => .pure clean⟩
      · refine .given (sync_reads clean) (sync_clean clean) fun r clean => .ite (fun _ => .pure _) fun _ => ?_
        refine .given (load_reads r.2 false) (load_clean false clean) fun r clean => .ite (fun _ => .pure _) fun _ => ?_
        refine (ih _ _ _ ?_).1
        exact ⟨clean.1, clean.2⟩
      · refine .bind (sync_clean clean) fun r clean => .ite (fun _ => .pure clean) fun _ => ?_
        refine .bind (load_clean false clean) fun r clean => .ite (fun _ => .pure clean) fun _ => ?_
        refine (ih _ _ _ ?_).2
        exact ⟨clean.1, clean.2⟩

theorem doRead_clean {file : UfsFile} {size offset : Nat} (clean : file.Clean) :
    OnlyReads (doRead env fs file size offset) ∧ Prog.Gives (fun r => r.2.2.Clean) (doRead env fs file size offset) :=
  ⟨.bind (fileRead_clean _ { file with pos := offset } _ _ clean).1 fun _ => .ite (fun _ => .pure _) fun _ => .pure _,
    .bind (fileRead_clean _ { file with pos := offset } _ _ clean).2 fun _ clean => .ite (fun _ => .pure clean)
      fun _ => .pure clean⟩

/-- Work on a handle that stays as it should. -/
theorem withFile_unwritten {α : Type} {fh : Nat} {use : UfsFile → M (α × UfsFile)} (ok : Unwritten s)
    (kept : ∀ file, s.files fh = some file → file.Clean → Unwritten (use file s).final ∧
      ∀ a f t, use file s = .done (a, f) t → f.Clean) : Unwritten (withFile fh use s).final := by
  unfold withFile
  rw [Prog.get_bind_apply]
  cases here : s.files fh with
  | none => exact ok
  | some file =>
      obtain ⟨first, gives⟩ := kept file here (ok.clean fh file here)
      refine .bind first fun r t run ok => ⟨ok.ronly, fun i f there => ?_, ok.silent⟩
      obtain ⟨a, f'⟩ := r
      change Function.update t.files fh (some f') i = some f at there
      by_cases same : i = fh
      · rw [same, Function.update_self] at there
        cases there
        exact gives a f t run
      · rw [Function.update_of_ne same] at there
        exact ok.clean i f there

/-- Setting a size that is not smaller. -/
theorem grow_unwritten {file : UfsFile} {size : Nat} (ok : Unwritten s) (clean : file.Clean)
    (grows : ∀ v, s.vnodes file.ino = some v → ¬ (size < v.inode.iSize ∧ v.inode.iBlocks ≠ 0)) :
    Unwritten (ufsFileSetSize env fs file size s).final ∧
      ∀ rc f t, ufsFileSetSize env fs file size s = .done (rc, f) t → f = file ∧ rc = 0 := by
  cases there : s.vnodes file.ino with
  | none =>
      have stopped : ufsFileSetSize env fs file size s = .halt s := by
        unfold ufsFileSetSize
        rw [flush_clean clean]
        refine Prog.bind_of_halt (Prog.bind_of_halt ?_ _) _
        unfold vnode2inode
        rw [Prog.get_bind_apply, there]
        rfl
      rw [stopped]
      exact ⟨ok, fun _ _ _ run => by cases run⟩
  | some v =>
      have sized : ufsFileSetSize env fs file size s = (do
          updateInode file.ino fun i => { i with iSize := size % 2 ^ 32 }
          pure (0, file)) s := by
        have flushed : ufsFileFlush env fs file s = .done (0, file) s := by
          rw [flush_clean clean, Prog.bind_of_done (vnode2inode_ok there)]
          rfl
        unfold ufsFileSetSize
        rw [Prog.bind_of_done flushed]
        dsimp only
        rw [Prog.bind_of_done (vnode2inode_ok there), ufsFileSetSize.cut, if_neg (grows v there)]
        rfl
      rw [sized]
      refine ⟨.bind (updateInode_unwritten _ _ ok) fun _ _ _ ok => ok, fun rc f t run => ?_⟩
      obtain ⟨⟨⟩, u, -, run⟩ := Prog.bind_eq_done.mp run
      obtain ⟨same, -⟩ := Prog.pure_eq_done.mp run
      cases same
      exact ⟨rfl, rfl⟩

theorem writeLoop_clean (src : Buf) : ∀ left (file : UfsFile) size ptr wr, file.Clean →
    OnlyReads (doWriteLoop env fs src left file size ptr wr) ∧
      Prog.Gives (fun r => r.2.2.Clean) (doWriteLoop env fs src left file size ptr wr) := by
  intro left file size ptr wr clean
  cases left with
  | zero =>
      rw [doWriteLoop]
      exact ⟨.ite (fun _ => .halt) fun _ => .pure _, .ite (fun _ => .halt) fun _ => .pure clean⟩
  | succ left =>
      rw [doWriteLoop]
      have refused : ∀ src nbytes, ufsFileWrite env fs file src nbytes = pure (erofs, 0, file) := fun _ _ => if_pos clean.1
      simp only [refused, pure_bind]
      rw [if_pos (show erofs ≠ 0 by decide)]
      exact ⟨.ite (fun _ => .pure _) fun _ => .pure _, .ite (fun _ => .pure clean) fun _ => .pure clean⟩

/-- Nothing is written, but the size in core grows. -/
theorem write_unwritten {file : UfsFile} {src : Buf} {size offset : Nat} (ok : Unwritten s) (clean : file.Clean) :
    Unwritten (doWrite env fs file src size offset s).final ∧
      ∀ rc f t, doWrite env fs file src size offset s = .done (rc, f) t → f.Clean := by
  have grown : Unwritten (doWriteGrow env fs file size offset s).final ∧
      ∀ rc f t, doWriteGrow env fs file size offset s = .done (rc, f) t → f = file := by
    cases there : s.vnodes file.ino with
    | none =>
        have stopped : doWriteGrow env fs file size offset s = .halt s := by
          refine Prog.bind_of_halt ?_ _
          unfold vnode2inode
          rw [Prog.get_bind_apply, there]
          rfl
        rw [stopped]
        exact ⟨ok, fun _ _ _ run => by cases run⟩
    | some v =>
        unfold doWriteGrow
        rw [Prog.bind_of_done (vnode2inode_ok there)]
        by_cases grows : v.inode.iSize < (offset + size) % 2 ^ 64
        · rw [if_pos grows]
          have shorter : ∀ w, s.vnodes file.ino = some w →
              ¬ ((offset + size) % 2 ^ 64 < w.inode.iSize ∧ w.inode.iBlocks ≠ 0) := by
            intro w there' less
            rw [there] at there'
            cases there'
            exact absurd less.1 (by omega)
          obtain ⟨silent, gives⟩ := grow_unwritten ok clean shorter
          exact ⟨silent, fun rc f t run => (gives rc f t run).1⟩
        · rw [if_neg grows]
          refine ⟨ok, fun rc f t run => ?_⟩
          obtain ⟨same, -⟩ := Prog.pure_eq_done.mp run
          cases same
          rfl
  constructor
  · refine .bind grown.1 fun r t run ok => .ite (fun _ => ok) fun _ => ?_
    obtain ⟨rc, f⟩ := r
    obtain rfl := grown.2 rc f t run
    refine .bind (ok.reads (writeLoop_clean src 3 { f with pos := offset } size 0 0 clean).1) fun r u wrote ok =>
      .ite (fun _ => ok) fun _ => ?_
    have clean' := (writeLoop_clean src 3 { f with pos := offset } size 0 0 clean).2 _ _ _ wrote
    exact .bind (ok.reads (flush_reads clean')) fun _ _ _ ok => .ite (fun _ => ok) fun _ => ok
  · intro rc f t run
    obtain ⟨⟨rg, g⟩, u, grow, run⟩ := Prog.bind_eq_done.mp run
    rw [grown.2 rg g u grow] at run
    dsimp only at run
    split at run
    · obtain ⟨same, -⟩ := Prog.pure_eq_done.mp run
      cases same
      exact clean
    · obtain ⟨⟨rw', n, h⟩, u', wrote, run⟩ := Prog.bind_eq_done.mp run
      have clean' : h.Clean := (writeLoop_clean src 3 { file with pos := offset } size 0 0 clean).2 _ _ _ wrote
      dsimp only at run
      split at run
      · obtain ⟨same, -⟩ := Prog.pure_eq_done.mp run
        cases same
        exact clean'
      · obtain ⟨⟨rf, k⟩, u'', flushed, run⟩ := Prog.bind_eq_done.mp run
        have same := flush_gives clean' _ _ _ flushed
        cases same
        dsimp only at run
        split at run
        · obtain ⟨same, -⟩ := Prog.pure_eq_done.mp run
          cases same
          exact clean'
        · obtain ⟨same, -⟩ := Prog.pure_eq_done.mp run
          cases same
          exact clean'

/-! ## The callbacks -/

/-- The path is looked up; what is found is only given back when it was to be written. -/
def Openable (env : Env) (fs : Superblock) (s : State) (path : List Byte) (write : Bool) : Prop :=
  Passable env fs s path ∧ (write = true → Returnable env fs s path)

theorem open_unwritten {path : List Byte} {write : Bool} (ok : Unwritten s) (may : Openable env fs s path write) :
    Unwritten (doOpen env fs path write s).final ∧
      ∀ file t, doOpen env fs path write s = .done (some file) t → write = false ∧ file.Clean := by
  have looked := readvnode_unwritten ok may.1
  unfold doOpen
  rw [Prog.bind_apply]
  cases found : doReadvnode env fs path s with
  | halt t =>
      rw [found] at looked
      exact ⟨looked, fun _ _ run => by cases run⟩
  | done r t =>
      obtain ⟨rc, ino⟩ := r
      rw [found] at looked
      have ok : Unwritten t := looked
      dsimp only
      by_cases lost : rc ≠ 0
      · rw [if_pos lost]
        exact ⟨ok, fun file u run => by cases (Prog.pure_eq_done.mp run).1⟩
      · obtain rfl := not_not.mp lost
        rw [if_neg lost, Prog.get_bind_apply, ok.ronly]
        cases write with
        | true =>
            rw [if_pos ⟨rfl, rfl⟩]
            refine ⟨.bind (vnodePut_unwritten ok fun v there => (may.2 rfl).2 ino t v found there) fun _ _ _ ok => ok, ?_⟩
            intro file u run
            obtain ⟨rp, u', -, run⟩ := Prog.bind_eq_done.mp run
            cases (Prog.pure_eq_done.mp run).1
        | false =>
            rw [if_neg (by simp)]
            refine ⟨ok, fun file u run => ?_⟩
            obtain ⟨same, -⟩ := Prog.pure_eq_done.mp run
            cases same
            exact ⟨rfl, rfl, rfl⟩

theorem opOpen_unwritten {path : List Byte} {write : Bool} {fh : Nat} (ok : Unwritten s)
    (may : Openable env fs s path write) : Unwritten (opOpen env fs path write fh s).final ∧
      ∀ rc t, opOpen env fs path write fh s = .done rc t → rc ≠ 0 → doOpen env fs path write s = .done none t := by
  obtain ⟨silent, gives⟩ := open_unwritten ok may
  refine ⟨.bind silent fun file t run ok => ?_, fun rc t run failed => ?_⟩
  · cases file with
    | none => exact ok
    | some file =>
        refine ⟨ok.ronly, fun i f there => ?_, ok.silent⟩
        change Function.update t.files fh (some file) i = some f at there
        by_cases same : i = fh
        · rw [same, Function.update_self] at there
          cases there
          exact (gives file t run).2
        · rw [Function.update_of_ne same] at there
          exact ok.clean i f there
  · obtain ⟨file, u, opened, run⟩ := Prog.bind_eq_done.mp run
    cases file with
    | none =>
        obtain ⟨-, rfl⟩ := Prog.pure_eq_done.mp run
        exact opened
    | some file =>
        dsimp only at run
        rw [Prog.modify_bind_apply] at run
        exact absurd (Prog.pure_eq_done.mp run).1.symm failed

/-- The parent is not found, or there is no inode left to make. -/
def Uncreatable (env : Env) (fs : Superblock) (s : State) (path : List Byte) : Prop :=
  ∀ pPath rPath, doCheckSplit path = .ok (pPath, rPath) → Passable env fs s pPath ∧
    ∀ dir t, doReadvnode env fs pPath s = .done (0, dir) t → t.fsCstotal.csNifree = 0

theorem create_unwritten {path : List Byte} {mode : Nat} {dev : Dev} {fastsymlink : Option (List Byte)} (ok : Unwritten s)
    (may : Uncreatable env fs s path) : Unwritten (doCreate env fs path mode dev fastsymlink s).final ∧
      ∀ t, doCreate env fs path mode dev fastsymlink s ≠ .done 0 t := by
  unfold doCreate
  cases halves : doCheckSplit path with
  | error e => exact ⟨ok, fun t run => by cases run⟩
  | ok both =>
      obtain ⟨pPath, rPath⟩ := both
      obtain ⟨passable, none⟩ := may pPath rPath halves
      dsimp only
      have looked := readvnode_unwritten ok passable
      rw [Prog.bind_apply]
      cases found : doReadvnode env fs pPath s with
      | halt t =>
          rw [found] at looked
          exact ⟨looked, fun _ run => by cases run⟩
      | done r t =>
          obtain ⟨rc, dir⟩ := r
          rw [found] at looked
          have ok : Unwritten t := looked
          dsimp only
          by_cases lost : rc ≠ 0
          · rw [if_pos lost]
            exact ⟨ok, fun u run => lost (Prog.pure_eq_done.mp run).1⟩
          · obtain rfl := not_not.mp lost
            rw [if_neg lost]
            unfold createIn ufsValloc
            cases there : t.vnodes dir with
            | none =>
                have stopped : vnode2inode dir t = .halt t := by
                  unfold vnode2inode
                  rw [Prog.get_bind_apply, there]
                  rfl
                rw [Prog.bind_of_halt (Prog.bind_of_halt stopped _)]
                exact ⟨ok, fun _ run => by cases run⟩
            | some v =>
                have full : (do
                    let s ← Prog.get
                    if s.fsCstotal.csNifree = 0 then pure (-enospc, 0)
                    else do
                      let ipref := vallocPref fs s v.inode mode
                      let cg := fs.inoToCg ipref
                      countContigdirs mode cg
                      let ino ← ufsHashalloc fs cg (asU64 (asInt32 ipref)) (ufsInodeAlloc env fs mode)
                      if asInt32 ino ≤ 0 then pure (-enospc, 0)
                      else do
                        vnodeGet env fs ino
                        let s ← Prog.get
                        updateInode ino (renewInode env s.tick)
                        let ip ← vnode2inode ino
                        Prog.modify fun s => { s with log := .valloc ino ip.iDin2 :: s.log }
                        pure (0, ino) : M (Int × Nat)) t = .done (-enospc, 0) t := by
                  rw [Prog.get_bind_apply, if_pos (none dir t found)]
                  rfl
                rw [Prog.bind_of_done ((Prog.bind_of_done (vnode2inode_ok there) _).trans full)]
                exact ⟨ok, fun u run => by cases (Prog.pure_eq_done.mp run).1⟩

/-- The parent is not found, or the directory is not and the parent can be given back. -/
def Unremovable (env : Env) (fs : Superblock) (s : State) (path : List Byte) : Prop :=
  ∀ pPath rPath, doCheckSplit path = .ok (pPath, rPath) → Passable env fs s pPath ∧
    ∀ p t, doReadvnode env fs pPath s = .done (0, p) t → Passable env fs t path ∧
      ∀ rc r u, doReadvnode env fs path t = .done (rc, r) u → rc ≠ 0 ∧ ∀ v, u.vnodes p = some v → v.Stays

/-- When a call on a read-only mount gets to no write. -/
def Callback.Harmless (env : Env) (fs : Superblock) (s : State) : Callback → Prop
  | getattr path => doCheck path = 0 → Returnable env fs s path
  | readlink path _ => Returnable env fs s path
  | symlink _ path => Uncreatable env fs s path
  | rename source dest => ∀ pSrc rSrc halves, doCheckSplit source = .ok (pSrc, rSrc) → doCheckSplit dest = .ok halves →
      Passable env fs s pSrc ∧ ∀ d t, doReadvnode env fs pSrc s ≠ .done (0, d) t
  | rmdir path => Unremovable env fs s path
  | truncate path _ => doCheck path = 0 → Returnable env fs s path
  | openFile path w _ => Openable env fs s path w
  | release fh => ∀ file v, s.files fh = some file → s.vnodes file.ino = some v → v.Stays
  | readdir path filler r => Returnable env fs s path ∧
      ∀ ino t, doReadvnode env fs path s = .done (0, ino) t → Roomy env fs t ino filler r
  | destroy => s.fsFmod = false
  | access path mask => mask &&& wOk = 0 → doCheck path = 0 → Passable env fs s path
  | create path _ w _ => Openable env fs s path w ∧
      ∀ t, doOpen env fs path w s = .done none t → Uncreatable env fs t path
  | ftruncate fh length => ∀ file v, s.files fh = some file → s.vnodes file.ino = some v →
      ¬ (length < v.inode.iSize ∧ v.inode.iBlocks ≠ 0)
  | fgetattr path => Returnable env fs s path
  | utimens path _ => Passable env fs s path ∧ ∀ ino t, doReadvnode env fs path s ≠ .done (0, ino) t
  | mknod .. | mkdir .. | unlink .. | link .. | chmod .. | chown .. | read .. | write .. | statfs .. | flush .. | fsync =>
      True

theorem rename_unwritten {source dest : List Byte} (ok : Unwritten s)
    (harmless : (Callback.rename source dest).Harmless env fs s) : Unwritten (opRename env fs source dest s).final := by
  unfold opRename
  cases src : doCheckSplit source with
  | error e => exact ok
  | ok both =>
      obtain ⟨pSrc, rSrc⟩ := both
      dsimp only
      cases dst : doCheckSplit dest with
      | error e =>
          dsimp only
          rw [Prog.get_bind_apply]
          exact .ite (fun _ => ok) fun _ => ok
      | ok halves =>
          obtain ⟨passable, missing⟩ := harmless pSrc rSrc halves src dst
          dsimp only
          refine .bind (readvnode_unwritten ok passable) fun r t found ok => .ite (fun _ => ok) fun here => ?_
          obtain ⟨rc, d⟩ := r
          obtain rfl := not_not.mp here
          exact absurd found (missing d t)

theorem rmdir_unwritten {path : List Byte} (ok : Unwritten s) (may : Unremovable env fs s path) :
    Unwritten (opRmdir env fs path s).final := by
  unfold opRmdir
  cases halves : doCheckSplit path with
  | error e => exact ok
  | ok both =>
      obtain ⟨pPath, rPath⟩ := both
      obtain ⟨passable, rest⟩ := may pPath rPath halves
      dsimp only
      refine .bind (readvnode_unwritten ok passable) fun r t found ok => .ite (fun _ => ok) fun here => ?_
      obtain ⟨rc, p⟩ := r
      obtain rfl := not_not.mp here
      obtain ⟨passable, missing⟩ := rest p t found
      refine .bind (readvnode_unwritten ok passable) fun r u looked ok => ?_
      obtain ⟨rc, d⟩ := r
      obtain ⟨lost, stays⟩ := missing rc d u looked
      dsimp only
      rw [if_pos lost]
      exact .bind (vnodePut_unwritten ok stays) fun _ _ _ ok => ok

theorem release_unwritten {fh : Nat} (ok : Unwritten s) (harmless : (Callback.release fh).Harmless env fs s) :
    Unwritten (opRelease env fs fh s).final := by
  refine .ite (fun _ => ok) fun _ => ?_
  rw [Prog.get_bind_apply]
  cases here : s.files fh with
  | none => exact ok
  | some file =>
      have clean := ok.clean fh file here
      refine .bind (.bind (.bind (ok.reads (flush_reads clean)) fun r t flushed ok => ?_) fun _ _ _ ok =>
        .ite (fun _ => ok) fun _ => ok) fun _ t _ ok => ?_
      · obtain ⟨k, rfl⟩ := (flush_reads clean).done flushed
        have same := flush_gives clean _ _ _ flushed
        subst same
        dsimp only
        rw [Prog.get_bind_apply, ok.ronly]
        exact .bind (vnodePut_unwritten ok fun v there => harmless file v here there) fun _ _ _ ok => ok
      · refine ⟨ok.ronly, fun i f there => ?_, ok.silent⟩
        change Function.update t.files fh none i = some f at there
        by_cases same : i = fh
        · rw [same, Function.update_self] at there
          cases there
        · rw [Function.update_of_ne same] at there
          exact ok.clean i f there

theorem callback_unwritten {c : Callback} (ok : Unwritten s) (harmless : c.Harmless env fs s) :
    Unwritten (c.run env fs s).final := by
  have getattr {path : List Byte} (may : Returnable env fs s path) : Unwritten (opFgetattr env fs path s).final := by
    refine .bind (readvnode_unwritten ok may.1) fun r t found ok => .ite (fun _ => ok) fun here => ?_
    obtain ⟨rc, ino⟩ := r
    obtain rfl := not_not.mp here
    refine .bind (ok.reads (vnode2inode_reads _)) fun i u read ok => ?_
    obtain ⟨k, rfl⟩ := (vnode2inode_reads _).done read
    exact .bind (vnodePut_unwritten ok fun v there => may.2 ino t v found there) fun _ _ _ ok => ok
  have guarded {x : M Int} : Unwritten ((do
      let s ← Prog.get
      if s.fsRonly then pure erofs else x : M Int) s).final := by
    rw [Prog.get_bind_apply, ok.ronly]
    exact ok
  cases c with
  | getattr path => exact .bind (.ite (fun _ => ok) fun good => getattr (harmless (not_not.mp good))) fun _ _ _ ok => ok
  | readlink path size =>
      refine .bind (.bind (readvnode_unwritten ok harmless.1) fun r t found ok => .ite (fun _ => ok) fun here => ?_)
        fun _ _ _ ok => ok
      obtain ⟨rc, ino⟩ := r
      obtain rfl := not_not.mp here
      refine .bind (ok.reads (vnode2inode_reads _)) fun i u read ok => ?_
      obtain ⟨k, rfl⟩ := (vnode2inode_reads _).done read
      refine .bind (ok.reads (readlinkTarget_reads _ _ _)) fun a u read ok => ?_
      obtain ⟨k', rfl⟩ := (readlinkTarget_reads _ _ _).done read
      exact .bind (vnodePut_unwritten ok fun v there => harmless.2 ino t v found there) fun _ _ _ ok => ok
  | mknod path mode dev => exact guarded
  | mkdir path mode => exact guarded
  | unlink path => exact guarded
  | rmdir path => exact rmdir_unwritten ok harmless
  | symlink target path =>
      refine .ite (fun _ => (create_unwritten ok harmless).1) fun _ => ?_
      obtain ⟨silent, failed⟩ := create_unwritten ok harmless
      refine .bind silent fun rc t run ok => .ite (fun _ => ok) fun fine => ?_
      obtain rfl := not_not.mp fine
      exact absurd run (failed t)
  | rename source dest => exact rename_unwritten ok harmless
  | link source dest => exact guarded
  | chmod path mode => exact guarded
  | chown path uid gid => exact guarded
  | truncate path length =>
      refine .ite (fun _ => ok) fun good => ?_
      have may := harmless (not_not.mp good)
      obtain ⟨silent, refused⟩ := open_unwritten ok ⟨may.1, fun _ => may⟩
      refine .bind silent fun file t run ok => ?_
      cases file with
      | none => exact ok
      | some file => exact absurd (refused file t run).1 (by decide)
  | openFile path w fh => exact (opOpen_unwritten ok harmless).1
  | read fh size offset =>
      refine .bind (withFile_unwritten ok fun file _ clean => ?_) fun _ _ _ ok => ok
      refine ⟨.bind (ok.reads (doRead_clean clean).1) fun _ _ _ ok => ok, fun a f t run => ?_⟩
      obtain ⟨r, u, read, run⟩ := Prog.bind_eq_done.mp run
      have clean' := (doRead_clean clean).2 _ _ _ read
      obtain ⟨same, -⟩ := Prog.pure_eq_done.mp run
      cases same
      exact clean'
  | write fh src size offset =>
      refine withFile_unwritten ok fun file _ clean => ?_
      obtain ⟨silent, gives⟩ := write_unwritten ok clean
      refine ⟨.bind silent fun _ _ _ ok => ok, fun a f t run => ?_⟩
      obtain ⟨⟨rc, g⟩, u, wrote, run⟩ := Prog.bind_eq_done.mp run
      have clean' := gives rc g u wrote
      obtain ⟨same, -⟩ := Prog.pure_eq_done.mp run
      cases same
      exact clean'
  | statfs path => exact ok
  | flush fh =>
      refine .ite (fun _ => ok) fun _ => withFile_unwritten ok fun file _ clean => ?_
      refine ⟨.bind (ok.reads (flush_reads clean)) fun _ _ _ ok => ok, fun a f t run => ?_⟩
      obtain ⟨r, u, flushed, run⟩ := Prog.bind_eq_done.mp run
      have same := flush_gives clean _ _ _ flushed
      subst same
      obtain ⟨same, -⟩ := Prog.pure_eq_done.mp run
      cases same
      exact clean
  | release fh => exact release_unwritten ok harmless
  | fsync => exact guarded
  | readdir path filler r =>
      obtain ⟨may, roomy⟩ := harmless
      refine .bind (.bind (readvnode_unwritten ok may.1) fun q t found ok => .ite (fun _ => ok) fun here => ?_)
        fun _ _ _ ok => ok
      obtain ⟨rc, ino⟩ := q
      obtain rfl := not_not.mp here
      obtain ⟨v, there, held⟩ := doReadvnode_held found
      obtain ⟨silent, same⟩ := readdir_unwritten ok there held (roomy ino t found)
      refine .bind silent fun q u walked ok => ?_
      refine .bind (vnodePut_unwritten ok fun w there' => ?_) fun _ _ _ ok => ok
      rw [same q u walked] at there'
      cases there'
      exact may.2 ino t v found there
  | destroy =>
      refine .bind ?_ fun _ _ _ ok => ok
      unfold opDestroy
      rw [Prog.get_bind_apply, show s.fsFmod = false from harmless]
      exact ok
  | access path mask =>
      change Unwritten (opAccess env fs path mask s).final
      unfold opAccess
      rw [Prog.get_bind_apply, ok.ronly]
      refine .ite (fun _ => ok) fun may => .ite (fun _ => ok) fun good => ?_
      have passable := harmless (not_not.mp fun asked => may ⟨asked, rfl⟩) (not_not.mp good)
      exact .bind (readvnode_unwritten ok passable) fun _ _ _ ok => .ite (fun _ => ok) fun _ =>
        .bind (ok.reads (vnode2inode_reads _)) fun _ _ _ ok => ok
  | create path mode w fh =>
      obtain ⟨may, none⟩ := harmless
      obtain ⟨silent, missing⟩ := opOpen_unwritten ok may
      refine .bind silent fun rc t run ok => .ite (fun _ => ok) fun failed => ?_
      obtain ⟨silent, not⟩ := create_unwritten ok (none t (missing rc t run failed))
      refine .bind silent fun rc u run ok => .ite (fun _ => ok) fun fine => ?_
      obtain rfl := not_not.mp fine
      exact absurd run (not u)
  | ftruncate fh length =>
      refine withFile_unwritten ok fun file here clean => ?_
      obtain ⟨silent, gives⟩ := grow_unwritten ok clean fun v there => harmless file v here there
      refine ⟨silent, fun rc f t run => ?_⟩
      rw [(gives rc f t run).1]
      exact clean
  | fgetattr path => exact .bind (getattr harmless) fun _ _ _ ok => ok
  | utimens path tv =>
      obtain ⟨passable, missing⟩ := harmless
      refine .bind (readvnode_unwritten ok passable) fun r t found ok => .ite (fun _ => ok) fun here => ?_
      obtain ⟨rc, ino⟩ := r
      obtain rfl := not_not.mp here
      exact absurd found (missing ino t)

/-! ## Runs -/

/-- Runs on a read-only mount whose calls are all harmless. -/
inductive ReadOnlyRun (fs : Superblock) : State → Prop
  | mount {env : Env} {s s' : State} (fresh : Event.bwrite ∉ s.log) (run : opInit env fs true s = .done () s') :
      ReadOnlyRun fs s'
  | call {env : Env} {s s' : State} {c : Callback} {r : Int} (before : ReadOnlyRun fs s) (harmless : c.Harmless env fs s)
      (run : c.run env fs s = .done r s') : ReadOnlyRun fs s'

/-- Mounting only reads. -/
theorem opInit_silent {readonly : Bool} (fresh : Event.bwrite ∉ s.log) :
    Event.bwrite ∉ (opInit env fs readonly s).final.log := by
  have silent : Keeps (fun s : State => Event.bwrite ∉ s.log) (opInit env fs readonly) :=
    .bind (fun _ h => h) fun _ => .ite
      (fun _ => .bind (.modify fun _ h => h) fun _ => .ite (fun _ => .halt) fun _ =>
        .bind (loadCsum_kept _ _ (fun _ _ _ h => h) _ _ _) fun _ => .modify fun _ h => h)
      fun _ => .halt
  exact silent s fresh

theorem opInit_unwritten (fresh : Event.bwrite ∉ s.log) (run : opInit env fs true s = .done () s') : Unwritten s' := by
  have silent : Event.bwrite ∉ (opInit env fs true s).final.log := opInit_silent fresh
  rw [run] at silent
  obtain ⟨ok, s₁, read, run⟩ := Prog.bind_eq_done.mp run
  split at run
  · rw [Prog.modify_bind_apply] at run
    split at run
    · cases run
    · obtain ⟨⟨⟩, s₂, loaded, run⟩ := Prog.bind_eq_done.mp run
      have closed : s₂.files = fun _ => none :=
        (loadCsum_kept _ (fun s => s.files = fun _ => none) (fun _ _ _ h => h) _ _ _).after loaded rfl
      cases run
      refine ⟨rfl, fun fh file there => ?_, silent⟩
      change s₂.files fh = some file at there
      rw [closed] at there
      cases there
  · cases run

theorem readOnlyRun_unwritten (run : ReadOnlyRun fs s) : Unwritten s := by
  induction run with
  | mount fresh run => exact opInit_unwritten fresh run
  | call before harmless run ih =>
      have left := callback_unwritten ih harmless
      rw [run] at left
      exact left

/-- On a read-only mount neither the mounting nor a run of harmless calls writes, and neither does a harmless call
    that ends the process. -/
theorem readOnly_silent (fs : Superblock) :
    (∀ (env : Env) (s : State), Event.bwrite ∉ s.log → Event.bwrite ∉ (opInit env fs true s).final.log) ∧
    ∀ s, ReadOnlyRun fs s → Event.bwrite ∉ s.log ∧
      ∀ (env : Env) (c : Callback), c.Harmless env fs s → Event.bwrite ∉ (c.run env fs s).final.log := by
  refine ⟨fun env s fresh => opInit_silent fresh, fun s run => ?_⟩
  have ok := readOnlyRun_unwritten run
  exact ⟨ok.silent, fun env c harmless => (callback_unwritten ok harmless).silent⟩

/-- The root is looked at on a read-only mount, and nothing is written. -/
theorem readOnly_silent_root : ∃ s, opInit calmEnv smallFs true bareRoot = .done () s ∧
    Event.bwrite ∉ ((Callback.fgetattr [slash]).run calmEnv smallFs s).final.log := by
  have run : ∃ s t v, opInit calmEnv smallFs true bareRoot = .done () s ∧
      doReadvnode calmEnv smallFs [slash] s = .done (0, rootino) t ∧ t.vnodes rootino = some v ∧ 0 < v.inode.iNlink :=
    ⟨_, _, _, rfl, rfl, rfl, by decide +kernel⟩
  obtain ⟨s, t, v, run, found, there, linked⟩ := run
  have mounted : ReadOnlyRun smallFs s := .mount (by simp [bareRoot, rootState, smallState]) run
  refine ⟨s, run, ((readOnly_silent smallFs).2 s mounted).2 calmEnv _ ⟨fun d u walks => ?_, fun ino u w found' there' => ?_⟩⟩
  · cases walks with
    | last some => exact absurd rfl some
  · rw [found] at found'
    cases found'
    rw [there] at there'
    cases there'
    exact .inl linked

/-- The times of the root are set on a read-only mount. -/
theorem readOnly_written : ∃ s t, Event.bwrite ∉ bareRoot.log ∧ opInit calmEnv smallFs true bareRoot = .done () s ∧
    (Callback.utimens [slash] (1, 2)).run calmEnv smallFs s = .done 0 t ∧ Event.bwrite ∈ t.log :=
  ⟨_, _, by simp [bareRoot, rootState, smallState], rfl, rfl, List.Mem.head _⟩

end FuseUfs
