import FuseUfs.Lib.Chains
import FuseUfs.VnodePut

/-! # The vnode table

Vnodes are found through 256 hash chains. `vnode_get` walks a chain and inserts at its head,
`vnode_put` takes a vnode out through the address of the pointer that leads to it. Here the
two are modelled with their pointers; elsewhere the table is a map from inode numbers, and
`TableOk` is what makes it one: one vnode for each inode that is referenced, in the chain of
its key, with its references counted.

The count is an `int`, so it counts up to `2 ^ 31 - 1` references to one inode.
-/

namespace FuseUfs

open Lib Prog Chains

def vnodeHashSize : Nat := 256

/-- The bucket of an inode; the address of the mount is part of it. -/
def vnodeHashKey (ufsp ino : Nat) : Nat := (ufsp + ino) % vnodeHashSize

/-- `struct ufs_vnode` without its links. -/
structure TableVnode where
  ino : Nat
  count : Int
  inode : Inode

/-- The process with its vnodes in memory; `core.vnodes` is not used but to hand one over. -/
structure Table where
  core : State
  chains : Chains Nat TableVnode

abbrev T := Prog Table

namespace Table

/-- Run something that takes no vnode. -/
def onCore {α : Type} (x : M α) : T α := fun t =>
  match x t.core with
  | .done r s => .done r { t with core := s }
  | .halt s => .halt { t with core := s }

/-- Run something on the vnode at address `a`: it sees that vnode only, and may change its
    inode. -/
def onVnode (a : Nat) (x : Nat → M Int) : T Int := fun t =>
  match t.chains.valueAt a with
  | none => .halt t
  | some v =>
      match x v.ino { t.core with
        vnodes := fun i => if i = v.ino then some ⟨v.inode, v.count.toNat⟩ else none } with
      | .halt s => .halt { t with core := s }
      | .done r s => .done r
          { core := s
            chains := t.chains.onValue a fun v =>
              { v with inode := (s.vnodes v.ino).elim v.inode Vnode.inode } }

section

variable (env : Env) (fs : Superblock) (ufsp : Nat)

/-- `new` is the address that `malloc` returns if it is called. The walk along the chain is
    given `fuel` steps. -/
def vnodeGet (fuel : Nat) (new : Option Nat) (ino : Nat) : T (Option Nat) := do
  let t ← Prog.get
  let key := vnodeHashKey ufsp ino
  match t.chains.find (fun v => v.ino == ino) fuel (t.chains.heads key) with
  | none => Prog.halt
  | some (some a) => do
      Prog.modify fun t => { t with
        chains := t.chains.onValue a fun v => { v with count := asInt32 (v.count + 1) } }
      pure (some a)
  | some none =>
      match new with
      | none => pure none
      | some a => do
          let din ← onCore (vnodeDinode env fs ino)
          Prog.modify fun t => { t with
            chains := t.chains.insert key a ⟨ino, 1, copyOndiskToIncore din ino⟩ }
          pure (some a)

/-- A vnode with one reference less. -/
def drop (dirty : Bool) (v : TableVnode) : TableVnode :=
  { v with
    count := asInt32 (v.count - 1)
    inode := if dirty then copyIncoreToOndisk fs v.inode else v.inode }

/-- What happens to the inode when the last reference goes. -/
def lastPut (a : Nat) (v : TableVnode) (dirty : Bool) : T Int :=
  if v.inode.iNlink < 1 then onVnode a (doKillfilebyinode env fs)
  else if dirty then onVnode a (ufsWriteInode env fs)
  else pure 0

def vnodePut (a : Nat) (dirty : Bool) : T Int := do
  Prog.modify fun t => { t with chains := t.chains.onValue a (drop fs dirty) }
  let t ← Prog.get
  match t.chains.valueAt a with
  | none => Prog.halt
  | some v =>
      if v.count ≤ 0 then do
        let rt ← lastPut env fs a v dirty
        Prog.modify fun t => { t with chains := t.chains.unlink a }
        pure rt
      else if dirty then onVnode a (ufsWriteInode env fs)
      else pure 0

end

end Table

/-! ## What holds of the table -/

/-- How many references to `ino` are out. -/
def outstanding (held : List (Nat × Nat)) (ino : Nat) : Nat := held.countP fun p => p.1 == ino

/-- The chains hold one vnode for each inode that is referenced, in the bucket of its key and
    with its references counted. `held` lists the references that are out, each with its inode
    and the address of its vnode. -/
structure TableOk (ufsp : Nat) (c : Chains Nat TableVnode) (held : List (Nat × Nat))
    (chain : Nat → List Nat) : Prop where
  linked : Linked c chain
  bucket : ∀ k a v, a ∈ chain k → c.valueAt a = some v → k = vnodeHashKey ufsp v.ino
  unique : ∀ a b v w, c.valueAt a = some v → c.valueAt b = some w → v.ino = w.ino → a = b
  holds : ∀ ino a, (ino, a) ∈ held → ∃ v, c.valueAt a = some v ∧ v.ino = ino
  count : ∀ a v, c.valueAt a = some v →
    v.count = outstanding held v.ino ∧ 0 < outstanding held v.ino
  few : ∀ ino, outstanding held ino < 2 ^ 31

variable {env : Env} {fs : Superblock} {ufsp ino a : Nat} {c : Chains Nat TableVnode}
  {held : List (Nat × Nat)} {chain : Nat → List Nat}

theorem outstanding_cons (ino a i : Nat) (held : List (Nat × Nat)) :
    outstanding ((ino, a) :: held) i = outstanding held i + if ino = i then 1 else 0 := by
  simp [outstanding, List.countP_cons]

theorem outstanding_erase {held : List (Nat × Nat)} (mem : (ino, a) ∈ held) (i : Nat) :
    outstanding (held.erase (ino, a)) i + (if ino = i then 1 else 0) = outstanding held i := by
  rw [← outstanding_cons ino a i]
  exact (List.perm_cons_erase mem).symm.countP_eq _

theorem outstanding_pos {held : List (Nat × Nat)} :
    0 < outstanding held ino ↔ ∃ a, (ino, a) ∈ held := by
  simp [outstanding, List.countP_pos_iff]

namespace TableOk

/-- A change of an inode changes nothing here. -/
theorem onValue (ok : TableOk ufsp c held chain) (a : Nat) (change : TableVnode → TableVnode)
    (sameIno : ∀ v, (change v).ino = v.ino) (sameCount : ∀ v, (change v).count = v.count) :
    TableOk ufsp (c.onValue a change) held chain := by
  have back : ∀ x v, (c.onValue a change).valueAt x = some v →
      ∃ w, c.valueAt x = some w ∧ v.ino = w.ino ∧ v.count = w.count := by
    intro x v here
    rw [valueAt_onValue] at here
    split at here
    · next same =>
      obtain ⟨w, there, rfl⟩ := Option.map_eq_some_iff.mp here
      exact ⟨w, same ▸ there, sameIno w, sameCount w⟩
    · exact ⟨v, here, rfl, rfl⟩
  refine ⟨ok.linked.onValue a change, fun k x v mem here => ?_, fun x y v w hx hy same => ?_,
    fun ino x mem => ?_, fun x v here => ?_, ok.few⟩
  · obtain ⟨w, there, ino, -⟩ := back x v here
    rw [ino]
    exact ok.bucket k x w mem there
  · obtain ⟨v', hx', inoX, -⟩ := back x v hx
    obtain ⟨w', hy', inoY, -⟩ := back y w hy
    exact ok.unique x y v' w' hx' hy' (inoX ▸ inoY ▸ same)
  · obtain ⟨v, there, hino⟩ := ok.holds ino x mem
    by_cases same : x = a
    · refine ⟨change v, ?_, (sameIno v).trans hino⟩
      rw [valueAt_onValue, if_pos same, ← same, there]
      rfl
    · exact ⟨v, by rw [valueAt_onValue, if_neg same, there], hino⟩
  · obtain ⟨w, there, ino, count⟩ := back x v here
    rw [ino, count]
    exact ok.count x w there

/-- The walk of `vnode_get` ends, at the vnode of the inode if there is one. -/
theorem find (ok : TableOk ufsp c held chain) {fuel : Nat}
    (enough : (chain (vnodeHashKey ufsp ino)).length < fuel) :
    (∃ a v, c.find (fun v => v.ino == ino) fuel (c.heads (vnodeHashKey ufsp ino)) = some (some a) ∧
      c.valueAt a = some v ∧ v.ino = ino) ∨
    (c.find (fun v => v.ino == ino) fuel (c.heads (vnodeHashKey ufsp ino)) = some none ∧
      ∀ a v, c.valueAt a = some v → v.ino ≠ ino) := by
  have walk : c.find (fun v => v.ino == ino) fuel (c.heads (vnodeHashKey ufsp ino)) = _ :=
    (ok.linked.seg (vnodeHashKey ufsp ino)).find (fun v => v.ino == ino) enough
  cases found : (chain (vnodeHashKey ufsp ino)).find? (c.wanted fun v => v.ino == ino) with
  | some a =>
      have want := List.find?_some found
      rw [wanted, Option.any_eq_true] at want
      obtain ⟨v, here, same⟩ := want
      exact .inl ⟨a, v, by rw [walk, found], here, by simpa using same⟩
  | none =>
      refine .inr ⟨by rw [walk, found], fun a v here same => ?_⟩
      obtain ⟨k, mem⟩ := ok.linked.place here
      have key := ok.bucket k a v mem here
      rw [same] at key
      rw [key] at mem
      have notWanted := List.find?_eq_none.mp found a mem
      rw [wanted, here] at notWanted
      exact notWanted (by simpa using same)

/-- One more reference to a vnode that is there. -/
theorem addRef (ok : TableOk ufsp c held chain) {v : TableVnode} (here : c.valueAt a = some v)
    (hino : v.ino = ino) (room : outstanding held ino + 1 < 2 ^ 31) :
    TableOk ufsp (c.onValue a fun v => { v with count := asInt32 (v.count + 1) })
      ((ino, a) :: held) chain := by
  have value : ∀ x w, (c.onValue a fun v => { v with count := asInt32 (v.count + 1) }).valueAt x = some w →
      ∃ u, c.valueAt x = some u ∧ w.ino = u.ino ∧
        w.count = u.count + if x = a then 1 else 0 := by
    intro x w there
    rw [valueAt_onValue] at there
    split at there
    · next same =>
      rw [here, Option.map_some] at there
      cases there
      have old := (ok.count a v here).1
      refine ⟨v, same ▸ here, rfl, ?_⟩
      have wrap : asInt32 (v.count + 1) = v.count + 1 := by
        rw [old]
        exact asInt32_of_lt (n := outstanding held v.ino + 1) (by rw [hino]; omega)
      rw [if_pos same]
      exact wrap
    · next ne => exact ⟨w, there, rfl, by simp [ne]⟩
  have mine : ∀ x u, c.valueAt x = some u → (x = a ↔ ino = u.ino) := by
    intro x u there
    constructor
    · rintro rfl
      rw [here] at there
      cases there
      exact hino.symm
    · exact fun same => ok.unique x a u v there here (same.symm.trans hino.symm)
  refine ⟨ok.linked.onValue a _, fun k x w mem there => ?_, fun x y w w' hx hy same => ?_,
    fun i x mem => ?_, fun x w there => ?_, fun i => ?_⟩
  · obtain ⟨u, was, sameIno, -⟩ := value x w there
    rw [sameIno]
    exact ok.bucket k x u mem was
  · obtain ⟨u, was, sameIno, -⟩ := value x w hx
    obtain ⟨u', was', sameIno', -⟩ := value y w' hy
    exact ok.unique x y u u' was was' (sameIno ▸ sameIno' ▸ same)
  · have there : ∃ u, c.valueAt x = some u ∧ u.ino = i := by
      rcases List.mem_cons.mp mem with first | later
      · cases first
        exact ⟨v, here, hino⟩
      · exact ok.holds i x later
    obtain ⟨u, was, hu⟩ := there
    rw [valueAt_onValue]
    by_cases same : x = a
    · rw [if_pos same, ← same, was]
      exact ⟨_, rfl, hu⟩
    · exact ⟨u, by rw [if_neg same, was], hu⟩
  · obtain ⟨u, was, sameIno, counted⟩ := value x w there
    obtain ⟨old, pos⟩ := ok.count x u was
    rw [sameIno, counted, outstanding_cons, old]
    by_cases same : x = a
    · rw [if_pos same, if_pos ((mine x u was).mp same)]
      omega
    · rw [if_neg same, if_neg fun e => same ((mine x u was).mpr e)]
      omega
  · rw [outstanding_cons]
    have old := ok.few i
    split
    · next same => rw [← same]; omega
    · exact old

/-- A vnode for an inode that had none. -/
theorem insert (ok : TableOk ufsp c held chain) (fresh : c.cells a = none)
    (absent : ∀ x v, c.valueAt x = some v → v.ino ≠ ino) (inode : Inode) :
    TableOk ufsp (c.insert (vnodeHashKey ufsp ino) a ⟨ino, 1, inode⟩) ((ino, a) :: held)
      (Function.update chain (vnodeHashKey ufsp ino) (a :: chain (vnodeHashKey ufsp ino))) := by
  have none : outstanding held ino = 0 := by
    rcases Nat.eq_zero_or_pos (outstanding held ino) with zero | some
    · exact zero
    · obtain ⟨x, mem⟩ := outstanding_pos.mp some
      obtain ⟨v, there, same⟩ := ok.holds ino x mem
      exact absurd same (absent x v there)
  have newAddr : ∀ x v, c.valueAt x = some v → x ≠ a := by
    rintro x v there rfl
    rw [valueAt, fresh] at there
    cases there
  have value : ∀ x v, (c.insert (vnodeHashKey ufsp ino) a ⟨ino, 1, inode⟩).valueAt x = some v →
      (x = a ∧ v = ⟨ino, 1, inode⟩) ∨ (x ≠ a ∧ c.valueAt x = some v) := by
    intro x v there
    rw [valueAt_insert] at there
    split at there
    · next same =>
      cases there
      exact .inl ⟨same, rfl⟩
    · next ne => exact .inr ⟨ne, there⟩
  refine ⟨ok.linked.insert fresh _, fun k x v mem there => ?_, fun x y v w hx hy same => ?_,
    fun i x mem => ?_, fun x v there => ?_, fun i => ?_⟩
  · rcases value x v there with ⟨first, rfl⟩ | ⟨ne, was⟩
    · by_cases key : k = vnodeHashKey ufsp ino
      · exact key
      · rw [Function.update_of_ne key, first] at mem
        obtain ⟨cell, here⟩ := (ok.linked.seg k).allocated mem
        rw [fresh] at here
        cases here
    · refine ok.bucket k x v ?_ was
      by_cases key : k = vnodeHashKey ufsp ino
      · rw [key, Function.update_self] at mem
        rw [key]
        exact (List.mem_cons.mp mem).resolve_left ne
      · rwa [Function.update_of_ne key] at mem
  · rcases value x v hx with ⟨first, rfl⟩ | ⟨-, wasX⟩
    · rcases value y w hy with ⟨second, rfl⟩ | ⟨-, wasY⟩
      · rw [first, second]
      · exact absurd same.symm (absent y w wasY)
    · rcases value y w hy with ⟨second, rfl⟩ | ⟨-, wasY⟩
      · exact absurd same (absent x v wasX)
      · exact ok.unique x y v w wasX wasY same
  · rcases List.mem_cons.mp mem with first | later
    · cases first
      exact ⟨⟨ino, 1, inode⟩, by rw [valueAt_insert, if_pos rfl], rfl⟩
    · obtain ⟨v, was, hv⟩ := ok.holds i x later
      exact ⟨v, by rw [valueAt_insert, if_neg (newAddr x v was), was], hv⟩
  · rw [outstanding_cons]
    rcases value x v there with ⟨-, rfl⟩ | ⟨-, was⟩
    · simp [none]
    · obtain ⟨count, pos⟩ := ok.count x v was
      rw [if_neg (Ne.symm (absent x v was)), count]
      omega
  · rw [outstanding_cons]
    have old := ok.few i
    split
    · next same => rw [← same, none]; decide
    · exact old

/-- The references that are out after one is given back. -/
theorem dropRef (fs : Superblock) (ok : TableOk ufsp c held chain) (mem : (ino, a) ∈ held) (dirty : Bool) :
    ∃ v, (c.onValue a (Table.drop fs dirty)).valueAt a = some v ∧ v.ino = ino ∧
      v.count = outstanding (held.erase (ino, a)) ino ∧
      (0 < outstanding (held.erase (ino, a)) ino →
        TableOk ufsp (c.onValue a (Table.drop fs dirty)) (held.erase (ino, a)) chain) := by
  obtain ⟨v, here, hino⟩ := ok.holds ino a mem
  obtain ⟨old, pos⟩ := ok.count a v here
  have less := outstanding_erase mem ino
  have few := ok.few ino
  rw [if_pos rfl] at less
  rw [hino] at old pos
  have wrap : asInt32 (v.count - 1) = outstanding (held.erase (ino, a)) ino := by
    rw [old, ← less]
    push_cast
    rw [add_sub_cancel_right]
    exact asInt32_of_lt (by omega)
  have mine : (c.onValue a (Table.drop fs dirty)).valueAt a = some (Table.drop fs dirty v) := by
    rw [valueAt_onValue, if_pos rfl, here]
    rfl
  have value : ∀ x w, (c.onValue a (Table.drop fs dirty)).valueAt x = some w →
      ∃ u, c.valueAt x = some u ∧ w.ino = u.ino ∧ (x = a → w = Table.drop fs dirty v) ∧
        (x ≠ a → w = u) := by
    intro x w there
    by_cases same : x = a
    · subst same
      rw [mine] at there
      cases there
      exact ⟨v, here, rfl, fun _ => rfl, fun ne => absurd rfl ne⟩
    · rw [valueAt_onValue, if_neg same] at there
      exact ⟨w, there, rfl, fun e => absurd e same, fun _ => rfl⟩
  refine ⟨_, mine, hino, wrap, fun left => ⟨ok.linked.onValue a _, fun k x w inChain there => ?_,
    fun x y w w' hx hy same => ?_, fun i x inHeld => ?_, fun x w there => ?_, fun i => ?_⟩⟩
  · obtain ⟨u, was, sameIno, -⟩ := value x w there
    rw [sameIno]
    exact ok.bucket k x u inChain was
  · obtain ⟨u, was, sameIno, -⟩ := value x w hx
    obtain ⟨u', was', sameIno', -⟩ := value y w' hy
    exact ok.unique x y u u' was was' (sameIno ▸ sameIno' ▸ same)
  · obtain ⟨u, was, hu⟩ := ok.holds i x (List.mem_of_mem_erase inHeld)
    rw [valueAt_onValue]
    by_cases same : x = a
    · rw [if_pos same, ← same, was]
      exact ⟨_, rfl, hu⟩
    · exact ⟨u, by rw [if_neg same, was], hu⟩
  · obtain ⟨u, was, sameIno, atA, elsewhere⟩ := value x w there
    by_cases same : x = a
    · rw [atA same]
      refine ⟨?_, ?_⟩
      · rw [show (Table.drop fs dirty v).ino = ino from hino]
        exact wrap
      · rw [show (Table.drop fs dirty v).ino = ino from hino]
        exact left
    · have other : ino ≠ u.ino := fun e =>
        same (ok.unique x a u v was here (e.symm.trans hino.symm))
      have unchanged := outstanding_erase mem u.ino
      rw [if_neg other, Nat.add_zero] at unchanged
      rw [elsewhere same, unchanged]
      exact ok.count x u was
  · have := outstanding_erase mem i
    have := ok.few i
    omega

/-- The last reference is given back: the vnode goes. -/
theorem unlink (ok : TableOk ufsp c held chain) (mem : (ino, a) ∈ held)
    (last : outstanding (held.erase (ino, a)) ino = 0) {c' : Chains Nat TableVnode} {k : Nat}
    (linked : Linked c' chain) (inChain : a ∈ chain k)
    (value : ∀ x, x ≠ a → c'.valueAt x = c.valueAt x) :
    TableOk ufsp (c'.unlink a) (held.erase (ino, a))
      (Function.update chain k ((chain k).erase a)) := by
  obtain ⟨cell, there⟩ := (linked.seg k).allocated inChain
  have here : c'.valueAt a = some cell.value := by rw [valueAt, there]; rfl
  obtain ⟨v, old, hino⟩ := ok.holds ino a mem
  have back : ∀ x w, (c'.unlink a).valueAt x = some w → x ≠ a ∧ c.valueAt x = some w := by
    intro x w was
    rw [valueAt_unlink here] at was
    split at was
    · cases was
    · next ne => exact ⟨ne, (value x ne).symm.trans was⟩
  refine ⟨linked.unlink inChain, fun j x w inChain' was => ?_, fun x y w w' hx hy same => ?_,
    fun i x inHeld => ?_, fun x w was => ?_, fun i => ?_⟩
  · refine ok.bucket j x w ?_ (back x w was).2
    by_cases same : j = k
    · rw [same, Function.update_self] at inChain'
      rw [same]
      exact List.mem_of_mem_erase inChain'
    · rwa [Function.update_of_ne same] at inChain'
  · exact ok.unique x y w w' (back x w hx).2 (back y w' hy).2 same
  · obtain ⟨u, was, hu⟩ := ok.holds i x (List.mem_of_mem_erase inHeld)
    have ne : x ≠ a := by
      rintro rfl
      -- then another reference to `ino` would be out
      rw [old] at was
      cases was
      have more := outstanding_pos.mpr ⟨x, inHeld⟩
      rw [← hu, hino, last] at more
      exact absurd more (Nat.lt_irrefl 0)
    exact ⟨u, by rw [valueAt_unlink here, if_neg ne, value x ne, was], hu⟩
  · obtain ⟨ne, was⟩ := back x w was
    have other : ino ≠ w.ino := fun e => ne (ok.unique x a w v was old (e.symm.trans hino.symm))
    have unchanged := outstanding_erase mem w.ino
    rw [if_neg other, Nat.add_zero] at unchanged
    rw [unchanged]
    exact ok.count x w was
  · have := outstanding_erase mem i
    have := ok.few i
    omega

end TableOk

/-! ## Runs -/

/-- Tables reached from an empty one by any interleaving of `vnode_get` and `vnode_put` calls, in
    which each put gives back a reference that is out. `room` limits how many references to an
    inode may be out before one more is taken. Between the calls the holder of a reference
    may change the inode, and anything may happen to the rest of the process. -/
inductive TableRun (fs : Superblock) (ufsp : Nat) (room : Nat → Prop) : Table → List (Nat × Nat) → Prop
  | start {t : Table} (heads : ∀ k, t.chains.heads k = none) (cells : ∀ a, t.chains.cells a = none) :
      TableRun fs ufsp room t []
  | get {t t' : Table} {held : List (Nat × Nat)} {env : Env} {fuel ino a : Nat} {new : Option Nat}
      (run : TableRun fs ufsp room t held) (fresh : ∀ b, new = some b → t.chains.cells b = none)
      (few : room (outstanding held ino))
      (call : Table.vnodeGet env fs ufsp fuel new ino t = .done (some a) t') :
      TableRun fs ufsp room t' ((ino, a) :: held)
  | getNull {t t' : Table} {held : List (Nat × Nat)} {env : Env} {fuel ino : Nat} {new : Option Nat}
      (run : TableRun fs ufsp room t held)
      (call : Table.vnodeGet env fs ufsp fuel new ino t = .done none t') : TableRun fs ufsp room t' held
  | put {t t' : Table} {held : List (Nat × Nat)} {env : Env} {ino a : Nat} {dirty : Bool} {rc : Int}
      (run : TableRun fs ufsp room t held) (out : (ino, a) ∈ held)
      (call : Table.vnodePut env fs a dirty t = .done rc t') :
      TableRun fs ufsp room t' (held.erase (ino, a))
  | edit {t : Table} {held : List (Nat × Nat)} {ino a : Nat} (run : TableRun fs ufsp room t held)
      (out : (ino, a) ∈ held) (change : Inode → Inode) (core : State) :
      TableRun fs ufsp room
        { core := core
          chains := t.chains.onValue a fun v => { v with inode := change v.inode } } held

/-- Whatever runs on a vnode changes at most its inode. -/
theorem onVnode_chains {x : Nat → M Int} {t t' : Table} {r : Int}
    (call : Table.onVnode a x t = .done r t') :
    ∃ change : TableVnode → Inode,
      t'.chains = t.chains.onValue a fun v => { v with inode := change v } := by
  unfold Table.onVnode at call
  split at call
  · cases call
  · split at call
    · cases call
    · next s _ =>
      cases call
      exact ⟨fun v => (s.vnodes v.ino).elim v.inode Vnode.inode, rfl⟩

/-- What a call on the vnode leaves of the table. -/
theorem lastPut_chains {t t' : Table} {v : TableVnode} {dirty : Bool} {rc : Int}
    (call : Table.lastPut env fs a v dirty t = .done rc t') :
    ∃ change : TableVnode → Inode,
      (t'.chains = t.chains.onValue a fun v => { v with inode := change v }) ∨ t'.chains = t.chains := by
  unfold Table.lastPut at call
  split at call
  · obtain ⟨change, same⟩ := onVnode_chains call
    exact ⟨change, .inl same⟩
  · split at call
    · obtain ⟨change, same⟩ := onVnode_chains call
      exact ⟨change, .inl same⟩
    · cases call
      exact ⟨TableVnode.inode, .inr rfl⟩

/-- `vnode_get` on a table in order. -/
theorem tableGet_spec {t : Table} (ok : TableOk ufsp t.chains held chain) {fuel : Nat}
    (enough : (chain (vnodeHashKey ufsp ino)).length < fuel) (new : Option Nat) :
    (∃ a v, t.chains.valueAt a = some v ∧ v.ino = ino ∧
      Table.vnodeGet env fs ufsp fuel new ino t = .done (some a) { t with
        chains := t.chains.onValue a fun v => { v with count := asInt32 (v.count + 1) } }) ∨
    ((∀ a v, t.chains.valueAt a = some v → v.ino ≠ ino) ∧ ∃ s inode,
      Table.vnodeGet env fs ufsp fuel new ino t = .done new
        { core := s
          chains := new.elim t.chains fun a =>
            t.chains.insert (vnodeHashKey ufsp ino) a ⟨ino, 1, inode⟩ }) := by
  unfold Table.vnodeGet
  simp only [Prog.get_bind_apply]
  rcases ok.find enough with ⟨a, v, walk, here, hino⟩ | ⟨walk, absent⟩
  · rw [walk]
    exact .inl ⟨a, v, here, hino, rfl⟩
  · rw [walk]
    refine .inr ⟨absent, ?_⟩
    cases new with
    | none => exact ⟨t.core, copyOndiskToIncore blankDinode ino, rfl⟩
    | some a =>
        have read : ∃ din s, vnodeDinode env fs ino t.core = .done din s := by
          unfold vnodeDinode
          split
          · obtain ⟨n, b, lo, hi, load⟩ := loadInoblock_total env fs ino t.core
            rw [getino, Prog.bind_of_done load]
            exact ⟨_, _, rfl⟩
          · exact ⟨_, _, rfl⟩
        obtain ⟨din, s, read⟩ := read
        have onCore : Table.onCore (vnodeDinode env fs ino) t = .done din { t with core := s } := by
          rw [Table.onCore, read]
        refine ⟨s, copyOndiskToIncore din ino, ?_⟩
        simp only [Prog.bind_of_done onCore]
        rfl

/-- A walk that has ended does not care for more steps. -/
theorem find_more {want : TableVnode → Bool} : ∀ {fuel : Nat} {p r : Option Nat},
    c.find want fuel p = some r → ∀ more, c.find want (fuel + more) p = some r
  | 0, _, _, ended, _ => by cases ended
  | fuel + 1, none, r, ended, more => by
      rw [Nat.add_right_comm]
      exact ended
  | fuel + 1, some a, r, ended, more => by
      rw [Nat.add_right_comm, Chains.find]
      rw [Chains.find] at ended
      cases here : c.cells a with
      | none => rw [here] at ended; cases ended
      | some cell =>
          rw [here] at ended
          simp only at ended ⊢
          split at ended
          · next w => rw [if_pos w]; exact ended
          · next w => rw [if_neg w]; exact find_more ended more

/-- A call that has returned would have returned the same with more steps for its walk. -/
theorem tableGet_more {t t' : Table} {fuel : Nat} {new r : Option Nat}
    (call : Table.vnodeGet env fs ufsp fuel new ino t = .done r t') (more : Nat) :
    Table.vnodeGet env fs ufsp (fuel + more) new ino t = .done r t' := by
  unfold Table.vnodeGet at call ⊢
  simp only [Prog.get_bind_apply] at call ⊢
  cases walk : t.chains.find (fun v => v.ino == ino) fuel (t.chains.heads (vnodeHashKey ufsp ino)) with
  | none => rw [walk] at call; cases call
  | some found =>
      rw [walk] at call
      rw [find_more walk more]
      exact call

theorem tableRun_tableOk {t : Table} (run : TableRun fs ufsp (· + 1 < 2 ^ 31) t held) :
    ∃ chain, TableOk ufsp t.chains held chain := by
  induction run with
  | start heads cells =>
      have empty : ∀ a, Chains.valueAt _ a = none := fun a => by rw [valueAt, cells a]; rfl
      refine ⟨fun _ => [], ⟨fun k => .nil (heads k), fun _ => List.nodup_nil, ?_, ?_⟩, ?_, ?_, ?_, ?_, ?_⟩
      · intro k k' a mem
        cases mem
      · intro a cell here
        rw [cells a] at here
        cases here
      · intro k a v mem
        cases mem
      · intro a b v w here
        rw [empty a] at here
        cases here
      · intro ino a mem
        cases mem
      · intro a v here
        rw [empty a] at here
        cases here
      · intro ino
        exact Nat.two_pow_pos 31
  | @get t t' held env fuel ino a new run fresh few call ih =>
      obtain ⟨chain, ok⟩ := ih
      have longer := tableGet_more call ((chain (vnodeHashKey ufsp ino)).length + 1)
      rcases tableGet_spec ok (by omega : (chain (vnodeHashKey ufsp ino)).length
        < fuel + ((chain (vnodeHashKey ufsp ino)).length + 1)) new with
        ⟨b, v, here, hino, ran⟩ | ⟨absent, s, inode, ran⟩
      · rw [longer] at ran
        cases ran
        exact ⟨chain, ok.addRef here hino few⟩
      · rw [longer] at ran
        cases ran
        exact ⟨_, ok.insert (fresh a rfl) absent inode⟩
  | @getNull t t' held env fuel ino new run call ih =>
      obtain ⟨chain, ok⟩ := ih
      have longer := tableGet_more call ((chain (vnodeHashKey ufsp ino)).length + 1)
      rcases tableGet_spec ok (by omega : (chain (vnodeHashKey ufsp ino)).length
        < fuel + ((chain (vnodeHashKey ufsp ino)).length + 1)) new with
        ⟨b, v, here, hino, ran⟩ | ⟨absent, s, inode, ran⟩
      · rw [longer] at ran
        cases ran
      · rw [longer] at ran
        cases ran
        exact ⟨chain, ok⟩
  | @put t t' held env ino a dirty rc run out call ih =>
      obtain ⟨chain, ok⟩ := ih
      obtain ⟨v, here, hino, count, left⟩ := ok.dropRef fs out dirty
      unfold Table.vnodePut at call
      simp only [Prog.modify_bind_apply, Prog.get_bind_apply, here] at call
      by_cases last : v.count ≤ 0
      · rw [if_pos last] at call
        have zero : outstanding (held.erase (ino, a)) ino = 0 := by omega
        obtain ⟨rt, t₁, ran, call⟩ := Prog.bind_eq_done.mp call
        cases call
        obtain ⟨v₀, was, -⟩ := ok.holds ino a out
        obtain ⟨k, inChain⟩ := ok.linked.place was
        have linked := ok.linked.onValue a (Table.drop fs dirty)
        have value : ∀ x, x ≠ a → (t.chains.onValue a (Table.drop fs dirty)).valueAt x
            = t.chains.valueAt x := fun x ne => by rw [valueAt_onValue, if_neg ne]
        refine ⟨_, ok.unlink out zero (k := k) ?_ inChain fun x ne => ?_⟩
        · obtain ⟨change, same | same⟩ := lastPut_chains ran
          · rw [same]
            exact linked.onValue a _
          · rw [same]
            exact linked
        · obtain ⟨change, same | same⟩ := lastPut_chains ran
          · rw [same, valueAt_onValue, if_neg ne]
            exact value x ne
          · rw [same]
            exact value x ne
      · rw [if_neg last] at call
        have okLeft := left (by omega)
        split at call
        · obtain ⟨change, same⟩ := onVnode_chains call
          rw [same]
          exact ⟨chain, okLeft.onValue a _ (fun _ => rfl) fun _ => rfl⟩
        · cases call
          exact ⟨chain, okLeft⟩
  | edit run out change core ih =>
      obtain ⟨chain, ok⟩ := ih
      exact ⟨chain, ok.onValue _ (fun v => { v with inode := change v.inode }) (fun _ => rfl) fun _ => rfl⟩

/-- At every point of a run in which no inode has `2 ^ 31` references out, the table is in order,
    and `vnode_get` of an inode that is referenced comes to an end and returns the vnode that
    all its references lead to, with the inode as it is in core. -/
theorem tableRun_ok {t : Table} (run : TableRun fs ufsp (· + 1 < 2 ^ 31) t held) :
    ∃ chain, TableOk ufsp t.chains held chain ∧
      ∀ (env : Env) (ino a fuel : Nat) (new : Option Nat), (ino, a) ∈ held →
        (chain (vnodeHashKey ufsp ino)).length < fuel →
        ∃ t', Table.vnodeGet env fs ufsp fuel new ino t = .done (some a) t' ∧ t'.core = t.core ∧
          (t'.chains.valueAt a).map TableVnode.inode = (t.chains.valueAt a).map TableVnode.inode := by
  obtain ⟨chain, ok⟩ := tableRun_tableOk run
  refine ⟨chain, ok, fun env ino a fuel new out enough => ?_⟩
  obtain ⟨v, here, hino⟩ := ok.holds ino a out
  rcases tableGet_spec ok enough new with ⟨b, w, there, same, ran⟩ | ⟨absent, -⟩
  · obtain rfl : b = a := ok.unique b a w v there here (same.trans hino.symm)
    refine ⟨_, ran, rfl, ?_⟩
    rw [valueAt_onValue, if_pos rfl, Option.map_map]
    rfl
  · exact absurd hino (absent a v here)

/-! ## Counting past the end of an `int` -/

/-- A table with one vnode, of inode 3, in bucket 3. -/
def oneVnodeTable (count : Int) (inode : Inode) : Chains Nat TableVnode where
  heads := fun k => if k = 3 then some 0 else none
  cells := fun a => if a = 0 then some ⟨none, .head 3, ⟨3, count, inode⟩⟩ else none

theorem insert_oneVnode (inode : Inode) :
    Chains.insert ⟨fun _ => none, fun _ => none⟩ 3 0 ⟨3, 1, inode⟩ = oneVnodeTable 1 inode := by
  simp only [Chains.insert, Chains.setPprev, oneVnodeTable]
  congr 1
  · funext k
    exact Function.update_apply ..
  · funext a
    exact Function.update_apply ..

theorem addRef_oneVnode (count : Int) (inode : Inode) :
    (oneVnodeTable count inode).onValue 0 (fun v => { v with count := asInt32 (v.count + 1) })
      = oneVnodeTable (asInt32 (count + 1)) inode := by
  simp only [Chains.onValue, Chains.onCell, oneVnodeTable]
  congr 1
  funext a
  rw [Function.update_apply]
  split <;> rfl

/-- So many calls of `vnode_get` for inode 3, one after the other. -/
theorem gets (room : Nat → Prop) : ∀ n, (∀ k ≤ n, room k) → ∃ t held inode,
    TableRun smallFs 0 room t held ∧ outstanding held 3 = n + 1 ∧ (3, 0) ∈ held ∧
      t.chains = oneVnodeTable (asInt32 (n + 1 : Nat)) inode
  | 0, all => by
      have start : TableRun smallFs 0 room ⟨smallState, ⟨fun _ => none, fun _ => none⟩⟩ [] :=
        .start (fun _ => rfl) fun _ => rfl
      have call : ∃ t, Table.vnodeGet calmEnv smallFs 0 1 (some 0) 3
          ⟨smallState, ⟨fun _ => none, fun _ => none⟩⟩ = .done (some 0) t ∧
          t.chains = oneVnodeTable 1 (copyOndiskToIncore blankDinode 3) := by
        exact ⟨_, rfl, insert_oneVnode _⟩
      obtain ⟨t, call, one⟩ := call
      exact ⟨t, [(3, 0)], _, .get start (fun _ _ => rfl) (all 0 le_rfl) call, rfl,
        List.mem_cons_self, one⟩
  | n + 1, all => by
      obtain ⟨t, held, inode, run, out, mem, one⟩ := gets room n fun k hk => all k (by omega)
      have call : Table.vnodeGet calmEnv smallFs 0 1 none 3 t = .done (some 0) { t with
          chains := oneVnodeTable (asInt32 (n + 1 + 1 : Nat)) inode } := by
        have walk : t.chains.find (fun v => v.ino == 3) 1 (t.chains.heads (vnodeHashKey 0 3))
            = some (some 0) := by rw [one]; rfl
        have wrap : asInt32 (asInt32 (n + 1 : Nat) + 1) = asInt32 (n + 1 + 1 : Nat) := by
          unfold asInt32
          rw [Int.bmod_add_bmod, ← Nat.cast_succ]
        unfold Table.vnodeGet
        simp only [Prog.get_bind_apply, walk, Prog.modify_bind_apply, Prog.pure_apply]
        rw [one, addRef_oneVnode, wrap]
      refine ⟨_, (3, 0) :: held, inode, .get run (fun _ none => by cases none) ?_ call, ?_,
        List.mem_cons_self, rfl⟩
      · rw [out]
        exact all (n + 1) le_rfl
      · rw [outstanding_cons, out, if_pos rfl]

theorem tableRun_ok_three : ∃ t held, TableRun smallFs 0 (· + 1 < 2 ^ 31) t held ∧
    outstanding held 3 = 3 ∧ ∃ chain, TableOk 0 t.chains held chain := by
  obtain ⟨t, held, inode, run, out, -, -⟩ := gets (· + 1 < 2 ^ 31) 2 fun k hk => by omega
  obtain ⟨chain, ok, -⟩ := tableRun_ok run
  exact ⟨t, held, run, out, chain, ok⟩

/-- After `2 ^ 31` calls the count is below 0, so that the next `vnode_put` would free a vnode
    that is still referenced. -/
theorem tableRun_fails_wrap : ∃ t held v, TableRun smallFs 0 (fun _ => True) t held ∧
    t.chains.valueAt 0 = some v ∧ v.ino = 3 ∧ outstanding held 3 = 2 ^ 31 ∧ v.count < 0 := by
  obtain ⟨n, hn⟩ : ∃ n, n + 1 = 2 ^ 31 := ⟨2 ^ 31 - 1, by norm_num⟩
  obtain ⟨t, held, inode, run, out, -, one⟩ := gets (fun _ => True) n fun _ _ => trivial
  have many : outstanding held 3 = 2 ^ 31 := by rw [out, hn]
  have there : t.chains.valueAt 0 = some ⟨3, asInt32 (n + 1 : Nat), inode⟩ := by rw [one]; rfl
  refine ⟨t, held, _, run, there, rfl, many, ?_⟩
  simp only [hn]
  decide +kernel

end FuseUfs
