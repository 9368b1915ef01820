import Mathlib.Data.List.Nodup
import Mathlib.Logic.Function.Basic

/-! # Hash chains through pointers

A table of bucket heads and cells in memory. Every cell holds the pointer to the next cell
of its chain and the address of the pointer that leads to it, which is a bucket head or the
`next` field of another cell. A cell is inserted at the head of a bucket and taken out
through the address it keeps, without a walk along the chain.

`Linked` says which cells make up the chains, in order; insertion and removal act on those
lists as `cons` and `erase`.
-/

namespace FuseUfs.Lib

/-- Where a pointer to a cell is stored. -/
inductive Link (α : Type) where
  | head (bucket : Nat)
  | next (cell : α)
  deriving DecidableEq

structure ChainCell (α β : Type) where
  nexthash : Option α
  pprevhash : Link α
  value : β

/-- Bucket heads and the cells that are allocated. -/
structure Chains (α β : Type) where
  heads : Nat → Option α
  cells : α → Option (ChainCell α β)

namespace Chains

variable {α β : Type} [DecidableEq α]

/-- The pointer at a link. -/
def read (c : Chains α β) : Link α → Option α
  | .head k => c.heads k
  | .next a => (c.cells a).bind ChainCell.nexthash

/-- Change a cell, if it is allocated. -/
def onCell (c : Chains α β) (a : α) (change : ChainCell α β → ChainCell α β) : Chains α β :=
  { c with cells := Function.update c.cells a ((c.cells a).map change) }

/-- Store a pointer at a link. -/
def write (c : Chains α β) : Link α → Option α → Chains α β
  | .head k, p => { c with heads := Function.update c.heads k p }
  | .next a, p => c.onCell a fun cell => { cell with nexthash := p }

/-- The cell a pointer leads to, if any, is led to from link `l` now. -/
def setPprev (c : Chains α β) (p : Option α) (l : Link α) : Chains α β :=
  match p with
  | some b => c.onCell b fun cell => { cell with pprevhash := l }
  | none => c

/-- Change the value of a cell. -/
def onValue (c : Chains α β) (a : α) (change : β → β) : Chains α β :=
  c.onCell a fun cell => { cell with value := change cell.value }

/-- A new cell at the head of bucket `k`. -/
def insert (c : Chains α β) (k : Nat) (a : α) (v : β) : Chains α β :=
  let c := c.setPprev (c.heads k) (.next a)
  { heads := Function.update c.heads k (some a)
    cells := Function.update c.cells a (some ⟨c.heads k, .head k, v⟩) }

/-- Take a cell out of its chain and free it. -/
def unlink (c : Chains α β) (a : α) : Chains α β :=
  match c.cells a with
  | none => c
  | some cell =>
      let c := (c.write cell.pprevhash cell.nexthash).setPprev cell.nexthash cell.pprevhash
      { c with cells := Function.update c.cells a none }

/-- Follow a chain to the first cell wanted. The outer `none` is a walk that has not come to an
    end, or has met a wild pointer. -/
def find (c : Chains α β) (want : β → Bool) : (fuel : Nat) → Option α → Option (Option α)
  | 0, _ => none
  | _ + 1, none => some none
  | fuel + 1, some a =>
      match c.cells a with
      | none => none
      | some cell => if want cell.value then some (some a) else find c want fuel cell.nexthash

/-! ## Chains in order -/

/-- From link `l` on, the pointers lead through exactly these cells, and each of them has the
    address of the link that leads to it. -/
inductive Seg (c : Chains α β) : Link α → List α → Prop
  | nil {l : Link α} (stop : c.read l = none) : Seg c l []
  | cons {l : Link α} {a : α} {as : List α} {cell : ChainCell α β} (leads : c.read l = some a)
      (here : c.cells a = some cell) (back : cell.pprevhash = l) (rest : Seg c (.next a) as) :
      Seg c l (a :: as)

/-- The chains of all buckets: they share no cell, and every allocated cell is in one. -/
structure Linked (c : Chains α β) (chain : Nat → List α) : Prop where
  seg : ∀ k, Seg c (.head k) (chain k)
  nodup : ∀ k, (chain k).Nodup
  apart : ∀ k k' a, a ∈ chain k → a ∈ chain k' → k = k'
  all : ∀ a cell, c.cells a = some cell → ∃ k, a ∈ chain k

variable {c c' : Chains α β} {l : Link α} {as : List α} {a : α} {chain : Nat → List α}

omit [DecidableEq α] in
theorem Seg.allocated (seg : Seg c l as) (mem : a ∈ as) : ∃ cell, c.cells a = some cell := by
  induction seg with
  | nil stop => cases mem
  | cons leads here back rest ih =>
      cases mem with
      | head => exact ⟨_, here⟩
      | tail _ mem => exact ih mem

omit [DecidableEq α] in
/-- A chain that is not touched stays. -/
theorem Seg.congr (seg : Seg c l as) (start : c'.read l = c.read l)
    (cells : ∀ a ∈ as, c'.cells a = c.cells a) : Seg c' l as := by
  induction seg with
  | nil stop => exact .nil (start.trans stop)
  | cons leads here back rest ih =>
      have same := cells _ List.mem_cons_self
      refine .cons (start.trans leads) (same.trans here) back (ih ?_ fun b hb => ?_)
      · rw [read, read, same]
      · exact cells b (List.mem_cons_of_mem _ hb)

omit [DecidableEq α] in
/-- The link to a cell of a chain is the start of the chain or lies in a cell of it. -/
theorem Seg.pprev_mem {cell : ChainCell α β} (seg : Seg c l as) (mem : a ∈ as)
    (here : c.cells a = some cell) : cell.pprevhash = l ∨ ∃ p ∈ as, cell.pprevhash = .next p := by
  induction seg with
  | nil stop => cases mem
  | @cons l b bs cellb leads hereb back rest ih =>
      cases mem with
      | head =>
          rw [hereb] at here
          cases here
          exact .inl back
      | tail _ mem =>
          rcases ih mem with first | ⟨p, hp, link⟩
          · exact .inr ⟨b, List.mem_cons_self, first⟩
          · exact .inr ⟨p, List.mem_cons_of_mem _ hp, link⟩

omit [DecidableEq α] in
/-- The pointer of a cell stays in its chain. -/
theorem Seg.next_mem {cell : ChainCell α β} {b : α} (seg : Seg c l as) (mem : a ∈ as)
    (here : c.cells a = some cell) (next : cell.nexthash = some b) : b ∈ as := by
  induction seg with
  | nil stop => cases mem
  | @cons l x xs cellx leads herex back rest ih =>
      cases mem with
      | head =>
          rw [herex] at here
          cases here
          cases rest with
          | nil stop =>
              rw [read, herex, Option.bind_some, next] at stop
              cases stop
          | @cons _ y ys celly leads' here' back' rest' =>
              rw [read, herex, Option.bind_some, next] at leads'
              cases leads'
              exact List.mem_cons_of_mem _ List.mem_cons_self
      | tail _ mem => exact List.mem_cons_of_mem _ (ih mem)

/-! ## A value changes -/

theorem cells_onCell (change : ChainCell α β → ChainCell α β) (x : α) :
    (c.onCell a change).cells x = if x = a then (c.cells a).map change else c.cells x := by
  simp only [onCell]
  by_cases same : x = a
  · rw [same, if_pos rfl, Function.update_self]
  · rw [if_neg same, Function.update_of_ne same]

theorem Seg.onValue (seg : Seg c l as) (change : β → β) : Seg (c.onValue a change) l as := by
  have reads : ∀ l, (c.onValue a change).read l = c.read l := by
    intro l
    cases l with
    | head k => rfl
    | next x =>
        rw [read, read, Chains.onValue, cells_onCell]
        split
        · next same => rw [same]; cases c.cells a <;> rfl
        · rfl
  induction seg with
  | nil stop => exact .nil ((reads _).trans stop)
  | @cons l b bs cell leads here back rest ih =>
      by_cases same : b = a
      · have changed : (c.onValue a change).cells b = some { cell with value := change cell.value } := by
          rw [Chains.onValue, cells_onCell, if_pos same, ← same, here]
          rfl
        exact .cons ((reads _).trans leads) changed back ih
      · refine .cons ((reads _).trans leads) ?_ back ih
        rw [Chains.onValue, cells_onCell, if_neg same, here]

theorem Linked.onValue (linked : Linked c chain) (a : α) (change : β → β) :
    Linked (c.onValue a change) chain := by
  refine ⟨fun k => (linked.seg k).onValue change, linked.nodup, linked.apart, fun x cell here => ?_⟩
  rw [Chains.onValue, cells_onCell] at here
  split at here
  · next same =>
    obtain ⟨old, there, -⟩ := Option.map_eq_some_iff.mp here
    rw [same]
    exact linked.all a old there
  · exact linked.all x cell here

/-! ## Insertion -/

theorem cells_setPprev (p : Option α) (l : Link α) (x : α) :
    (c.setPprev p l).cells x
      = if p = some x then (c.cells x).map fun cell => { cell with pprevhash := l } else c.cells x := by
  cases p with
  | none => rfl
  | some b =>
      rw [setPprev, cells_onCell]
      by_cases same : x = b
      · rw [if_pos same, if_pos (by rw [same]), same]
      · rw [if_neg same, if_neg (by simpa using Ne.symm same)]

theorem heads_setPprev (p : Option α) (l : Link α) : (c.setPprev p l).heads = c.heads := by
  cases p <;> rfl

/-- A cell after an insertion: the new one, the former head of the bucket, or as before. -/
theorem cells_insert (k : Nat) (a : α) (v : β) (x : α) :
    (c.insert k a v).cells x
      = if x = a then some ⟨c.heads k, .head k, v⟩
        else if c.heads k = some x then (c.cells x).map fun cell => { cell with pprevhash := .next a }
        else c.cells x := by
  simp only [insert]
  by_cases same : x = a
  · rw [if_pos same, same, Function.update_self, heads_setPprev]
  · rw [if_neg same, Function.update_of_ne same, cells_setPprev]

theorem Linked.insert (linked : Linked c chain) {k : Nat} {a : α} (fresh : c.cells a = none) (v : β) :
    Linked (c.insert k a v) (Function.update chain k (a :: chain k)) := by
  have new : ∀ k', a ∉ chain k' := fun k' mem => by
    obtain ⟨cell, here⟩ := (linked.seg k').allocated mem
    rw [fresh] at here
    cases here
  have heads : (c.insert k a v).heads = Function.update c.heads k (some a) := by
    rw [Chains.insert]
    simp only [heads_setPprev]
  have mine : (c.insert k a v).cells a = some ⟨c.heads k, .head k, v⟩ := by
    rw [cells_insert, if_pos rfl]
  -- cells that are neither new nor the former head are as they were
  have old : ∀ x, x ≠ a → c.heads k ≠ some x → (c.insert k a v).cells x = c.cells x :=
    fun x ne notHead => by rw [cells_insert, if_neg ne, if_neg notHead]
  have ne : ∀ k' x, x ∈ chain k' → x ≠ a := fun k' x mem same => new k' (same ▸ mem)
  have rest : Seg (c.insert k a v) (.next a) (chain k) := by
    have start : (c.insert k a v).read (.next a) = c.heads k := by rw [read, mine]; rfl
    have seg := linked.seg k
    have nodup := linked.nodup k
    generalize hlist : chain k = list at seg nodup
    cases seg with
    | nil stop => exact .nil (start.trans stop)
    | @cons _ b bs cell leads here back more =>
        have mem : ∀ x ∈ b :: bs, x ≠ a := fun x hx => ne k x (by rw [hlist]; exact hx)
        have head : c.heads k = some b := leads
        have notIn := (List.nodup_cons.mp nodup).1
        have hereb : (c.insert k a v).cells b = some { cell with pprevhash := .next a } := by
          rw [cells_insert, if_neg (mem b List.mem_cons_self), if_pos head, here]
          rfl
        refine .cons (start.trans leads) hereb rfl (more.congr ?_ fun x hx => ?_)
        · rw [read, read, hereb, here]
          rfl
        · refine old x (mem x (List.mem_cons_of_mem _ hx)) fun same => ?_
          rw [head] at same
          cases same
          exact notIn hx
  refine ⟨fun k' => ?_, fun k' => ?_, fun i j x hi hj => ?_, fun x cell here => ?_⟩
  · by_cases same : k' = k
    · subst same
      rw [Function.update_self]
      refine .cons ?_ mine rfl rest
      rw [read, heads, Function.update_self]
    · rw [Function.update_of_ne same]
      refine (linked.seg k').congr ?_ fun x hx => old x (ne k' x hx) fun head => ?_
      · rw [read, read, heads, Function.update_of_ne same]
      · -- the head of bucket `k` is in the chain of `k` only
        have seg := linked.seg k
        generalize hlist : chain k = list at seg
        cases seg with
        | nil stop =>
            have stop : c.heads k = none := stop
            rw [head] at stop
            cases stop
        | cons leads _ _ _ =>
            have leads : c.heads k = _ := leads
            rw [head] at leads
            cases leads
            exact same (linked.apart k' k x hx (by rw [hlist]; exact List.mem_cons_self))
  · by_cases same : k' = k
    · subst same
      rw [Function.update_self]
      exact List.nodup_cons.mpr ⟨new k', linked.nodup k'⟩
    · rw [Function.update_of_ne same]
      exact linked.nodup k'
  · have place : ∀ i, x ∈ Function.update chain k (a :: chain k) i → (x = a ∧ i = k) ∨ x ∈ chain i := by
      intro i mem
      by_cases same : i = k
      · rw [same, Function.update_self] at mem
        rcases List.mem_cons.mp mem with first | later
        · exact .inl ⟨first, same⟩
        · exact .inr (same ▸ later)
      · rw [Function.update_of_ne same] at mem
        exact .inr mem
    rcases place i hi with ⟨first, atI⟩ | inI
    · rcases place j hj with ⟨-, atJ⟩ | inJ
      · rw [atI, atJ]
      · exact absurd (first ▸ inJ) (new j)
    · rcases place j hj with ⟨first, -⟩ | inJ
      · exact absurd (first ▸ inI) (new i)
      · exact linked.apart i j x inI inJ
  · by_cases same : x = a
    · exact ⟨k, by rw [same, Function.update_self]; exact List.mem_cons_self⟩
    · have there : ∃ old, c.cells x = some old := by
        rw [cells_insert, if_neg same] at here
        split at here
        · obtain ⟨old, there, -⟩ := Option.map_eq_some_iff.mp here
          exact ⟨old, there⟩
        · exact ⟨cell, here⟩
      obtain ⟨old, there⟩ := there
      obtain ⟨k', mem⟩ := linked.all x old there
      refine ⟨k', ?_⟩
      by_cases atK : k' = k
      · rw [atK, Function.update_self]
        exact List.mem_cons_of_mem _ (atK ▸ mem)
      · rwa [Function.update_of_ne atK]

/-! ## Removal -/

section Unlink

variable {cell : ChainCell α β} (here : c.cells a = some cell)

include here

theorem heads_unlink (k : Nat) : (c.unlink a).heads k
    = if cell.pprevhash = .head k then cell.nexthash else c.heads k := by
  simp only [Chains.unlink, here, heads_setPprev]
  cases cell.pprevhash with
  | head j =>
      by_cases same : j = k
      · simp only [same, if_true, write, Function.update_self]
      · simp only [write, Link.head.injEq, same, if_false, Function.update_of_ne (Ne.symm same)]
  | next x => rfl

theorem cells_unlink {x : α} (ne : x ≠ a) : (c.unlink a).cells x
    = (c.cells x).map fun e => ⟨if cell.pprevhash = .next x then cell.nexthash else e.nexthash,
        if cell.nexthash = some x then cell.pprevhash else e.pprevhash, e.value⟩ := by
  simp only [Chains.unlink, here]
  rw [Function.update_of_ne ne, cells_setPprev]
  have written : (c.write cell.pprevhash cell.nexthash).cells x
      = (c.cells x).map fun e =>
        { e with nexthash := if cell.pprevhash = .next x then cell.nexthash else e.nexthash } := by
    cases cell.pprevhash with
    | head j =>
        have none : ∀ e : ChainCell α β, { e with
            nexthash := if Link.head j = Link.next x then cell.nexthash else e.nexthash } = e := by simp
        simp only [write, none, Option.map_id_fun', id]
    | next y =>
        rw [write, cells_onCell]
        by_cases same : x = y
        · rw [if_pos same, same]
          simp
        · rw [if_neg same]
          cases c.cells x with
          | none => rfl
          | some e => simp [Ne.symm same]
  rw [written]
  cases c.cells x with
  | none => simp
  | some e =>
      by_cases next : cell.nexthash = some x
      · simp [next]
      · simp [next]

/-- A cell that neither leads to the one removed nor follows it stays. -/
theorem cells_unlink_far {x : α} (ne : x ≠ a) (before : cell.pprevhash ≠ .next x)
    (after : cell.nexthash ≠ some x) : (c.unlink a).cells x = c.cells x := by
  rw [cells_unlink here ne]
  simp only [if_neg before, if_neg after]
  cases c.cells x <;> rfl

/-- A chain without the cell. -/
theorem Seg.unlink {bs : List α} : ∀ {as : List α} {l : Link α}, Seg c l (as ++ a :: bs) →
    (as ++ a :: bs).Nodup →
    (∀ x, l = .next x → x ∉ as ++ a :: bs ∧ ∃ e, c.cells x = some e) →
    Seg (c.unlink a) l (as ++ bs)
  | [], l, seg, nodup, outside => by
      rw [List.nil_append] at *
      cases seg with
      | @cons _ _ _ own leads here' back rest =>
          rw [here] at here'
          cases here'
          have next : c.read (.next a) = cell.nexthash := by rw [read, here]; rfl
          -- the link that led to the cell holds its pointer now
          have start : (c.unlink a).read l = cell.nexthash := by
            cases l with
            | head k => rw [read, heads_unlink here, if_pos back]
            | next x =>
                obtain ⟨notIn, e, hx⟩ := outside x rfl
                have ne : x ≠ a := fun same => notIn (same ▸ List.mem_cons_self)
                rw [read, cells_unlink here ne, hx]
                simp [back]
          have far : ∀ x ∈ bs, cell.pprevhash ≠ .next x := fun x hx link =>
            (outside x (back ▸ link)).1 (List.mem_cons_of_mem _ hx)
          cases rest with
          | nil stop => exact .nil (start.trans (next.symm.trans stop))
          | @cons _ b bs cellb leads' hereb back' more =>
              have ahead : cell.nexthash = some b := next.symm.trans leads'
              have notIn := List.nodup_cons.mp nodup
              have neb : b ≠ a := fun same => notIn.1 (same ▸ List.mem_cons_self)
              have hereb' : (c.unlink a).cells b = some { cellb with pprevhash := l } := by
                have start : l ≠ .next b := back ▸ far b List.mem_cons_self
                rw [cells_unlink here neb, hereb]
                simp [start, ahead, back]
              refine .cons (start.trans ahead) hereb' rfl (more.congr ?_ fun x hx => ?_)
              · rw [read, read, hereb', hereb]
                rfl
              · refine cells_unlink_far here ?_ (far x (List.mem_cons_of_mem _ hx)) fun same => ?_
                · exact fun same => notIn.1 (same ▸ List.mem_cons_of_mem _ hx)
                · rw [ahead] at same
                  cases same
                  exact (List.nodup_cons.mp notIn.2).1 hx
  | p :: as, l, seg, nodup, outside => by
      rw [List.cons_append] at *
      cases seg with
      | @cons _ _ _ cellp leads herep back rest =>
          have mem : a ∈ as ++ a :: bs := List.mem_append_right _ List.mem_cons_self
          have notIn := List.nodup_cons.mp nodup
          have nep : p ≠ a := fun same => notIn.1 (same ▸ mem)
          have other : cell.pprevhash ≠ l := by
            intro same
            rcases rest.pprev_mem mem here with first | ⟨q, hq, link⟩
            · exact (outside p (same ▸ first)).1 List.mem_cons_self
            · exact (outside q (same ▸ link)).1 (List.mem_cons_of_mem _ hq)
          have start : (c.unlink a).read l = some p := by
            rw [← leads]
            cases l with
            | head k => rw [read, read, heads_unlink here, if_neg other]
            | next x =>
                have ne : x ≠ a := by
                  rintro rfl
                  exact (outside x rfl).1 (List.mem_cons_of_mem _ mem)
                rw [read, read, cells_unlink here ne]
                cases c.cells x with
                | none => rfl
                | some e => simp [other]
          have behind : cell.nexthash ≠ some p := fun same => notIn.1 (rest.next_mem mem here same)
          have herep' : ∃ e, (c.unlink a).cells p = some e ∧ e.pprevhash = l := by
            rw [cells_unlink here nep, herep]
            exact ⟨_, rfl, by simp [behind, back]⟩
          obtain ⟨e, herep', back'⟩ := herep'
          refine .cons start herep' back' (Seg.unlink rest notIn.2 fun x same => ?_)
          cases same
          exact ⟨notIn.1, cellp, herep⟩

end Unlink

theorem Linked.unlink (linked : Linked c chain) {k : Nat} (mem : a ∈ chain k) :
    Linked (c.unlink a) (Function.update chain k ((chain k).erase a)) := by
  obtain ⟨cell, here⟩ := (linked.seg k).allocated mem
  obtain ⟨as, bs, split⟩ := List.append_of_mem mem
  have nodup := linked.nodup k
  have erased : (chain k).erase a = as ++ bs := by
    rw [split] at nodup ⊢
    have notIn : a ∉ as := fun early =>
      (List.disjoint_of_nodup_append nodup early) List.mem_cons_self
    rw [List.erase_append_right _ notIn, List.erase_cons_head]
  have free : (c.unlink a).cells a = none := by
    simp only [Chains.unlink, here, Function.update_self]
  refine ⟨fun k' => ?_, fun k' => ?_, fun i j x hi hj => ?_, fun x e there => ?_⟩
  · by_cases same : k' = k
    · subst same
      rw [Function.update_self, erased]
      refine Seg.unlink here (split ▸ linked.seg k') (split ▸ nodup) fun x link => ?_
      cases link
    · rw [Function.update_of_ne same]
      refine (linked.seg k').congr ?_ fun x hx => ?_
      · rw [read, read, heads_unlink here, if_neg]
        intro link
        rcases (linked.seg k).pprev_mem mem here with first | ⟨p, -, other⟩
        · rw [link] at first
          cases first
          exact same rfl
        · rw [link] at other
          cases other
      · refine cells_unlink_far here (fun e => ?_) (fun link => ?_) fun next => ?_
        · exact same (linked.apart k' k a (e ▸ hx) mem)
        · rcases (linked.seg k).pprev_mem mem here with first | ⟨p, hp, other⟩
          · rw [link] at first
            cases first
          · rw [link] at other
            cases other
            exact same (linked.apart k' k x hx hp)
        · exact same (linked.apart k' k x hx ((linked.seg k).next_mem mem here next))
  · by_cases same : k' = k
    · subst same
      rw [Function.update_self]
      exact nodup.erase a
    · rw [Function.update_of_ne same]
      exact linked.nodup k'
  · have place : ∀ i, x ∈ Function.update chain k ((chain k).erase a) i → x ∈ chain i := by
      intro i hx
      by_cases same : i = k
      · rw [same, Function.update_self] at hx
        rw [same]
        exact List.mem_of_mem_erase hx
      · rwa [Function.update_of_ne same] at hx
    exact linked.apart i j x (place i hi) (place j hj)
  · have ne : x ≠ a := by
      rintro rfl
      rw [free] at there
      cases there
    rw [cells_unlink here ne] at there
    obtain ⟨old, was, -⟩ := Option.map_eq_some_iff.mp there
    obtain ⟨k', hx⟩ := linked.all x old was
    refine ⟨k', ?_⟩
    by_cases same : k' = k
    · rw [same, Function.update_self]
      rw [same] at hx
      exact (List.mem_erase_of_ne ne).mpr hx
    · rwa [Function.update_of_ne same]

/-! ## Values -/

/-- The value of a cell that is allocated. -/
def valueAt (c : Chains α β) (a : α) : Option β := (c.cells a).map ChainCell.value

theorem valueAt_onValue (a : α) (change : β → β) (x : α) :
    (c.onValue a change).valueAt x = if x = a then (c.valueAt a).map change else c.valueAt x := by
  rw [valueAt, onValue, cells_onCell]
  split
  · rw [valueAt, Option.map_map, Option.map_map]; rfl
  · rfl

theorem valueAt_insert (k : Nat) (a : α) (v : β) (x : α) :
    (c.insert k a v).valueAt x = if x = a then some v else c.valueAt x := by
  rw [valueAt, cells_insert]
  split
  · rfl
  · split
    · rw [valueAt, Option.map_map]; rfl
    · rfl

theorem valueAt_unlink {v : β} (here : c.valueAt a = some v) (x : α) :
    (c.unlink a).valueAt x = if x = a then none else c.valueAt x := by
  obtain ⟨cell, there, -⟩ := Option.map_eq_some_iff.mp here
  split
  · next same =>
    simp only [valueAt, same, Chains.unlink, there, Function.update_self, Option.map_none]
  · next ne =>
    rw [valueAt, cells_unlink there ne, valueAt, Option.map_map]
    rfl

omit [DecidableEq α] in
theorem Linked.place (linked : Linked c chain) {v : β} (here : c.valueAt a = some v) :
    ∃ k, a ∈ chain k := by
  obtain ⟨cell, there, -⟩ := Option.map_eq_some_iff.mp here
  exact linked.all a cell there

/-! ## Looking a cell up -/

/-- Whether the value of a cell is wanted. -/
def wanted (c : Chains α β) (want : β → Bool) (a : α) : Bool := (c.valueAt a).any want

omit [DecidableEq α] in
/-- A walk along a chain ends, at the first cell wanted. -/
theorem Seg.find (seg : Seg c l as) (want : β → Bool) {fuel : Nat} (enough : as.length < fuel) :
    c.find want fuel (c.read l) = some (as.find? (c.wanted want)) := by
  induction seg generalizing fuel with
  | nil stop =>
      obtain ⟨n, rfl⟩ : ∃ n, fuel = n + 1 := ⟨fuel - 1, by omega⟩
      rw [stop]
      rfl
  | @cons l b bs cell leads here back rest ih =>
      obtain ⟨n, rfl⟩ : ∃ n, fuel = n + 1 := ⟨fuel - 1, by omega⟩
      have next : c.read (.next b) = cell.nexthash := by rw [read, here]; rfl
      have short : bs.length < n := by
        rw [List.length_cons] at enough
        omega
      have more := ih short
      rw [next] at more
      rw [leads, Chains.find, here, List.find?_cons]
      have same : c.wanted want b = want cell.value := by rw [wanted, valueAt, here]; rfl
      rw [same]
      cases hw : want cell.value with
      | true => simp [hw]
      | false => simpa [hw] using more

end Chains

end FuseUfs.Lib
