import Mathlib

/-! # Ledgers: who owns which items

A ledger gives every owner a set of items, and no item to two owners. Handing an owner
fresh items, or taking items away, keeps it a ledger. What is `Foreign` to the ledger,
items in use that no owner of it has, is what an operation on the ledger's behalf must
leave alone.
-/

namespace FuseUfs.Lib

variable {ι α : Type*}

/-- No item has two owners. -/
def Apart (ext : ι → Set α) : Prop := Pairwise fun i j => Disjoint (ext i) (ext j)

/-- Some owner has the item. -/
def Held (ext : ι → Set α) (x : α) : Prop := ∃ i, x ∈ ext i

/-- In use, but not by an owner of this ledger. -/
def Foreign (ext : ι → Set α) (used : α → Prop) (x : α) : Prop := used x ∧ ¬ Held ext x

theorem Apart.mono {ext ext' : ι → Set α} (apart : Apart ext) (less : ∀ i, ext' i ⊆ ext i) :
    Apart ext' := fun i j ne => (apart ne).mono (less i) (less j)

theorem Apart.update [DecidableEq ι] {ext ext' : ι → Set α} {i : ι} {E : Set α}
    (apart : Apart ext) (new : ext' i = E) (others : ∀ j, j ≠ i → ext' j = ext j)
    (fresh : ∀ j, j ≠ i → Disjoint E (ext j)) : Apart ext' := by
  intro j k ne
  by_cases hj : j = i
  · subst hj
    rw [new, others k (Ne.symm ne)]
    exact fresh k (Ne.symm ne)
  · by_cases hk : k = i
    · subst hk
      rw [new, others j hj]
      exact (fresh j hj).symm
    · rw [others j hj, others k hk]
      exact apart ne

end FuseUfs.Lib
