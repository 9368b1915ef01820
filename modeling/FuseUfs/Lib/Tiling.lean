import Mathlib

/-! # Tilings

Pieces that follow one another: each piece starts where the one before it ends. The length
of a piece is given by a function of its place, as in a buffer of records that carry their
own length.
-/

namespace FuseUfs.Lib

/-- The pieces at these places lead from `a` to `b`. -/
inductive Tiles (len : Nat → Nat) : (a : Nat) → List Nat → (b : Nat) → Prop
  | nil (a : Nat) : Tiles len a [] a
  | cons {a b : Nat} {rest : List Nat} (pos : 0 < len a) (tail : Tiles len (a + len a) rest b) :
      Tiles len a (a :: rest) b

namespace Tiles

variable {len len' : Nat → Nat} {a b c x : Nat} {xs ys : List Nat}

theorem le (tiles : Tiles len a xs b) : a ≤ b := by
  induction tiles with
  | nil => exact le_rfl
  | cons pos tail ih => omega

/-- A piece lies between the two ends. -/
theorem bounds (tiles : Tiles len a xs b) (mem : x ∈ xs) : a ≤ x ∧ 0 < len x ∧ x + len x ≤ b := by
  induction tiles with
  | nil => cases mem
  | cons pos tail ih =>
      rcases List.mem_cons.mp mem with rfl | later
      · exact ⟨le_rfl, pos, tail.le⟩
      · obtain ⟨low, some, high⟩ := ih later
        exact ⟨by omega, some, high⟩

theorem append (first : Tiles len a xs b) (second : Tiles len b ys c) : Tiles len a (xs ++ ys) c := by
  induction first with
  | nil => exact second
  | cons pos tail ih => exact .cons pos (ih second)

theorem split : ∀ {xs : List Nat} {a : Nat}, Tiles len a (xs ++ ys) c →
    ∃ b, Tiles len a xs b ∧ Tiles len b ys c
  | [], a, tiles => ⟨a, .nil a, tiles⟩
  | x :: xs, a, tiles => by
      cases tiles with
      | cons pos tail =>
          obtain ⟨b, first, second⟩ := split tail
          exact ⟨b, .cons pos first, second⟩

/-- The first piece starts at the start. -/
theorem head_eq (tiles : Tiles len a (x :: xs) b) : x = a := by
  cases tiles with
  | cons => rfl

theorem tail (tiles : Tiles len a (x :: xs) b) : Tiles len (x + len x) xs b := by
  cases tiles with
  | cons pos tail => exact tail

/-- The lengths of the pieces are all that counts. -/
theorem congr (tiles : Tiles len a xs b) (same : ∀ x ∈ xs, len' x = len x) : Tiles len' a xs b := by
  induction tiles with
  | nil => exact .nil _
  | cons pos tail ih =>
      have here := same _ List.mem_cons_self
      refine .cons (here ▸ pos) ?_
      rw [here]
      exact ih fun x mem => same x (List.mem_cons_of_mem _ mem)

/-- Two tilings of one stretch are the same. -/
theorem unique (first : Tiles len a xs b) (second : Tiles len a ys b) : xs = ys := by
  induction first generalizing ys with
  | nil =>
      cases second with
      | nil => rfl
      | cons pos tail =>
          have := tail.le
          omega
  | cons pos tail ih =>
      cases second with
      | nil =>
          have := tail.le
          omega
      | cons pos' tail' => rw [ih tail']

/-- The pieces say where they end. -/
theorem end_unique (first : Tiles len a xs b) (second : Tiles len a xs c) : c = b := by
  induction first with
  | nil =>
      cases second with
      | nil => rfl
  | cons pos tail ih =>
      cases second with
      | cons _ tail' => exact ih tail'

/-- Pieces later in the list start later. -/
theorem head_lt (tiles : Tiles len a (x :: xs) b) {y : Nat} (mem : y ∈ xs) : x + len x ≤ y :=
  (tiles.tail.bounds mem).1

/-- No piece is met twice. -/
theorem nodup (tiles : Tiles len a xs b) : xs.Nodup := by
  induction tiles with
  | nil => exact List.nodup_nil
  | cons pos tail ih =>
      refine List.nodup_cons.mpr ⟨fun mem => ?_, ih⟩
      have := (tail.bounds mem).1
      omega

/-- The middle of three parts, with a piece of its own. -/
theorem split_at (tiles : Tiles len a (xs ++ x :: ys) b) :
    Tiles len a xs x ∧ 0 < len x ∧ Tiles len (x + len x) ys b := by
  obtain ⟨m, first, second⟩ := split tiles
  obtain rfl := second.head_eq
  exact ⟨first, (second.bounds List.mem_cons_self).2.1, second.tail⟩

/-- A place that lies inside no piece is where one starts. -/
theorem mem_of_uncrossed {p : Nat} (tiles : Tiles len a xs b) (low : a ≤ p) (high : p < b)
    (uncrossed : ∀ x ∈ xs, x < p → x + len x ≤ p) : p ∈ xs := by
  induction tiles with
  | nil => omega
  | @cons a b rest pos tail ih =>
      rcases Nat.eq_or_lt_of_le low with rfl | less
      · exact List.mem_cons_self
      · have next := uncrossed a List.mem_cons_self less
        exact List.mem_cons_of_mem _ (ih next high fun x mem => uncrossed x (List.mem_cons_of_mem _ mem))

/-- A piece takes in the piece after it. -/
theorem merge {y : Nat} (tiles : Tiles len a (xs ++ x :: y :: ys) b)
    (joined : len' x = len x + len y) (same : ∀ z, z ∈ xs ∨ z ∈ ys → len' z = len z) :
    Tiles len' a (xs ++ x :: ys) b := by
  obtain ⟨before, pos, rest⟩ := split_at tiles
  obtain rfl := rest.head_eq
  refine (before.congr fun z mem => same z (.inl mem)).append (.cons (by omega) ?_)
  rw [joined, ← Nat.add_assoc]
  exact rest.tail.congr fun z mem => same z (.inr mem)

/-- A piece is cut in two. -/
theorem cut {n : Nat} (tiles : Tiles len a (xs ++ x :: ys) b) (first : len' x = n) (pos : 0 < n)
    (less : n < len x) (second : len' (x + n) = len x - n)
    (same : ∀ z, z ∈ xs ∨ z ∈ ys → len' z = len z) : Tiles len' a (xs ++ x :: (x + n) :: ys) b := by
  obtain ⟨before, -, rest⟩ := split_at tiles
  refine (before.congr fun z mem => same z (.inl mem)).append (.cons (by omega) ?_)
  rw [first]
  refine .cons (by omega) ?_
  rw [second, show x + n + (len x - n) = x + len x by omega]
  exact rest.congr fun z mem => same z (.inr mem)

instance decidable (len : Nat → Nat) : ∀ a xs b, Decidable (Tiles len a xs b)
  | a, [], b => decidable_of_iff (a = b)
      ⟨fun same => same ▸ .nil a, fun tiles => by cases tiles with | nil => rfl⟩
  | a, x :: xs, b =>
      have := decidable len (a + len a) xs b
      decidable_of_iff (x = a ∧ 0 < len a ∧ Tiles len (a + len a) xs b)
        ⟨fun ⟨first, pos, rest⟩ => by
          subst first
          exact .cons pos rest, fun tiles => by
          cases tiles with | cons pos rest => exact ⟨rfl, pos, rest⟩⟩

end Tiles

end FuseUfs.Lib
