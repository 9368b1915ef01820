import FuseUfs.Lib.Prog

/-! # The first success of a search

A search runs one program after the other until one of them gives a number other than 0. When the
failing ones leave the state alone, all that were tried have seen the same state.
-/

namespace FuseUfs.Lib.Prog

variable {σ : Type}

/-- The programs one after the other, until one gives something other than 0. -/
def firstOf : List (Prog σ Nat) → Prog σ Nat
  | [] => pure 0
  | x :: rest => do
      let r ← x
      if r ≠ 0 then pure r else firstOf rest

theorem firstOf_append (xs ys : List (Prog σ Nat)) : firstOf (xs ++ ys) = (do
    let r ← firstOf xs
    if r ≠ 0 then pure r else firstOf ys) := by
  induction xs with
  | nil =>
      change firstOf ys = _
      rw [firstOf, pure_bind, if_neg (not_not.mpr rfl)]
  | cons x xs ih =>
      rw [List.cons_append, firstOf, firstOf, bind_assoc]
      congr 1
      funext r
      by_cases found : r ≠ 0
      · rw [if_pos found, if_pos found, pure_bind, if_pos found]
      · rw [if_neg found, if_neg found, ih]

/-- A failure leaves the state alone. -/
def FailsQuietly (x : Prog σ Nat) : Prop := ∀ s s', x s = .done 0 s' → s' = s

variable {xs : List (Prog σ Nat)} {s s' : σ} {r : Nat}

/-- A search that finds nothing has tried everything. -/
theorem firstOf_zero (quiet : ∀ x ∈ xs, FailsQuietly x) (run : firstOf xs s = .done 0 s') :
    s' = s ∧ ∀ x ∈ xs, x s = .done 0 s := by
  induction xs with
  | nil => exact ⟨(pure_eq_done.mp run).2.symm, fun x member => nomatch member⟩
  | cons x xs ih =>
      obtain ⟨r, t, tried, run⟩ := bind_eq_done.mp run
      by_cases found : r ≠ 0
      · rw [if_pos found] at run
        exact absurd (pure_eq_done.mp run).1 found
      · rw [if_neg found] at run
        obtain rfl := not_not.mp found
        have kept := quiet x (List.mem_cons_self ..) s t tried
        rw [kept] at tried run
        obtain ⟨same, rest⟩ := ih (fun y member => quiet y (List.mem_cons_of_mem _ member)) run
        refine ⟨same, fun y member => ?_⟩
        cases member with
        | head => exact tried
        | tail _ member => exact rest y member

/-- What a search finds is the result of one of them, and those before it have failed. -/
theorem firstOf_found (quiet : ∀ x ∈ xs, FailsQuietly x) (run : firstOf xs s = .done r s') (some : r ≠ 0) :
    ∃ before x after, xs = before ++ x :: after ∧ (∀ y ∈ before, y s = .done 0 s) ∧ x s = .done r s' := by
  induction xs with
  | nil => exact absurd (pure_eq_done.mp run).1.symm some
  | cons x xs ih =>
      obtain ⟨r', t, tried, run⟩ := bind_eq_done.mp run
      by_cases found : r' ≠ 0
      · rw [if_pos found] at run
        obtain ⟨rfl, rfl⟩ := pure_eq_done.mp run
        exact ⟨[], x, xs, rfl, (fun y member => nomatch member), tried⟩
      · rw [if_neg found] at run
        obtain rfl := not_not.mp found
        have kept := quiet x (List.mem_cons_self ..) s t tried
        rw [kept] at tried run
        obtain ⟨before, y, after, same, failed, ran⟩ := ih (fun y member => quiet y (List.mem_cons_of_mem _ member)) run
        refine ⟨x :: before, y, after, by rw [same, List.cons_append], fun z member => ?_, ran⟩
        cases member with
        | head => exact tried
        | tail _ member => exact failed z member

end FuseUfs.Lib.Prog
