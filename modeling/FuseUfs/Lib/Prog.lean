import Mathlib.Logic.Function.Basic

/-! # Stateful programs that may stop the process

A program reads and changes one state. It either returns a value together with
the state it leaves, or it stops the whole process (an `exit`, a wild pointer or
a loop that never ends), and then the state it leaves is still observable: what
has reached the device before the stop stays there.
-/

namespace FuseUfs.Lib

/-- How a run ends: with a value, or with the process gone. -/
inductive Outcome (σ α : Type) where
  | done (value : α) (state : σ)
  | halt (state : σ)

/-- A program over the state `σ`. -/
def Prog (σ α : Type) : Type := σ → Outcome σ α

namespace Outcome

variable {σ α : Type}

/-- The state a run leaves, whichever way it ends. -/
def final : Outcome σ α → σ
  | done _ s => s
  | halt s => s

/-- The value a run returns, if it returns. -/
def value? : Outcome σ α → Option α
  | done a _ => some a
  | halt _ => none

theorem value?_eq_some {o : Outcome σ α} {a : α} :
    o.value? = some a ↔ ∃ s, o = .done a s := by
  cases o <;> simp [value?]

/-- The run returns, with a value and a state that pass the test. -/
def passes (o : Outcome σ α) (test : α → σ → Bool) : Bool :=
  match o with
  | done a s => test a s
  | halt _ => false

theorem done_of_passes {o : Outcome σ α} {test : α → σ → Bool} (passed : o.passes test = true) :
    ∃ a s, o = .done a s ∧ test a s = true := by
  cases o with
  | done a s => exact ⟨a, s, rfl, passed⟩
  | halt s => cases passed

@[simp] theorem final_done (a : α) (s : σ) : (done a s).final = s := rfl

@[simp] theorem final_halt (s : σ) : (halt s : Outcome σ α).final = s := rfl

end Outcome

namespace Prog

variable {σ α β : Type}

protected def pure (a : α) : Prog σ α := fun s => .done a s

protected def bind (x : Prog σ α) (f : α → Prog σ β) : Prog σ β := fun s =>
  match x s with
  | .done a s' => f a s'
  | .halt s' => .halt s'

instance : Monad (Prog σ) where
  pure := Prog.pure
  bind := Prog.bind

def get : Prog σ σ := fun s => .done s s

def modify (f : σ → σ) : Prog σ Unit := fun s => .done () (f s)

/-- The process is gone; nothing after this runs. -/
def halt : Prog σ α := fun s => .halt s

@[simp] theorem pure_apply (a : α) (s : σ) : (pure a : Prog σ α) s = .done a s := rfl

@[simp] theorem get_apply (s : σ) : (get : Prog σ σ) s = .done s s := rfl

@[simp] theorem modify_apply (f : σ → σ) (s : σ) : modify f s = .done () (f s) := rfl

@[simp] theorem halt_apply (s : σ) : (halt : Prog σ α) s = .halt s := rfl

theorem bind_apply (x : Prog σ α) (f : α → Prog σ β) (s : σ) :
    (x >>= f) s = match x s with
      | .done a s' => f a s'
      | .halt s' => .halt s' := rfl

@[simp] theorem map_apply (f : α → β) (x : Prog σ α) (s : σ) :
    (f <$> x) s = match x s with
      | .done a s' => .done (f a) s'
      | .halt s' => .halt s' := rfl

@[simp] theorem pure_bind_apply (a : α) (f : α → Prog σ β) (s : σ) :
    (pure a >>= f) s = f a s := rfl

@[simp] theorem get_bind_apply (f : σ → Prog σ β) (s : σ) :
    (get >>= f) s = f s s := rfl

@[simp] theorem modify_bind_apply (g : σ → σ) (f : Unit → Prog σ β) (s : σ) :
    (modify g >>= f) s = f () (g s) := rfl

@[simp] theorem halt_bind_apply (f : α → Prog σ β) (s : σ) :
    (halt >>= f) s = .halt s := rfl

/-- Running on after a program that returned. -/
theorem bind_of_done {x : Prog σ α} {a : α} {s s' : σ} (run : x s = .done a s')
    (f : α → Prog σ β) : (x >>= f) s = f a s' := by
  rw [bind_apply, run]

theorem bind_of_halt {x : Prog σ α} {s s' : σ} (run : x s = .halt s') (f : α → Prog σ β) :
    (x >>= f) s = .halt s' := by
  rw [bind_apply, run]

theorem pure_eq_done {a b : α} {s s' : σ} :
    (pure a : Prog σ α) s = .done b s' ↔ a = b ∧ s = s' := by
  rw [pure_apply, Outcome.done.injEq]

/-- A sequence returns exactly when both halves do. -/
theorem bind_eq_done {x : Prog σ α} {f : α → Prog σ β} {s s'' : σ} {b : β} :
    (x >>= f) s = .done b s'' ↔ ∃ a s', x s = .done a s' ∧ f a s' = .done b s'' := by
  rw [bind_apply]
  cases x s with
  | done a s' =>
      constructor
      · intro run
        exact ⟨a, s', rfl, run⟩
      · rintro ⟨_, _, same, run⟩
        cases same
        exact run
  | halt s' => simp

instance : LawfulMonad (Prog σ) := LawfulMonad.mk' (Prog σ)
  (fun x => by
    funext s
    change (match x s with | .done a s' => Outcome.done a s' | .halt s' => .halt s') = x s
    cases x s <;> rfl)
  (fun _ _ => rfl)
  (fun x f g => by
    funext s
    change (match (match x s with | .done a s' => f a s' | .halt s' => .halt s') with
        | .done b s' => g b s' | .halt s' => .halt s')
      = match x s with
        | .done a s' => (match f a s' with | .done b s'' => g b s'' | .halt s'' => .halt s'')
        | .halt s' => .halt s'
    cases x s <;> rfl)

/-! ## Invariants of every outcome -/

/-- Whatever the program does, and however it ends, `I` holds of the state it leaves. -/
def Keeps (I : σ → Prop) (x : Prog σ α) : Prop := ∀ s, I s → I (x s).final

theorem Keeps.pure {I : σ → Prop} (a : α) : Keeps I (Pure.pure a : Prog σ α) := fun _ h => h

theorem Keeps.get {I : σ → Prop} : Keeps I (get : Prog σ σ) := fun _ h => h

theorem Keeps.halt {I : σ → Prop} : Keeps I (halt : Prog σ α) := fun _ h => h

theorem Keeps.modify {I : σ → Prop} {f : σ → σ} (kept : ∀ s, I s → I (f s)) :
    Keeps I (modify f) := fun s h => kept s h

theorem Keeps.bind {I : σ → Prop} {x : Prog σ α} {f : α → Prog σ β}
    (first : Keeps I x) (rest : ∀ a, Keeps I (f a)) : Keeps I (x >>= f) := by
  intro s h
  have mid := first s h
  rw [bind_apply]
  cases run : x s with
  | done a s' => exact rest a s' (by simpa [run] using mid)
  | halt s' => simpa [run] using mid

theorem Keeps.ite {I : σ → Prop} {c : Prop} [Decidable c] {x y : Prog σ α}
    (yes : c → Keeps I x) (no : ¬ c → Keeps I y) : Keeps I (if c then x else y) := by
  by_cases h : c
  · simpa [h] using yes h
  · simpa [h] using no h

/-- A program that returns leaves a state in which what it keeps holds. -/
theorem Keeps.after {I : σ → Prop} {x : Prog σ α} {a : α} {s s' : σ} (kept : Keeps I x)
    (run : x s = .done a s') (h : I s) : I s' := by
  have left := kept s h
  rwa [run] at left

/-! ## What a program returns -/

/-- Every result that the program returns satisfies `P`. -/
def Gives (P : α → Prop) (x : Prog σ α) : Prop := ∀ s a s', x s = .done a s' → P a

theorem Gives.pure {P : α → Prop} {a : α} (h : P a) : Gives P (Pure.pure a : Prog σ α) := by
  intro s b s' run
  exact (pure_eq_done.mp run).1 ▸ h

theorem Gives.halt {P : α → Prop} : Gives P (halt : Prog σ α) := by
  intro s a s' run
  cases run

/-- Nothing need be known of the first half. -/
theorem Gives.after {P : β → Prop} {x : Prog σ α} {f : α → Prog σ β} (rest : ∀ a, Gives P (f a)) :
    Gives P (x >>= f) := by
  intro s b s' run
  obtain ⟨a, t, -, run⟩ := bind_eq_done.mp run
  exact rest a t b s' run

theorem Gives.bind {P : α → Prop} {Q : β → Prop} {x : Prog σ α} {f : α → Prog σ β}
    (first : Gives P x) (rest : ∀ a, P a → Gives Q (f a)) : Gives Q (x >>= f) := by
  intro s b s' run
  obtain ⟨a, t, ran, run⟩ := bind_eq_done.mp run
  exact rest a (first s a t ran) t b s' run

theorem Gives.ite {P : α → Prop} {c : Prop} [Decidable c] {x y : Prog σ α}
    (yes : c → Gives P x) (no : ¬ c → Gives P y) : Gives P (if c then x else y) := by
  by_cases h : c
  · rw [if_pos h]; exact yes h
  · rw [if_neg h]; exact no h

end Prog

end FuseUfs.Lib
