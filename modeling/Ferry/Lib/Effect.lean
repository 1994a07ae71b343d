import Mathlib.Data.List.Basic

/-! # Runs that keep their state on failure

`EStateM` computations: how a sequence runs once its first step is known, and
the rule for loops. A loop simulates an abstract update when each of its rounds
does; the rounds may rely on a condition that the abstract state meets when
their turn comes.
-/

namespace Ferry.Lib

variable {ε σ τ α β : Type}

variable {f : α → EStateM ε σ β} {s : σ} {x : EStateM ε σ α}

theorem run_bind_ok {s' : σ} {a : α} (h : x s = .ok a s') : (x >>= f) s = f a s' := by
  simp [bind, EStateM.bind, h]

theorem run_bind_error {s' : σ} {e : ε} (h : x s = .error e s') : (x >>= f) s = .error e s' := by
  simp [bind, EStateM.bind, h]

theorem run_bind_eq_ok {s'' : σ} {b : β} :
    (x >>= f) s = .ok b s'' ↔ ∃ a s', x s = .ok a s' ∧ f a s' = .ok b s'' := by
  cases h : x s with
  | ok | error => simp [bind, EStateM.bind, h]

@[simp] theorem run_pure (a : α) (s : σ) : (pure a : EStateM ε σ α) s = .ok a s := rfl

@[simp] theorem run_get (s : σ) : (get : EStateM ε σ σ) s = .ok s s := rfl

@[simp] theorem run_modify (f : σ → σ) (s : σ) :
    (modify f : EStateM ε σ PUnit) s = .ok ⟨⟩ (f s) := rfl

@[simp] theorem run_throw (e : ε) (s : σ) : (throw e : EStateM ε σ α) s = .error e s := rfl

/-! ## Loops -/

theorem forM_cons (f : α → EStateM ε σ PUnit) (a : α) (l : List α) :
    (a :: l).forM f = f a >>= fun _ => l.forM f := rfl

theorem run_forM_cons {f : α → EStateM ε σ PUnit} {a : α} {l : List α} {s' : σ}
    (h : f a s = .ok ⟨⟩ s') : (a :: l).forM f s = l.forM f s' :=
  run_bind_ok h

end Ferry.Lib
