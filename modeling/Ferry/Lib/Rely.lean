import Ferry.Lib.Effect

/-! # Programs that share their state

A program whose steps are atomic, and between any two of which others may act on
the state it works on. What the others may do is a relation, the rely. A program
that is run alone is an ordinary run with a state that survives a failure.
-/

namespace Ferry.Lib

/-- A program in atomic steps: a step changes the state, and what comes next may
depend on the state it found. -/
inductive Steps (σ ε α : Type) where
  | ret (a : α)
  | fail (e : ε)
  | act (change : σ → σ) (next : σ → Steps σ ε α)

namespace Steps

variable {σ ε α β : Type}

protected def bind : Steps σ ε α → (α → Steps σ ε β) → Steps σ ε β
  | ret a, k => k a
  | fail e, _ => fail e
  | act change next, k => act change fun s => (next s).bind k

instance : Monad (Steps σ ε) where
  pure := ret
  bind := Steps.bind

instance : LawfulMonad (Steps σ ε) :=
  LawfulMonad.mk' _
    (fun p => by
      change Steps.bind p (fun a => ret a) = p
      induction p with
      | ret | fail => rfl
      | act change next ih => exact congrArg (act change) (funext ih))
    (fun _ _ => rfl)
    (fun p k l => by
      change Steps.bind (Steps.bind p k) l = Steps.bind p fun a => Steps.bind (k a) l
      induction p with
      | ret | fail => rfl
      | act change next ih => exact congrArg (act change) (funext ih))

def look (f : σ → Except ε α) : Steps σ ε α :=
  act id fun s => match f s with
    | .ok a => ret a
    | .error e => fail e

/-! ## Runs among others -/

/-- A run in which others act before each step, as far as `R` lets them. -/
inductive Runs (R : σ → σ → Prop) : Steps σ ε α → σ → Except ε α → σ → Prop where
  | ret (a : α) (s : σ) : Runs R (ret a) s (.ok a) s
  | fail (e : ε) (s : σ) : Runs R (fail e) s (.error e) s
  | act {change : σ → σ} {next : σ → Steps σ ε α} {s s₁ s' : σ} {r : Except ε α} :
      R s s₁ → Runs R (next s₁) (change s₁) r s' → Runs R (act change next) s r s'

/-- Wherever a run from `P` ends among others, it ends in `Q` with its result or in `X` with its error. -/
def Ensures (R : σ → σ → Prop) (P : σ → Prop) (p : Steps σ ε α) (Q : α → σ → Prop) (X : ε → σ → Prop) : Prop :=
  ∀ s r s', P s → Runs R p s r s' → match r with
    | .ok a => Q a s'
    | .error e => X e s'

namespace Ensures

variable {R : σ → σ → Prop} {P : σ → Prop} {p : Steps σ ε α} {Q : α → σ → Prop} {X : ε → σ → Prop}

theorem of_ok (h : Ensures R P p Q X) {s s' : σ} {a : α} (hs : P s) (hrun : Runs R p s (.ok a) s') : Q a s' :=
  h s _ s' hs hrun

theorem of_error (h : Ensures R P p Q X) {s s' : σ} {e : ε} (hs : P s) (hrun : Runs R p s (.error e) s') :
    X e s' :=
  h s _ s' hs hrun

theorem ret {a : α} (h : ∀ s, P s → Q a s) : Ensures R P (ret a) Q X := by
  intro s r s' hs hrun
  cases hrun
  exact h s hs

theorem fail {e : ε} (h : ∀ s, P s → X e s) : Ensures R P (fail e : Steps σ ε α) Q X := by
  intro s r s' hs hrun
  cases hrun
  exact h s hs

theorem act {change : σ → σ} {next : σ → Steps σ ε α}
    (h : ∀ s s₁, P s → R s s₁ → Ensures R (· = change s₁) (next s₁) Q X) :
    Ensures R P (act change next) Q X := by
  intro s r s' hs hrun
  cases hrun with
  | act hR hrest => exact h _ _ hs hR _ _ _ rfl hrest

theorem bind {k : α → Steps σ ε β} {Q' : β → σ → Prop} (h : Ensures R P p Q X)
    (hk : ∀ a, Ensures R (Q a) (k a) Q' X) : Ensures R P (p >>= k) Q' X := by
  induction p generalizing P with
  | ret a =>
    intro s r s' hs hrun
    exact hk a s r s' (h.of_ok hs (.ret a s)) hrun
  | fail e =>
    intro s r s' hs hrun
    cases hrun
    exact h.of_error hs (.fail e s)
  | act change next ih =>
    refine Ensures.act fun s s₁ hs hR => ih s₁ ?_
    rintro _ r s' rfl hrun
    exact h s r s' hs (.act hR hrun)

theorem look {f : σ → Except ε α} (hok : ∀ s s₁ a, P s → R s s₁ → f s₁ = .ok a → Q a s₁)
    (herror : ∀ s s₁ e, P s → R s s₁ → f s₁ = .error e → X e s₁) : Ensures R P (look f) Q X := by
  refine Ensures.act fun s s₁ hs hR => ?_
  cases hf : f s₁ with
  | ok a => exact Ensures.ret fun _ heq => heq ▸ hok s s₁ a hs hR hf
  | error e => exact Ensures.fail fun _ heq => heq ▸ herror s s₁ e hs hR hf

theorem weaken {P' : σ → Prop} {Q' : α → σ → Prop} {X' : ε → σ → Prop} (h : Ensures R P p Q X)
    (hP : ∀ s, P' s → P s) (hQ : ∀ a s, Q a s → Q' a s) (hX : ∀ e s, X e s → X' e s) :
    Ensures R P' p Q' X' := by
  intro s r s' hs hrun
  have hend := h s r s' (hP s hs) hrun
  cases r with
  | ok a => exact hQ a s' hend
  | error e => exact hX e s' hend

theorem of_each (h : ∀ s, P s → Ensures R (· = s) p Q X) : Ensures R P p Q X :=
  fun s r s' hs hrun => h s hs s r s' rfl hrun

theorem of_fact {φ : Prop} (h : φ → Ensures R P p Q X) : Ensures R (fun s => P s ∧ φ) p Q X :=
  fun s r s' hs hrun => h hs.2 s r s' hs.1 hrun

theorem mapM {γ : Type} {f : γ → Steps σ ε β} {I : List γ → List β → σ → Prop} (l : List γ)
    (hstep : ∀ done a rest bs, l = done ++ a :: rest →
      Ensures R (I done bs) (f a) (fun b => I (done ++ [a]) (bs ++ [b])) X) :
    Ensures R (I [] []) (l.mapM f) (fun bs => I l bs) X := by
  suffices h : ∀ rest done bs, l = done ++ rest →
      Ensures R (I done bs) (rest.mapM f) (fun bs' => I l (bs ++ bs')) X from h l [] [] rfl
  intro rest
  induction rest with
  | nil =>
    intro done bs hl
    subst hl
    exact Ensures.ret fun s hs => by simpa using hs
  | cons a rest ih =>
    intro done bs hl
    rw [List.mapM_cons]
    refine (hstep done a rest bs hl).bind fun b => ?_
    refine (ih (done ++ [a]) (bs ++ [b]) (by simp [hl])).bind fun bs' => ?_
    exact Ensures.ret fun s hs => by simpa using hs

end Ensures

/-! ## Running alone -/

def alone : Steps σ ε α → EStateM ε σ α
  | ret a => fun s => .ok a s
  | fail e => fun s => .error e s
  | act change next => fun s => (next s).alone (change s)

theorem runs_alone {R : σ → σ → Prop} (hR : ∀ s, R s s) (p : Steps σ ε α) (s : σ) :
    match p.alone s with
    | .ok a s' => Runs R p s (.ok a) s'
    | .error e s' => Runs R p s (.error e) s' := by
  induction p generalizing s with
  | ret a => exact .ret a s
  | fail e => exact .fail e s
  | act change next ih =>
    have hrest := ih s (change s)
    change match (next s).alone (change s) with
      | .ok a s' => Runs R (.act change next) s (.ok a) s'
      | .error e s' => Runs R (.act change next) s (.error e) s'
    cases hrun : (next s).alone (change s) with
    | ok | error =>
      rw [hrun] at hrest
      exact .act (hR s) hrest

end Steps

end Ferry.Lib
