import Ferry.Lib.Effect

/-! # Pre- and postconditions for runs that keep their state on failure

`Triple P m Q X` says where `m` can end when it starts in `P`: in `Q` with its
result, or in `X` with its error. The state a failed run leaves is part of the
statement, so that an invariant with `Q = X` holds wherever the run stops.
-/

namespace Ferry.Lib

variable {ε σ α β : Type}

/-- From every state in `P` the computation returns in `Q` or fails in `X`. -/
def Triple (P : σ → Prop) (m : EStateM ε σ α) (Q : α → σ → Prop) (X : ε → σ → Prop) : Prop :=
  ∀ s, P s → match m s with
    | .ok a s' => Q a s'
    | .error e s' => X e s'

variable {f : α → EStateM ε σ β}

namespace Triple

variable {P P' : σ → Prop} {m : EStateM ε σ α} {Q Q' : α → σ → Prop} {X X' : ε → σ → Prop}

section
variable (h : Triple P m Q X)
include h

theorem of_ok {s s' : σ} {a : α} (hs : P s) (hrun : m s = .ok a s') : Q a s' := by
  have := h s hs
  rwa [hrun] at this

theorem of_error {s s' : σ} {e : ε} (hs : P s) (hrun : m s = .error e s') :
    X e s' := by
  have := h s hs
  rwa [hrun] at this

theorem weaken (hP : ∀ s, P' s → P s) (hQ : ∀ a s, Q a s → Q' a s)
    (hX : ∀ e s, X e s → X' e s) : Triple P' m Q' X' := by
  intro s hs
  have hm := h s (hP s hs)
  cases hrun : m s with
  | ok a s' =>
    rw [hrun] at hm
    exact hQ a s' hm
  | error e s' =>
    rw [hrun] at hm
    exact hX e s' hm

theorem fails (hX : ∀ e s, X e s → X' e s) : Triple P m Q X' :=
  h.weaken (fun _ h => h) (fun _ _ h => h) hX

theorem and (h' : Triple P m Q' X') :
    Triple P m (fun a s => Q a s ∧ Q' a s) (fun e s => X e s ∧ X' e s) := by
  intro s hs
  have hm := h s hs
  have hm' := h' s hs
  cases hrun : m s with
  | ok | error =>
    rw [hrun] at hm hm'
    exact ⟨hm, hm'⟩

end

theorem of_each (h : ∀ s, P s → Triple (· = s) m Q X) : Triple P m Q X := fun s hs => h s hs s rfl

theorem of_runs {s : σ} (hok : ∀ a s', m s = .ok a s' → Q a s') (herror : ∀ e s', m s = .error e s' → X e s') :
    Triple (· = s) m Q X := by
  rintro s rfl
  cases hrun : m s with
  | ok a s' => exact hok a s' hrun
  | error e s' => exact herror e s' hrun

theorem of_fact {φ : Prop} (h : φ → Triple P m Q X) : Triple (fun s => P s ∧ φ) m Q X :=
  fun s hs => h hs.2 s hs.1

theorem pure {a : α} (h : ∀ s, P s → Q a s) : Triple P (Pure.pure a : EStateM ε σ α) Q X := h

theorem throw {e : ε} (h : ∀ s, P s → X e s) : Triple P (throw e : EStateM ε σ α) Q X := h

theorem modify {f : σ → σ} {Q : PUnit → σ → Prop} (h : ∀ s, P s → Q ⟨⟩ (f s)) :
    Triple P (modify f : EStateM ε σ PUnit) Q X := h

theorem adaptExcept {ε' : Type} {f : ε → ε'} {X' : ε' → σ → Prop} (h : Triple P m Q fun e => X' (f e)) :
    Triple P (m.adaptExcept f) Q X' := by
  intro s hs
  have hm := h s hs
  unfold EStateM.adaptExcept
  cases hrun : m s with
  | ok | error =>
    rw [hrun] at hm
    exact hm

theorem bind {R : β → σ → Prop} (h : Triple P m Q X)
    (hf : ∀ a, Triple (Q a) (f a) R X) : Triple P (m >>= f) R X := by
  intro s hs
  have hm := h s hs
  cases hrun : m s with
  | ok a s' =>
    rw [hrun] at hm
    rw [run_bind_ok hrun]
    exact hf a s' hm
  | error =>
    rw [hrun] at hm
    rw [run_bind_error hrun]
    exact hm

theorem get_bind {f : σ → EStateM ε σ β} {R : β → σ → Prop}
    (h : ∀ s, P s → Triple (· = s) (f s) R X) : Triple P (get >>= f) R X := by
  intro s hs
  exact h s hs s rfl

theorem forM {f : α → EStateM ε σ PUnit} {I : List α → σ → Prop} (l : List α)
    (hstep : ∀ done a rest, l = done ++ a :: rest → Triple (I done) (f a) (fun _ => I (done ++ [a])) X) :
    Triple (I []) (l.forM f) (fun _ => I l) X := by
  suffices h : ∀ rest done, l = done ++ rest → Triple (I done) (rest.forM f) (fun _ => I l) X from
    h l [] rfl
  intro rest
  induction rest with
  | nil =>
    intro done hl
    rw [List.append_nil] at hl
    subst hl
    exact Triple.pure fun _ hs => hs
  | cons a rest ih =>
    intro done hl
    exact (hstep done a rest hl).bind fun _ => ih (done ++ [a]) (by simp [hl])

theorem foldlM {f : β → α → EStateM ε σ β} {I : List α → β → σ → Prop} (l : List α)
    (hstep : ∀ done a rest b, l = done ++ a :: rest →
      Triple (I done b) (f b a) (fun b' => I (done ++ [a]) b') X) (b : β) :
    Triple (I [] b) (l.foldlM f b) (fun b' => I l b') X := by
  suffices h : ∀ rest done b, l = done ++ rest →
      Triple (I done b) (rest.foldlM f b) (fun b' => I l b') X from h l [] b rfl
  intro rest
  induction rest with
  | nil =>
    intro done b hl
    rw [List.append_nil] at hl
    subst hl
    exact Triple.pure fun _ hs => hs
  | cons a rest ih =>
    intro done b hl
    exact (hstep done a rest b hl).bind fun b' => ih (done ++ [a]) b' (by simp [hl])

theorem mapM {I : σ → Prop} {R : α → β → Prop} (l : List α)
    (hstep : ∀ a ∈ l, Triple I (f a) (fun b s => I s ∧ R a b) X) :
    Triple I (l.mapM f) (fun bs s => I s ∧ List.Forall₂ R l bs) X := by
  induction l with
  | nil => exact Triple.pure fun _ hs => ⟨hs, .nil⟩
  | cons a l ih =>
    rw [List.mapM_cons]
    refine (hstep a (by simp)).bind fun b => ?_
    have htail := ih fun x hx => hstep x (by simp [hx])
    intro s hs
    refine (htail.bind (f := fun bs => Pure.pure (b :: bs)) (R := fun bs s =>
      I s ∧ List.Forall₂ R (a :: l) bs) fun bs => ?_) s hs.1
    exact Triple.pure fun _ hs' => ⟨hs'.1, .cons hs.2 hs'.2⟩

end Triple

/-! ## Invariants -/

/-- Wherever `m` stops, what held before it holds again. -/
def Keeps (I : σ → Prop) (m : EStateM ε σ α) : Prop := Triple I m (fun _ => I) (fun _ => I)

namespace Keeps

variable {I : σ → Prop} {m : EStateM ε σ α}

theorem pure (a : α) : Keeps I (Pure.pure a : EStateM ε σ α) := Triple.pure fun _ hs => hs

theorem throw (e : ε) : Keeps I (throw e : EStateM ε σ α) := Triple.throw fun _ hs => hs

theorem bind (h : Keeps I m) (hf : ∀ a, Keeps I (f a)) : Keeps I (m >>= f) :=
  Triple.bind h hf

theorem get_bind {f : σ → EStateM ε σ β} (h : ∀ s, Keeps I (f s)) : Keeps I (get >>= f) :=
  Triple.get_bind fun s hs =>
    (h s).weaken (fun _ heq => heq ▸ hs) (fun _ _ hI => hI) (fun _ _ hI => hI)

theorem mapM {l : List α} (h : ∀ a ∈ l, Keeps I (f a)) : Keeps I (l.mapM f) := by
  have hloop : Triple I (l.mapM f) (fun bs s => I s ∧ List.Forall₂ (fun _ _ => True) l bs) (fun _ => I) :=
    Triple.mapM l fun a ha =>
      Triple.weaken (h a ha) (fun _ hI => hI) (fun _ _ hI => ⟨hI, trivial⟩) (fun _ _ hI => hI)
  exact hloop.weaken (fun _ hI => hI) (fun _ _ hI => hI.1) (fun _ _ hI => hI)

theorem forM {f : α → EStateM ε σ PUnit} {l : List α} (h : ∀ a ∈ l, Keeps I (f a)) :
    Keeps I (l.forM f) :=
  Triple.forM (I := fun _ => I) l fun _ a _ hl => h a (by simp [hl])

theorem foldlM {f : β → α → EStateM ε σ β} {l : List α} (h : ∀ b, ∀ a ∈ l, Keeps I (f b a)) {b : β} :
    Keeps I (l.foldlM f b) :=
  Triple.foldlM (I := fun _ _ => I) l (fun _ a _ b hl => h b a (by simp [hl])) b

end Keeps

/-! ## Conditions met on the way -/

/-- The state that a run returns in, if it returns, meets `P`. -/
def After (r : EStateM.Result ε σ α) (P : σ → Prop) : Prop :=
  match r with
  | .ok _ s => P s
  | .error .. => True

/-- `C` holds before each round of the loop, as far as the loop gets. -/
def Along (C : σ → α → Prop) (f : α → EStateM ε σ PUnit) : List α → σ → Prop
  | [], _ => True
  | a :: l, s => C s a ∧ After (f a s) (Along C f l)

section
variable {C : σ → α → Prop} {f : α → EStateM ε σ PUnit}

instance {r : EStateM.Result ε σ α} {P : σ → Prop} [DecidablePred P] : Decidable (After r P) :=
  match r with
  | .ok _ s => inferInstanceAs (Decidable (P s))
  | .error .. => isTrue trivial

instance decidableAlong [∀ s a, Decidable (C s a)] : ∀ l, DecidablePred (Along C f l)
  | [], _ => isTrue trivial
  | _ :: l, _ =>
    haveI := decidableAlong l
    inferInstanceAs (Decidable (_ ∧ After _ _))

/-- The rule for loops whose rounds may rely on a condition that they find when their turn comes. -/
theorem Triple.forM_along {I : List α → σ → Prop} {X : ε → σ → Prop} (l : List α)
    (hstep : ∀ done a rest, l = done ++ a :: rest →
      Triple (fun s => I done s ∧ C s a) (f a) (fun _ => I (done ++ [a])) X) :
    Triple (fun s => I [] s ∧ Along C f l s) (l.forM f) (fun _ => I l) X := by
  suffices h : ∀ rest done, l = done ++ rest →
      Triple (fun s => I done s ∧ Along C f rest s) (rest.forM f) (fun _ => I l) X from h l [] rfl
  intro rest
  induction rest with
  | nil =>
    intro done hl
    rw [List.append_nil] at hl
    subst hl
    exact Triple.pure fun _ hs => hs.1
  | cons a rest ih =>
    rintro done hl s ⟨hI, hC, halong⟩
    have hrun := hstep done a rest hl s ⟨hI, hC⟩
    cases hfa : f a s with
    | ok _ s' =>
      rw [hfa] at hrun halong
      rw [run_forM_cons hfa]
      exact ih (done ++ [a]) (by simp [hl]) s' ⟨hrun, halong⟩
    | error =>
      rw [hfa] at hrun
      rw [forM_cons, run_bind_error hfa]
      exact hrun

theorem Along.keeps {I : σ → Prop} {l : List α}
    (h : ∀ a ∈ l, Triple (fun s => I s ∧ C s a) (f a) (fun _ => I) fun _ => I) :
    Triple (fun s => I s ∧ Along C f l s) (l.forM f) (fun _ => I) fun _ => I :=
  Triple.forM_along (I := fun _ => I) l fun _ a _ hl => h a (by simp [hl])

end

end Ferry.Lib
