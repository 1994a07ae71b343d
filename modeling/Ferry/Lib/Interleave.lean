import Mathlib.Logic.Basic

/-!
# Runs of an interleaved machine

A machine is a step function that is undefined where an event cannot happen.  A
run is a list of events, the schedule of whoever takes the steps; what holds on
every schedule is proved from what one step preserves.
-/

namespace Ferry

namespace Interleave

variable {σ ε : Type} (step : σ → ε → Option σ)

/-- The state a schedule leads to, if each of its events can happen in turn. -/
def run (s : σ) : List ε → Option σ
  | [] => some s
  | e :: es =>
    match step s e with
    | some s' => run s' es
    | none => none

/-- Each event of a schedule meets the condition in the state it happens in. -/
def Along (C : σ → ε → Prop) (s : σ) : List ε → Prop
  | [] => True
  | e :: es => C s e ∧ ∀ s', step s e = some s' → Along C s' es

variable {step}

@[simp] theorem run_nil (s : σ) : run step s [] = some s := rfl

variable {C : σ → ε → Prop} {es : List ε} {s : σ}

theorem run_cons_of_step {s' : σ} {e : ε} (h : step s e = some s') (es : List ε) :
    run step s (e :: es) = run step s' es := by
  rw [run, h]

theorem run_cons_eq_some {t : σ} {e : ε} :
    run step s (e :: es) = some t ↔ ∃ s', step s e = some s' ∧ run step s' es = some t := by
  rw [run]
  cases step s e with
  | none | some => simp

theorem run_append {s' : σ} (h : run step s es = some s') (fs : List ε) :
    run step s (es ++ fs) = run step s' fs := by
  induction es generalizing s with
  | nil =>
    cases h
    rfl
  | cons e es ih =>
    obtain ⟨s₁, hstep, hrest⟩ := run_cons_eq_some.1 h
    rw [List.cons_append, run_cons_of_step hstep, ih hrest]

theorem along_cons_of_step {s' : σ} {e : ε} (h : step s e = some s') (es : List ε) :
    Along step C s (e :: es) ↔ C s e ∧ Along step C s' es := by
  refine and_congr_right fun _ => ⟨fun hall => hall s' h, fun hs s'' hs'' => ?_⟩
  obtain rfl : s' = s'' := Option.some.inj (h.symm.trans hs'')
  exact hs

theorem along_cons_of_none {e : ε} (h : step s e = none) (es : List ε) :
    Along step C s (e :: es) ↔ C s e := by
  refine and_iff_left fun s' hs' => ?_
  rw [h] at hs'
  cases hs'

instance decidableAlong {C : σ → ε → Prop} [∀ s e, Decidable (C s e)] :
    ∀ s es, Decidable (Along step C s es)
  | _, [] => .isTrue trivial
  | s, e :: es =>
    match h : step s e with
    | some s' =>
      have := decidableAlong (C := C) s' es
      decidable_of_iff (C s e ∧ Along step C s' es) (along_cons_of_step h es).symm
    | none => decidable_of_iff (C s e) (along_cons_of_none h es).symm

/-- An invariant that every step keeps while the condition is met holds at the end of a run. -/
theorem Along.invariant {I : σ → Prop} (hstep : ∀ s e s', I s → C s e → step s e = some s' → I s')
    {t : σ} (hs : I s) (hrun : run step s es = some t)
    (hC : Along step C s es) : I t := by
  induction es generalizing s with
  | nil =>
    cases hrun
    exact hs
  | cons e es ih =>
    obtain ⟨s₁, hs₁, hrest⟩ := run_cons_eq_some.1 hrun
    exact ih (hstep s e s₁ hs hC.1 hs₁) hrest (hC.2 s₁ hs₁)

theorem exists_of_not_along {t : σ} (hrun : run step s es = some t) (hC : ¬ Along step C s es) :
    ∃ before e after s₁ s₂, es = before ++ e :: after ∧ run step s before = some s₁ ∧
      Along step C s before ∧ step s₁ e = some s₂ ∧ ¬ C s₁ e ∧ run step s₂ after = some t := by
  induction es generalizing s with
  | nil => exact absurd trivial hC
  | cons e es ih =>
    obtain ⟨s', hstep, hrest⟩ := run_cons_eq_some.1 hrun
    by_cases he : C s e
    · have htail : ¬ Along step C s' es := fun htail => hC ((along_cons_of_step hstep es).2 ⟨he, htail⟩)
      obtain ⟨before, e', after, s₁, s₂, rfl, hbefore, hmet, hs₁, hmiss, hafter⟩ := ih hrest htail
      exact ⟨e :: before, e', after, s₁, s₂, rfl, (run_cons_of_step hstep before).trans hbefore,
        (along_cons_of_step hstep before).2 ⟨he, hmet⟩, hs₁, hmiss, hafter⟩
    · exact ⟨[], e, es, s, s', rfl, rfl, trivial, hstep, he, hrest⟩

theorem along_of_forall {C : ε → Prop} (h : ∀ e ∈ es, C e) (s : σ) :
    Along step (fun _ e => C e) s es := by
  induction es generalizing s with
  | nil => trivial
  | cons e es ih =>
    rw [List.forall_mem_cons] at h
    exact ⟨h.1, fun s' _ => ih h.2 s'⟩

theorem Along.and {D : σ → ε → Prop} (hC : Along step C s es)
    (hD : Along step D s es) : Along step (fun s e => C s e ∧ D s e) s es := by
  induction es generalizing s with
  | nil => trivial
  | cons e es ih => exact ⟨⟨hC.1, hD.1⟩, fun s' hs' => ih (hC.2 s' hs') (hD.2 s' hs')⟩

theorem along_true (s : σ) (es : List ε) : Along step (fun _ _ => True) s es := by
  induction es generalizing s with
  | nil => trivial
  | cons e es ih => exact ⟨trivial, fun s' _ => ih s'⟩

theorem run_invariant {I : σ → Prop} (hstep : ∀ s e s', I s → step s e = some s' → I s')
    {t : σ} (hs : I s) (hrun : run step s es = some t) : I t :=
  Along.invariant (fun s e s' hI _ h => hstep s e s' hI h) hs hrun (along_true s es)

end Interleave

end Ferry
