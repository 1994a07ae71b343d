import Mathlib.Data.List.Forall2

/-! # Peeling fallible computations

Inversion rules for `Except`: a bind that succeeded had a successful first
half, a loop that succeeded had a successful body on every element. Proofs
about checked code take a run apart with these rules and never unfold the
monad.
-/

namespace Ferry.Lib

open List

variable {ε α β : Type}

variable {f : α → Except ε β} {l : List α} {x : Except ε α} {R : α → β → Prop} {bs : List β}

theorem bind_eq_ok {b : β} : (x >>= f) = .ok b ↔ ∃ a, x = .ok a ∧ f a = .ok b := by
  cases x with
  | error | ok => simp [bind, Except.bind]

theorem bind_eq_error {e : ε} : (x >>= f) = .error e ↔ x = .error e ∨ ∃ a, x = .ok a ∧ f a = .error e := by
  cases x with
  | error | ok => simp [bind, Except.bind]

@[simp] theorem ok_bind (a : α) (f : α → Except ε β) : (Except.ok a >>= f) = f a := rfl

@[simp] theorem error_bind (e : ε) (f : α → Except ε β) :
    ((Except.error e : Except ε α) >>= f) = .error e := rfl

theorem exists_of_isOk (h : x.isOk = true) : ∃ a, x = .ok a := by
  cases x with
  | error => cases h
  | ok a => exact ⟨a, rfl⟩

theorem exists_of_any {P : α → Bool} (h : x.toOption.any P = true) : ∃ a, x = .ok a ∧ P a = true := by
  cases x with
  | error => cases h
  | ok a => exact ⟨a, rfl, h⟩

theorem guard_eq_ok {c : Prop} [Decidable c] {e : ε} {k : Unit → Except ε β} {b : β} :
    (if c then throw e >>= k else k ()) = .ok b ↔ ¬ c ∧ k () = .ok b := by
  by_cases hc : c
  · rw [if_pos hc]
    constructor
    · intro h
      cases h
    · exact fun h => absurd hc h.1
  · rw [if_neg hc]
    exact ⟨fun h => ⟨hc, h⟩, And.right⟩

theorem guard_eq_error {c : Prop} [Decidable c] {e e' : ε} {k : Unit → Except ε β} :
    (if c then throw e >>= k else k ()) = .error e' ↔ (c ∧ e = e') ∨ (¬ c ∧ k () = .error e') := by
  by_cases hc : c
  · rw [if_pos hc]
    constructor
    · intro h
      cases h
      exact .inl ⟨hc, rfl⟩
    · rintro (⟨-, rfl⟩ | ⟨hn, -⟩)
      · rfl
      · exact absurd hc hn
  · rw [if_neg hc]
    exact ⟨fun h => .inr ⟨hc, h⟩, fun h => h.elim (fun h => absurd h.1 hc) And.right⟩

/-- Two computations that return the same value, if both return one. -/
def Agree {ε' : Type} (x : Except ε α) (y : Except ε' α) : Prop := ∀ a b, x = .ok a → y = .ok b → a = b

namespace Agree

variable {ε' : Type}

theorem refl (x : Except ε α) : Agree x x := by
  intro a b ha hb
  rw [ha] at hb
  exact Except.ok.inj hb

theorem bind {y : Except ε' α} {g : α → Except ε' β}
    (h : Agree x y) (hf : ∀ a, Agree (f a) (g a)) : Agree (x >>= f) (y >>= g) := by
  intro b b' hb hb'
  obtain ⟨a, ha, hfa⟩ := bind_eq_ok.1 hb
  obtain ⟨a', ha', hga⟩ := bind_eq_ok.1 hb'
  obtain rfl := h a a' ha ha'
  exact hf a b b' hfa hga

theorem error_left (e : ε) (y : Except ε' α) : Agree (.error e) y := by
  intro a b ha
  cases ha

theorem error_right (x : Except ε α) (e : ε') : Agree x (.error e) := by
  intro a b _ hb
  cases hb

end Agree

theorem mapError_eq_ok {ε' : Type} {f : ε → ε'} {a : α} :
    x.mapError f = .ok a ↔ x = .ok a := by
  cases x with
  | error | ok => simp [Except.mapError]

theorem mapError_eq_error {ε' : Type} {f : ε → ε'} {e' : ε'} :
    x.mapError f = .error e' ↔ ∃ e, x = .error e ∧ f e = e' := by
  cases x with
  | error | ok => simp [Except.mapError]

theorem forM_eq_ok {f : α → Except ε Unit} :
    l.forM f = .ok () ↔ ∀ a ∈ l, f a = .ok () := by
  induction l with
  | nil => simp [pure, Except.pure]
  | cons a l ih =>
    change (f a >>= fun _ => l.forM f) = .ok () ↔ _
    rw [bind_eq_ok]
    constructor
    · rintro ⟨⟨⟩, ha, hl⟩ x hx
      rcases mem_cons.1 hx with rfl | hx
      · exact ha
      · exact ih.1 hl x hx
    · intro h
      exact ⟨(), h a (by simp), ih.2 fun x hx => h x (by simp [hx])⟩

theorem foldlM_eq_error {σ : Type} {f : σ → α → Except ε σ} {s : σ} {e : ε}
    (h : l.foldlM f s = .error e) : ∃ a ∈ l, ∃ s', f s' a = .error e := by
  induction l generalizing s with
  | nil => cases h
  | cons a l ih =>
    rw [foldlM_cons] at h
    cases hstep : f s a with
    | error =>
      rw [hstep] at h
      cases h
      exact ⟨a, by simp, s, hstep⟩
    | ok =>
      rw [hstep] at h
      obtain ⟨x, hx, s'', hfx⟩ := ih h
      exact ⟨x, by simp [hx], s'', hfx⟩

theorem mapM_ok (h : ∀ a ∈ l, ∃ b, f a = .ok b ∧ R a b) : ∃ bs, l.mapM f = .ok bs ∧ List.Forall₂ R l bs := by
  induction l with
  | nil => exact ⟨[], rfl, .nil⟩
  | cons a l ih =>
    obtain ⟨b, hb, hR⟩ := h a (by simp)
    obtain ⟨bs, hbs, hRs⟩ := ih fun x hx => h x (by simp [hx])
    exact ⟨b :: bs, by simp [hb, hbs], .cons hR hRs⟩

theorem mapM_forall₂ (h : l.mapM f = .ok bs) :
    List.Forall₂ (fun a b => f a = .ok b) l bs := by
  induction l generalizing bs with
  | nil =>
    cases h
    exact .nil
  | cons a l ih =>
    rw [mapM_cons] at h
    obtain ⟨b, hb, h⟩ := bind_eq_ok.1 h
    obtain ⟨bs', hbs', h⟩ := bind_eq_ok.1 h
    cases h
    exact .cons hb (ih hbs')

theorem forall₂_mem_right (h : List.Forall₂ R l bs) {b : β} (hb : b ∈ bs) : ∃ a ∈ l, R a b := by
  induction h with
  | nil => cases hb
  | @cons a b' l bs hab _ ih =>
    rcases mem_cons.1 hb with rfl | hb
    · exact ⟨a, by simp, hab⟩
    · obtain ⟨a', ha', hr⟩ := ih hb
      exact ⟨a', by simp [ha'], hr⟩

theorem mapM_mem (h : l.mapM f = .ok bs) {b : β} (hb : b ∈ bs) : ∃ a ∈ l, f a = .ok b :=
  forall₂_mem_right (mapM_forall₂ h) hb

theorem forall₂_mem_left (h : List.Forall₂ R l bs) {a : α} (ha : a ∈ l) : ∃ b ∈ bs, R a b :=
  forall₂_mem_right (R := flip R) (List.Forall₂.flip h) ha

end Ferry.Lib
