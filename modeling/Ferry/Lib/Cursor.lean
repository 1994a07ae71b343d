import Mathlib.Data.List.Basic
import Ferry.Lib.Except

/-! # Decoders that read a format

A decoder walks a cursor over a sequence of units. A format relates the values
to the sequences that spell them, and `Decodes p W` says that `p` reads exactly
the format `W`: it returns a value when and only when one of its spellings comes
next, and then it stands right behind that spelling. The rules follow the way
decoders are put together, so the format of a decoder is read off its text; what
is accepted and what round trips are then two halves of one statement.
-/

namespace Ferry.Lib

class Cursor (σ : Type) (B : outParam Type) where
  rest : σ → List B
  skip : Nat → σ → σ
  InBounds : σ → Prop
  skip_zero : ∀ s, skip 0 s = s
  skip_skip : ∀ m n s, skip n (skip m s) = skip (m + n) s
  rest_skip : ∀ n s, rest (skip n s) = (rest s).drop n
  inBounds_skip : ∀ n s, InBounds s → n ≤ (rest s).length → InBounds (skip n s)

open Cursor List

variable {σ B ε α β : Type} [Cursor σ B]

def Decodes (p : StateT σ (Except ε) α) (W : α → List B → Prop) : Prop :=
  ∀ s, InBounds s → ∀ a s', p s = .ok (a, s') ↔ ∃ w, W a w ∧ w <+: rest s ∧ s' = skip w.length s

variable {k : Unit → StateT σ (Except ε) α} {V : α → β → List B → Prop}

namespace Decodes

variable {p : StateT σ (Except ε) α} {W : α → List B → Prop}

theorem congr {W' : α → List B → Prop} (h : Decodes p W) (hW : ∀ a w, W a w ↔ W' a w) :
    Decodes p W' := by
  intro s hs a s'
  simp only [h s hs a s', hW]

theorem of_ok_iff {ε' : Type} {q : StateT σ (Except ε') α} (h : Decodes p W)
    (hq : ∀ s x, q s = .ok x ↔ p s = .ok x) : Decodes q W := by
  intro s hs a s'
  rw [hq s (a, s')]
  exact h s hs a s'

theorem pure (a : α) : Decodes (Pure.pure a : StateT σ (Except ε) α) fun b w => b = a ∧ w = [] := by
  intro s _ b s'
  constructor
  · intro h
    cases h
    exact ⟨[], ⟨rfl, rfl⟩, nil_prefix, (skip_zero s).symm⟩
  · rintro ⟨w, ⟨rfl, rfl⟩, -, rfl⟩
    rw [length_nil, skip_zero]
    rfl

theorem throw (e : ε) : Decodes (throw e : StateT σ (Except ε) α) fun _ _ => False := by
  intro s _ a s'
  constructor
  · intro h
    cases h
  · rintro ⟨w, h, -⟩
    exact h.elim

/-- Two decoders in sequence decode the concatenation. -/
theorem bind {k : α → StateT σ (Except ε) β} (hp : Decodes p W) (hk : ∀ a, Decodes (k a) (V a)) :
    Decodes (p >>= k) fun b u => ∃ a w v, W a w ∧ V a b v ∧ u = w ++ v := by
  intro s hs b s'
  change (p s >>= fun x => k x.1 x.2) = .ok (b, s') ↔ _
  rw [bind_eq_ok]
  constructor
  · rintro ⟨⟨a, t⟩, hpa, hkb⟩
    obtain ⟨w, hw, hpre, rfl⟩ := (hp s hs a t).1 hpa
    have ht := inBounds_skip w.length s hs hpre.length_le
    obtain ⟨v, hv, hpre', rfl⟩ := (hk a _ ht b s').1 hkb
    obtain ⟨r, hr⟩ := hpre
    refine ⟨w ++ v, ⟨a, w, v, hw, hv, rfl⟩, ?_, ?_⟩
    · rw [rest_skip, ← hr, drop_left] at hpre'
      rw [← hr]
      exact prefix_append_right_inj w |>.2 hpre'
    · rw [skip_skip, length_append]
  · rintro ⟨u, ⟨a, w, v, hw, hv, rfl⟩, hpre, rfl⟩
    have hprew : w <+: rest s := (prefix_append w v).trans hpre
    refine ⟨(a, skip w.length s), (hp s hs a _).2 ⟨w, hw, hprew, rfl⟩, ?_⟩
    refine (hk a _ (inBounds_skip _ s hs hprew.length_le) b _).2 ⟨v, hv, ?_, ?_⟩
    · obtain ⟨r, hr⟩ := hpre
      rw [rest_skip, ← hr, append_assoc, drop_left]
      exact prefix_append v r
    · rw [skip_skip, length_append]

theorem guard {c : Prop} [Decidable c] {e : ε} (h : Decodes (k ()) W) :
    Decodes (if c then MonadExcept.throw e >>= k else k ()) fun a w => ¬ c ∧ W a w := by
  by_cases hc : c
  · rw [if_pos hc]
    exact (throw e).congr fun a w => by simp [hc]
  · rw [if_neg hc]
    exact h.congr fun a w => by simp [hc]

theorem ofOption {γ : Type} (o : Option γ) {V : γ → α → List B → Prop}
    (hsome : ∀ c, o = some c → Decodes p (V c)) (hnone : o = none → ∃ e, p = MonadExcept.throw e) :
    Decodes p fun a w => ∃ c, o = some c ∧ V c a w := by
  cases o with
  | none =>
    obtain ⟨e, rfl⟩ := hnone rfl
    exact (throw e).congr fun a w => by simp
  | some c => exact (hsome c rfl).congr fun a w => by simp

end Decodes

/-! ## Decoders of a whole input -/

/-- The decoder succeeds when and only when all that is left spells a value. -/
def DecodesAll (p : StateT σ (Except ε) α) (W : α → List B → Prop) : Prop :=
  ∀ s, InBounds s → ∀ a, (∃ s', p s = .ok (a, s')) ↔ W a (rest s)

namespace DecodesAll

variable {p : StateT σ (Except ε) α} {W : α → List B → Prop}

theorem congr {W' : α → List B → Prop} (h : DecodesAll p W) (hW : ∀ a w, W a w ↔ W' a w) :
    DecodesAll p W' := by
  intro s hs a
  rw [h s hs a, hW]

theorem pure (a : α) : DecodesAll (Pure.pure a : StateT σ (Except ε) α) fun b _ => b = a := by
  intro s _ b
  constructor
  · rintro ⟨s', h⟩
    cases h
    rfl
  · rintro rfl
    exact ⟨s, rfl⟩

theorem throw (e : ε) : DecodesAll (MonadExcept.throw e : StateT σ (Except ε) α) fun _ _ => False := by
  intro s _ b
  constructor
  · rintro ⟨s', h⟩
    cases h
  · exact False.elim

theorem ends_then {q : StateT σ (Except ε) Unit} {k : StateT σ (Except ε) α}
    (hq : ∀ s, InBounds s → ∀ x, q s = .ok x ↔ rest s = [] ∧ x = ((), s)) (hk : DecodesAll k W) :
    DecodesAll (q >>= fun _ => k) fun b w => w = [] ∧ W b w := by
  intro s hs b
  change (∃ s', (q s >>= fun x => k x.2) = .ok (b, s')) ↔ _
  simp only [bind_eq_ok, hq s hs, ← hk s hs b]
  constructor
  · rintro ⟨s', x, ⟨hend, rfl⟩, hx⟩
    exact ⟨hend, s', hx⟩
  · rintro ⟨hend, s', hx⟩
    exact ⟨s', ((), s), ⟨hend, rfl⟩, hx⟩

theorem ends {q : StateT σ (Except ε) Unit} (a : α)
    (hq : ∀ s, InBounds s → ∀ x, q s = .ok x ↔ rest s = [] ∧ x = ((), s)) :
    DecodesAll (q >>= fun _ => Pure.pure a) fun b w => b = a ∧ w = [] :=
  (ends_then hq (.pure a)).congr fun _ _ => And.comm

theorem bind {k : α → StateT σ (Except ε) β} (hp : Decodes p W) (hk : ∀ a, DecodesAll (k a) (V a)) :
    DecodesAll (p >>= k) fun b u => ∃ a w v, W a w ∧ V a b v ∧ u = w ++ v := by
  intro s hs b
  change (∃ s', (p s >>= fun x => k x.1 x.2) = .ok (b, s')) ↔ _
  simp only [bind_eq_ok]
  constructor
  · rintro ⟨s', ⟨a, t⟩, hpa, hkb⟩
    obtain ⟨w, hw, hpre, rfl⟩ := (hp s hs a t).1 hpa
    have hv := (hk a _ (inBounds_skip w.length s hs hpre.length_le) b).1 ⟨s', hkb⟩
    obtain ⟨r, hr⟩ := hpre
    rw [rest_skip, ← hr, drop_left] at hv
    exact ⟨a, w, r, hw, hv, hr.symm⟩
  · rintro ⟨a, w, v, hw, hv, hrest⟩
    have hpre : w <+: rest s := ⟨v, hrest.symm⟩
    have hkb := hk a _ (inBounds_skip w.length s hs hpre.length_le) b
    rw [rest_skip, hrest, drop_left] at hkb
    obtain ⟨s', hkb⟩ := hkb.2 hv
    exact ⟨s', (a, skip w.length s), (hp s hs a _).2 ⟨w, hw, hpre, rfl⟩, hkb⟩

theorem guard {c : Prop} [Decidable c] {e : ε} (h : DecodesAll (k ()) W) :
    DecodesAll (if c then MonadExcept.throw e >>= k else k ()) fun a w => ¬ c ∧ W a w := by
  by_cases hc : c
  · rw [if_pos hc]
    exact (throw e).congr fun a w => by simp [hc]
  · rw [if_neg hc]
    exact h.congr fun a w => by simp [hc]

theorem ofOption {γ : Type} (o : Option γ) {V : γ → α → List B → Prop}
    (hsome : ∀ c, o = some c → DecodesAll p (V c)) (hnone : o = none → ∃ e, p = MonadExcept.throw e) :
    DecodesAll p fun a w => ∃ c, o = some c ∧ V c a w := by
  cases o with
  | none =>
    obtain ⟨e, rfl⟩ := hnone rfl
    exact (throw e).congr fun a w => by simp
  | some c => exact (hsome c rfl).congr fun a w => by simp

end DecodesAll

end Ferry.Lib
