import Mathlib.Algebra.Ring.Nat
import Mathlib.Data.List.Basic

/-! # Code that may panic

A call returns a value, fails with an error, or panics. The operations that can
panic are the checked ones of machine arithmetic, which panic where the result
leaves the word, and slices, which panic where they leave the buffer.
-/

namespace Ferry.Lib

inductive Outcome (ε α : Type) where
  | returned (a : α)
  | failed (e : ε)
  | panics
  deriving DecidableEq

namespace Outcome

variable {ε α β B : Type}

instance : Monad (Outcome ε) where
  pure := .returned
  bind x f := match x with
    | .returned a => f a
    | .failed e => .failed e
    | .panics => .panics

instance : LawfulMonad (Outcome ε) :=
  LawfulMonad.mk' _ (fun x => by cases x <;> rfl) (fun _ _ => rfl) (fun x _ _ => by cases x <;> rfl)

@[simp] theorem pure_eq (a : α) : (pure a : Outcome ε α) = .returned a := rfl

@[simp] theorem returned_bind (a : α) (f : α → Outcome ε β) : (returned a >>= f) = f a := rfl

@[simp] theorem panics_bind (f : α → Outcome ε β) : ((panics : Outcome ε α) >>= f) = .panics := rfl

theorem bind_of_returned {x : Outcome ε α} {f : α → Outcome ε β} {a : α} {r : Outcome ε β}
    (hx : x = .returned a) (h : f a = r) : (x >>= f) = r := by
  rw [hx]
  exact h

theorem bind_of_panics {x : Outcome ε α} {f : α → Outcome ε β} (hx : x = .panics) : (x >>= f) = .panics := by
  rw [hx]
  rfl

def Safe (x : Outcome ε α) : Prop := x ≠ .panics

@[simp] theorem safe_returned (a : α) : (returned a : Outcome ε α).Safe := nofun

@[simp] theorem safe_failed (e : ε) : (failed e : Outcome ε α).Safe := nofun

@[simp] theorem not_safe_panics : ¬ (panics : Outcome ε α).Safe := fun h => h rfl

theorem safe_bind_iff {x : Outcome ε α} {f : α → Outcome ε β} :
    (x >>= f).Safe ↔ x.Safe ∧ ∀ a, x = .returned a → (f a).Safe := by
  cases x <;> simp [Safe, bind]

/-! ## Operations -/

def ofExcept : Except ε α → Outcome ε α
  | .ok a => .returned a
  | .error e => .failed e

@[simp] theorem ofExcept_ok (a : α) : (ofExcept (.ok a) : Outcome ε α) = .returned a := rfl

@[simp] theorem ofExcept_error (e : ε) : (ofExcept (.error e) : Outcome ε α) = .failed e := rfl

theorem ofExcept_eq_returned {x : Except ε α} {a : α} : ofExcept x = .returned a ↔ x = .ok a := by
  cases x <;> simp

@[simp] theorem safe_ofExcept (x : Except ε α) : (ofExcept x).Safe := by
  cases x <;> simp

/-- `assert!` and the `expect`s on a condition. -/
def assert (c : Prop) [Decidable c] : Outcome ε Unit := if c then .returned () else .panics

/-- `a + b` on words of `width` bits. -/
def add (width a b : Nat) : Outcome ε Nat := if a + b < 2 ^ width then .returned (a + b) else .panics

/-- `a * b` on words of `width` bits. The kernel unfolds a product along its second factor, which is
often a large literal, so the test has it first. -/
def mul (width a b : Nat) : Outcome ε Nat := if b * a < 2 ^ width then .returned (a * b) else .panics

/-- `a - b` on unsigned words. -/
def sub (a b : Nat) : Outcome ε Nat := if b ≤ a then .returned (a - b) else .panics

/-- `&buf[start..stop]`. -/
def slice (buf : List B) (start stop : Nat) : Outcome ε (List B) :=
  if start ≤ stop ∧ stop ≤ buf.length then .returned ((buf.drop start).take (stop - start)) else .panics

variable {width a b : Nat}

variable {c : Prop}

theorem assert_of [Decidable c] (h : c) : (assert c : Outcome ε Unit) = .returned () := if_pos h

theorem assert_of_not [Decidable c] (h : ¬ c) : (assert c : Outcome ε Unit) = .panics := if_neg h

theorem add_of_lt (h : a + b < 2 ^ width) : (add width a b : Outcome ε Nat) = .returned (a + b) := if_pos h

theorem add_of_not_lt (h : ¬ a + b < 2 ^ width) : (add width a b : Outcome ε Nat) = .panics := if_neg h

theorem mul_of_lt (h : a * b < 2 ^ width) : (mul width a b : Outcome ε Nat) = .returned (a * b) :=
  if_pos (Nat.mul_comm a b ▸ h)

theorem mul_of_not_lt (h : ¬ a * b < 2 ^ width) : (mul width a b : Outcome ε Nat) = .panics :=
  if_neg (Nat.mul_comm a b ▸ h)

theorem sub_of_le (h : b ≤ a) : (sub a b : Outcome ε Nat) = .returned (a - b) := if_pos h

theorem sub_of_not_le (h : ¬ b ≤ a) : (sub a b : Outcome ε Nat) = .panics := if_neg h

theorem slice_of_le {buf : List B} (hab : a ≤ b) (hb : b ≤ buf.length) :
    (slice buf a b : Outcome ε (List B)) = .returned ((buf.drop a).take (b - a)) := if_pos ⟨hab, hb⟩

theorem slice_of_not_le {buf : List B} (hb : ¬ b ≤ buf.length) :
    (slice buf a b : Outcome ε (List B)) = .panics := if_neg fun h => hb h.2

/-! ## Panics taken out

The same code is often modelled twice, with its panics and with the arithmetic of
a build that wraps. Where the first does not panic the two agree.
-/

/-- The checked program panics or does what the other one does. -/
def Refines (x : Outcome ε α) (y : Except ε α) : Prop := x = .panics ∨ x = ofExcept y

namespace Refines

variable {x : Outcome ε α} {y : Except ε α} {f : α → Outcome ε β} {z : Except ε β}

protected theorem ofExcept (y : Except ε α) : Refines (ofExcept y) y := .inr rfl

protected theorem pure (a : α) : Refines (.returned a : Outcome ε α) (pure a) := .inr rfl

theorem bind {g : α → Except ε β} (hx : Refines x y) (h : ∀ a, y = .ok a → Refines (f a) (g a)) :
    Refines (x >>= f) (y >>= g) := by
  rcases hx with rfl | rfl
  · exact .inl rfl
  · cases y with
    | error => exact .inr rfl
    | ok a => exact h a rfl

theorem bind_checked [Decidable c] {a : α} (h : c → Refines (f a) z) :
    Refines ((if c then .returned a else .panics) >>= f) z := by
  by_cases hc : c
  · rw [if_pos hc]
    exact h hc
  · rw [if_neg hc]
    exact .inl rfl

theorem assert [Decidable c] {f : Unit → Outcome ε β} (h : c → Refines (f ()) z) :
    Refines (assert c >>= f) z :=
  bind_checked h

theorem add {f : Nat → Outcome ε β} (h : a + b < 2 ^ width → Refines (f (a + b)) z) :
    Refines (add width a b >>= f) z :=
  bind_checked h

theorem sub {f : Nat → Outcome ε β} (h : b ≤ a → Refines (f (a - b)) z) : Refines (sub a b >>= f) z :=
  bind_checked h

theorem slice {buf : List B} {f : List B → Outcome ε β}
    (h : a ≤ b → b ≤ buf.length → Refines (f ((buf.drop a).take (b - a))) z) :
    Refines (slice buf a b >>= f) z :=
  bind_checked fun hab => h hab.1 hab.2

theorem mul {f : Nat → Outcome ε β} (h : a * b < 2 ^ width → Refines (f (a * b)) z) :
    Refines (mul width a b >>= f) z :=
  bind_checked fun hlt => h (Nat.mul_comm b a ▸ hlt)

variable {k : Unit → Except ε β}

theorem guard [Decidable c] {e : ε} {x : Outcome ε β}
    (h : ¬ c → Refines x (k ())) : Refines (if c then .failed e else x) (if c then throw e >>= k else k ()) := by
  by_cases hc : c
  · rw [if_pos hc, if_pos hc]
    exact .inr rfl
  · rw [if_neg hc, if_neg hc]
    exact h hc

theorem guard_bind [Decidable c] {e : ε} (h : ¬ c → Refines (x >>= f) (k ())) :
    Refines ((if c then .failed e else x) >>= f) (if c then throw e >>= k else k ()) := by
  by_cases hc : c
  · rw [if_pos hc, if_pos hc]
    exact .inr rfl
  · rw [if_neg hc, if_neg hc]
    exact h hc

theorem passed [Decidable c] {e : ε} {x : Outcome ε β} (hc : ¬ c)
    (h : Refines x (k ())) : Refines x (if c then throw e >>= k else k ()) := by
  rw [if_neg hc]
  exact h

end Refines

/-- A loop of checks is safe just when each check is that the ones before it let the loop reach. -/
theorem safe_forM_iff {f : α → Outcome ε Unit} {g : α → Except ε Unit} (hf : ∀ a, Refines (f a) (g a))
    {l : List α} : (l.forM f).Safe ↔
      ∀ before a after, l = before ++ a :: after → (∀ b ∈ before, g b = .ok ()) → (f a).Safe := by
  induction l with
  | nil =>
    refine ⟨fun _ before a after hl => ?_, fun _ => safe_returned ()⟩
    cases before <;> cases hl
  | cons x l ih =>
    rw [show (x :: l).forM f = (f x >>= fun _ => l.forM f) from rfl]
    rcases hf x with hx | hx
    · rw [hx]
      refine ⟨fun h => absurd h not_safe_panics, fun h => ?_⟩
      exact absurd hx (h [] x l rfl (by simp))
    · cases hg : g x with
      | error e =>
        rw [hx, hg]
        refine ⟨fun _ before a after hl hbefore => ?_, fun _ => safe_failed e⟩
        -- the loop ends at `x`, so nothing after it is reached
        cases before with
        | nil =>
          cases hl
          rw [hx]
          exact safe_ofExcept _
        | cons b before =>
          cases hl
          cases hg.symm.trans (hbefore _ List.mem_cons_self)
      | ok u =>
        rw [hx, hg]
        refine Iff.trans ih ⟨fun h before a after hl hbefore => ?_, fun h before a after hl hbefore => ?_⟩
        · cases before with
          | nil =>
            cases hl
            rw [hx]
            exact safe_ofExcept _
          | cons b before =>
            cases hl
            exact h before a after rfl fun b hb => hbefore b (List.mem_cons_of_mem _ hb)
        · refine h (x :: before) a after (by rw [hl]; rfl) fun b hb => ?_
          rcases List.mem_cons.1 hb with rfl | hb
          · exact hg
          · exact hbefore b hb

end Outcome

end Ferry.Lib
