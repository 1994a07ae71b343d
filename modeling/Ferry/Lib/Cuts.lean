import Mathlib.Algebra.BigOperators.Group.List.Basic
import Mathlib.Algebra.Ring.Nat
import Mathlib.Data.List.Induction

/-! # Cutting a sequence as it comes in

A machine takes a sequence one element at a time and reports the length of a
piece each time one is complete. Fed in parts it reports the same lengths, and
the lengths cut the sequence into pieces that make it up.
-/

namespace Ferry.Lib

open List

variable {σ B : Type}

/-! ## Pieces of given lengths -/

/-- The pieces of the given lengths, and what is left behind them. -/
def cutAt : List Nat → List B → List (List B) × List B
  | [], l => ([], l)
  | n :: ns, l => (l.take n :: (cutAt ns (l.drop n)).1, (cutAt ns (l.drop n)).2)

@[simp] theorem cutAt_nil (l : List B) : cutAt [] l = ([], l) := rfl

theorem cutAt_append_lengths (ns ms : List Nat) (l : List B) :
    cutAt (ns ++ ms) l = ((cutAt ns l).1 ++ (cutAt ms (cutAt ns l).2).1, (cutAt ms (cutAt ns l).2).2) := by
  induction ns generalizing l with
  | nil => rfl
  | cons n ns ih => simp [cutAt, ih]

theorem cutAt_append {ns : List Nat} {l : List B} (h : ns.sum ≤ l.length) (rest : List B) :
    cutAt ns (l ++ rest) = ((cutAt ns l).1, (cutAt ns l).2 ++ rest) := by
  induction ns generalizing l with
  | nil => rfl
  | cons n ns ih =>
    rw [sum_cons] at h
    have hdrop : ns.sum ≤ (l.drop n).length := by
      rw [length_drop]
      omega
    rw [cutAt, cutAt, take_append_of_le_length (by omega), drop_append_of_le_length (by omega),
      ih hdrop]

theorem flatten_cutAt (ns : List Nat) (l : List B) : (cutAt ns l).1.flatten ++ (cutAt ns l).2 = l := by
  induction ns generalizing l with
  | nil => rfl
  | cons n ns ih =>
    rw [cutAt, flatten_cons, append_assoc, ih, take_append_drop]

theorem lengths_cutAt {ns : List Nat} {l : List B} (h : ns.sum ≤ l.length) :
    (cutAt ns l).1.map List.length = ns := by
  induction ns generalizing l with
  | nil => rfl
  | cons n ns ih =>
    rw [sum_cons] at h
    have hdrop : ns.sum ≤ (l.drop n).length := by
      rw [length_drop]
      omega
    rw [cutAt, map_cons, ih hdrop, length_take_of_le (by omega)]

/-! ## Machines -/

section
variable (push : σ → B → σ × Option Nat)

/-- The machine after a sequence, with the lengths it has reported. -/
def feed : σ → List B → σ × List Nat
  | s, [] => (s, [])
  | s, b :: l => ((feed (push s b).1 l).1, (push s b).2.toList ++ (feed (push s b).1 l).2)

theorem feed_append (s : σ) (l l' : List B) :
    feed push s (l ++ l') =
      ((feed push (feed push s l).1 l').1, (feed push s l).2 ++ (feed push (feed push s l).1 l').2) := by
  induction l generalizing s with
  | nil => rfl
  | cons b l ih => simp [feed, ih]

end

/-- The machine counts the elements since the last cut, and reports the count. -/
structure Counts (push : σ → B → σ × Option Nat) (pending : σ → Nat) : Prop where
  goesOn : ∀ s b, (push s b).2 = none → pending (push s b).1 = pending s + 1
  cuts : ∀ s b n, (push s b).2 = some n → n = pending s + 1 ∧ pending (push s b).1 = 0

namespace Counts

variable {push : σ → B → σ × Option Nat} {pending : σ → Nat} (h : Counts push pending)
include h

theorem sum_feed (s : σ) (l : List B) :
    (feed push s l).2.sum + pending (feed push s l).1 = pending s + l.length := by
  induction l generalizing s with
  | nil => simp [feed]
  | cons b l ih =>
    have hrest := ih (push s b).1
    cases hcut : (push s b).2 with
    | none =>
      have hgoes := h.goesOn s b hcut
      simp only [feed, hcut, Option.toList_none, nil_append, length_cons]
      omega
    | some n =>
      obtain ⟨hn, hzero⟩ := h.cuts s b n hcut
      simp only [feed, hcut, Option.toList_some, cons_append, nil_append, sum_cons,
        length_cons]
      omega

/-- What one element does to the state and the elements since the last cut, a sequence does. -/
theorem feed_rest {R : List B → σ → Prop} {s : σ} (hzero : pending s = 0) (hs : R [] s)
    (hpush : ∀ l s b, R l s → R (if (push s b).2 = none then l ++ [b] else []) (push s b).1) (l : List B) :
    R (l.drop (feed push s l).2.sum) (feed push s l).1 := by
  induction l using List.reverseRecOn with
  | nil => exact hs
  | append_singleton l b ih =>
    have hsum := h.sum_feed s l
    have hstep := hpush _ _ b ih
    rw [feed_append]
    cases hcut : (push (feed push s l).1 b).2 with
    | none =>
      rw [if_pos hcut] at hstep
      simpa [feed, hcut, drop_append_of_le_length (show (feed push s l).2.sum ≤ l.length by omega)]
        using hstep
    | some n =>
      obtain ⟨hn, -⟩ := h.cuts _ b n hcut
      rw [if_neg (by simp [hcut])] at hstep
      simpa [feed, hcut, drop_eq_nil_of_le (show (l ++ [b]).length ≤ (feed push s l).2.sum + n by
        rw [length_append, length_singleton]; omega)] using hstep

/-- A machine that starts over at each cut: what follows the first piece is cut as if it came first. -/
theorem feed_cut (reset : σ → σ) (hcuts : ∀ s b n, (push s b).2 = some n → (push s b).1 = reset s)
    (hgoes : ∀ s b, (push s b).2 = none → reset (push s b).1 = reset s) {s : σ} {l : List B} {n : Nat}
    {ns : List Nat} (hfeed : (feed push s l).2 = n :: ns) : ∃ a rest, l = a ++ rest ∧
      pending s + a.length = n ∧ feed push (reset s) rest = ((feed push s l).1, ns) := by
  induction l generalizing s with
  | nil => cases hfeed
  | cons b l ih =>
    cases hcut : (push s b).2 with
    | none =>
      simp only [feed, hcut] at hfeed ⊢
      obtain ⟨a, rest, rfl, hlen, hrest⟩ := ih hfeed
      have hmore := h.goesOn s b hcut
      exact ⟨b :: a, rest, rfl, by rw [length_cons]; omega, hgoes s b hcut ▸ hrest⟩
    | some m =>
      simp only [feed, hcut, Option.toList_some, cons_append, List.cons.injEq] at hfeed ⊢
      obtain ⟨rfl, rfl⟩ := hfeed
      rw [hcuts s b m hcut]
      exact ⟨[b], l, rfl, (h.cuts s b m hcut).1.symm, rfl⟩

theorem pending_le_head {s : σ} {l : List B} {n : Nat} {ns : List Nat}
    (hfeed : (feed push s l).2 = n :: ns) : pending s ≤ n := by
  induction l generalizing s with
  | nil => cases hfeed
  | cons b l ih =>
    cases hcut : (push s b).2 with
    | none =>
      simp only [feed, hcut] at hfeed
      have hle := ih hfeed
      have hgoes := h.goesOn s b hcut
      omega
    | some m =>
      simp only [feed, hcut, Option.toList_some, cons_append, List.cons.injEq] at hfeed
      obtain ⟨hm, -⟩ := h.cuts s b m hcut
      omega

end Counts

/-- What holds of each state keeps holding, and what each report satisfies all reports satisfy. -/
theorem feed_rule {push : σ → B → σ × Option Nat} {I : σ → Prop} {R : Nat → Prop}
    (hpush : ∀ s b, I s → I (push s b).1 ∧ ∀ n, (push s b).2 = some n → R n) {s : σ} (hs : I s)
    (l : List B) : I (feed push s l).1 ∧ ∀ n ∈ (feed push s l).2, R n := by
  induction l generalizing s with
  | nil => exact ⟨hs, fun n hn => nomatch hn⟩
  | cons b l ih =>
    obtain ⟨hnext, hreport⟩ := hpush s b hs
    obtain ⟨hend, hrest⟩ := ih hnext
    refine ⟨hend, fun n hn => ?_⟩
    rcases mem_append.1 hn with hn | hn
    · exact hreport n (by simpa using hn)
    · exact hrest n hn

end Ferry.Lib
