import Mathlib.Data.List.Destutter
import Mathlib.Data.List.Sort

/-! # Sorting and dropping repetitions

A list is sorted by a key, and each element that has the key of the one before it
is dropped. As the sort is stable, what is left for a key is the first element of
the list that has it.
-/

namespace Ferry.Lib

open List

variable {α κ : Type}

variable {p : α → Bool} {R : α → α → Prop} {key : α → κ}

theorem find?_orderedInsert {r : α → α → Prop} [DecidableRel r]
    (h : ∀ a b, p a → p b → r a b) (a : α) (l : List α) :
    (l.orderedInsert r a).find? p = (a :: l).find? p := by
  induction l with
  | nil => rfl
  | cons b l ih =>
    rw [orderedInsert_cons]
    by_cases hab : r a b
    · rw [if_pos hab]
    rw [if_neg hab, find?_cons, ih]
    cases hb : p b with
    | false => simp only [find?_cons, hb]
    | true =>
      have ha : p a = false := by
        by_contra ha
        exact hab (h a b (by simpa using ha) hb)
      simp only [find?_cons, ha, hb]

theorem find?_insertionSort {r : α → α → Prop} [DecidableRel r]
    (h : ∀ a b, p a → p b → r a b) (l : List α) : (l.insertionSort r).find? p = l.find? p := by
  induction l with
  | nil => rfl
  | cons a l ih => rw [insertionSort_cons, find?_orderedInsert h, find?_cons, find?_cons, ih]

theorem find?_destutter' [DecidableRel R] (h : ∀ a b, ¬ R a b → p b → p a) (a : α) (l : List α) :
    (l.destutter' R a).find? p = (a :: l).find? p := by
  induction l generalizing a with
  | nil => rfl
  | cons b l ih =>
    by_cases hab : R a b
    · rw [destutter'_cons_pos l hab]
      simp only [find?_cons, ih]
    rw [destutter'_cons_neg l hab, ih]
    cases ha : p a with
    | true => simp only [find?_cons, ha]
    | false =>
      have hb : p b = false := by
        by_contra hb
        have hpa := h a b hab (by simpa using hb)
        rw [ha] at hpa
        cases hpa
      simp only [find?_cons, hb]

theorem find?_destutter [DecidableRel R]
    (h : ∀ a b, ¬ R a b → p b → p a) (l : List α) : (l.destutter R).find? p = l.find? p := by
  cases l with
  | nil => rfl
  | cons a l => exact find?_destutter' h a l

theorem pairwise_lt_of_chain [LinearOrder κ] {l : List α} (h : l.Pairwise (key · ≤ key ·))
    (hne : l.IsChain (key · ≠ key ·)) : l.Pairwise (key · < key ·) := by
  induction l with
  | nil => exact .nil
  | cons a l ih =>
    obtain ⟨ha, hl⟩ := pairwise_cons.1 h
    refine pairwise_cons.2 ⟨fun b hb => ?_, ih hl hne.tail⟩
    -- the key grows between the first two elements and does not fall afterwards
    cases l with
    | nil => cases hb
    | cons c =>
      have hac : key a < key c := lt_of_le_of_ne (ha c (by simp)) (isChain_cons_cons.1 hne).1
      rcases mem_cons.1 hb with rfl | hb
      · exact hac
      · exact hac.trans_le ((pairwise_cons.1 hl).1 b hb)

theorem pairwise_lt_destutter [LinearOrder κ] [DecidableRel R]
    (hR : ∀ a b, R a b ↔ key a ≠ key b) {l : List α} (h : l.Pairwise (key · ≤ key ·)) :
    (l.destutter R).Pairwise (key · < key ·) :=
  pairwise_lt_of_chain (h.sublist (destutter_sublist R l))
    ((isChain_destutter R l).imp fun a b => (hR a b).1)

theorem filter_of_pairwise_lt [LinearOrder κ]
    (hp : ∀ a b, p a → p b → key a = key b) {l : List α} (h : l.Pairwise (key · < key ·)) :
    l.filter p = (l.find? p).toList := by
  induction l with
  | nil => rfl
  | cons a l ih =>
    obtain ⟨ha, hl⟩ := pairwise_cons.1 h
    rw [filter_cons, find?_cons]
    cases hpa : p a with
    | false => exact ih hl
    | true =>
      have hrest : l.filter p = [] := by
        rw [filter_eq_nil_iff]
        intro b hb hpb
        exact (ha b hb).ne (hp a b hpa hpb)
      simp [hrest]

end Ferry.Lib
