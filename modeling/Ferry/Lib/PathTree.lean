import Mathlib.Data.List.Basic
import Mathlib.Data.List.Infix

/-! # Directory trees as prefix-closed maps

A tree over path components `κ` is a partial map from paths to entries in which
everything strictly above an entry is a directory. This is the shape shared by
a flattened manifest, by the live files under a folder and by the merge of two
of them; the ancestry facts below are what their proofs use.
-/

namespace Ferry.Lib

open List

variable {κ α : Type}

/-! ## Ancestry of paths -/

/-- `d` lies strictly above `p`. -/
def Above (d p : List κ) : Prop := ∃ c r, p = d ++ c :: r

variable {p d : List κ}

theorem above_iff_isPrefix : Above d p ↔ d <+: p ∧ d ≠ p := by
  constructor
  · rintro ⟨c, r, rfl⟩
    exact ⟨prefix_append d _, by simp⟩
  · rintro ⟨⟨t, rfl⟩, hne⟩
    cases t with
    | nil => simp at hne
    | cons c r => exact ⟨c, r, rfl⟩

instance [DecidableEq κ] (d p : List κ) : Decidable (Above d p) :=
  decidable_of_iff _ above_iff_isPrefix.symm

@[simp] theorem not_above_nil (d : List κ) : ¬ Above d [] := by
  rintro ⟨c, r, h⟩
  simp at h

theorem nil_above (h : p ≠ []) : Above [] p := by
  cases p with
  | nil => exact absurd rfl h
  | cons c r => exact ⟨c, r, rfl⟩

@[simp] theorem above_cons_cons {a b : κ} :
    Above (a :: d) (b :: p) ↔ a = b ∧ Above d p := by
  constructor
  · rintro ⟨c, r, h⟩
    simp only [cons_append, List.cons.injEq] at h
    exact ⟨h.1.symm, c, r, h.2⟩
  · rintro ⟨rfl, c, r, rfl⟩
    exact ⟨c, r, rfl⟩

@[simp] theorem above_append_append {q : List κ} : Above (q ++ d) (q ++ p) ↔ Above d p := by
  induction q with
  | nil => rfl
  | cons a q ih => simp [ih]

theorem above_append {r : List κ} (h : r ≠ []) : Above d (d ++ r) := by
  cases r with
  | nil => exact absurd rfl h
  | cons c r => exact ⟨c, r, rfl⟩

theorem above_append_cases {e q : List κ} (h : Above e (q ++ p)) :
    e <+: q ∨ ∃ r, r ≠ [] ∧ e = q ++ r ∧ Above r p := by
  by_cases hpre : e <+: q
  · exact .inl hpre
  rcases prefix_or_prefix_of_prefix (above_iff_isPrefix.1 h).1 (prefix_append q p) with
    h' | ⟨r, rfl⟩
  · exact absurd h' hpre
  · refine .inr ⟨r, ?_, rfl, above_append_append.1 h⟩
    rintro rfl
    exact hpre (by simp)

theorem Above.ne (h : Above d p) : d ≠ p := (above_iff_isPrefix.1 h).2

theorem Above.length_lt (h : Above d p) : d.length < p.length := by
  obtain ⟨c, r, rfl⟩ := h
  simp

theorem Above.trans {a b c : List κ} (h₁ : Above a b) (h₂ : Above b c) : Above a c := by
  obtain ⟨x, r, rfl⟩ := h₁
  obtain ⟨y, s, rfl⟩ := h₂
  exact ⟨x, r ++ y :: s, by simp⟩

theorem Above.asymm {a b : List κ} (h : Above a b) : ¬ Above b a := fun h' =>
  absurd (h.length_lt.trans h'.length_lt) (lt_irrefl _)

theorem Above.linear {e : List κ} (hd : Above d p) (he : Above e p) :
    d = e ∨ Above d e ∨ Above e d := by
  have h₁ := (above_iff_isPrefix.1 hd).1
  have h₂ := (above_iff_isPrefix.1 he).1
  rcases prefix_or_prefix_of_prefix h₁ h₂ with h | h
  · by_cases hde : d = e
    · exact .inl hde
    · exact .inr (.inl (above_iff_isPrefix.2 ⟨h, hde⟩))
  · by_cases hde : d = e
    · exact .inl hde
    · exact .inr (.inr (above_iff_isPrefix.2 ⟨h, fun h => hde h.symm⟩))

/-! ## Trees -/

/-- A partial map whose entries hang below directories only. -/
structure IsTree (isDir : α → Prop) (f : List κ → Option α) : Prop where
  root : f [] = none
  parent : ∀ {d p}, d ≠ [] → Above d p → f p ≠ none → ∃ a, f d = some a ∧ isDir a

variable {isDir : α → Prop} {f : List κ → Option α} (h : IsTree isDir f)
include h

theorem IsTree.ne_nil {a : α} (hp : f p = some a) : p ≠ [] := by
  rintro rfl
  rw [h.root] at hp
  cases hp

theorem IsTree.none_below {a : α} (hd : f d = some a) (hnot : ¬ isDir a) (hp : Above d p) : f p = none := by
  by_contra hne
  obtain ⟨b, hb, hdir⟩ := h.parent (h.ne_nil hd) hp hne
  rw [hd] at hb
  cases hb
  exact hnot hdir

theorem IsTree.none_of_none (hne : d ≠ []) (hd : f d = none) (hp : Above d p) : f p = none := by
  by_contra hsome
  obtain ⟨b, hb, -⟩ := h.parent hne hp hsome
  rw [hd] at hb
  cases hb

end Ferry.Lib
