import Mathlib.Logic.Relation

/-! # Walks over a graph

A walk keeps the nodes it has looked at and those that are still to come. When
none is left to come, it has seen what the root leads to and nothing else. How
the walk picks its next node, and how it stores the two sets, is left open. A
walk that takes up a whole level at a time needs as many rounds as there are
levels.
-/

namespace Ferry.Lib

variable {α : Type} {next : α → α → Prop} {root : α} {seen waiting seen' waiting' : α → Prop}

/-- The state of a walk that began at `root`. -/
structure Walked (next : α → α → Prop) (root : α) (seen waiting : α → Prop) : Prop where
  begun : seen root ∨ waiting root
  closed : ∀ {a b}, seen a → next a b → seen b ∨ waiting b
  reached : ∀ {a}, seen a ∨ waiting a → Relation.ReflTransGen next root a

variable {a : α}

namespace Walked

theorem start (next : α → α → Prop) (root : α) : Walked next root (fun _ => False) (· = root) where
  begun := .inr rfl
  closed h := h.elim
  reached h := by
    rcases h with h | rfl
    · exact h.elim
    · exact .refl

/-- A step of the walk forgets nothing, leaves no successor of a node out that it has looked at, and
takes up successors only. -/
theorem step (h : Walked next root seen waiting) (hkeep : ∀ {a}, seen a ∨ waiting a → seen' a ∨ waiting' a)
    (hclosed : ∀ {a b}, seen' a → ¬ seen a → next a b → seen' b ∨ waiting' b)
    (hnew : ∀ {b}, seen' b ∨ waiting' b → (seen b ∨ waiting b) ∨ ∃ a, (seen a ∨ waiting a) ∧ next a b) :
    Walked next root seen' waiting' where
  begun := hkeep h.begun
  closed := by
    intro a b ha hab
    by_cases hseen : seen a
    · exact hkeep (h.closed hseen hab)
    · exact hclosed ha hseen hab
  reached := by
    intro b hb
    rcases hnew hb with hold | ⟨a, ha, hab⟩
    · exact h.reached hold
    · exact (h.reached ha).tail hab

theorem done (h : Walked next root seen waiting) (hnone : ∀ a, ¬ waiting a) :
    seen a ↔ Relation.ReflTransGen next root a := by
  have hor : ∀ {b}, seen b ∨ waiting b → seen b := fun hb => hb.resolve_right (hnone _)
  refine ⟨fun ha => h.reached (.inl ha), fun ha => ?_⟩
  induction ha with
  | refl => exact hor h.begun
  | tail _ hbc ih => exact hor (h.closed ih hbc)

end Walked

/-! ## Level by level -/

/-- At most `n` steps lead from the root to a node. -/
def Within (next : α → α → Prop) (root : α) : Nat → α → Prop
  | 0, a => a = root
  | n + 1, a => Within next root n a ∨ ∃ b, Within next root n b ∧ next b a

/-- No way to the node is shorter than `n` steps. -/
def AtLevel (next : α → α → Prop) (root : α) (n : Nat) (a : α) : Prop :=
  Within next root n a ∧ ∀ m < n, ¬ Within next root m a

theorem Within.mono {m n : Nat} (hmn : m ≤ n) (h : Within next root m a) :
    Within next root n a := by
  induction hmn with
  | refl => exact h
  | step _ ih => exact .inl ih

theorem Within.reached {n : Nat} (h : Within next root n a) :
    Relation.ReflTransGen next root a := by
  induction n generalizing a with
  | zero => exact h ▸ .refl
  | succ n ih =>
    rcases h with h | ⟨b, hb, hba⟩
    · exact ih h
    · exact (ih hb).tail hba

theorem exists_within (h : Relation.ReflTransGen next root a) : ∃ n, Within next root n a := by
  induction h with
  | refl => exact ⟨0, rfl⟩
  | tail _ hbc ih =>
    obtain ⟨n, hn⟩ := ih
    exact ⟨n + 1, .inr ⟨_, hn, hbc⟩⟩

theorem Within.exists_atLevel {n : Nat} (h : Within next root n a) :
    ∃ m ≤ n, AtLevel next root m a := by
  induction n with
  | zero => exact ⟨0, Nat.le_refl _, h, by simp⟩
  | succ n ih =>
    by_cases hn : Within next root n a
    · obtain ⟨m, hm, hlevel⟩ := ih hn
      exact ⟨m, Nat.le_succ_of_le hm, hlevel⟩
    · exact ⟨n + 1, Nat.le_refl _, h, fun m hm hw => hn (hw.mono (Nat.lt_succ_iff.1 hm))⟩

theorem AtLevel.above {n : Nat} (h : AtLevel next root (n + 1) a) :
    ∃ b, AtLevel next root n b ∧ next b a := by
  obtain ⟨hwithin, hnot⟩ := h
  obtain ⟨b, hb, hba⟩ := hwithin.resolve_left (hnot n n.lt_succ_self)
  refine ⟨b, ⟨hb, fun m hm hw => ?_⟩, hba⟩
  exact hnot (m + 1) (Nat.succ_lt_succ hm) (.inr ⟨b, hw, hba⟩)

theorem AtLevel.exists_of_le {m n : Nat} (hmn : m ≤ n) (h : AtLevel next root n a) :
    ∃ b, AtLevel next root m b := by
  induction n generalizing a with
  | zero => exact ⟨a, Nat.le_zero.1 hmn ▸ h⟩
  | succ n ih =>
    rcases Nat.le_or_eq_of_le_succ hmn with hle | rfl
    · obtain ⟨b, hb, -⟩ := h.above
      exact ih hle hb
    · exact ⟨a, h⟩

theorem no_atLevel_iff {n : Nat} : (∀ a, ¬ AtLevel next root n a) ↔
      ∀ a, Relation.ReflTransGen next root a → ∃ m < n, Within next root m a := by
  constructor
  · intro h a ha
    obtain ⟨k, hk⟩ := exists_within ha
    obtain ⟨m, -, hm⟩ := hk.exists_atLevel
    refine ⟨m, Nat.lt_of_not_le fun hle => ?_, hm.1⟩
    obtain ⟨b, hb⟩ := hm.exists_of_le hle
    exact h b hb
  · intro h a ha
    obtain ⟨m, hm, hw⟩ := h a ha.1.reached
    exact ha.2 m hm hw

/-- A walk level by level after `n` rounds: what it has met, and what it met last. -/
structure Levelled (next : α → α → Prop) (root : α) (n : Nat) (met fresh : α → Prop) : Prop where
  met_iff : ∀ {a}, met a ↔ Within next root n a
  fresh_iff : ∀ {a}, fresh a ↔ AtLevel next root n a

namespace Levelled

variable {n : Nat} {met fresh met' fresh' : α → Prop}

theorem start (next : α → α → Prop) (root : α) : Levelled next root 0 (· = root) (· = root) where
  met_iff := Iff.rfl
  fresh_iff := ⟨fun h => ⟨h, by simp⟩, fun h => h.1⟩

/-- A round adds the successors of what was met last; those that were not known are met last then. -/
theorem step (h : Levelled next root n met fresh) (hmet : ∀ {a}, met' a ↔ met a ∨ ∃ b, fresh b ∧ next b a)
    (hfresh : ∀ {a}, fresh' a ↔ met' a ∧ ¬ met a) : Levelled next root (n + 1) met' fresh' := by
  have hmet' : ∀ {a}, met' a ↔ Within next root (n + 1) a := by
    intro a
    rw [hmet, h.met_iff]
    constructor
    · rintro (ha | ⟨b, hb, hba⟩)
      · exact .inl ha
      · exact .inr ⟨b, (h.fresh_iff.1 hb).1, hba⟩
    · rintro (ha | ⟨b, hb, hba⟩)
      · exact .inl ha
      · obtain ⟨m, hm, hlevel⟩ := hb.exists_atLevel
        rcases Nat.lt_or_eq_of_le hm with hlt | rfl
        · exact .inl (Within.mono hlt (.inr ⟨b, hlevel.1, hba⟩))
        · exact .inr ⟨b, h.fresh_iff.2 hlevel, hba⟩
  refine ⟨hmet', ?_⟩
  intro a
  rw [hfresh, hmet', h.met_iff]
  refine and_congr_right fun _ => ⟨fun hnot m hm hw => ?_, fun hall => hall n n.lt_succ_self⟩
  exact hnot (hw.mono (Nat.lt_succ_iff.1 hm))

theorem done (h : Levelled next root n met fresh) (hnone : ∀ a, ¬ fresh a)
    (ha : Relation.ReflTransGen next root a) : met a := by
  have hlevel : ∀ b, ¬ AtLevel next root n b := fun b hb => hnone b (h.fresh_iff.2 hb)
  obtain ⟨m, hm, hw⟩ := no_atLevel_iff.1 hlevel a ha
  exact h.met_iff.2 (hw.mono (Nat.le_of_lt hm))

end Levelled

end Ferry.Lib
