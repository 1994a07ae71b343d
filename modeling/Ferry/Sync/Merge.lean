import Ferry.Sync.Views

/-! # The merge of three trees

The decisions of reconciliation as properties of paths, over the trees of the
base and of both sides, and the rounds of the decision loop as a list of them.
-/

namespace Ferry

open Lib

/-- Three trees to be merged on the device of the first side. -/
structure Merge where
  localDev : BlobId
  remoteDev : BlobId
  base : Tree
  mine : Tree
  theirs : Tree
  baseTree : IsTree EntryState.IsDir base
  mineTree : IsTree EntryState.IsDir mine
  theirsTree : IsTree EntryState.IsDir theirs
  baseSlash : Slashless base
  mineSlash : Slashless mine
  theirsSlash : Slashless theirs

namespace Merge

variable (M : Merge)

noncomputable def mineAt (p : CompPath) : Option EntryState := sideAt M.base M.mine p

noncomputable def theirsAt (p : CompPath) : Option EntryState := sideAt M.base M.theirs p

noncomputable def decision (p : CompPath) : Decision :=
  decideEntry M.localDev M.remoteDev (M.base p) (M.mineAt p) (M.theirsAt p)

noncomputable def decided (p : CompPath) : Decided :=
  ⟨joinPath p, p, M.base p, M.mineAt p, M.theirsAt p, M.decision p⟩

def Touched (p : CompPath) : Prop := Lists M.base M.mine p ∨ Lists M.base M.theirs p

def Takes (p : CompPath) : Prop :=
  M.decision p = .applyRemote ∨ ∃ kind, M.decision p = .conflict kind .remoteSide

/-- A conflict with a losing entry that is kept beside the winner. -/
def Quarantines (p : CompPath) : Prop :=
  ∃ kind winner lost, M.decision p = .conflict kind winner ∧
    (M.decided p).winnerState winner.other = some lost

/-- Local work stays at the path. -/
def Survives (p : CompPath) : Prop :=
  M.Quarantines p ∨ (∃ kind, M.decision p = .conflict kind .localSide) ∨
    (M.decision p = .keepLocal ∧ M.mineAt p ≠ none)

/-- A removal that is given up, since something below it survives. -/
def Suppressed (p : CompPath) : Prop :=
  M.Takes p ∧ M.theirsAt p = none ∧ ∃ q, M.Survives q ∧ Above p q

/-- A path above which there have to be directories. -/
def Target (p : CompPath) : Prop := (M.Takes p ∧ M.theirsAt p ≠ none) ∨ M.Quarantines p

/-- The state the path ends in, if anything was decided about it. -/
noncomputable def outcome (p : CompPath) : Option (Option EntryState) := (M.decided p).outcome

/-- A directory that is gone on this side and has to come back for a target. -/
def Synthesized (p : CompPath) : Prop :=
  p ≠ [] ∧ (∃ t, M.Target t ∧ Above p t) ∧ ¬ M.Suppressed p ∧ M.outcome p = some none

variable {M} {p : CompPath}

theorem Touched.ne_nil (h : M.Touched p) : p ≠ [] :=
  h.elim (·.ne_nil M.baseTree M.mineTree) (·.ne_nil M.baseTree M.theirsTree)

theorem Touched.noSlash (h : M.Touched p) : NoSlash p :=
  h.elim (·.noSlash M.baseSlash M.mineSlash) (·.noSlash M.baseSlash M.theirsSlash)

theorem mineAt_ne_iff : M.mineAt p ≠ M.base p ↔ Lists M.base M.mine p := sideAt_ne_iff

theorem theirsAt_ne_iff : M.theirsAt p ≠ M.base p ↔ Lists M.base M.theirs p := sideAt_ne_iff

theorem mineAt_of_lists (h : Lists M.base M.mine p) : M.mineAt p = M.mine p := sideAt_of_lists h

theorem theirsAt_of_lists (h : Lists M.base M.theirs p) : M.theirsAt p = M.theirs p :=
  sideAt_of_lists h

theorem mineAt_of_not_lists (h : ¬ Lists M.base M.mine p) : M.mineAt p = M.base p :=
  sideAt_of_not_lists h

theorem theirsAt_of_not_lists (h : ¬ Lists M.base M.theirs p) : M.theirsAt p = M.base p :=
  sideAt_of_not_lists h

/-! ## What a decision says about the three states -/

theorem decision_eq_nothing_of_not_touched (h : ¬ M.Touched p) : M.decision p = .nothing := by
  simp only [Touched, not_or] at h
  simp [decision, decideEntry, mineAt_of_not_lists h.1, theirsAt_of_not_lists h.2]

theorem touched_of_decision (h : M.decision p ≠ .nothing) : M.Touched p := by
  by_contra hnot
  exact h (decision_eq_nothing_of_not_touched hnot)

theorem Takes.lists (h : M.Takes p) : Lists M.base M.theirs p := by
  rw [← theirsAt_ne_iff]
  intro heq
  unfold Takes decision decideEntry at h
  rw [heq] at h
  by_cases hb : M.mineAt p = M.base p <;> simp [hb] at h

theorem Takes.theirsAt (h : M.Takes p) : M.theirsAt p = M.theirs p := theirsAt_of_lists h.lists

theorem Takes.touched (h : M.Takes p) : M.Touched p := .inr h.lists

theorem lists_of_keepLocal (h : M.decision p = .keepLocal) : Lists M.base M.mine p := by
  rw [← mineAt_ne_iff]
  intro heq
  unfold decision decideEntry at h
  rw [if_pos heq] at h
  by_cases hb : M.theirsAt p = M.base p <;> simp [hb] at h

theorem lists_of_conflict {kind : ConflictKind} {winner : Side} (h : M.decision p = .conflict kind winner) :
    Lists M.base M.mine p ∧ Lists M.base M.theirs p ∧ M.mine p ≠ M.theirs p := by
  have hl : M.mineAt p ≠ M.base p := by
    intro heq
    unfold decision decideEntry at h
    rw [if_pos heq] at h
    by_cases hb : M.theirsAt p = M.base p <;> simp [hb] at h
  have hr : M.theirsAt p ≠ M.base p := by
    intro heq
    unfold decision decideEntry at h
    rw [if_neg hl, if_pos heq] at h
    cases h
  have hl' := mineAt_ne_iff.1 hl
  have hr' := theirsAt_ne_iff.1 hr
  refine ⟨hl', hr', fun heq => ?_⟩
  unfold decision decideEntry at h
  rw [if_neg hl, if_neg hr, mineAt_of_lists hl', theirsAt_of_lists hr', if_pos heq] at h
  cases h

theorem Quarantines.touched (h : M.Quarantines p) : M.Touched p := by
  obtain ⟨kind, winner, lost, hd, -⟩ := h
  exact .inl (lists_of_conflict hd).1

theorem Survives.lists (h : M.Survives p) : Lists M.base M.mine p := by
  rcases h with ⟨kind, winner, lost, hd, -⟩ | ⟨kind, hd⟩ | ⟨hd, -⟩
  · exact (lists_of_conflict hd).1
  · exact (lists_of_conflict hd).1
  · exact lists_of_keepLocal hd

theorem Target.touched (h : M.Target p) : M.Touched p := by
  rcases h with ⟨ht, -⟩ | hq
  · exact ht.touched
  · exact hq.touched

theorem outcome_ne_none_iff : M.outcome p ≠ none ↔ M.decision p ≠ .nothing := by
  unfold outcome decided Decided.outcome
  cases M.decision p with
  | conflict kind winner => cases winner <;> simp
  | _ => simp

theorem touched_of_outcome {o : Option EntryState} (h : M.outcome p = some o) : M.Touched p :=
  touched_of_decision (outcome_ne_none_iff.1 (by simp [h]))

theorem noSlash_of_above {e : CompPath} (h : M.Touched p) (he : Above e p) : NoSlash e := by
  obtain ⟨c, r, rfl⟩ := he
  exact fun x hx => h.noSlash x (by simp [hx])

end Merge

end Ferry
