import Ferry.Store.Canonical
import Ferry.Sync.Refusal

/-! # Without a proven base

When the base is not an ancestor of both manifests, both sides are compared with
the empty tree. Then each side has only added entries, so that nothing can be
taken for a deletion.
-/

namespace Ferry

open Lib

/-! ## Merges over the empty tree -/

namespace Merge

def Unbased (M : Merge) : Prop := ∀ p, M.base p = none

variable {M : Merge} {p : CompPath} (h : M.Unbased)
include h

theorem Unbased.lists_iff (S : Tree) : Lists M.base S p ↔ S p ≠ none := by
  have hvisible : ¬ Hidden M.base S p := by
    rintro ⟨d, -, hsplit⟩
    rw [h d] at hsplit
    exact not_split_none_left _ hsplit
  unfold Lists
  rw [h p, and_iff_left hvisible]
  cases S p <;> simp [classify]

theorem Unbased.mineAt : M.mineAt p = M.mine p := by
  by_cases hl : Lists M.base M.mine p
  · exact mineAt_of_lists hl
  · rw [mineAt_of_not_lists hl, h p]
    exact (not_not.1 (mt (h.lists_iff M.mine).2 hl)).symm

theorem Unbased.theirsAt : M.theirsAt p = M.theirs p := by
  by_cases hl : Lists M.base M.theirs p
  · exact theirsAt_of_lists hl
  · rw [theirsAt_of_not_lists hl, h p]
    exact (not_not.1 (mt (h.lists_iff M.theirs).2 hl)).symm

theorem Unbased.theirs_of_takes (ht : M.Takes p) : M.theirs p ≠ none :=
  (h.lists_iff M.theirs).1 ht.lists

theorem Unbased.not_suppressed : ¬ M.Suppressed p := by
  rintro ⟨ht, hnone, -⟩
  rw [h.theirsAt] at hnone
  exact h.theirs_of_takes ht hnone

theorem Unbased.not_synthesized : ¬ M.Synthesized p := by
  rintro ⟨-, -, -, hout⟩
  rcases outcome_cases hout with ⟨ht, hnone⟩ | ⟨-, hl, hnone⟩
  · exact h.theirs_of_takes ht hnone.symm
  · exact (h.lists_iff M.mine).1 hl hnone.symm

theorem Unbased.mem_materialize {plan : ActionPlan} (hplan : M.PlanOf plan) {op : MaterializeOp} :
    op ∈ plan.materialize ↔ ∃ p r, M.Takes p ∧ M.theirs p = some r ∧ op = ⟨p, none, some r⟩ := by
  rw [hplan.materialize]
  constructor
  · rintro (⟨p, ht, -, rfl⟩ | ⟨p, s, hsyn, -, -⟩)
    · obtain ⟨r, hr⟩ := Option.ne_none_iff_exists'.1 (h.theirs_of_takes ht)
      exact ⟨p, r, ht, hr, by rw [h p, hr]⟩
    · exact absurd hsyn h.not_synthesized
  · rintro ⟨p, r, ht, hr, rfl⟩
    exact .inl ⟨p, ht, h.not_suppressed, by rw [h p, hr]⟩

theorem Unbased.decision_of_kinds {l r : EntryState} (hl : M.mine p = some l)
    (hr : M.theirs p = some r) (hkind : l.kind ≠ r.kind) :
    M.decision p = .conflict .addVsAdd (pickWinner l r M.localDev M.remoteDev) := by
  have hne : l ≠ r := fun heq => hkind (by rw [heq])
  have hcontent : sameContent l r = false := by simp [sameContent, hkind]
  have hdirs : ¬ (l.kind = .dir ∧ r.kind = .dir) := fun hd => hkind (hd.1.trans hd.2.symm)
  simp [decision, decideEntry, h.mineAt, h.theirsAt, h p, hl, hr, hne, hcontent, hdirs]

theorem Unbased.conflict_kind {kind : ConflictKind} {winner : Side}
    (hd : M.decision p = .conflict kind winner) : kind = .addVsAdd := by
  obtain ⟨hl, hr, hne⟩ := lists_of_conflict hd
  obtain ⟨l, hl⟩ := Option.ne_none_iff_exists'.1 ((h.lists_iff M.mine).1 hl)
  obtain ⟨r, hr⟩ := Option.ne_none_iff_exists'.1 ((h.lists_iff M.theirs).1 hr)
  unfold decision decideEntry at hd
  rw [h.mineAt, h.theirsAt, h p, hl, hr] at hd
  simp only [reduceCtorEq, if_false] at hd
  split_ifs at hd
  cases hd
  rfl

end Merge

/-! ## What such a plan leaves -/

/-- The plan leaves the entry at the path: it does nothing there, and keeps the directories above. -/
def ActionPlan.Leaves (plan : ActionPlan) (p : CompPath) : Prop :=
  (∀ op ∈ plan.materialize, op.path ≠ p ∧ (Above op.path p → ∃ r, op.result = some r ∧ r.kind = .dir)) ∧
  ∀ q ∈ plan.quarantine, q.path ≠ p

/-- The plan creates the entry at the path, in directories that are there or that it creates. -/
def ActionPlan.Creates (plan : ActionPlan) (mine : Tree) (p : CompPath) (s : EntryState) : Prop :=
  ⟨p, none, some s⟩ ∈ plan.materialize ∧ ∀ e, e ≠ [] → Above e p → (∃ l, mine e = some l ∧ l.kind = .dir) ∨
      ∃ r, r.kind = .dir ∧ ⟨e, none, some r⟩ ∈ plan.materialize

/-- A plan for a device with the tree `mine` that takes nothing away from it. -/
structure NeverDeletes (localDev : BlobId) (mine theirs : Tree) (plan : ActionPlan) : Prop where
  noRemoval : ∀ op ∈ plan.materialize, op.result ≠ none
  typeChange : ∀ op ∈ plan.materialize, ∀ l r, mine op.path = some l → op.result = some r →
    r.kind ≠ l.kind → ∃ q ∈ plan.quarantine, q.path = op.path ∧ q.loserDevice = localDev ∧
      q.content = Decided.loserContent .localSide l
  noDeleteVsEdit : ∀ c ∈ plan.conflicts, c.kind ≠ .deleteVsEdit
  mineOnly : ∀ p, mine p ≠ none → theirs p = none → plan.Leaves p
  theirsOnly : ∀ p s, mine p = none → theirs p = some s → plan.Creates mine p s

namespace Merge

variable {M : Merge} {p : CompPath}

section
variable (h : M.Unbased) {plan : ActionPlan} (hplan : M.PlanOf plan)
include h hplan

theorem Unbased.loser_kind {l r : EntryState} (hl : M.mine p = some l) (hr : M.theirs p = some r)
    (hkind : l.kind ≠ r.kind) :
    (pickWinner l r M.localDev M.remoteDev = .localSide → r.kind ≠ .dir) ∧
      (pickWinner l r M.localDev M.remoteDev = .remoteSide → l.kind ≠ .dir) := by
  have hd := h.decision_of_kinds hl hr hkind
  constructor
  · intro hw
    rw [hw] at hd
    exact hplan.noDirLoses hd (h.theirsAt.trans hr)
  · intro hw
    rw [hw] at hd
    exact hplan.noDirLoses hd (h.mineAt.trans hl)

theorem Unbased.quarantine_of_kinds (ht : M.Takes p) {l r : EntryState} (hl : M.mine p = some l)
    (hr : M.theirs p = some r) (hkind : l.kind ≠ r.kind) :
    l.kind ≠ .dir ∧ ⟨p, M.localDev, l.mtimeSec, l.mtimeNsec, l.exec,
      Decided.loserContent .localSide l⟩ ∈ plan.quarantine := by
  have hd := h.decision_of_kinds hl hr hkind
  have hw : pickWinner l r M.localDev M.remoteDev = .remoteSide := by
    rcases ht with ht | ⟨kind, ht⟩
    · rw [hd] at ht
      cases ht
    · rw [hd] at ht
      exact (Decision.conflict.inj ht).2
  have hdir := (h.loser_kind hplan hl hr hkind).2 hw
  rw [hw] at hd
  exact ⟨hdir, hplan.quarantine.2 ⟨p, _, _, l, hd, h.mineAt.trans hl, hdir, rfl⟩⟩

theorem Unbased.leaves (hm : M.mine p ≠ none) (ht : M.theirs p = none) : plan.Leaves p := by
  refine ⟨fun op hop => ?_, fun q hq => ?_⟩
  · obtain ⟨e, r, htakes, hr, rfl⟩ := (h.mem_materialize hplan).1 hop
    refine ⟨?_, fun habove => ⟨r, rfl, ?_⟩⟩
    · rintro rfl
      rw [ht] at hr
      cases hr
    · obtain ⟨l, hl, hldir⟩ := M.mineTree.parent htakes.touched.ne_nil habove hm
      by_contra hrdir
      exact (h.quarantine_of_kinds hplan htakes hl hr fun heq => hrdir (heq ▸ hldir)).1 hldir
  · obtain ⟨e, he⟩ := hplan.quarantine.1 hq
    rw [he.path]
    rintro rfl
    exact he.quarantines.both.2 ht

theorem Unbased.creates {s : EntryState} (hm : M.mine p = none) (ht : M.theirs p = some s) :
    plan.Creates M.mine p s := by
  have htakes : ∀ {e}, M.mine e = none → M.theirs e ≠ none → M.Takes e := fun hnone hsome =>
    .inl (decision_of_theirs_only (fun hl => (h.lists_iff M.mine).1 hl hnone)
      ((h.lists_iff M.theirs).2 hsome))
  refine ⟨(h.mem_materialize hplan).2 ⟨p, s, htakes hm (by simp [ht]), ht, rfl⟩, fun e he habove => ?_⟩
  obtain ⟨r, hr, hrdir⟩ := M.theirsTree.parent he habove (by simp [ht])
  cases hl : M.mine e with
  | none => exact .inr ⟨r, hrdir, (h.mem_materialize hplan).2 ⟨e, r, htakes hl (by simp [hr]), hr, rfl⟩⟩
  | some l =>
    by_cases hldir : l.kind = .dir
    · exact .inl ⟨l, rfl, hldir⟩
    have hkind : l.kind ≠ r.kind := fun heq => hldir (heq.trans hrdir)
    refine .inr ⟨r, hrdir, (h.mem_materialize hplan).2 ⟨e, r, ?_, hr, rfl⟩⟩
    cases hw : pickWinner l r M.localDev M.remoteDev with
    | localSide => exact absurd hrdir ((h.loser_kind hplan hl hr hkind).1 hw)
    | remoteSide => exact .inr ⟨_, hw ▸ h.decision_of_kinds hl hr hkind⟩

theorem Unbased.neverDeletes : NeverDeletes M.localDev M.mine M.theirs plan where
  noRemoval := by
    intro op hop
    obtain ⟨p, r, -, -, rfl⟩ := (h.mem_materialize hplan).1 hop
    simp
  typeChange := by
    intro op hop l r hl hr hkind
    obtain ⟨p, r', ht, hr', rfl⟩ := (h.mem_materialize hplan).1 hop
    cases hr
    exact ⟨_, (h.quarantine_of_kinds hplan ht hl hr' hkind.symm).2, rfl, rfl, rfl⟩
  noDeleteVsEdit := by
    intro c hc
    obtain ⟨p, -, hc⟩ := hplan.conflicts.1 hc
    rw [h.conflict_kind (plannedConflict_decided hc).2]
    simp
  mineOnly := fun p => h.leaves hplan
  theirsOnly := fun p s => h.creates hplan

end

end Merge

/-! ## The search for the base -/

section
variable [Env]

/-- A walk from the manifest `id` along the parents meets the manifest `target` in at most `n` hops. -/
inductive MeetsWithin (st : Store) (target : BlobId) : Nat → BlobId → Prop where
  | here {n : Nat} (hzero : target ≠ zeroId) : MeetsWithin st target (n + 1) target
  | next {n : Nat} {id : BlobId} {bytes : Bytes} {m : RootManifest} (hzero : id ≠ zeroId)
      (hget : st.get .manifest id = .ok bytes) (hparse : parseManifest bytes = .ok m)
      (hrest : MeetsWithin st target n m.parentManifestId) : MeetsWithin st target (n + 1) id

/-- The manifest `b` is `m`, or one of the 256 manifests before it. -/
def FoundFrom (st : Store) (b m : RootManifest) : Prop :=
  manifestId m = manifestId b ∨ MeetsWithin st (manifestId b) 256 m.parentManifestId

variable {st : Store}

/-- The walk over the ancestors meets exactly those within its bound. -/
theorem ancestorWalk_iff {target : BlobId} {n : Nat} {id : BlobId} :
    ancestorWalk st target n id = true ↔ MeetsWithin st target n id := by
  induction n generalizing id with
  | zero =>
    refine ⟨fun h => ?_, fun h => ?_⟩
    · cases h
    · cases h
  | succ n ih =>
    rw [ancestorWalk]
    constructor
    · intro h
      by_cases hzero : id = zeroId
      · rw [if_pos hzero] at h
        cases h
      rw [if_neg hzero] at h
      by_cases htarget : id = target
      · subst htarget
        exact .here hzero
      rw [if_neg htarget] at h
      split at h
      · cases h
      rename_i bytes hget
      split at h
      · cases h
      · rename_i m hparse
        exact .next hzero hget hparse (ih.1 h)
    · intro h
      cases h with
      | here hzero => rw [if_neg hzero, if_pos rfl]
      | next hzero hget hparse hrest =>
        rw [if_neg hzero]
        split
        · rfl
        · rw [hget]
          dsimp only
          rw [hparse]
          exact ih.2 hrest

theorem isAncestor_iff {b m : RootManifest} :
    isAncestor st (manifestId b) m = true ↔ FoundFrom st b m := by
  unfold isAncestor FoundFrom
  by_cases h : manifestId m = manifestId b
  · simp [h]
  · rw [if_neg h, ancestorWalk_iff, or_iff_right h]

theorem resolveSafeBase_unproven {localM remoteM : RootManifest} {base : Option RootManifest}
    (h : ∀ b, base = some b → ¬ (FoundFrom st b localM ∧ FoundFrom st b remoteM)) :
    resolveSafeBase st localM remoteM base = .empty := by
  cases base with
  | none => rfl
  | some b =>
    have hnot : ¬ (isAncestor st (manifestId b) localM && isAncestor st (manifestId b) remoteM) = true := by
      rw [Bool.and_eq_true, isAncestor_iff, isAncestor_iff]
      exact h b rfl
    rw [resolveSafeBase, if_neg hnot]

/-! ## The empty tree -/

theorem serializeTreeNode_nil : serializeTreeNode ⟨[]⟩ = .ok (nodeBytes []) :=
  serializeTreeNode_ok_iff.2 ⟨rfl, by simp [TreeNode.normalized], rfl⟩

theorem parseTreeNode_nil : parseTreeNode (nodeBytes []) = .ok ⟨[]⟩ :=
  parseTreeNode_ok_iff.2 ⟨rfl, by simp, by simp, rfl⟩

def nilTreeId : BlobId := Env.blake3 (nodeBytes [])

/-- The store has no other bytes under the hash of the empty tree. -/
def Store.EmptyTreeUnique (st : Store) : Prop :=
  ∀ b, st.get .treeNode nilTreeId = .ok b → b = nodeBytes []

theorem withEmptyTree_eq {st' : Store} {emptyRoot : BlobId} (h : withEmptyTree st = .ok (emptyRoot, st')) :
    emptyRoot = nilTreeId ∧ (st' = st ∨ st' = st.withBlob .treeNode (nodeBytes [])) := by
  unfold withEmptyTree at h
  rw [serializeTreeNode_nil] at h
  dsimp only at h
  rcases st.putBlob_cases .treeNode (show nodeBytes [] ≠ [] by decide) with ⟨-, hput⟩ | ⟨-, hput⟩
  · rw [hput] at h
    cases h
    exact ⟨rfl, .inl rfl⟩
  · rw [hput] at h
    cases h
    exact ⟨rfl, .inr rfl⟩

theorem flat_emptyRoot {st' : Store} {emptyRoot : BlobId} (h : withEmptyTree st = .ok (emptyRoot, st'))
    (hunique : st.EmptyTreeUnique) (p : CompPath) : flat st' emptyRoot p = none := by
  obtain ⟨rfl, hst⟩ := withEmptyTree_eq h
  cases hget : st'.get .treeNode nilTreeId with
  | error => simp [flat, entryAt, loadNode, hget]
  | ok b =>
    have hb : b = nodeBytes [] := by
      rcases hst with rfl | rfl
      · exact hunique b hget
      · simpa [Store.withBlob, nilTreeId, eq_comm] using hget
    have hload : loadNode st' nilTreeId = .ok ⟨[]⟩ := by
      rw [loadNode, hget, hb]
      dsimp only
      rw [parseTreeNode_nil]
    rw [flat_eq_flatEntries hload, flatEntries_nil]

/-- A reconciliation whose base is not an ancestor of both manifests takes nothing for a deletion. -/
theorem reconcile_neverDeletes {st st' : Store} {fuel : Nat} {localM remoteM : RootManifest}
    {base : Option RootManifest} {plan : ActionPlan}
    (hbase : ∀ b, base = some b → ¬ (FoundFrom st b localM ∧ FoundFrom st b remoteM))
    (hunique : st.EmptyTreeUnique) (h : reconcile st fuel localM remoteM base = .ok (plan, st')) :
    NeverDeletes localM.deviceId (flat st' localM.rootTreeId) (flat st' remoteM.rootTreeId) plan := by
  obtain ⟨emptyRoot, hempty, hplan⟩ := reconcile_planOf h
  have hroot : baseRoot st localM remoteM base emptyRoot = emptyRoot := by
    rw [baseRoot, resolveSafeBase_unproven hbase]
  have hunbased : (Merge.ofTrees st' localM.deviceId remoteM.deviceId emptyRoot localM.rootTreeId
      remoteM.rootTreeId).Unbased := flat_emptyRoot hempty hunique
  rw [hroot] at hplan
  exact hunbased.neverDeletes hplan

end

open Sample in
/-- One device has a file where the other one has a directory, and what they are told to have agreed
on is not before either. -/
theorem reconcile_neverDeletes_fileDir : (¬ (FoundFrom fileDirStore (manifestOf nodeX) (childOf 1 rootFile) ∧
        FoundFrom fileDirStore (manifestOf nodeX) (childOf 2 rootDir))) ∧
      ∃ plan st', reconcile fileDirStore 2 (childOf 1 rootFile) (childOf 2 rootDir)
          (some (manifestOf nodeX)) = .ok (plan, st') ∧
        NeverDeletes (childOf 1 rootFile).deviceId (flat st' (nodeId rootFile))
          (flat st' (nodeId rootDir)) plan := by
  have hfound : ¬ (FoundFrom fileDirStore (manifestOf nodeX) (childOf 1 rootFile) ∧
      FoundFrom fileDirStore (manifestOf nodeX) (childOf 2 rootDir)) := by
    rw [← isAncestor_iff, ← isAncestor_iff]
    decide +kernel
  have hunique : fileDirStore.EmptyTreeUnique := by
    intro b hb
    have hnone : (fileDirStore.get .treeNode nilTreeId).toOption = none := by
      decide +kernel
    rw [hb] at hnone
    cases hnone
  have hok : (reconcile fileDirStore 2 (childOf 1 rootFile) (childOf 2 rootDir)
      (some (manifestOf nodeX))).isOk = true := by decide +kernel
  cases hrun : reconcile fileDirStore 2 (childOf 1 rootFile) (childOf 2 rootDir)
      (some (manifestOf nodeX)) with
  | error e =>
    rw [hrun] at hok
    cases hok
  | ok r =>
    refine ⟨hfound, r.1, r.2, rfl, reconcile_neverDeletes ?_ hunique hrun⟩
    rintro b heq
    cases heq
    exact hfound

end Ferry
