import Ferry.Store.DiffAgree
import Ferry.Sync.Converge
import Ferry.Sync.Unproven

/-! # The same merge on both devices

Each of two devices reconciles its own manifest with that of the other one, from
a store of its own. The rounds of the two loops are mirror images of each other,
and with them the conflicts and what is kept of the losers.
-/

namespace Ferry

open Lib List

/-! ## Mirror images -/

def Decided.mirror (d : Decided) : Decided where
  key := d.key
  path := d.path
  base := d.base
  mine := d.theirs
  theirs := d.mine
  decision := d.decision.mirror

/-- The conflict as the other device notes it: its sides are called the other way round. -/
def PlannedConflict.mirror (c : PlannedConflict) : PlannedConflict :=
  { c with winner := c.winner.other, loser := c.loser.other }

/-- What one device keeps of its own live entry, the other one takes from its store. -/
inductive LoserContent.Mirrors (exec : Bool) (sec : Int) (nsec : Nat) : LoserContent → LoserContent → Prop where
  | myFile (chunks : Chunks) :
      Mirrors exec sec nsec (.liveLocal chunks) (.fromStore .file exec sec nsec chunks none)
  | myLink (target : String) :
      Mirrors exec sec nsec (.liveLocalSymlink target) (.fromStore .symlink exec sec nsec [] (some target))
  | theirFile (chunks : Chunks) :
      Mirrors exec sec nsec (.fromStore .file exec sec nsec chunks none) (.liveLocal chunks)
  | theirLink (target : String) :
      Mirrors exec sec nsec (.fromStore .symlink exec sec nsec [] (some target)) (.liveLocalSymlink target)

/-- The two devices keep the same loser. -/
structure QuarantineOp.Mirrors (q q' : QuarantineOp) : Prop where
  path : q'.path = q.path
  loserDevice : q'.loserDevice = q.loserDevice
  mtimeSec : q'.loserMtimeSec = q.loserMtimeSec
  mtimeNsec : q'.loserMtimeNsec = q.loserMtimeNsec
  exec : q'.exec = q.exec
  content : LoserContent.Mirrors q.exec q.loserMtimeSec q.loserMtimeNsec q.content q'.content

/-- A state as entries of a tree have it. -/
def EntryState.Shaped (s : EntryState) : Prop :=
  (s.kind = .file → s.target = none) ∧ (s.kind = .symlink → s.chunks = [] ∧ ∃ t, s.target = some t)

theorem EntryState.of_shaped (e : TreeEntry) : (EntryState.of e).Shaped := by
  unfold Shaped EntryState.of EntryKind.fromPayload
  cases e.payload <;> simp

theorem loserContent_mirrors {s : EntryState} (hs : s.Shaped) (hdir : s.kind ≠ .dir) (loser : Side) :
    LoserContent.Mirrors s.exec s.mtimeSec s.mtimeNsec (Decided.loserContent loser s)
      (Decided.loserContent loser.other s) := by
  obtain ⟨kind, exec, sec, nsec, chunks, target⟩ := s
  cases kind with
  | dir => exact absurd rfl hdir
  | file =>
    obtain rfl : target = none := hs.1 rfl
    cases loser with
    | localSide => exact .myFile chunks
    | remoteSide => exact .theirFile chunks
  | symlink =>
    obtain ⟨rfl, t, rfl⟩ : chunks = [] ∧ ∃ t, target = some t := hs.2 rfl
    cases loser with
    | localSide => exact .myLink t
    | remoteSide => exact .theirLink t

/-! ## One round -/

theorem Decided.winnerState_mirror (d : Decided) (side : Side) :
    d.mirror.winnerState side = d.winnerState side.other := by
  cases side <;> rfl

theorem Decided.deviceOf_other (a b : BlobId) (side : Side) :
    Decided.deviceOf b a side.other = Decided.deviceOf a b side := by
  cases side <;> rfl

theorem plannedConflict_mirror (a b : BlobId) (d : Decided) :
    d.mirror.plannedConflict b a = (d.plannedConflict a b).map PlannedConflict.mirror := by
  obtain ⟨key, path, base, mine, theirs, decision⟩ := d
  cases decision with
  | nothing | applyRemote | keepLocal => rfl
  | conflict kind winner => cases winner <;> rfl

/-- The two sides keep the same loser under the same name. -/
theorem kept_mirror (a b : BlobId) {d : Decided}
    (hshaped : ∀ side s, d.winnerState side = some s → s.Shaped) :
    (d.kept a b = none ∧ d.mirror.kept b a = none) ∨
      ∃ q q', d.kept a b = some q ∧ d.mirror.kept b a = some q' ∧ q.Mirrors q' := by
  unfold Decided.kept Decided.quarantineOp
  have hmirror : d.mirror.decision = d.decision.mirror := rfl
  rw [hmirror]
  cases d.decision with
  | nothing | applyRemote | keepLocal => exact .inl ⟨rfl, rfl⟩
  | conflict kind winner =>
    dsimp only [Decision.mirror]
    rw [Decided.winnerState_mirror, Side.other_other]
    cases hlost : d.winnerState winner.other with
    | none => exact .inl ⟨rfl, rfl⟩
    | some lost =>
      dsimp only
      by_cases hdir : lost.kind = .dir
      · rw [if_pos hdir, if_pos hdir]
        exact .inl ⟨rfl, rfl⟩
      · rw [if_neg hdir, if_neg hdir]
        refine .inr ⟨_, _, rfl, rfl, rfl, ?_, rfl, rfl, rfl, ?_⟩
        · exact Decided.deviceOf_other a b winner.other
        · exact loserContent_mirrors (hshaped _ _ hlost) hdir winner.other

theorem forall₂_filterMap {α β γ : Type} {R : β → γ → Prop} {f : α → Option β} {g : α → Option γ}
    {l : List α} (h : ∀ a ∈ l, (f a = none ∧ g a = none) ∨ ∃ b c, f a = some b ∧ g a = some c ∧ R b c) :
    List.Forall₂ R (l.filterMap f) (l.filterMap g) := by
  induction l with
  | nil => exact .nil
  | cons a l ih =>
    have hrest := ih fun x hx => h x (mem_cons_of_mem a hx)
    rcases h a mem_cons_self with ⟨hf, hg⟩ | ⟨b, c, hf, hg, hR⟩
    · rwa [filterMap_cons_none hf, filterMap_cons_none hg]
    · rw [filterMap_cons_some hf, filterMap_cons_some hg]
      exact .cons hR hrest

/-! ## The whole loop -/

theorem mergedKeys_comm (localView remoteView : ViewMap) :
    mergedKeys remoteView localView = mergedKeys localView remoteView := by
  have hperm : (remoteView.keys ∪ localView.keys).Perm (localView.keys ∪ remoteView.keys) := by
    rw [perm_ext_iff_of_nodup (List.Nodup.union _ localView.keys_nodup)
      (List.Nodup.union _ remoteView.keys_nodup)]
    intro k
    rw [mem_union_iff, mem_union_iff, or_comm]
  refine List.Perm.eq_of_pairwise ?_ (pairwise_insertionSort _ _) (pairwise_insertionSort _ _) ?_
  · intro a b _ _ hab hba
    exact le_antisymm hab hba
  · exact ((perm_insertionSort _ _).trans hperm).trans (perm_insertionSort _ _).symm

namespace Merge

variable {M : Merge} {localView remoteView : ViewMap}

theorem Indexed.mirror (h : M.Indexed localView remoteView) : M.mirror.Indexed remoteView localView :=
  ⟨h.theirs, h.mine⟩

theorem decided_mirror (hdev : M.localDev ≠ M.remoteDev) (p : CompPath) :
    M.mirror.decided p = (M.decided p).mirror := by
  have hd := decision_mirror hdev p
  unfold decided Decided.mirror
  rw [hd]
  rfl

theorem Indexed.rounds_mirror (h : M.Indexed localView remoteView) (hdev : M.localDev ≠ M.remoteDev) :
    M.mirror.rounds remoteView localView = (M.rounds localView remoteView).map Decided.mirror := by
  unfold rounds
  rw [mergedKeys_comm, map_filterMap]
  refine filterMap_congr fun k hk => ?_
  obtain ⟨p, hp, rfl⟩ := h.mem_mergedKeys.1 hk
  have hp' : M.mirror.Touched p := hp.symm
  rw [h.decidedAt_touched hp, h.mirror.decidedAt_touched hp', decided_mirror hdev]
  rfl

end Merge

/-- The plans of two devices for one merge: the same conflicts, with their sides called the other way
round, and the same losers. -/
structure ActionPlan.Mirrors (plan plan' : ActionPlan) : Prop where
  conflicts : plan'.conflicts = plan.conflicts.map PlannedConflict.mirror
  quarantine : List.Forall₂ QuarantineOp.Mirrors plan.quarantine plan'.quarantine

variable {plan : ActionPlan}

theorem planFrom_lists {localDev remoteDev : BlobId} {localView remoteView : ViewMap}
    {localRefs remoteRefs : Except ReconcileError (List BlobId)}
    (h : planFrom localDev remoteDev localView remoteView localRefs remoteRefs = .ok plan) :
    plan.quarantine = ((mergedKeys localView remoteView).filterMap
        (decidedAt localDev remoteDev localView remoteView)).filterMap (Decided.kept localDev remoteDev) ∧
      plan.conflicts = sortByPath (·.path) (((mergedKeys localView remoteView).filterMap
        (decidedAt localDev remoteDev localView remoteView)).filterMap
          (Decided.plannedConflict localDev remoteDev)) := by
  obtain ⟨pr, hpr, h⟩ := bind_eq_ok.1 h
  obtain ⟨rrefs, -, h⟩ := bind_eq_ok.1 h
  obtain ⟨lrefs, -, h⟩ := bind_eq_ok.1 h
  obtain ⟨synth, -, h⟩ := bind_eq_ok.1 h
  cases h
  have hg := gathers_of_ok hpr
  rw [hg.quarantine, hg.conflicts]
  exact ⟨rfl, rfl⟩

theorem sortByPath_mirror (cs : List PlannedConflict) :
    sortByPath (·.path) (cs.map PlannedConflict.mirror) =
      (sortByPath (·.path) cs).map PlannedConflict.mirror := by
  symm
  apply map_insertionSort
  exact fun _ _ _ _ => Iff.rfl

def Merge.Shaped (M : Merge) : Prop :=
  (∀ p s, M.mine p = some s → s.Shaped) ∧ (∀ p s, M.theirs p = some s → s.Shaped) ∧
    ∀ p s, M.base p = some s → s.Shaped

theorem Merge.Shaped.winnerState {M : Merge} (h : M.Shaped) {p : CompPath} {side : Side} {s : EntryState}
    (hs : (M.decided p).winnerState side = some s) : s.Shaped := by
  have hside : ∀ S : Tree, (∀ q t, S q = some t → t.Shaped) → sideAt M.base S p = some s → s.Shaped := by
    intro S hS hat
    by_cases hl : Lists M.base S p
    · exact hS p s ((sideAt_of_lists hl).symm.trans hat)
    · exact h.2.2 p s ((sideAt_of_not_lists hl).symm.trans hat)
  cases side with
  | localSide => exact hside M.mine h.1 hs
  | remoteSide => exact hside M.theirs h.2.1 hs

theorem Merge.Indexed.planFrom_mirrors {M : Merge} {localView remoteView : ViewMap}
    (h : M.Indexed localView remoteView) (hdev : M.localDev ≠ M.remoteDev) (hshaped : M.Shaped)
    {lrefs rrefs lrefs' rrefs' : Except ReconcileError (List BlobId)} {plan' : ActionPlan}
    (hplan : planFrom M.localDev M.remoteDev localView remoteView lrefs rrefs = .ok plan)
    (hplan' : planFrom M.remoteDev M.localDev remoteView localView lrefs' rrefs' = .ok plan') :
    plan.Mirrors plan' := by
  obtain ⟨hquarantine, hconflicts⟩ := planFrom_lists hplan
  obtain ⟨hquarantine', hconflicts'⟩ := planFrom_lists hplan'
  have hrounds : (mergedKeys remoteView localView).filterMap
      (decidedAt M.remoteDev M.localDev remoteView localView) =
      (M.rounds localView remoteView).map Decided.mirror := h.rounds_mirror hdev
  rw [hrounds] at hquarantine' hconflicts'
  refine ⟨?_, ?_⟩
  · rw [hconflicts', hconflicts, ← sortByPath_mirror, filterMap_map, map_filterMap]
    refine congrArg _ (filterMap_congr fun d _ => ?_)
    exact plannedConflict_mirror M.localDev M.remoteDev d
  · rw [hquarantine', hquarantine, filterMap_map]
    refine forall₂_filterMap fun d hd => kept_mirror M.localDev M.remoteDev fun side s hs => ?_
    obtain ⟨p, -, rfl⟩ := h.mem_rounds.1 hd
    exact hshaped.winnerState hs

/-! ## Two reconciliations -/

section
variable [Env]

theorem flat_shaped {st : Store} {id : BlobId} {p : CompPath} {s : EntryState} (h : flat st id p = some s) :
    s.Shaped := by
  obtain ⟨e, -, rfl⟩ := Option.map_eq_some_iff.1 h
  exact EntryState.of_shaped e

theorem Merge.ofTrees_shaped (st : Store) (localDev remoteDev b l r : BlobId) :
    (Merge.ofTrees st localDev remoteDev b l r).Shaped :=
  ⟨fun _ _ h => flat_shaped h, fun _ _ h => flat_shaped h, fun _ _ h => flat_shaped h⟩

theorem reconcile_parts {st st' : Store} {fuel : Nat} {localM remoteM : RootManifest}
    {base : Option RootManifest}
    (h : reconcile st fuel localM remoteM base = .ok (plan, st')) :
    ∃ localDiff remoteDiff,
      diffRoots st' fuel (baseRoot st localM remoteM base nilTreeId) localM.rootTreeId = .ok localDiff ∧
      diffRoots st' fuel (baseRoot st localM remoteM base nilTreeId) remoteM.rootTreeId = .ok remoteDiff ∧
      planFrom localM.deviceId remoteM.deviceId (indexChangeSet localDiff) (indexChangeSet remoteDiff)
        (manifestChunkRefs st' fuel localM.rootTreeId) (manifestChunkRefs st' fuel remoteM.rootTreeId) =
          .ok plan := by
  rw [reconcile_eq] at h
  obtain ⟨⟨emptyRoot, st₁⟩, hempty, h⟩ := bind_eq_ok.1 h
  obtain ⟨localDiff, hl, h⟩ := bind_eq_ok.1 h
  obtain ⟨remoteDiff, hr, h⟩ := bind_eq_ok.1 h
  obtain ⟨plan', hplan, h⟩ := bind_eq_ok.1 h
  cases h
  rw [(withEmptyTree_eq hempty).1] at hl hr
  exact ⟨localDiff, remoteDiff, liftDiff_eq_ok hl, liftDiff_eq_ok hr, hplan⟩

end

section
variable [SyncEnv]

/-- Two devices that reconcile their manifests over the same base tree, each from its own store, find
the same conflicts and keep the same losers under the same names. -/
theorem reconcile_mirrors {st₁ st₁' st₂ st₂' : Store} {fuel₁ fuel₂ : Nat} {m₁ m₂ : RootManifest}
    {base₁ base₂ : Option RootManifest} {plan₁ plan₂ : ActionPlan} (hdev : m₁.deviceId ≠ m₂.deviceId)
    (hbase : baseRoot st₁ m₁ m₂ base₁ nilTreeId = baseRoot st₂ m₂ m₁ base₂ nilTreeId)
    (hagrees : st₁'.Agrees st₂') (h₁ : reconcile st₁ fuel₁ m₁ m₂ base₁ = .ok (plan₁, st₁'))
    (h₂ : reconcile st₂ fuel₂ m₂ m₁ base₂ = .ok (plan₂, st₂')) :
    plan₁.Mirrors plan₂ ∧ List.Forall₂ (fun q q' : QuarantineOp =>
          conflictDisplayName (q.path.getLastD "") q.loserDevice q.loserMtimeSec =
            conflictDisplayName (q'.path.getLastD "") q'.loserDevice q'.loserMtimeSec)
        plan₁.quarantine plan₂.quarantine := by
  obtain ⟨diff₁, diff₂, hdiff₁, hdiff₂, hplan₁⟩ := reconcile_parts h₁
  obtain ⟨diff₂', diff₁', hdiff₂', hdiff₁', hplan₂⟩ := reconcile_parts h₂
  rw [← hbase] at hdiff₁' hdiff₂'
  obtain rfl := diffRoots_agree hagrees fuel₁ fuel₂ _ _ _ _ hdiff₁ hdiff₁'
  obtain rfl := diffRoots_agree hagrees fuel₁ fuel₂ _ _ _ _ hdiff₂ hdiff₂'
  have hindexed : (Merge.ofTrees st₁' m₁.deviceId m₂.deviceId _ _ _).Indexed _ _ :=
    Merge.ofTrees_indexed hdiff₁ hdiff₂
  have hmirrors := hindexed.planFrom_mirrors hdev (Merge.ofTrees_shaped _ _ _ _ _ _) hplan₁ hplan₂
  refine ⟨hmirrors, hmirrors.quarantine.imp fun q q' hq => ?_⟩
  rw [hq.path, hq.loserDevice, hq.mtimeSec]

end

namespace Sample

/-- A calendar without dates and a matcher that matches nothing. -/
scoped instance sampleSyncEnv : SyncEnv where
  toEnv := sampleEnv
  fromUnixTimestamp _ := none
  fmtRfc3339 _ := ""
  gitignore _ := .ok fun _ => false

end Sample

open Sample in
/-- A file on one device and a directory on the other. -/
theorem reconcile_mirrors_fileDir : ∃ plan₁ plan₂ st',
    reconcile fileDirStore 2 (childOf 1 rootFile) (childOf 2 rootDir) none = .ok (plan₁, st') ∧
      reconcile fileDirStore 2 (childOf 2 rootDir) (childOf 1 rootFile) none = .ok (plan₂, st') ∧
      plan₁.quarantine ≠ [] ∧ plan₁.Mirrors plan₂ := by
  have hok : ((reconcile fileDirStore 2 (childOf 1 rootFile) (childOf 2 rootDir) none).toOption.any
      fun r => r.1.quarantine ≠ []) = true := by decide +kernel
  have hok' : (reconcile fileDirStore 2 (childOf 2 rootDir) (childOf 1 rootFile) none).isOk = true := by
    decide +kernel
  cases h₁ : reconcile fileDirStore 2 (childOf 1 rootFile) (childOf 2 rootDir) none with
  | error =>
    rw [h₁] at hok
    cases hok
  | ok r =>
    cases h₂ : reconcile fileDirStore 2 (childOf 2 rootDir) (childOf 1 rootFile) none with
    | error =>
      rw [h₂] at hok'
      cases hok'
    | ok r' =>
      obtain ⟨plan₁, st₁⟩ := r
      obtain ⟨plan₂, st₂⟩ := r'
      obtain ⟨_, hempty₁, -⟩ := reconcile_planOf h₁
      obtain ⟨_, hempty₂, -⟩ := reconcile_planOf h₂
      rw [hempty₁] at hempty₂
      cases hempty₂
      rw [h₁] at hok
      have hdev : (childOf 1 rootFile).deviceId ≠ (childOf 2 rootDir).deviceId := by decide +kernel
      refine ⟨plan₁, plan₂, st₁, rfl, rfl, by simpa [Except.toOption] using hok, ?_⟩
      exact (reconcile_mirrors hdev (baseRoot_comm _ _ _ _ _) (.refl _) h₁ h₂).1

end Ferry
