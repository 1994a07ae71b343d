import Ferry.Sync.PlanSpec

/-! # The trees behind a reconciliation

`reconcile` reads three trees from the store. As a merge of their readings it
is subject to what `Merge` says about plans.
-/

namespace Ferry

open Lib

section
variable [Env]

theorem flat_slashless (st : Store) (id : BlobId) : Slashless (flat st id) := by
  intro p hp c hc
  obtain ⟨s, hs⟩ := Option.ne_none_iff_exists'.1 hp
  obtain ⟨e, he, -⟩ := Option.map_eq_some_iff.1 hs
  exact (validateName_ok (entryAt_names he c hc)).1

def Merge.ofTrees (st : Store) (localDev remoteDev base mine theirs : BlobId) : Merge where
  localDev := localDev
  remoteDev := remoteDev
  base := flat st base
  mine := flat st mine
  theirs := flat st theirs
  baseTree := flat_isTree st base
  mineTree := flat_isTree st mine
  theirsTree := flat_isTree st theirs
  baseSlash := flat_slashless st base
  mineSlash := flat_slashless st mine
  theirsSlash := flat_slashless st theirs

/-- The store with the empty tree, and the id of that tree. -/
def withEmptyTree (st : Store) : Except ReconcileError (BlobId × Store) :=
  match serializeTreeNode ⟨[]⟩ with
  | .error e => .error (.manifest e)
  | .ok bytes =>
    match st.putBlob .treeNode bytes with
    | .error e => .error (.store e)
    | .ok r => .ok r

def baseRoot (st : Store) (localM remoteM : RootManifest) (base : Option RootManifest)
    (emptyRoot : BlobId) : BlobId :=
  match resolveSafeBase st localM remoteM base with
  | .proven m => m.rootTreeId
  | .empty => emptyRoot

theorem reconcile_eq (st : Store) (fuel : Nat) (localM remoteM : RootManifest) (base : Option RootManifest) :
    reconcile st fuel localM remoteM base = (do
      let (emptyRoot, st') ← withEmptyTree st
      let b := baseRoot st localM remoteM base emptyRoot
      let localDiff ← liftDiff (diffRoots st' fuel b localM.rootTreeId)
      let remoteDiff ← liftDiff (diffRoots st' fuel b remoteM.rootTreeId)
      let plan ← planFrom localM.deviceId remoteM.deviceId (indexChangeSet localDiff)
        (indexChangeSet remoteDiff) (manifestChunkRefs st' fuel localM.rootTreeId)
        (manifestChunkRefs st' fuel remoteM.rootTreeId)
      return (plan, st')) := by
  unfold reconcile withEmptyTree baseRoot
  cases serializeTreeNode ⟨[]⟩ with
  | error => rfl
  | ok bytes =>
    dsimp only
    cases st.putBlob .treeNode bytes with
    | error | ok => rfl

omit [Env] in
theorem liftDiff_eq_ok {α : Type} {x : Except DiffError α} {a : α} (h : liftDiff x = .ok a) :
    x = .ok a := by
  cases x with
  | error => cases h
  | ok =>
    cases h
    rfl

theorem Merge.ofTrees_indexed {st : Store} {fuel : Nat} {localDev remoteDev b l r : BlobId}
    {localDiff remoteDiff : ChangeSet} (hl : diffRoots st fuel b l = .ok localDiff)
    (hr : diffRoots st fuel b r = .ok remoteDiff) :
    (Merge.ofTrees st localDev remoteDev b l r).Indexed (indexChangeSet localDiff)
      (indexChangeSet remoteDiff) :=
  indexed (diffRoots_exact hl).1 (diffRoots_exact hr).1

theorem reconcile_planOf {st st' : Store} {fuel : Nat} {localM remoteM : RootManifest}
    {base : Option RootManifest} {plan : ActionPlan}
    (h : reconcile st fuel localM remoteM base = .ok (plan, st')) :
    ∃ emptyRoot, withEmptyTree st = .ok (emptyRoot, st') ∧
      (Merge.ofTrees st' localM.deviceId remoteM.deviceId (baseRoot st localM remoteM base emptyRoot)
        localM.rootTreeId remoteM.rootTreeId).PlanOf plan := by
  rw [reconcile_eq] at h
  obtain ⟨⟨emptyRoot, st₁⟩, hempty, h⟩ := bind_eq_ok.1 h
  obtain ⟨localDiff, hl, h⟩ := bind_eq_ok.1 h
  obtain ⟨remoteDiff, hr, h⟩ := bind_eq_ok.1 h
  obtain ⟨plan', hplan, h⟩ := bind_eq_ok.1 h
  cases h
  exact ⟨emptyRoot, hempty, Merge.planOf_planFrom
    (Merge.ofTrees_indexed (liftDiff_eq_ok hl) (liftDiff_eq_ok hr)) hplan⟩

end

end Ferry
