import Ferry.Packs.Reading

/-! # Garbage collection

The collector walks from the manifests it is given to every blob they refer to,
and removes packs that hold none of these once they have been unreferenced for
as long as the grace period. A ledger on disk remembers since when.
-/

namespace Ferry

open Lib

def EntryPayload.referencedBlobs : EntryPayload → List (BlobKind × BlobId)
  | .file _ chunks => chunks.map fun c => (.dataChunk, c.1)
  | .dir childTreeId => [(.treeNode, childTreeId)]
  | .symlink _ => []

def TreeNode.referencedBlobs (node : TreeNode) : List (BlobKind × BlobId) :=
  node.entries.flatMap fun e => e.payload.referencedBlobs

/-- The referenced blobs found so far, and the trees still to be read, the next one first. -/
structure Marking where
  set : List (BlobKind × BlobId)
  treeStack : List BlobId
  deriving DecidableEq

/-- What the walk does with a blob that a tree refers to. -/
def Marking.visit (m : Marking) (r : BlobKind × BlobId) : Marking :=
  match r.1 with
  | .treeNode => { m with treeStack := r.2 :: m.treeStack }
  | _ => { m with set := r :: m.set }

structure GcReport where
  scanned : Nat
  deleted : List PackId
  recordedUnreferenced : Nat
  skippedCorrupt : List String
  deriving DecidableEq

/-- `Ledger`: when a pack was first seen unreferenced, in nanoseconds since the epoch. -/
abbrev Ledger := AList (fun _ : PackId => Int)

structure Sweep where
  ledger : Ledger
  dirty : Bool
  report : GcReport

section
variable [PackEnv]

/-! ## Marking -/

def markManifests : List BlobId → Marking → BlobM Marking
  | [], m => return m
  | id :: rest, m => do
    let bytes ← getBlob .manifest id
    let manifest ← liftAs .manifest (parseManifest bytes)
    markManifests rest ⟨(.manifest, id) :: m.set, manifest.rootTreeId :: m.treeStack⟩

/-- The loop over the stack of trees; `fuel` bounds its rounds. -/
def markTrees : Nat → Marking → BlobM (List (BlobKind × BlobId))
  | _, ⟨set, []⟩ => return set
  | 0, ⟨_, _ :: _⟩ => throw .depth
  | fuel + 1, ⟨set, treeId :: stack⟩ =>
    if (.treeNode, treeId) ∈ set then markTrees fuel ⟨set, stack⟩
    else do
      let bytes ← getBlob .treeNode treeId
      let node ← liftAs .manifest (parseTreeNode bytes)
      markTrees fuel (node.referencedBlobs.foldl Marking.visit ⟨(.treeNode, treeId) :: set, stack⟩)

def collectReferenced (fuel : Nat) (liveManifestIds : List BlobId) : BlobM (List (BlobKind × BlobId)) := do
  let m ← markManifests liveManifestIds ⟨[], []⟩
  markTrees fuel m

/-! ## Sweeping -/

/-- `pack_blob_list`: the footer of the cached copy, or of the file. -/
def packBlobList (pack : PackId) : BlobM (Except PackError (Nat × List FooterEntry)) := do
  let s ← get
  match s.cache.find pack with
  | some vp => do
    modify fun s => { s with cache := s.cache.promote vp }
    return .ok (vp.ctx.bodyPlainLen, vp.ctx.entries)
  | none =>
    match s.disk.packs.lookup pack with
    | none => return .error .io
    | some bytes => return readFooter bytes pack s.fmk

def packIsLive (reachable : List (BlobKind × BlobId)) (entries : List FooterEntry) : Bool :=
  entries.any fun e => e.kind = .polynomial ∨ (e.kind, e.id) ∈ reachable

/-- `remove_file`, then `invalidate_pack`. -/
def deletePack (pack : PackId) : BlobM Unit :=
  modify fun s => { s with
    disk := { s.disk with packs := s.disk.packs.erase pack }, cache := PackCache.remove s.cache pack }

/-- When the pack was first seen unreferenced, and the loop's state with that on record. -/
def Sweep.firstUnref (sw : Sweep) (now : Int) (pack : PackId) : Int × Sweep :=
  match sw.ledger.lookup pack with
  | some t => (t, sw)
  | none => (now, ⟨sw.ledger.insert pack now, true,
      { sw.report with recordedUnreferenced := sw.report.recordedUnreferenced + 1 }⟩)

def Sweep.deleted (sw : Sweep) (pack : PackId) : Sweep :=
  ⟨sw.ledger.erase pack, true, { sw.report with deleted := sw.report.deleted ++ [pack] }⟩

def sweepPack (reachable : List (BlobKind × BlobId)) (grace : Nat) (now : Int) (sw : Sweep)
    (pack : PackId) : BlobM Sweep := do
  let sw := { sw with report := { sw.report with scanned := sw.report.scanned + 1 } }
  match ← packBlobList pack with
  | .error _ =>
    return { sw with report := { sw.report with
      skippedCorrupt := sw.report.skippedCorrupt ++ [hex pack.val] } }
  | .ok (_, entries) =>
    if packIsLive reachable entries then
      return { sw with
        ledger := sw.ledger.erase pack, dirty := sw.dirty || (sw.ledger.lookup pack).isSome }
    else do
      let (first, sw) := sw.firstUnref now pack
      -- a clock that went back counts as no time
      if grace ≤ (now - first).toNat then do
        deletePack pack
        return sw.deleted pack
      else return sw

def sortPacks (packs : List PackId) : List PackId := packs.insertionSort (fun a b => a.key ≤ b.key)

/-- `load_ledger`: a time is cut to 64 bits. -/
def loadLedger (file : AList (fun _ : PackId => Nat)) : Ledger :=
  (file.entries.map fun r => (⟨r.1, ((r.2 % 2 ^ 64 : Nat) : Int)⟩ : Σ _ : PackId, Int)).toAList

def saveLedger (ledger : Ledger) : AList (fun _ : PackId => Nat) :=
  (ledger.entries.map fun r => (⟨r.1, r.2.toNat⟩ : Σ _ : PackId, Nat)).toAList

def collectGarbage (fuel : Nat) (liveManifestIds : List BlobId) (grace : Nat) (now : Int) :
    BlobM GcReport := do
  let reachable ← collectReferenced fuel liveManifestIds
  let s ← get
  let sw ← (sortPacks s.disk.packs.keys).foldlM (sweepPack reachable grace now)
    ⟨loadLedger s.disk.ledger, false, ⟨0, [], 0, []⟩⟩
  if sw.dirty ∨ sw.report.deleted ≠ [] then
    modify fun s => { s with disk := { s.disk with ledger := saveLedger sw.ledger } }
  return sw.report

end

end Ferry
