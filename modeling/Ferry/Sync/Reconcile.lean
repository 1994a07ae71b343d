import Mathlib.Data.List.AList
import Ferry.Store.Codec

/-! # Reconciliation

`reconcile` compares two manifests with what the devices last agreed on and
plans what this device has to do: entries to take over, losers of conflicts to
keep beside the winner, chunks to send and to fetch. Maps of the source that are
ordered by key are association lists here; where their order shows, they are
sorted.
-/

namespace Ferry

inductive ReconcileError where
  | store (e : StoreError)
  | manifest (e : ManifestError)
  | diff (e : DiffError)
  | structuralConflict (ancestor path : String)
  /-- More nodes than the fuel allows; the loop of the source has no bound. -/
  | depth
  deriving DecidableEq

inductive Side where
  | localSide
  | remoteSide
  deriving DecidableEq, Repr

def Side.other : Side → Side
  | .localSide => .remoteSide
  | .remoteSide => .localSide

inductive ConflictKind where
  | bothChanged
  | deleteVsEdit
  | addVsAdd
  deriving DecidableEq, Repr

structure MaterializeOp where
  path : CompPath
  base : Option EntryState
  result : Option EntryState
  deriving DecidableEq

inductive LoserContent where
  | liveLocal (expectedChunks : Chunks)
  | liveLocalSymlink (expectedTarget : String)
  | fromStore (kind : EntryKind) (exec : Bool) (mtimeSec : Int) (mtimeNsec : Nat) (chunks : Chunks)
      (target : Option String)
  deriving DecidableEq

structure QuarantineOp where
  path : CompPath
  loserDevice : BlobId
  loserMtimeSec : Int
  loserMtimeNsec : Nat
  exec : Bool
  content : LoserContent
  deriving DecidableEq

structure PlannedConflict where
  path : CompPath
  kind : ConflictKind
  winner : Side
  loser : Side
  winnerDevice : BlobId
  loserDevice : BlobId
  winnerMtimeSec : Int
  winnerMtimeNsec : Nat
  loserMtimeSec : Option Int
  loserMtimeNsec : Option Nat
  deriving DecidableEq

structure ActionPlan where
  materialize : List MaterializeOp
  quarantine : List QuarantineOp
  send : Chunks
  fetch : Chunks
  conflicts : List PlannedConflict
  hasLocalWins : Bool
  deriving DecidableEq

/-! ## The two views -/

/-- What one side made of a path, as its diff against the base lists it. -/
structure SideView where
  base : Option EntryState
  side : Option EntryState
  deriving DecidableEq

abbrev ViewMap := AList (fun _ : String => CompPath × SideView)

def ViewMap.slot (map : ViewMap) (path : CompPath) (base side : Option EntryState) : ViewMap :=
  map.insert (joinPath path) (path, ⟨base, side⟩)

def indexChangeSet (cs : ChangeSet) : ViewMap :=
  let map := cs.added.foldl (fun map a => map.slot a.path none (some a.state)) (∅ : ViewMap)
  let map := cs.removed.foldl (fun map r => ViewMap.slot map r.path (some r.state) none) map
  (cs.contentModified ++ cs.metadataModified ++ cs.typeChanged).foldl
    (fun map m => ViewMap.slot map m.path (some m.before) (some m.after)) map

/-! ## Decisions -/

def sameContent (l r : EntryState) : Bool :=
  l.kind = r.kind && match l.kind with
    | .symlink => decide (l.target = r.target)
    | _ => decide (l.chunks = r.chunks)

/-- `l_mt > r_mt` on pairs of seconds and nanoseconds. -/
def EntryState.newerThan (l r : EntryState) : Bool :=
  decide (r.mtimeSec < l.mtimeSec) || (decide (r.mtimeSec = l.mtimeSec) && decide (r.mtimeNsec < l.mtimeNsec))

def pickWinner (l r : EntryState) (localDev remoteDev : BlobId) : Side :=
  if (l.mtimeSec, l.mtimeNsec) ≠ (r.mtimeSec, r.mtimeNsec) then
    if l.newerThan r then .localSide else .remoteSide
  else if remoteDev.key < localDev.key then .localSide
  else .remoteSide

inductive Decision where
  | nothing
  | applyRemote
  | keepLocal
  | conflict (kind : ConflictKind) (winner : Side)
  deriving DecidableEq

/-- The decision for one path from its states in the base and on both sides. -/
def decideEntry (localDev remoteDev : BlobId) (b l r : Option EntryState) : Decision :=
  if l = b then
    if r = b then .nothing else .applyRemote
  else if r = b then .keepLocal
  else if l = r then .nothing
  else
    match l, r with
    | some ls, some rs =>
      if sameContent ls rs then
        if pickWinner ls rs localDev remoteDev = .localSide then .keepLocal else .applyRemote
      else if ls.kind = .dir ∧ rs.kind = .dir then .nothing
      -- both sides are present here, so the source's test for a deletion fails
      else if b = none then .conflict .addVsAdd (pickWinner ls rs localDev remoteDev)
      else .conflict .bothChanged (pickWinner ls rs localDev remoteDev)
    | some _, none => .conflict .deleteVsEdit .localSide
    | none, _ => .conflict .deleteVsEdit .remoteSide

/-- One round of the decision loop: the path with its three states. -/
structure Decided where
  key : String
  path : CompPath
  base : Option EntryState
  mine : Option EntryState
  theirs : Option EntryState
  decision : Decision
  deriving DecidableEq

/-- The path and its states, from what the two views list under its key. A
side whose diff does not list the path counts as unchanged. -/
def sidesAt : Option (CompPath × SideView) → Option (CompPath × SideView) →
    Option (CompPath × Option EntryState × Option EntryState × Option EntryState)
  | some (path, lv), some (_, rv) => some (path, lv.base.or rv.base, lv.side, rv.side)
  | some (path, lv), none => some (path, lv.base, lv.side, lv.base)
  | none, some (path, rv) => some (path, rv.base, rv.base, rv.side)
  | none, none => none

def decidedAt (localDev remoteDev : BlobId) (localView remoteView : ViewMap) (key : String) :
    Option Decided :=
  (sidesAt (localView.lookup key) (remoteView.lookup key)).map fun (path, b, l, r) =>
    ⟨key, path, b, l, r, decideEntry localDev remoteDev b l r⟩

/-- The keys of both maps in ascending order, each once. -/
def mergedKeys (localView remoteView : ViewMap) : List String :=
  (localView.keys ∪ remoteView.keys).insertionSort (· ≤ ·)

namespace Decided

variable (localDev remoteDev : BlobId) (d : Decided)

def winnerState : Side → Option EntryState
  | .localSide => d.mine
  | .remoteSide => d.theirs

def deviceOf : Side → BlobId
  | .localSide => localDev
  | .remoteSide => remoteDev

def materializeOp : Option MaterializeOp :=
  match d.decision with
  | .applyRemote | .conflict _ .remoteSide => some ⟨d.path, d.base, d.theirs⟩
  | _ => none

def plannedConflict : Option PlannedConflict :=
  match d.decision with
  | .conflict kind winner =>
    let w := d.winnerState winner
    let lost := d.winnerState winner.other
    some {
      path := d.path
      kind := kind
      winner := winner
      loser := winner.other
      winnerDevice := deviceOf localDev remoteDev winner
      loserDevice := deviceOf localDev remoteDev winner.other
      winnerMtimeSec := (w.map (·.mtimeSec)).getD 0
      winnerMtimeNsec := (w.map (·.mtimeNsec)).getD 0
      loserMtimeSec := lost.map (·.mtimeSec)
      loserMtimeNsec := lost.map (·.mtimeNsec) }
  | _ => none

/-- What is kept of a loser: the live local bytes or link, or the remote entry
from the store. -/
def loserContent (loser : Side) (s : EntryState) : LoserContent :=
  match loser with
  | .localSide =>
    if s.kind = .symlink then .liveLocalSymlink (s.target.getD "")
    else .liveLocal s.chunks
  | .remoteSide => .fromStore s.kind s.exec s.mtimeSec s.mtimeNsec s.chunks s.target

/-- A losing directory stops the whole reconciliation. -/
def quarantineOp : Except ReconcileError (Option QuarantineOp) :=
  match d.decision with
  | .conflict _ winner =>
    match d.winnerState winner.other with
    | none => .ok none
    | some lost =>
      if lost.kind = .dir then .error (.structuralConflict (joinPath d.path) (joinPath d.path))
      else .ok (some {
        path := d.path
        loserDevice := deviceOf localDev remoteDev winner.other
        loserMtimeSec := lost.mtimeSec
        loserMtimeNsec := lost.mtimeNsec
        exec := lost.exec
        content := loserContent winner.other lost })
  | _ => .ok none

def chunksOf (s : Option EntryState) : Chunks := (s.map (·.chunks)).getD []

def sendChunks : Chunks :=
  match d.decision with
  | .keepLocal | .conflict _ .localSide => chunksOf d.mine
  | _ => []

/-- The chunks of what is taken over, and of a remote loser that is kept. -/
def fetchChunks : Chunks :=
  match d.decision with
  | .applyRemote | .conflict _ _ => chunksOf d.theirs
  | _ => []

def outcome : Option (Option EntryState) :=
  match d.decision with
  | .nothing => none
  | .keepLocal | .conflict _ .localSide => some d.mine
  | .applyRemote | .conflict _ .remoteSide => some d.theirs

def isLocalWin : Bool :=
  match d.decision with
  | .keepLocal | .conflict _ .localSide => true
  | _ => false

end Decided

structure Progress where
  decided : List Decided := []
  materialize : List MaterializeOp := []
  quarantine : List QuarantineOp := []
  conflicts : List PlannedConflict := []
  sendCand : AList (fun _ : BlobId => Nat) := ∅
  fetchCand : AList (fun _ : BlobId => Nat) := ∅

def collectChunks (chunks : Chunks) (out : AList (fun _ : BlobId => Nat)) :
    AList (fun _ : BlobId => Nat) :=
  chunks.foldl (fun out c => out.insert c.1 c.2) out

def Progress.step (localDev remoteDev : BlobId) (pr : Progress) (d : Decided) :
    Except ReconcileError Progress := do
  let q ← d.quarantineOp localDev remoteDev
  return {
    decided := pr.decided ++ [d]
    materialize := pr.materialize ++ d.materializeOp.toList
    quarantine := pr.quarantine ++ q.toList
    conflicts := pr.conflicts ++ (d.plannedConflict localDev remoteDev).toList
    sendCand := collectChunks d.sendChunks pr.sendCand
    fetchCand := collectChunks d.fetchChunks pr.fetchCand }

/-! ## Interactions along the tree -/

/-- `p[..i]` for `i` in `1..p.len()`: the directories above a path. -/
def properPrefixes (p : CompPath) : List CompPath := (List.range' 1 (p.length - 1)).map p.take

/-- `final_state`: every key is decided once, so the map is a search. -/
def finalState (decided : List Decided) (key : String) : Option (Option EntryState) :=
  (decided.find? (·.key = key)).bind Decided.outcome

def survivors (pr : Progress) : List CompPath :=
  pr.quarantine.map (·.path) ++ (pr.conflicts.filter (·.winner = .localSide)).map (·.path) ++
    (pr.decided.filter fun d => d.decision = .keepLocal ∧ d.mine.isSome).map (·.path)

def removalKeys (materialize : List MaterializeOp) : List String :=
  (materialize.filter (·.result.isNone)).map fun op => joinPath op.path

/-- The removals that would take a survivor with them. -/
def suppressedKeys (pr : Progress) : List String :=
  ((survivors pr).flatMap fun p => (properPrefixes p).map joinPath).filter
    (· ∈ removalKeys pr.materialize)

/-- `base_state` of a key: from the local view, or else from the remote one. -/
def viewBase (localView remoteView : ViewMap) (key : String) : Option EntryState :=
  ((localView.lookup key).bind (·.2.base)).or ((remoteView.lookup key).bind (·.2.base))

/-- One round of the check above a target: a removed directory is created
again, a non-directory is a structural conflict. -/
def synthStep (suppressed : List String) (final : String → Option (Option EntryState))
    (baseOf : String → Option EntryState) (target : CompPath)
    (synth : AList (fun _ : String => EntryState)) (anc : CompPath) :
    Except ReconcileError (AList (fun _ : String => EntryState)) :=
  let key := joinPath anc
  if key ∈ suppressed ∨ key ∈ synth then .ok synth
  else
    match final key with
    | some none =>
      match baseOf key with
      | some s =>
        if s.kind = .dir then .ok (synth.insert key s)
        else .error (.structuralConflict key (joinPath target))
      | none => .error (.structuralConflict key (joinPath target))
    | some (some s) =>
      if s.kind ≠ .dir then .error (.structuralConflict key (joinPath target)) else .ok synth
    | none => .ok synth

def synthDirs (suppressed : List String) (final : String → Option (Option EntryState))
    (baseOf : String → Option EntryState) (targets : List CompPath) :
    Except ReconcileError (AList (fun _ : String => EntryState)) :=
  targets.foldlM (fun synth target =>
    (properPrefixes target).foldlM (synthStep suppressed final baseOf target) synth) ∅

/-- `key.split('/')`. -/
def splitKey (key : String) : CompPath := (key.toList.splitOn '/').map String.ofList

/-- The operations that create the synthesized directories, in key order. -/
def synthOps (synth : AList (fun _ : String => EntryState)) : List MaterializeOp :=
  (synth.entries.insertionSort (fun a b => a.1 ≤ b.1)).map fun e => ⟨splitKey e.1, none, some e.2⟩

section
variable [Env]

/-! ## The base -/

inductive SafeBase where
  | proven (m : RootManifest)
  | empty
  deriving DecidableEq

def manifestId (m : RootManifest) : BlobId := Env.blake3 (serializeManifest m)

/-- The walk along the parents; `depth` rounds are left. -/
def ancestorWalk (st : Store) (ancestor : BlobId) : Nat → BlobId → Bool
  | 0, _ => false
  | depth + 1, currParent =>
    if currParent = zeroId then false
    else if currParent = ancestor then true
    else
      match st.get .manifest currParent with
      | .error _ => false
      | .ok bytes =>
        match parseManifest bytes with
        | .error _ => false
        | .ok m => ancestorWalk st ancestor depth m.parentManifestId

def isAncestor (st : Store) (ancestor : BlobId) (m : RootManifest) : Bool :=
  if manifestId m = ancestor then true else ancestorWalk st ancestor 256 m.parentManifestId

def resolveSafeBase (st : Store) (localM remoteM : RootManifest) (base : Option RootManifest) :
    SafeBase :=
  match base with
  | none => .empty
  | some b =>
    if isAncestor st (manifestId b) localM && isAncestor st (manifestId b) remoteM then .proven b
    else .empty

/-! ## The plan -/

/-- The loop of `manifest_chunk_refs` over its stack of tree ids. -/
def chunkRefsLoop (st : Store) :
    Nat → List BlobId → List BlobId → List BlobId → Except ReconcileError (List BlobId)
  | _, [], _, out => .ok out
  | 0, _ :: _, _, _ => .error .depth
  | fuel + 1, id :: stack, seenTrees, out =>
    if id ∈ seenTrees then chunkRefsLoop st fuel stack seenTrees out
    else
      match st.get .treeNode id with
      | .error e => .error (.store e)
      | .ok bytes =>
        match parseTreeNode bytes with
        | .error e => .error (.manifest e)
        | .ok node =>
          let chunks := node.entries.flatMap fun e => (EntryState.of e).chunks.map (·.1)
          let children := node.entries.filterMap fun e =>
            match e.payload with
            | .dir childTreeId => some childTreeId
            | _ => none
          chunkRefsLoop st fuel (children.reverse ++ stack) (id :: seenTrees) (out ++ chunks)

def manifestChunkRefs (st : Store) (fuel : Nat) (root : BlobId) : Except ReconcileError (List BlobId) :=
  chunkRefsLoop st fuel [root] [] []

/-- The candidates the other side does not refer to, by id. -/
def wantedChunks (cand : AList (fun _ : BlobId => Nat)) (refs : List BlobId) : Chunks :=
  ((cand.entries.map fun e => (e.1, e.2)).filter (·.1 ∉ refs)).insertionSort
    (fun a b => a.1.key ≤ b.1.key)

def liftDiff {α : Type} : Except DiffError α → Except ReconcileError α
  | .ok a => .ok a
  | .error e => .error (.diff e)

/-- The plan, from the two views and the chunks either tree refers to. -/
def planFrom (localDev remoteDev : BlobId) (localView remoteView : ViewMap)
    (localRefs remoteRefs : Except ReconcileError (List BlobId)) : Except ReconcileError ActionPlan := do
  let rounds := (mergedKeys localView remoteView).filterMap
    (decidedAt localDev remoteDev localView remoteView)
  let pr ← rounds.foldlM (Progress.step localDev remoteDev) {}
  let remoteRefs ← remoteRefs
  let localRefs ← localRefs
  let suppressed := suppressedKeys pr
  let materialize := pr.materialize.filter fun op =>
    ¬ (op.result.isNone ∧ joinPath op.path ∈ suppressed)
  let targets := (materialize.filter (·.result.isSome)).map (·.path) ++ pr.quarantine.map (·.path)
  let synth ← synthDirs suppressed (finalState pr.decided) (viewBase localView remoteView) targets
  return {
    materialize := materialize ++ synthOps synth
    quarantine := pr.quarantine
    send := wantedChunks pr.sendCand remoteRefs
    fetch := wantedChunks pr.fetchCand localRefs
    conflicts := sortByPath (·.path) pr.conflicts
    hasLocalWins := pr.decided.any Decided.isLocalWin }

/-- `reconcile`; the store comes back with the empty tree node written to it. -/
def reconcile (st : Store) (fuel : Nat) (localM remoteM : RootManifest) (base : Option RootManifest) :
    Except ReconcileError (ActionPlan × Store) :=
  match serializeTreeNode ⟨[]⟩ with
  | .error e => .error (.manifest e)
  | .ok emptyBytes =>
    match st.putBlob .treeNode emptyBytes with
    | .error e => .error (.store e)
    | .ok (emptyRoot, st') => do
      let baseRoot := match resolveSafeBase st localM remoteM base with
        | .proven m => m.rootTreeId
        | .empty => emptyRoot
      let localDiff ← liftDiff (diffRoots st' fuel baseRoot localM.rootTreeId)
      let remoteDiff ← liftDiff (diffRoots st' fuel baseRoot remoteM.rootTreeId)
      let plan ← planFrom localM.deviceId remoteM.deviceId (indexChangeSet localDiff)
        (indexChangeSet remoteDiff) (manifestChunkRefs st' fuel localM.rootTreeId)
        (manifestChunkRefs st' fuel remoteM.rootTreeId)
      return (plan, st')

end

end Ferry
