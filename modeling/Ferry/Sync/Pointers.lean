import Ferry.Scan.Subscribers
import Ferry.Store.Codec

/-! # The pointers of a folder

The sync engine keeps a folder's current manifest. A scan sets it when its event
comes out of the subscription channel, or directly when a session has asked for the
scan; a session sets it when it adopts the manifest of a peer. Nothing orders the
two: how old a scan is does not matter when it is handled.
-/

namespace Ferry

open Lib

structure SnapshotData where
  manifestBytes : Bytes
  manifest : RootManifest
  manifestId : BlobId
  deriving DecidableEq

structure ScanStats where
  files : Nat
  dirs : Nat
  symlinks : Nat
  bytesChunked : Nat
  deriving DecidableEq

/-- `CurrentScan`, with the fields that the sync engine reads. -/
structure CurrentScan where
  manifest : RootManifest
  manifestId : BlobId
  stats : ScanStats
  deriving DecidableEq

inductive ScanEvent where
  | updated (cur : CurrentScan)
  | failed (err : String)
  deriving DecidableEq

structure FolderPointers where
  latest : Option SnapshotData
  current : Option SnapshotData
  baseline : Option RootManifest
  agreed : Option BlobId
  lastOwnManifestId : BlobId
  scanStats : Option ScanStats
  deriving DecidableEq

namespace FolderPointers

/-- `FolderState::new`. -/
def new : FolderPointers := ⟨none, none, none, none, zeroId, none⟩

def heldSameRoot (g : FolderPointers) (data : SnapshotData) : Bool :=
  g.current.any fun c => c.manifest.rootTreeId = data.manifest.rootTreeId

def updateFromScan (g : FolderPointers) (data : SnapshotData) (stats : ScanStats) : FolderPointers :=
  let g := { g with scanStats := some stats, latest := some data }
  if g.heldSameRoot data then g
  else { g with current := some data, lastOwnManifestId := data.manifestId }

def adoptPeer (g : FolderPointers) (data : SnapshotData) : FolderPointers :=
  { g with latest := some data, current := some data, lastOwnManifestId := data.manifestId }

def recordAgreed (g : FolderPointers) (manifest : RootManifest) (manifestId : BlobId) : FolderPointers :=
  { g with baseline := some manifest, agreed := some manifestId }

end FolderPointers

section
variable [Env]

/-- The snapshot that `handle_scan_update` makes of a scan. -/
def CurrentScan.data (cur : CurrentScan) : SnapshotData :=
  ⟨serializeManifest cur.manifest, cur.manifest, cur.manifestId⟩

/-- `handle_scan_update`, without the status line. -/
def FolderPointers.handleScanUpdate (g : FolderPointers) (cur : CurrentScan) : FolderPointers :=
  g.updateFromScan cur.data cur.stats

/-- `EngineHost::adopt`, as far as the pointers are concerned. -/
def adoptedData (bytes : Bytes) (manifest : RootManifest) : SnapshotData :=
  ⟨bytes, manifest, Env.blake3 bytes⟩

end

/-! ## Scans, the sync loop and sessions -/

/-- The folder's pointers, the channel from the scan engine, and the scans that have been taken out
of it or returned to a session and are not handled yet. A scan carries the number of the
step that published it; `adopted` is the number of the last adoption. -/
structure SyncState where
  folder : FolderPointers
  sub : Subscriber (Nat × ScanEvent)
  /-- What the sync loop has received. -/
  loop : Option (Nat × ScanEvent)
  /-- What scans that sessions ran have returned to them. -/
  sessions : List (Nat × CurrentScan)
  clock : Nat
  adopted : Option Nat

inductive SyncAct where
  /-- A pass of the scan engine publishes, or fails. -/
  | deliver (ev : ScanEvent)
  /-- A session's own `scan_once` publishes; its result is returned to the session as well. -/
  | sessionScan (cur : CurrentScan)
  | sessionHandle (session : Nat)
  | loopRecv
  | loopHandle
  | adopt (bytes : Bytes) (manifest : RootManifest)
  | agree (manifest : RootManifest) (manifestId : BlobId)

namespace SyncState

/-- A folder just opened, with the subscription of its sync loop. -/
def new : SyncState := ⟨.new, .new, none, [], 0, none⟩

def handles (s : SyncState) : SyncAct → Option (Nat × CurrentScan)
  | .sessionHandle session => s.sessions[session]?
  | .loopHandle =>
    match s.loop with
    | some (published, .updated cur) => some (published, cur)
    | _ => none
  | _ => none

section
variable [Env]

/-- What the step does to the state, time aside. -/
def act (s : SyncState) : SyncAct → SyncState
  | .deliver ev => { s with sub := (s.sub.offer (s.clock, ev)).1 }
  | .sessionScan cur =>
    { s with sub := (s.sub.offer (s.clock, .updated cur)).1, sessions := s.sessions ++ [(s.clock, cur)] }
  | .sessionHandle session =>
    match s.sessions[session]? with
    | none => s
    | some (_, cur) =>
      { s with folder := s.folder.handleScanUpdate cur, sessions := s.sessions.eraseIdx session }
  | .loopRecv =>
    -- the loop handles what it has before it waits again
    match s.loop, s.sub.tx.tryRecv with
    | none, some (ev, tx) => { s with loop := some ev, sub := { s.sub with tx := tx } }
    | _, _ => s
  | .loopHandle =>
    match s.loop with
    | none => s
    | some (_, .updated cur) => { s with folder := s.folder.handleScanUpdate cur, loop := none }
    | some (_, .failed _) => { s with loop := none }
  | .adopt bytes manifest =>
    { s with folder := s.folder.adoptPeer (adoptedData bytes manifest), adopted := some s.clock }
  | .agree manifest manifestId => { s with folder := s.folder.recordAgreed manifest manifestId }

def step (s : SyncState) (a : SyncAct) : SyncState := { s.act a with clock := s.clock + 1 }

def run (acts : List SyncAct) : SyncState := acts.foldl step new

/-- The step handles a scan that was published before the last adoption. -/
def HandlesOld (s : SyncState) (a : SyncAct) (cur : CurrentScan) : Prop :=
  ∃ published adopted, s.handles a = some (published, cur) ∧ s.adopted = some adopted ∧ published < adopted

/-- The step makes the scan the folder's current manifest. -/
def MakesCurrent (s : SyncState) (a : SyncAct) (cur : CurrentScan) : Prop :=
  s.folder.current ≠ some cur.data ∧ (s.step a).folder.current = some cur.data

theorem folder_step_of_handles {s : SyncState} {a : SyncAct} {published : Nat} {cur : CurrentScan}
    (h : s.handles a = some (published, cur)) :
    (s.step a).folder = s.folder.handleScanUpdate cur := by
  cases a with
  | sessionHandle session =>
    have hget : s.sessions[session]? = some (published, cur) := h
    simp [step, act, hget]
  | loopHandle =>
    simp only [handles] at h
    split at h
    · rename_i published' cur' hloop
      cases h
      simp [step, act, hloop]
    · cases h
  | deliver | sessionScan | loopRecv | adopt | agree => cases h

theorem makesCurrent_iff {s : SyncState} {a : SyncAct} {published : Nat} {cur : CurrentScan}
    (h : s.handles a = some (published, cur)) :
    s.MakesCurrent a cur ↔ ¬ s.folder.heldSameRoot cur.data := by
  unfold MakesCurrent
  rw [folder_step_of_handles h, FolderPointers.handleScanUpdate, FolderPointers.updateFromScan]
  cases hroot : s.folder.heldSameRoot cur.data with
  | true =>
    have hroot' : FolderPointers.heldSameRoot { s.folder with
      scanStats := some cur.stats, latest := some cur.data } cur.data = true := hroot
    simp [hroot']
  | false =>
    have hroot' : FolderPointers.heldSameRoot { s.folder with
      scanStats := some cur.stats, latest := some cur.data } cur.data = false := hroot
    have hne : s.folder.current ≠ some cur.data := by
      intro hcur
      simp [FolderPointers.heldSameRoot, hcur] at hroot
    simp [hroot', hne]

end

end SyncState

section
variable [Env]

/-- In a run, no scan published before an adoption becomes the current manifest after it. -/
def AdoptionsLast (acts : List SyncAct) : Prop :=
  ∀ before a after cur, acts = before ++ a :: after → (SyncState.run before).HandlesOld a cur →
    ¬ (SyncState.run before).MakesCurrent a cur

/-- In a run, each scan that is handled after an adoption it was published before has the root tree
of the manifest that is current then. -/
def OldScansAgree (acts : List SyncAct) : Prop :=
  ∀ before a after cur, acts = before ++ a :: after → (SyncState.run before).HandlesOld a cur →
    (SyncState.run before).folder.heldSameRoot cur.data

/-- An older scan never replaces what was adopted if and only if the older scans that are handled
have the root tree that is current anyway. -/
theorem adoptionsLast_iff (acts : List SyncAct) : AdoptionsLast acts ↔ OldScansAgree acts := by
  refine forall_congr' fun before => forall_congr' fun a => forall_congr' fun after =>
    forall_congr' fun cur => forall_congr' fun _ => forall_congr' fun hold => ?_
  obtain ⟨published, adopted, hhandles, -, -⟩ := hold
  rw [SyncState.makesCurrent_iff hhandles, not_not]

end

namespace Sample

def scanOf (root : BlobId) : CurrentScan :=
  ⟨⟨ByteArr.fill 16 1, zeroId, 1, 0, root, zeroId⟩, ByteArr.fill 32 1, ⟨0, 0, 0, 0⟩⟩

/-- A scan is published, a session adopts the manifest of a peer, then the sync loop gets to the
scan. -/
def lateScan : List SyncAct :=
  [.deliver (.updated (scanOf (ByteArr.fill 32 5))), .adopt [1] (scanOf (ByteArr.fill 32 6)).manifest,
    .loopRecv, .loopHandle]

end Sample

open scoped Sample in
/-- The scan that waited in the channel replaces the manifest that was adopted. -/
theorem not_adoptionsLast : ¬ AdoptionsLast Sample.lateScan := by
  intro h
  have hhandles : (SyncState.run (Sample.lateScan.take 3)).handles .loopHandle =
      some (0, Sample.scanOf (ByteArr.fill 32 5)) := by decide +kernel
  refine h (Sample.lateScan.take 3) .loopHandle [] _ rfl ⟨0, 1, hhandles, by decide +kernel, by decide⟩ ?_
  rw [SyncState.makesCurrent_iff hhandles]
  decide +kernel

end Ferry
