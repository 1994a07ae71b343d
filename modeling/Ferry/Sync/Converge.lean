import Ferry.Materialize.Apply
import Ferry.Sync.Reconcile

/-! # The parts of convergence

What `converge` needs to carry a plan out: the state of a device, the split of a
plan at the paths that a pin holds back, and the entries that conflict copies are
made of.
-/

namespace Ferry

open Lib

/-- A date as `OffsetDateTime` breaks it up: year, month, day, hour, minute, second. -/
structure Civil where
  year : Int
  month : Nat
  day : Nat
  hour : Nat
  minute : Nat
  second : Nat
  deriving DecidableEq, Repr

/-- What the sync engine takes from other crates besides: calendar dates and
the matcher for the lines of a pin. -/
class SyncEnv extends Env where
  fromUnixTimestamp : Int → Option Civil
  fmtRfc3339 : Int → String
  /-- `matched_path_or_any_parents(..)` is `Ignore`; an error names the line. -/
  gitignore : List String → Except (String × String) (CompPath → Bool)

/-! ## Names of conflict copies -/

/-- `hex(device)[..8]`. -/
def deviceShort (device : BlobId) : String := String.ofList ((hex device.val).toList.take 8)

/-- `{n:0width$}`. -/
def padNat (width n : Nat) : String :=
  String.ofList (List.replicate (width - (toString n).length) '0') ++ toString n

/-- `{y:04}` of a signed year: the sign counts as a digit. -/
def padYear (y : Int) : String :=
  if 0 ≤ y then padNat 4 y.toNat else "-" ++ padNat 3 (-y).toNat

section
variable [SyncEnv]

/-- An instant out of range reads as the epoch. -/
def civilUtc (secs : Int) : Civil := (SyncEnv.fromUnixTimestamp secs).getD ⟨1970, 1, 1, 0, 0, 0⟩

def fmtCompact (secs : Int) : String :=
  let c := civilUtc secs
  padYear c.year ++ padNat 2 c.month ++ padNat 2 c.day ++ "-" ++ padNat 2 c.hour ++
    padNat 2 c.minute ++ padNat 2 c.second

def conflictDisplayName (originalName : String) (loserDevice : BlobId) (loserMtimeSec : Int) : String :=
  Env.nfc originalName ++ ".ferry-conflict." ++ deviceShort loserDevice ++ "-" ++ fmtCompact loserMtimeSec

end

/-- `candidate`, `candidate-2`, `candidate-3` and so on. -/
def numbered (candidate : String) (counter : Nat) : String :=
  if counter = 1 then candidate else candidate ++ "-" ++ toString counter

/-! ## The state of a device -/

/-- The writes at the end of a run. -/
inductive RecordStep where
  | conflictLog
  | putMeta
  | flush
  | loadPeer
  | appendHeld
  | agreement
  deriving DecidableEq

inductive ConvergenceError where
  | store (e : StoreError)
  | reconcile (e : ReconcileError)
  | materialize (e : MaterializeError)
  | pinBadPattern (line reason : String)
  | io (path : CompPath) (source : Errno)
  | landingExhausted (path : CompPath)
  | structuralSplit (pinned other : String)
  | missingBlobs (count : Nat)
  | fetch (reason : String)
  /-- A file could not be read or written at this step. -/
  | recording (step : RecordStep)
  deriving DecidableEq

inductive HeldDecision where
  | remoteApply
  | remoteDelete
  | conflict (winner : Option Side)
  deriving DecidableEq

structure HeldPath where
  path : String
  decision : HeldDecision
  chunks : Chunks
  deriving DecidableEq

structure DeviceStamp where
  device : String
  mtime : Option (Int × Nat)
  deriving DecidableEq

structure ConflictEntry where
  ts : String
  folderId : String
  path : String
  kind : String
  winner : DeviceStamp
  loser : DeviceStamp
  quarantinedAs : Option String
  deriving DecidableEq

structure HeldEntry where
  heldSec : Int
  heldNsec : Nat
  path : String
  deviceId : String
  remoteManifestId : String
  chunks : List (String × Nat)
  decision : String
  conflictWinner : Option String
  deriving DecidableEq

structure AgreedRecord where
  peerDeviceId : BlobId
  manifestId : BlobId
  agreedSec : Int
  agreedNsec : Nat
  deriving DecidableEq

/-- The pin on record, with the answer of `holding` at the time of the run. -/
structure PinRecord where
  paths : List String
  holding : Bool
  deriving DecidableEq

section
variable [Env]

/-- The folder, the store and the state directory of one device. -/
structure Replica where
  disk : Disk
  store : Store
  pin : Option PinRecord
  conflictLog : List ConflictEntry
  /-- The held ledger of each peer, by its device id in hexadecimal. -/
  heldLedger : String → List HeldEntry
  agreements : ByteArr 16 → BlobId → Option AgreedRecord

/-! ## Holding back -/

/-- `nests`: `whole` lies below `pre`. -/
def nests (pre whole : String) : Bool :=
  (pre.toList ++ ['/']).isPrefixOf whole.toList

/-- The split of a plan at the paths that are held, before the check that the
two halves do not nest. -/
def heldKeys (plan : ActionPlan) (holds : CompPath → Bool) : List String :=
  (((plan.materialize.map (·.path) ++ plan.quarantine.map (·.path) ++
    plan.conflicts.map (·.path)).filter holds).map joinPath).dedup.insertionSort (· ≤ ·)

def otherKeys (plan : ActionPlan) (holds : CompPath → Bool) : List String :=
  ((plan.materialize.map (·.path) ++ plan.quarantine.map (·.path) ++
    plan.conflicts.map (·.path)).filter (! holds ·)).map joinPath

def splitCheck (held other : List String) : Except ConvergenceError Unit :=
  held.forM fun p => other.forM fun q =>
    if nests p q || nests q p then .error (.structuralSplit p q) else .ok ()

def heldPath (plan : ActionPlan) (holds : CompPath → Bool) (key : String) : HeldPath :=
  let mat := plan.materialize.find? fun op => holds op.path && joinPath op.path = key
  let qtn := plan.quarantine.find? fun op => holds op.path && joinPath op.path = key
  let con := plan.conflicts.find? fun c => holds c.path && joinPath c.path = key
  { path := key
    decision := match con with
      | some c => .conflict (some c.winner)
      | none =>
        match mat.map (·.result) with
        | some (some _) => .remoteApply
        | some none => .remoteDelete
        | none => .conflict none
    chunks := match mat.bind (·.result) with
      | some state => state.chunks
      | none =>
        match qtn.map QuarantineOp.content with
        | some (.fromStore _ _ _ _ chunks _) => chunks
        | _ => [] }

def gatePlan (plan : ActionPlan) (holds : CompPath → Bool) :
    Except ConvergenceError (ActionPlan × List HeldPath) :=
  let held := heldKeys plan holds
  if held = [] then .ok (plan, [])
  else
    match splitCheck held (otherKeys plan holds) with
    | .error e => .error e
    | .ok () =>
      .ok ({ plan with
        materialize := plan.materialize.filter (! holds ·.path)
        quarantine := plan.quarantine.filter (! holds ·.path)
        conflicts := plan.conflicts.filter (! holds ·.path) }, held.map (heldPath plan holds))

/-! ## Conflict copies -/

def diverged (rel : CompPath) (reason : DivergeReason) : ConvergenceError :=
  .materialize (.diverged [⟨rel, reason⟩])

/-- `resolve_live`: the live spelling of a stored path. -/
def resolveLive (d : Disk) (root rel : CompPath) : CompPath :=
  match resolveFrom .pickSmallest d root rel (fun _ => none) with
  | .ok (abs, _) => abs
  | .error _ => root ++ rel

/-- The loop of `read_live_verified` over what is left of the file. -/
def verifyLive (rel : CompPath) (declaredTotal : Nat) :
    Bytes → Chunks → Except ConvergenceError Bytes
  | bytes, [] =>
    if bytes ≠ [] then .error (diverged rel (.sizeMismatch declaredTotal (declaredTotal + 1)))
    else .ok []
  | bytes, (id, len) :: rest =>
    if bytes.length < len then .error (diverged rel .contentMismatch)
    else if Env.blake3 (bytes.take len) ≠ id then .error (diverged rel .contentMismatch)
    else do
      let tail ← verifyLive rel declaredTotal (bytes.drop len) rest
      return bytes.take len ++ tail

def readLiveVerified (d : Disk) (abs rel : CompPath) (expectedChunks : Chunks) :
    Except ConvergenceError Bytes :=
  match d.readFile abs with
  | .ok bytes => verifyLive rel (sumLens expectedChunks) bytes expectedChunks
  | .error .notFound => .error (diverged rel .expectedPresent)
  -- a directory opens, and then every read of it fails
  | .error .isADirectory =>
    if expectedChunks = [] then .error (diverged rel (.sizeMismatch 0 1))
    else .error (diverged rel .contentMismatch)
  | .error e => .error (.io abs e)

def storedLoser (st : Store) (display : String) : Chunks → Except ConvergenceError Bytes
  | [] => .ok []
  | (id, len) :: rest =>
    match st.get .dataChunk id with
    | .error e => .error (.store e)
    | .ok piece =>
      if piece.length ≠ len then
        .error (.materialize (.chunkCorrupt display (2 ^ 64 - 1) s!"len {len}"
          s!"len {piece.length}"))
      else do
        let tail ← storedLoser st display rest
        return piece ++ tail

def ioAt {α : Type} (at_ : CompPath) : Except Errno α → Except ConvergenceError α
  | .ok a => .ok a
  | .error e => .error (.io at_ e)

/-- `make_symlink` on Unix. -/
def makeSymlinkAt (d : Disk) (target : String) (at_ : CompPath) : Except ConvergenceError Disk := do
  ioAt at_ (Disk.checkTarget target)
  ioAt at_ (d.linkNew at_ (.symlink target d.clock))

def writeBytesWithMeta (d : Disk) (tmp : CompPath) (bytes : Bytes) (exec : Bool) (sec : Int) (nsec : Nat) :
    Except ConvergenceError Disk := do
  let file ← ioAt tmp (d.createPlace 40 tmp)
  ioAt tmp (d.putFile file bytes exec (some (joinUnix sec nsec)))

/-- `build_tmp`: the disk with the entry that is then linked to its place. -/
def buildTmp (st : Store) (d : Disk) (root : CompPath) (op : QuarantineOp) (tmp : CompPath)
    (liveBytes : Option Bytes) : Except ConvergenceError Disk :=
  match op.content with
  | .liveLocalSymlink expectedTarget =>
    let actual := match d.readLink (resolveLive d root op.path) with
      | .ok target => target
      | .error _ => ""
    if actual ≠ expectedTarget then
      .error (diverged op.path (.targetMismatch expectedTarget actual))
    else makeSymlinkAt d expectedTarget tmp
  | .liveLocal _ =>
    match liveBytes with
    | none => .error (.materialize (.unreachable "pre-verified buffer must exist"))
    | some bytes => writeBytesWithMeta d tmp bytes op.exec op.loserMtimeSec op.loserMtimeNsec
  | .fromStore kind _ _ _ chunks target =>
    if kind = .symlink then makeSymlinkAt d (target.getD "") tmp
    else do
      let bytes ← storedLoser st (joinPath op.path) chunks
      writeBytesWithMeta d tmp bytes op.exec op.loserMtimeSec op.loserMtimeNsec

def maxLandingAttempts : Nat := 128

end

/-- The wanted chunks that the store cannot deliver. -/
def missingChunks [SyncEnv] (st : Store) (want : Chunks) : Chunks :=
  want.filter fun c => !(st.get .dataChunk c.1).isOk

/-! ## The held ledger -/

/-- `HeldLedger::append`: an entry whose path and manifest are on record already
is dropped. -/
def appendHeld (existing entries : List HeldEntry) : List HeldEntry :=
  entries.foldl (fun acc e =>
    if acc.any fun x => x.path = e.path && x.remoteManifestId = e.remoteManifestId then acc
    else acc ++ [e]) existing

end Ferry
