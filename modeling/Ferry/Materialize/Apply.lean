import Ferry.Materialize.Fold

/-! # The applier

`applyChangeSet` turns a change set into planned removals and upserts, checks
them and runs them: plan every upsert against the disk, guard the plan against
the expected tree, remove in descending path order, upsert in ascending order,
and restore directory times last. A failed run keeps what it has done so far.
Statistics and pacing are left out. Files and links are written under a
temporary name beside their destination and renamed onto it.
-/

namespace Ferry

open Lib

/-! ## Planned operations -/

inductive Mutation where
  | skip
  | mkdir (sec : Int) (nsec : Nat)
  | writeFile (exec : Bool) (sec : Int) (nsec : Nat) (size : Nat) (chunks : Chunks)
  | writeSymlink (target : String) (times : Option (Int × Nat))
  | restoreMtime (sec : Int) (nsec : Nat)
  | restoreSymlinkMtime (sec : Int) (nsec : Nat)
  deriving DecidableEq

def Mutation.isMutation : Mutation → Bool
  | .skip => false
  | _ => true

structure PlannedRemove where
  path : CompPath
  deep : Bool
  deriving DecidableEq

structure PlannedUpsert where
  path : CompPath
  mutation : Mutation
  deriving DecidableEq

structure PlannedTouch where
  path : CompPath
  sec : Int
  nsec : Nat
  deriving DecidableEq

def stateMutation (s : EntryState) : Mutation :=
  match s.kind with
  | .dir => .mkdir s.mtimeSec s.mtimeNsec
  | .file => .writeFile s.exec s.mtimeSec s.mtimeNsec (sumLens s.chunks) s.chunks
  | .symlink => .writeSymlink (s.target.getD "") (some (s.mtimeSec, s.mtimeNsec))

structure ExpectedState where
  kind : EntryKind
  exec : Bool
  size : Nat
  chunks : Chunks
  target : Option String
  deriving DecidableEq

def ExpectedState.of (e : TreeEntry) : ExpectedState where
  kind := .fromPayload e.payload
  exec := e.exec
  size := match e.payload with
    | .file size _ => size
    | _ => 0
  chunks := match e.payload with
    | .file _ chunks => chunks
    | _ => []
  target := match e.payload with
    | .symlink target => some target
    | _ => none

def checkComponent (path : CompPath) (c : String) : Except MaterializeError Unit :=
  if c = "" ∨ c = "." ∨ c = ".." ∨ '/' ∈ c.toList ∨ '\\' ∈ c.toList ∨ '\x00' ∈ c.toList ∨
      ¬ firstComponentNormal c then
    .error (.badComponent c)
  else if isReservedDeviceName c then .error (.reservedName (joinPath path) c)
  else .ok ()

def validateComponents (path : CompPath) : Except MaterializeError Unit :=
  path.forM (checkComponent path)

/-! ## Temporary names -/

/-- `temp_file_name` in the style of Unix. -/
def tempFileName (destName entropy : String) : String :=
  ".ferry." ++ destName ++ ".tmp" ++ if entropy = "" then "" else "." ++ entropy

/-- Sixteen digits of the hash, and no entropy. -/
def hashedTempFileName [Env] (relPath : String) : String :=
  ".ferry." ++ String.ofList ((hex (Env.blake3 relPath.toUTF8.toList).val).toList.take 16) ++ ".tmp"

/-- `NAME_LEN_LIMIT` is 200 bytes. -/
def tempNameFor [Env] (relPath entropy : String) : String :=
  let name := String.ofList ((relPath.toList.splitOn '/').getLastD [])
  let candidate := tempFileName name entropy
  if 200 < candidate.utf8ByteSize ∨ name = "" then hashedTempFileName relPath else candidate

inductive Overwrite where
  | always
  | expect (expected : RootManifest)
  deriving DecidableEq

/-- What a run changes: the disk, the remembered spellings, the touches to come. -/
structure Exec where
  disk : Disk
  fold : FoldCache
  touches : List PlannedTouch

/-- A step of a run; an error keeps the state reached. -/
abbrev ExecM := EStateM MaterializeError Exec

section
variable [Env]

structure Applier where
  store : Store
  target : CompPath
  overwrite : Overwrite
  fuel : Nat

/-! ## Small steps -/

def liftExcept {α : Type} (x : Except MaterializeError α) : ExecM α := fun s =>
  match x with
  | .ok a => .ok a s
  | .error e => .error e s

def look {α : Type} (at_ : CompPath) (call : Disk → Except Errno α) : ExecM α := fun s =>
  match call s.disk with
  | .ok a => .ok a s
  | .error e => .error (.io at_ e) s

def change (at_ : CompPath) (call : Disk → Except Errno Disk) : ExecM Unit := fun s =>
  match call s.disk with
  | .ok d => .ok () { s with disk := d }
  | .error e => .error (.io at_ e) s

def noteRemoved (abs : CompPath) (deep : Bool) : ExecM Unit :=
  modify fun s => { s with fold := s.fold.noteRemoved abs deep }

def noteCreatedAt (abs : CompPath) : ExecM Unit :=
  modify fun s => { s with fold := s.fold.noteCreatedAt abs }

def pushTouch (t : PlannedTouch) : ExecM Unit :=
  modify fun s => { s with touches := s.touches ++ [t] }

/-- `Applier::abs`: `extend_path` is the identity on Unix. -/
def Applier.abs (ap : Applier) (rel : CompPath) : ExecM CompPath := fun s =>
  match resolveFrom .refuse s.disk ap.target rel s.fold with
  | .error e => .error e s
  | .ok (p, fold) => .ok p { s with fold := fold }

/-- `stat_opt`: nothing there, or a file on the way, is no entry. -/
def statOpt (abs : CompPath) : ExecM (Option Inode) := fun s =>
  match s.disk.symlinkMetadata abs with
  | .ok md => .ok (some md) s
  | .error .notFound => .ok none s
  | .error .notADirectory => .ok none s
  | .error e => .error (.io abs e) s

/-- The loop of `content_matches` over what is left of the file. -/
def matchChunks (st : Store) (abs : CompPath) : Bytes → Chunks → Except MaterializeError Bool
  | _, [] => .ok true
  | bytes, (id, len) :: rest =>
    match st.get .dataChunk id with
    | .error e => .error (.store e)
    | .ok expect =>
      if expect.length ≠ len then
        .error (.chunkCorrupt (pathString abs) (2 ^ 64 - 1) s!"len {len}" s!"len {expect.length}")
      else if bytes.length < len then .ok false
      else if bytes.take len ≠ expect then .ok false
      else matchChunks st abs (bytes.drop len) rest

def contentMatches (st : Store) (abs : CompPath) (chunks : Chunks) : ExecM Bool := do
  let bytes ← look abs (·.readFile abs)
  liftExcept (matchChunks st abs bytes chunks)

/-! ## Planning -/

def planUpsert (st : Store) (abs : CompPath) (up : PlannedUpsert) (caseShadowed : Bool) :
    ExecM PlannedUpsert :=
  if caseShadowed then pure up
  else
    match up.mutation with
    | .skip => pure up
    | .mkdir sec nsec => do
      match ← statOpt abs with
      | some .dir => do
        pushTouch ⟨up.path, sec, nsec⟩
        return { up with mutation := .skip }
      | _ => return up
    | .writeSymlink target times => do
      match ← statOpt abs with
      | some (.symlink live mtime) =>
        if live = target then
          match times with
          | some (sec, nsec) =>
            if splitUnix mtime ≠ (sec, nsec) then
              return { up with mutation := .restoreSymlinkMtime sec nsec }
            else return { up with mutation := .skip }
          | none => return { up with mutation := .skip }
        else return up
      | _ => return up
    | .restoreMtime .. => throw (.unreachable "planner input")
    | .restoreSymlinkMtime .. => throw (.unreachable "planner input")
    | .writeFile exec sec nsec size chunks => do
      match ← statOpt abs with
      | some (.file bytes liveExec mtime) =>
        if bytes.length ≠ size ∨ liveExec ≠ exec then return up
        else if ← contentMatches st abs chunks then
          if splitUnix mtime = (sec, nsec) then return { up with mutation := .skip }
          else return { up with mutation := .restoreMtime sec nsec }
        else return up
      | _ => return up

/-! ## Guarding -/

def baseNode (st : Store) (id : BlobId) : Except MaterializeError TreeNode :=
  match st.get .treeNode id with
  | .error e => .error (.store e)
  | .ok bytes =>
    match parseTreeNode bytes with
    | .error e => .error (.manifest e)
    | .ok node => .ok node

/-- `Base::lookup` below the node `id`. -/
def baseLookup (st : Store) : BlobId → CompPath → Except MaterializeError (Option TreeEntry)
  | _, [] => .ok none
  | id, c :: rest =>
    match baseNode st id with
    | .error e => .error e
    | .ok node =>
      match node.entries.find? (·.name = c) with
      | none => .ok none
      | some e =>
        if rest = [] then .ok (some e)
        else
          match e.payload with
          | .dir child => baseLookup st child rest
          | _ => .ok none

/-- One round of the loop in `flatten_base_subtree`, with its recursive call. -/
def flattenBaseEntry
    (call : CompPath → TreeEntry → Except MaterializeError (List (String × ExpectedState)))
    (dirPath : CompPath) (e : TreeEntry) : Except MaterializeError (List (String × ExpectedState)) :=
  match e.payload with
  | .dir _ => do
    let sub ← call (dirPath ++ [e.name]) e
    return (joinPath (dirPath ++ [e.name]), ExpectedState.of e) :: sub
  | _ => .ok [(joinPath (dirPath ++ [e.name]), ExpectedState.of e)]

/-- `flatten_base_subtree`: what the expected tree has below a directory, by
joined path. -/
def flattenBaseSubtree (st : Store) : Nat → CompPath → TreeEntry →
    Except MaterializeError (List (String × ExpectedState))
  | 0, _, _ => .error .depth
  | fuel + 1, dirPath, dirEntry =>
    match dirEntry.payload with
    | .dir child => do
      let node ← baseNode st child
      let parts ← node.entries.mapM (flattenBaseEntry (flattenBaseSubtree st fuel) dirPath)
      return parts.flatten
    | _ => .ok []

def Applier.checkLiveMatches (ap : Applier) (rel : CompPath) (exp : ExpectedState) :
    ExecM (List Divergence) := do
  let abs ← ap.abs rel
  match ← statOpt abs with
  | none => return [⟨rel, .expectedPresent⟩]
  | some md =>
    if md.kind ≠ exp.kind then return [⟨rel, .kindMismatch exp.kind md.kind⟩]
    else
      match md with
      | .dir => return []
      | .symlink found _ =>
        if found ≠ exp.target.getD "" then
          return [⟨rel, .targetMismatch (exp.target.getD "") found⟩]
        else return []
      | .file bytes exec _ =>
        if bytes.length ≠ exp.size then
          return [⟨rel, .sizeMismatch exp.size bytes.length⟩]
        else if exec ≠ exp.exec then return [⟨rel, .execMismatch exp.exec exec⟩]
        else if ← contentMatches ap.store abs exp.chunks then return []
        else return [⟨rel, .contentMismatch⟩]

/-- The live entries below the physical directory `q`, as paths relative to it. -/
def Disk.below (d : Disk) (q : CompPath) : List CompPath :=
  (d.inodes.keys.filter fun p => Above q p).map fun p => p.drop q.length

/-- One round of the walk in `verify_subtree_matches_base`: the entry at
`sub` below the directory written `absDir`. Only the last component of its
stored path is normalized. -/
def Applier.verifyLiveEntry (ap : Applier) (expected : List (String × ExpectedState))
    (absDir q sub : CompPath) : ExecM (String × List Divergence) := do
  let d := (← get).disk
  let parentRel := (absDir ++ sub.dropLast).drop ap.target.length
  let rel := parentRel ++ [Env.nfc (sub.getLastD "")]
  let key := joinPath rel
  match expected.lookup key, d.get (q ++ sub) with
  | none, _ => return (key, [⟨rel, .expectedAbsent⟩])
  | some exp, some md =>
    if md = .dir then return (key, [])
    else if md.kind ≠ exp.kind then return (key, [⟨rel, .kindMismatch exp.kind md.kind⟩])
    else return (key, ← ap.checkLiveMatches rel exp)
  | some _, none => return (key, [])

/-- `verify_subtree_matches_base`; the order in which the source walks the
directories only orders the divergences, which are sorted later. -/
def Applier.verifySubtreeMatchesBase (ap : Applier) (dirPath : CompPath) (dirEntry : TreeEntry) :
    ExecM (List Divergence) := do
  let expected ← liftExcept (flattenBaseSubtree ap.store ap.fuel dirPath dirEntry)
  let absDir ← ap.abs dirPath
  let q ← look absDir (·.locate absDir)
  let live ← ((← get).disk.below q).mapM (ap.verifyLiveEntry expected absDir q)
  let liveKeys := live.map (·.1)
  let missing := ((expected.map (·.1)).filter (· ∉ liveKeys)).insertionSort (· ≤ ·)
  return (live.map (·.2)).flatten ++
    missing.map fun k => ⟨(k.toList.splitOn '/').map String.ofList, .expectedPresent⟩

def Applier.guardRemoval (ap : Applier) (root : BlobId) (rm : PlannedRemove) :
    ExecM (List Divergence) := do
  match ← liftExcept (baseLookup ap.store root rm.path) with
  | none => return [⟨rm.path, .notInBase⟩]
  | some expEntry =>
    let exp := ExpectedState.of expEntry
    let abs ← ap.abs rm.path
    match ← statOpt abs with
    | none => return [⟨rm.path, .expectedPresent⟩]
    | some md =>
      if md.kind ≠ exp.kind then return [⟨rm.path, .kindMismatch exp.kind md.kind⟩]
      else if rm.deep ∧ md.kind = .dir then ap.verifySubtreeMatchesBase rm.path expEntry
      else ap.checkLiveMatches rm.path exp

def Applier.guardUpsert (ap : Applier) (root : BlobId) (up : PlannedUpsert) :
    ExecM (List Divergence) := do
  let exp ← liftExcept (baseLookup ap.store root up.path)
  let abs ← ap.abs up.path
  match exp, ← statOpt abs with
  | none, none => return []
  | none, some _ => return [⟨up.path, .expectedAbsent⟩]
  | some _, none => return [⟨up.path, .expectedPresent⟩]
  | some e, some _ =>
    match (ExpectedState.of e).kind with
    | .dir => return []
    | _ => ap.checkLiveMatches up.path (.of e)

/-- The guard of a whole plan: it passes, or reports every divergence. -/
def Applier.guard (ap : Applier) (removes : List PlannedRemove) (upserts : List PlannedUpsert) :
    ExecM Unit :=
  match ap.overwrite with
  | .always => pure ()
  | .expect expected => do
    let byRemoval ← removes.mapM (ap.guardRemoval expected.rootTreeId)
    let byUpsert ← (upserts.filter (·.mutation.isMutation)).mapM
      (ap.guardUpsert expected.rootTreeId)
    let divergences := byRemoval.flatten ++ byUpsert.flatten
    if divergences ≠ [] then throw (.diverged (sortByPath (·.path) divergences))

/-! ## Executing -/

/-- `remove_dir_children_first`: with no concurrent writer no step of it fails,
and it takes the directory with everything below it. -/
def removeDirChildrenFirst (abs : CompPath) : ExecM Unit := do
  let q ← look abs (·.locate abs)
  change abs fun d => .ok (d.removeTree q)

def Applier.executeRemove (ap : Applier) (rm : PlannedRemove) : ExecM Unit := do
  let abs ← ap.abs rm.path
  match (← get).disk.symlinkMetadata abs with
  | .error .notFound => return ()
  | .error e => throw (.io abs e)
  | .ok md =>
    if md = .dir then
      if rm.deep then removeDirChildrenFirst abs
      else change abs (·.removeDir abs)
    else change abs (·.removeFile abs)
    noteRemoved abs (rm.deep || decide (md = .dir))

/-- The bytes of a chunk list, each chunk checked as it is read. -/
def readChunks (st : Store) (relDisplay : String) :
    Nat → Chunks → Except MaterializeError Bytes
  | _, [] => .ok []
  | index, (id, len) :: rest =>
    match st.get .dataChunk id with
    | .error e => .error (.store e)
    | .ok bytes =>
      if bytes.length ≠ len then
        .error (.chunkCorrupt relDisplay index s!"len {len}" s!"len {bytes.length}")
      else if Env.blake3 bytes ≠ id then
        .error (.chunkCorrupt relDisplay index (hex id.val) (hex (Env.blake3 bytes).val))
      else do
        let tail ← readChunks st relDisplay (index + 1) rest
        return bytes ++ tail

/-- `verify_regions`: the temporary file read back, region by region. -/
def verifyRegions (tmp : CompPath) (relDisplay : String) :
    Nat → Bytes → Chunks → Except MaterializeError Unit
  | _, _, [] => .ok ()
  | index, bytes, (id, len) :: rest =>
    if bytes.length < len then .error (.io tmp .invalidInput)
    else if Env.blake3 (bytes.take len) ≠ id then
      .error (.tempWriteVerifyFailed relDisplay index (hex id.val)
        (hex (Env.blake3 (bytes.take len)).val))
    else verifyRegions tmp relDisplay (index + 1) (bytes.drop len) rest

/-- The bytes before the first chunk that cannot be read. -/
def readPart (st : Store) : Chunks → Bytes
  | [] => []
  | (id, len) :: rest =>
    match st.get .dataChunk id with
    | .error _ => []
    | .ok bytes => if bytes.length ≠ len ∨ Env.blake3 bytes ≠ id then [] else bytes ++ readPart st rest

/-- Where the temporary file of a destination goes. -/
def tempPath (absDest rel : CompPath) : CompPath :=
  absDest.dropLast ++ [tempNameFor (joinPath rel) (Env.freshEntropy (joinPath rel) 0)]

/-- `if result.is_err() { remove_file(tmp) }`, whatever stands there. -/
def orUnlink (tmp : CompPath) (m : ExecM Unit) : ExecM Unit := fun s =>
  match m s with
  | .ok a s => .ok a s
  | .error e s => .error e { s with disk := (s.disk.removeFile tmp).toOption.getD s.disk }

/-- `write_temp_then_rename` up to the rename. A chunk that cannot be read ends the writing; the
time is set after the last one. -/
def Applier.writeTemp (ap : Applier) (tmp : CompPath) (relDisplay : String) (exec : Bool) (sec : Int)
    (nsec : Nat) (chunks : Chunks) : ExecM Unit := do
  let file ← look tmp (·.createPlace 40 tmp)
  let read := readChunks ap.store relDisplay 0 chunks
  change tmp (·.putFile file (readPart ap.store chunks) exec
    (read.toOption.map fun _ => joinUnix sec nsec))
  let bytes ← liftExcept read
  liftExcept (verifyRegions tmp relDisplay 0 bytes chunks)

def Applier.writeFileAtomically (ap : Applier) (absDest rel : CompPath) (exec : Bool) (sec : Int)
    (nsec : Nat) (declaredSize : Nat) (chunks : Chunks) : ExecM Unit := do
  let relDisplay := joinPath rel
  if sumLens chunks ≠ declaredSize then
    throw (.sizeMismatch relDisplay declaredSize (sumLens chunks))
  let tmp := tempPath absDest rel
  orUnlink tmp do
    ap.writeTemp tmp relDisplay exec sec nsec chunks
    change absDest (·.rename tmp absDest)

def makeSymlink (target : String) (at_ : CompPath) : ExecM Unit := do
  look at_ fun _ => Disk.checkTarget target
  change at_ fun d => d.linkNew at_ (.symlink target d.clock)

/-- `if let Ok(md) = symlink_metadata(abs)` with a directory there: it goes. -/
def clearDir (abs : CompPath) : ExecM Unit := do
  match (← get).disk.symlinkMetadata abs with
  | .ok .dir => do
    removeDirChildrenFirst abs
    noteRemoved abs true
  | _ => return ()

/-- The first half of `Mkdir`: what is in the way and no directory is deleted. -/
def clearLeaf (abs : CompPath) : ExecM Unit := do
  match (← get).disk.symlinkMetadata abs with
  | .error .notFound => return ()
  | .error e => throw (.io abs e)
  | .ok .dir => return ()
  | .ok _ => do
    change abs (·.removeFile abs)
    noteRemoved abs false

/-- `create_dir` with an existing directory taken as success. -/
def ensureDir (abs : CompPath) : ExecM Unit :=
  change abs fun d =>
    match d.createDir abs with
    | .error .alreadyExists => .ok d
    | r => r

def Applier.executeUpsert (ap : Applier) (up : PlannedUpsert) : ExecM Unit := do
  let abs ← ap.abs up.path
  match up.mutation with
  | .skip => return ()
  | .mkdir sec nsec => do
    clearLeaf abs
    ensureDir abs
    noteCreatedAt abs
    pushTouch ⟨up.path, sec, nsec⟩
  | .restoreMtime sec nsec => change abs (·.setTimes abs (joinUnix sec nsec))
  | .restoreSymlinkMtime sec nsec => change abs (·.setTimesNoFollow abs (unixNanos sec nsec))
  | .writeSymlink target times => do
    match classifyLink (up.path.length - 1) target with
    | .refuse reason => throw (.symlinkRefused (joinPath up.path) target reason)
    | .syncAsLink => do
      clearDir abs
      let tmp := tempPath abs up.path
      orUnlink tmp do
        makeSymlink target tmp
        change abs (·.rename tmp abs)
      noteCreatedAt abs
      match times with
      | some (sec, nsec) => change abs (·.setTimesNoFollow abs (unixNanos sec nsec))
      | none => return ()
  | .writeFile exec sec nsec size chunks => do
    clearDir abs
    ap.writeFileAtomically abs up.path exec sec nsec size chunks
    noteCreatedAt abs

def Applier.executeTouch (ap : Applier) (t : PlannedTouch) : ExecM Unit := do
  let abs ← ap.abs t.path
  let d := (← get).disk
  match d.symlinkMetadata abs with
  | .error .notFound => return ()
  | .error e => throw (.io abs e)
  | .ok md =>
    if md ≠ .dir then return ()
    else do
      let q ← look abs (·.locate abs)
      if splitUnix (d.dirTime q) = (t.sec, t.nsec) then return ()
      else change abs (·.setTimes abs (joinUnix t.sec t.nsec))

/-! ## The run -/

def Applier.plan (ap : Applier) (removes : List PlannedRemove) (upserts : List PlannedUpsert) :
    ExecM (List PlannedUpsert) :=
  let shadowed := removes.map fun r => foldKey (joinPath r.path)
  upserts.mapM fun up => do
    let abs ← ap.abs up.path
    planUpsert ap.store abs up (decide (foldKey (joinPath up.path) ∈ shadowed))

/-- `sort_by(|a, b| b.path.cmp(&a.path))`. -/
def sortDescending {α : Type} (path : α → CompPath) (l : List α) : List α :=
  l.insertionSort (fun a b => path b ≤ path a)

def Applier.run (ap : Applier) (removes : List PlannedRemove) (upserts : List PlannedUpsert) :
    ExecM Unit := do
  modify fun s => { s with fold := fun _ => none, touches := [] }
  let upserts ← ap.plan removes (sortByPath (·.path) upserts)
  ap.guard removes upserts
  (sortDescending (·.path) removes).forM ap.executeRemove
  upserts.forM ap.executeUpsert
  (sortDescending (·.path) (← get).touches).forM ap.executeTouch

/-- The removals of a change set: what it lists as removed or as changed in type. -/
def ChangeSet.removes (cs : ChangeSet) : List PlannedRemove :=
  cs.removed.map (fun r => ⟨r.path, decide (r.state.kind = .dir)⟩) ++
    cs.typeChanged.map fun m => ⟨m.path, decide (m.before.kind = .dir)⟩

def ChangeSet.upserts (cs : ChangeSet) : List PlannedUpsert :=
  cs.added.map (fun a => ⟨a.path, stateMutation a.state⟩) ++
    (cs.contentModified ++ cs.metadataModified ++ cs.typeChanged).map fun m =>
      ⟨m.path, stateMutation m.after⟩

/-- `apply_change_set`; the check for names that collide under case folding
is empty on a host that keeps case. -/
def Applier.applyChangeSet (ap : Applier) (cs : ChangeSet) : ExecM Unit := do
  change ap.target fun d => Disk.createDirAll (ap.target.length + 1) d ap.target
  liftExcept ((cs.removes.map (·.path) ++ cs.upserts.map (·.path)).forM validateComponents)
  ap.run cs.removes cs.upserts

end

end Ferry
