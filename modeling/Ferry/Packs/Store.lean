import Mathlib.Data.List.AList
import Ferry.Lib.Hoare
import Ferry.Packs.Staging

/-! # The store

The store answers `put_blob` and `get` from three places: open packs, pack files
on disk, and a cache of packs already verified. A blob that some pack present on
disk is said to hold is not stored again. The disk itself does not fail: files
are written and removed as asked, and what a file holds may have changed
between two operations.
-/

namespace Ferry

open Lib

/-- The files of a store: packs, numbered index files, and the collector's ledger. -/
structure PackDisk where
  packs : AList (fun _ : PackId => Bytes)
  index : AList (fun _ : Nat => Bytes)
  ledger : AList (fun _ : PackId => Nat)

structure VerifiedPack where
  packId : PackId
  bytes : Bytes
  ctx : PackContext
  deriving DecidableEq

/-- `PackCache`: the packs used last, the latest one first. -/
abbrev PackCache := List VerifiedPack

def defaultPackCacheCapacity : Nat := 64

def maxCachedPackBytes : Nat := 2 * 1024 * 1024

def PackCache.find (c : PackCache) (pack : PackId) : Option VerifiedPack :=
  c.find? (fun vp => vp.packId = pack)

def PackCache.remove (c : PackCache) (pack : PackId) : PackCache := c.filter (·.packId ≠ pack)

/-- The pack becomes the latest one used; the oldest one beyond the capacity goes. -/
def PackCache.promote (c : PackCache) (vp : VerifiedPack) : PackCache :=
  (vp :: PackCache.remove c vp.packId).take defaultPackCacheCapacity

def PackCache.insert (c : PackCache) (vp : VerifiedPack) : PackCache :=
  if maxCachedPackBytes < vp.bytes.length then c else c.promote vp

inductive BlobError where
  | emptyBlob
  | notFound (kind : BlobKind) (id : String)
  | pack (e : PackError)
  | index (e : IndexError)
  | manifest (e : ManifestError)
  /-- A walk over trees went on longer than its bound. -/
  | depth
  deriving DecidableEq

/-- An open store with the files it works on; `draw` counts random draws. -/
structure PackStore where
  disk : PackDisk
  fmk : ByteArr 32
  staging : StagingPools
  locations : LocationTable
  nextIndex : Nat
  dangling : List PackId
  cache : PackCache
  sealTarget : Nat
  draw : Nat

abbrev BlobM := EStateM BlobError PackStore

def indexCompactionThreshold : Nat := 512

section
variable [PackEnv]

/-! ## Small steps -/

def packExists (pack : PackId) : BlobM Bool := do
  let s ← get
  if pack ∈ s.dangling then return false
  else if (s.disk.packs.lookup pack).isSome then return true
  else do
    modify fun s => { s with dangling := pack :: s.dangling }
    return false

def notePackWritten (pack : PackId) : BlobM Unit :=
  modify fun s => { s with dangling := s.dangling.filter (· ≠ pack) }

/-- `?` on a result whose error the store wraps. -/
def liftAs {ε α : Type} (wrap : ε → BlobError) (x : Except ε α) : BlobM α := fun s =>
  match x with
  | .ok a => .ok a s
  | .error e => .error (wrap e) s

def drawSalt : BlobM (ByteArr 16) := do
  let s ← get
  modify fun s => { s with draw := s.draw + 1 }
  return PackEnv.salt s.draw

/-! ## The index on disk -/

def nextIndexNumber (files : AList (fun _ : Nat => Bytes)) : Nat := files.keys.foldl max 0 + 1

def allocIndexNumber : BlobM Nat := do
  let s ← get
  let n := if s.nextIndex = 0 then nextIndexNumber s.disk.index else s.nextIndex
  modify fun s => { s with nextIndex := n + 1 }
  return n

def writeIndexFile (entries : List IndexEntry) : BlobM Nat := do
  let salt ← drawSalt
  let file ← liftAs (fun e => .index (.crypto e)) (sealIndexContainer (← get).fmk salt entries)
  let n ← allocIndexNumber
  modify fun s => { s with disk := { s.disk with index := s.disk.index.insert n file } }
  return n

def PackDisk.dropIndex (d : PackDisk) (numbers : List Nat) : PackDisk :=
  { d with index := numbers.foldl (fun files n => files.erase n) d.index }

/-- `do_compact_index_locked`: one table takes the place of all the old ones. -/
def compactIndex : BlobM Unit := do
  let s ← get
  let n ← writeIndexFile (LocationTable.iterSorted s.locations)
  modify fun t => { t with disk := t.disk.dropIndex (s.disk.index.keys.filter (· ≠ n)) }

def appendIndexFile (entries : List IndexEntry) : BlobM Unit := do
  let _ ← writeIndexFile entries
  if indexCompactionThreshold ≤ (← get).disk.index.keys.length then compactIndex

def writeIndexSnapshot : BlobM Unit := do
  appendIndexFile (LocationTable.iterSorted (← get).locations)

/-! ## Writing -/

/-- The pack goes to disk, and its blobs into the tables. -/
def sealToDisk (sp : StagingPack) : BlobM Unit := do
  let file ← liftAs (fun e => .pack (.footerCrypto e))
    (sealPackBytes sp.kind (← get).fmk sp.salt sp.body sp.entries)
  let name := packNameOf file
  modify fun s => { s with disk := { s.disk with packs := s.disk.packs.insert name file } }
  notePackWritten name
  let entries := sp.entries.map (FooterEntry.located name)
  modify fun s => { s with locations := s.locations.merge entries }
  appendIndexFile entries

/-- `candidates.iter().any(|e| self.pack_exists(&e.pack))`. -/
def anyExists : List IndexEntry → BlobM Bool
  | [] => return false
  | e :: rest => do
    if ← packExists e.pack then return true
    else anyExists rest

def offerBlob (kind : BlobKind) (id : BlobId) (bytes : Bytes) : BlobM (List StagingPack) := do
  let s ← get
  let (staging, full, draw) := s.staging.offer s.draw kind id bytes s.sealTarget
  modify fun s => { s with staging := staging, draw := draw }
  return full

def putBlob (kind : BlobKind) (bytes : Bytes) : BlobM BlobId := do
  if bytes = [] then throw .emptyBlob
  else do
    let id := Env.blake3 bytes
    if ← anyExists ((← get).locations.candidates kind id) then return id
    else if (← get).staging.contains kind id then return id
    else do
      let full ← offerBlob kind id bytes
      full.forM sealToDisk
      return id

def flush : BlobM Unit := do
  let s ← get
  modify fun s => { s with staging := .new }
  s.staging.drainAll.forM sealToDisk

/-- `adopt_pack`: a pack that came from a peer, under the name it claims. -/
def adoptPack (claimed : PackId) (bytes : Bytes) : BlobM Unit := do
  let found := packNameOf bytes
  if found ≠ claimed then throw (.pack (.nameMismatch (hex claimed.val) (hex found.val)))
  else do
    let ctx ← liftAs .pack (openPack bytes claimed (← get).fmk)
    modify fun s => if (s.disk.packs.lookup claimed).isSome then s
      else { s with disk := { s.disk with packs := s.disk.packs.insert found bytes } }
    notePackWritten claimed
    modify fun s => { s with cache := s.cache.insert ⟨claimed, bytes, ctx⟩ }
    let entries := ctx.entries.map (FooterEntry.located claimed)
    modify fun s => { s with locations := s.locations.merge entries }
    appendIndexFile entries

/-! ## Reading -/

/-- The cached pack, or the file opened and verified; the cache is up to date afterwards. -/
def openVerified (pack : PackId) : BlobM (Except PackError VerifiedPack) := do
  let s ← get
  match s.cache.find pack with
  | some vp => do
    modify fun s => { s with cache := s.cache.promote vp }
    return .ok vp
  | none =>
    match s.disk.packs.lookup pack with
    | none => return .error .io
    | some bytes =>
      match openPack bytes pack s.fmk with
      | .error e => return .error e
      | .ok ctx => do
        modify fun s => { s with cache := s.cache.insert ⟨pack, bytes, ctx⟩ }
        return .ok ⟨pack, bytes, ctx⟩

/-- No other pack is tried: index and footer contradict each other, or the blob's slice lies outside of
the pack, which is a panic. -/
def PackError.endsRead : PackError → Bool
  | .disagreement _ _ | .outOfRange => true
  | _ => false

/-- The loop of `get` over the packs that are there, with the last error seen. -/
def readFirst (kind : BlobKind) (id : BlobId) : List IndexEntry → BlobError → BlobM Bytes
  | [], last => throw last
  | e :: rest, _ => do
    let verified ← openVerified e.pack
    match verified.bind fun vp =>
      readBlobFromCtx vp.bytes vp.ctx kind id (e.plainOff, e.plainLen) with
    | .ok plain => return plain
    | .error err =>
      if err.endsRead then throw (.pack err)
      else readFirst kind id rest (.pack err)

/-- `ordered.sort_by_key(|e| !self.pack_exists(&e.pack))`, without the locations at the end whose
pack is missing: the loop of `get` passes over them. -/
def existingFirst : List IndexEntry → BlobM (List IndexEntry)
  | [] => return []
  | e :: rest => do
    let there ← packExists e.pack
    let ordered ← existingFirst rest
    return if there then e :: ordered else ordered

/-- `get`: a staged blob, or one from a pack that is there. -/
def getBlob (kind : BlobKind) (id : BlobId) : BlobM Bytes := do
  let s ← get
  match s.staging.stagedBytes kind id with
  | some staged =>
    if Env.blake3 staged ≠ id then
      throw (.pack (.hashMismatch (hex id.val) (hex (Env.blake3 staged).val)))
    else return staged
  | none => do
    let ordered ← existingFirst (s.locations.candidates kind id)
    readFirst kind id ordered (.notFound kind (hex id.val))

/-! ## Opening -/

/-- The order of `files.sort()` on `<n>.ferryindex`. -/
def sortIndexFiles (files : AList (fun _ : Nat => Bytes)) : List (Σ _ : Nat, Bytes) :=
  files.entries.insertionSort (fun a b => toString a.1 ++ ".ferryindex" ≤ toString b.1 ++ ".ferryindex")

def loadLocations (fmk : ByteArr 32) (files : List (Σ _ : Nat, Bytes)) :
    Except IndexError LocationTable :=
  files.foldlM (fun t f => do return LocationTable.merge t (← openIndexContainer f.2 fmk)) []

def sealTargetBytes : Nat := 16 * 1024 * 1024

def PackStore.fresh (disk : PackDisk) (fmk : ByteArr 32) (draw : Nat) (locations : LocationTable) :
    PackStore :=
  ⟨disk, fmk, .new, locations, 0, [], [], sealTargetBytes, draw⟩

/-- `Store::open` on the files that are there; `Store::create` is the case of no files. -/
def openStore (disk : PackDisk) (fmk : ByteArr 32) (draw : Nat) : Except IndexError PackStore :=
  (loadLocations fmk (sortIndexFiles disk.index)).map (PackStore.fresh disk fmk draw)

/-- `rebuild_entries`: what the footers of the packs on disk say. -/
def rebuildEntries (disk : PackDisk) (fmk : ByteArr 32) : List IndexEntry :=
  (disk.packs.entries.insertionSort (fun a b => a.1.key ≤ b.1.key)).flatMap fun f =>
    match readFooter f.2 f.1 fmk with
    | .error _ => []
    | .ok (_, entries) => entries.map (FooterEntry.located f.1)

def rebuildIndex : BlobM Unit := do
  modify fun s => { s with locations := s.locations.merge (rebuildEntries s.disk s.fmk) }
  writeIndexSnapshot

end

end Ferry
