import Ferry.Session.Exchange

/-! # Pulling and serving

The side that pulls asks for blobs by id until it has what it needs, and ends its
stage with an empty request. The side that serves answers until that request comes.
-/

namespace Ferry

open Lib Session

/-! ## Rounds of requests -/

section
variable {φ ε σ : Type} (ask : List BlobId → σ → Dialogue φ ε Unit) (read : σ → Dialogue φ ε (List BlobId × σ))

/-- One round of requests, a group of ids at a time; `read` takes in what comes and says which ids it was. -/
def fetchGroups : List (List BlobId) → List BlobId → σ → Dialogue φ ε (List BlobId × σ)
  | [], got, s => pure (got, s)
  | group :: groups, got, s => do
    ask group s
    let (more, s) ← read s
    fetchGroups groups (got ++ more) s

/-- The rounds that are left for what is still outstanding. -/
def fetchRounds (missing : Nat → σ → ε) : Nat → List BlobId → σ → Dialogue φ ε σ
  | 0, outstanding, s =>
    if outstanding = [] then pure s
    else Dialogue.fail (missing outstanding.length s)
  | rounds + 1, outstanding, s =>
    if outstanding = [] then pure s
    else do
      let (got, s) ← fetchGroups ask read (chunksOf maxRequestItems outstanding) [] s
      fetchRounds missing rounds (outstanding.filter (· ∉ got)) s

end

section
variable [SessionEnv]

/-! ## Serving -/

/-- The batches that `serve_items` sends for what is left of a request: a batch
goes out when it is full, and blobs that cannot be read are passed over. -/
def itemBatches (st : Store) : List (BlobKind × BlobId) → ItemBatch → Nat → List ItemBatch
  | [], acc, _ => if acc = [] then [] else [acc]
  | (kind, id) :: rest, acc, size =>
    let acc' := match st.get kind id with
      | .ok bytes => acc ++ [(kind, id, bytes)]
      | .error _ => acc
    let size' := match st.get kind id with
      | .ok bytes => size + bytes.length
      | .error _ => size
    if maxBatchItems ≤ acc'.length ∨ batchFlushBytes ≤ size' then
      acc' :: itemBatches st rest [] 0
    else itemBatches st rest acc' size'

/-- An empty blob cannot be encoded. -/
def sendBatch (batch : ItemBatch) : Session Unit :=
  if batch.any (·.2.2 = []) then Dialogue.fail (violation "empty blob cannot exist")
  else Dialogue.send (.itemBatch batch)

def terminator : Frame := .itemBatch []

def serveItems (ex : Exchange) (r : RequestItems) : Session Unit :=
  if r.folderId ≠ ex.folderId then Dialogue.fail (violation "request for unknown folder")
  else do
    (itemBatches ex.store r.items [] 0).forM sendBatch
    Dialogue.send terminator

/-- The packs of a request that are there and have the content their name says. -/
def packItems (ex : Exchange) (packs : List PackId) : List Frame :=
  packs.filterMap fun name => (ex.packs name).bind fun bytes =>
    if Env.blake3 bytes = name then some (.packItem ⟨name, bytes⟩) else none

def servePacks (ex : Exchange) (r : RequestPacks) : Session Unit :=
  if r.folderId ≠ ex.folderId then Dialogue.fail (violation "request for unknown folder")
  else do
    Dialogue.sendAll (packItems ex r.packs)
    Dialogue.send terminator

/-- One round of the serving loop; the empty request ends it. -/
def serveStep (ex : Exchange) (_ : Unit) : Frame → Session (Unit ⊕ Unit)
  | .requestItems r =>
    if r.items = [] then pure (.inr ())
    else do
      serveItems ex r
      return .inl ()
  | .requestPacks r => do
    servePacks ex r
    return .inl ()
  | _ => impossible

def servePeerStage (ex : Exchange) : Session Unit :=
  loopOn [.requestItems, .requestPacks] "unexpected message while serving" (serveStep ex) ()

/-! ## Fetching blobs -/

/-- One item of a batch: a blob of another kind ends the session, one that does
not hash to its id is passed over. -/
def takeItem (expectedKind : BlobKind) (s : List BlobId × Store) (item : BlobKind × BlobId × Bytes) :
    Except SessionError (List BlobId × Store) :=
  if item.1 ≠ expectedKind then .error (violation "wrong blob kind in batch")
  else if Env.blake3 item.2.2 ≠ item.2.1 then .ok s
  else
    match s.2.putBlob item.1 item.2.2 with
    | .error e => .error (.wire (.store e))
    | .ok (_, st) => .ok (s.1 ++ [item.2.1], st)

def batchStep (maxFrame : Nat) (expectedKind : BlobKind) (s : List BlobId × Store) :
    Frame → Session ((List BlobId × Store) ⊕ (List BlobId × Store))
  | .itemBatch items =>
    -- the link looks at the length before anything else is read
    if maxFrame < ItemBatch.payloadLen items + 23 then
      Dialogue.fail (.wire (.frameTooLarge (ItemBatch.payloadLen items + 23) maxFrame))
    else if items = [] then pure (.inr s)
    else do
      let s ← Dialogue.ofExcept (items.foldlM (takeItem expectedKind) s)
      return .inl s
  | _ => impossible

/-- `read_item_batches`: the ids that came in and the store with their blobs. -/
def readItemBatches (maxFrame : Nat) (expectedKind : BlobKind) (st : Store) : Session (List BlobId × Store) :=
  loopOn [.itemBatch] "unexpected message in this state" (batchStep maxFrame expectedKind) ([], st)

def askItems (ex : Exchange) (kind : BlobKind) (group : List BlobId) (_ : Store) : Session Unit :=
  Dialogue.send (.requestItems ⟨ex.folderId, group.map fun id => (kind, id)⟩)

def fetchBlobs (ex : Exchange) (kind : BlobKind) (want : List BlobId) (st : Store) : Session Store :=
  fetchRounds (askItems ex kind) (readItemBatches ex.maxFrame kind) (fun n _ => .wire (.missingItems n))
    (ex.maxRetries + 1) want st

/-! ## Pulling trees -/

/-- The child trees of a fetched tree that have not been asked for yet. -/
def childTrees (st : Store) (s : List BlobId × List BlobId) (id : BlobId) :
    Except SessionError (List BlobId × List BlobId) :=
  match st.get .treeNode id with
  | .error e => .error (.wire (.store e))
  | .ok bytes =>
    match parseTreeNode bytes with
    | .error _ => .error (violation "peer tree node failed to parse")
    | .ok node => .ok (node.entries.foldl (fun (queue, enqueued) e =>
      match e.payload with
      | .dir child =>
        if child ∈ enqueued then (queue, enqueued) else (queue ++ [child], child :: enqueued)
      | _ => (queue, enqueued)) s)

/-- The walk over the peer's trees, level by level. -/
def fetchTrees (ex : Exchange) : Nat → List BlobId → List BlobId → Store → Session Store
  | _, [], _, st => pure st
  | 0, queue, _, _ => Dialogue.fail (.wire (.missingItems queue.length))
  | rounds + 1, queue, enqueued, st => do
    let st ← fetchBlobs ex .treeNode queue st
    let (queue', enqueued') ← Dialogue.ofExcept (queue.foldlM (childTrees st) ([], enqueued))
    fetchTrees ex rounds queue' enqueued' st

end

end Ferry
