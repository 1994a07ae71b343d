import Ferry.Packs.Faults

/-! # Stores that are used at the same time

Several handles may be open on one folder, each with its own memory, and several
threads may use each of them. A call is a task that goes from one section to the
next: a section that holds a lock is one step, and so is every access to the
disk. Between two steps of a task others may take theirs.
-/

namespace Ferry

open Lib List

/-- What a finished call returns, with what it was asked. -/
inductive Reply where
  | put (kind : BlobKind) (bytes : Bytes) (result : Except BlobError BlobId)
  | flushed (result : Except BlobError Unit)
  | got (kind : BlobKind) (id : BlobId) (result : Except BlobError Bytes)
  | adopted (claimed : PackId) (result : Except BlobError Unit)
  | compacted (result : Except BlobError Unit)

/-- `?` on a step that fails. -/
def Reply.fail (e : BlobError) : Reply → Reply
  | .put kind bytes _ => .put kind bytes (.error e)
  | .flushed _ => .flushed (.error e)
  | .got kind id _ => .got kind id (.error e)
  | .adopted claimed _ => .adopted claimed (.error e)
  | .compacted _ => .compacted (.error e)

/-- Where a task is in `append_index_file`, or in the compaction that may follow; `olds` are the numbers
of the index files that were listed. -/
inductive IndexPoint where
  | sealTable (entries : List IndexEntry)
  | lock (file : Bytes)
  | alloc (file : Bytes)
  | rename (n : Nat) (file : Bytes)
  | count
  | lockList
  | list
  | table (olds : List Nat)
  | realloc (olds : List Nat) (file : Bytes)
  | rerename (olds : List Nat) (n : Nat) (file : Bytes)
  | remove (n : Nat) (olds : List Nat)
  | unlock

/-- Where a call is. `packs` are to be sealed, and `reply` is what the call returns if nothing fails. -/
inductive StoreTask where
  | putCheck (kind : BlobKind) (bytes : Bytes)
  | putOffer (kind : BlobKind) (bytes : Bytes)
  | flushDrain
  | sealing (packs : List StagingPack) (reply : Reply)
  | noting (name : PackId) (entries : List IndexEntry) (packs : List StagingPack) (reply : Reply)
  | merging (entries : List IndexEntry) (packs : List StagingPack) (reply : Reply)
  | indexing (point : IndexPoint) (packs : List StagingPack) (reply : Reply)
  | getStaged (kind : BlobKind) (id : BlobId)
  | getLocations (kind : BlobKind) (id : BlobId)
  | getSort (kind : BlobKind) (id : BlobId) (todo there missing : List IndexEntry)
  | getNext (kind : BlobKind) (id : BlobId) (todo : List IndexEntry) (last : Option BlobError)
  | getCache (kind : BlobKind) (id : BlobId) (e : IndexEntry) (todo : List IndexEntry) (last : Option BlobError)
  | getOpen (kind : BlobKind) (id : BlobId) (e : IndexEntry) (todo : List IndexEntry) (last : Option BlobError)
  | getKeep (kind : BlobKind) (id : BlobId) (e : IndexEntry) (todo : List IndexEntry) (last : Option BlobError)
      (vp : VerifiedPack)
  | adoptCheck (claimed : PackId) (bytes : Bytes)
  | adoptWrite (claimed : PackId) (bytes : Bytes) (ctx : PackContext)
  | adoptNote (claimed : PackId) (bytes : Bytes) (ctx : PackContext)
  | adoptKeep (claimed : PackId) (bytes : Bytes) (ctx : PackContext)
  | finished (reply : Reply)

inductive SharedCall where
  | putBlob (kind : BlobKind) (bytes : Bytes)
  | flush
  | get (kind : BlobKind) (id : BlobId)
  | adoptPack (claimed : PackId) (bytes : Bytes)
  | compactIndex

def SharedCall.task : SharedCall → StoreTask
  | .putBlob kind bytes => .putCheck kind bytes
  | .flush => .flushDrain
  | .get kind id => .getStaged kind id
  | .adoptPack claimed bytes => .adoptCheck claimed bytes
  | .compactIndex => .indexing .lockList [] (.compacted (.ok ()))

/-- The memory of an open store, and whether `index_seq` is taken. -/
structure StoreHandle where
  store : PackStore
  indexSeq : Bool

section
variable [PackEnv]

namespace StoreTask

/-- The end of a round of `get` with the pack open: the blob, or the next location. -/
def readFrom (kind : BlobKind) (id : BlobId) (e : IndexEntry) (todo : List IndexEntry) (vp : VerifiedPack) :
    StoreTask :=
  match readBlobFromCtx vp.bytes vp.ctx kind id (e.plainOff, e.plainLen) with
  | .ok plain => .finished (.got kind id (.ok plain))
  | .error err =>
    if err.endsRead then .finished (.got kind id (.error (.pack err)))
    else .getNext kind id todo (some (.pack err))

end StoreTask

namespace IndexPoint

/-- One step in the index, on a handle whose `disk` is the folder's. `none` if the lock is taken. -/
def step (packs : List StagingPack) (reply : Reply) : IndexPoint → StoreHandle → Option (StoreTask × StoreHandle)
  | .sealTable entries, h =>
    let s := { h.store with draw := h.store.draw + 1 }
    match sealIndexContainer s.fmk (PackEnv.salt h.store.draw) entries with
    | .error e => some (.finished (reply.fail (.index (.crypto e))), { h with store := s })
    | .ok file => some (.indexing (.lock file) packs reply, { h with store := s })
  | .lock file, h =>
    if h.indexSeq then none else some (.indexing (.alloc file) packs reply, { h with indexSeq := true })
  | .alloc file, h =>
    some (.indexing (.rename h.store.nextNumber file) packs reply,
      { h with store := { h.store with nextIndex := h.store.nextNumber + 1 } })
  | .rename n file, h =>
    some (.indexing .count packs reply, { h with store := { h.store with disk := h.store.disk.withIndex n file } })
  | .count, h =>
    some (if indexCompactionThreshold ≤ h.store.disk.index.keys.length then .indexing .list packs reply
      else .indexing .unlock packs reply, h)
  | .lockList, h =>
    if h.indexSeq then none else some (.indexing .list packs reply, { h with indexSeq := true })
  | .list, h => some (.indexing (.table h.store.disk.index.keys) packs reply, h)
  | .table olds, h =>
    let s := { h.store with draw := h.store.draw + 1 }
    match sealIndexContainer s.fmk (PackEnv.salt h.store.draw) (LocationTable.iterSorted s.locations) with
    | .error e => some (.finished (reply.fail (.index (.crypto e))), { store := s, indexSeq := false })
    | .ok file => some (.indexing (.realloc olds file) packs reply, { h with store := s })
  | .realloc olds file, h =>
    some (.indexing (.rerename olds h.store.nextNumber file) packs reply,
      { h with store := { h.store with nextIndex := h.store.nextNumber + 1 } })
  | .rerename olds n file, h =>
    some (.indexing (.remove n (olds.filter (· ≠ n))) packs reply,
      { h with store := { h.store with disk := h.store.disk.withIndex n file } })
  | .remove _ [], h => some (.indexing .unlock packs reply, h)
  | .remove n (old :: olds), h =>
    some (.indexing (.remove n olds) packs reply,
      { h with store := { h.store with disk := h.store.disk.dropIndex [old] } })
  | .unlock, h => some (.sealing packs reply, { h with indexSeq := false })

end IndexPoint

namespace StoreTask

/-- One step of a call, on a handle whose `disk` is the folder's; `none` if the call is over or waits for
a lock. -/
def step : StoreTask → StoreHandle → Option (StoreTask × StoreHandle)
  | .putCheck kind bytes, h =>
    if bytes = [] then some (.finished (.put kind bytes (.error .emptyBlob)), h)
    else
      let id := Env.blake3 bytes
      let s := leaves (anyExists (h.store.locations.candidates kind id)) h.store
      if h.store.alreadyPresent kind id then
        some (.finished (.put kind bytes (.ok id)), { h with store := s })
      else some (.putOffer kind bytes, { h with store := s })
  | .putOffer kind bytes, h =>
    let id := Env.blake3 bytes
    let (staging, full, draw) := h.store.staging.offer h.store.draw kind id bytes h.store.sealTarget
    some (.sealing full (.put kind bytes (.ok id)),
      { h with store := { h.store with staging := staging, draw := draw } })
  | .flushDrain, h =>
    some (.sealing h.store.staging.drainAll (.flushed (.ok ())),
      { h with store := { h.store with staging := .new } })
  | .sealing [] reply, h => some (.finished reply, h)
  | .sealing (sp :: packs) reply, h =>
    match sealPackBytes sp.kind h.store.fmk sp.salt sp.body sp.entries with
    | .error e => some (.finished (reply.fail (.pack (.footerCrypto e))), h)
    | .ok file =>
      let name := packNameOf file
      some (.noting name (sp.entries.map (FooterEntry.located name)) packs reply,
        { h with store := { h.store with disk := h.store.disk.withPack file } })
  | .noting name entries packs reply, h =>
    some (.merging entries packs reply,
      { h with store := { h.store with dangling := h.store.dangling.filter (· ≠ name) } })
  | .merging entries packs reply, h =>
    some (.indexing (.sealTable entries) packs reply,
      { h with store := { h.store with locations := h.store.locations.merge entries } })
  | .indexing point packs reply, h => point.step packs reply h
  | .getStaged kind id, h =>
    match h.store.staging.stagedBytes kind id with
    | some staged =>
      if Env.blake3 staged ≠ id then
        some (.finished (.got kind id (.error (.pack
          (.hashMismatch (hex id.val) (hex (Env.blake3 staged).val))))), h)
      else some (.finished (.got kind id (.ok staged)), h)
    | none => some (.getLocations kind id, h)
  | .getLocations kind id, h =>
    match h.store.locations.candidates kind id with
    | [] => some (.finished (.got kind id (.error (.notFound kind (hex id.val)))), h)
    | candidates => some (.getSort kind id candidates [] [], h)
  | .getSort kind id [] there missing, h => some (.getNext kind id (there ++ missing) none, h)
  | .getSort kind id (e :: todo) there missing, h =>
    some (if h.store.present e.pack then .getSort kind id todo (there ++ [e]) missing
      else .getSort kind id todo there (missing ++ [e]),
      { h with store := leaves (packExists e.pack) h.store })
  | .getNext kind id [] last, h =>
    some (.finished (.got kind id (.error (last.getD (.notFound kind (hex id.val))))), h)
  | .getNext kind id (e :: todo) last, h =>
    some (if h.store.present e.pack then .getCache kind id e todo last else .getNext kind id todo last,
      { h with store := leaves (packExists e.pack) h.store })
  | .getCache kind id e todo last, h =>
    match h.store.cache.find e.pack with
    | some vp =>
      some (readFrom kind id e todo vp, { h with store := { h.store with cache := h.store.cache.promote vp } })
    | none => some (.getOpen kind id e todo last, h)
  | .getOpen kind id e todo last, h =>
    match h.store.disk.packs.lookup e.pack with
    | none => some (.getNext kind id todo (some (.pack .io)), h)
    | some bytes =>
      match openPack bytes e.pack h.store.fmk with
      | .error err =>
        some (if err.endsRead then .finished (.got kind id (.error (.pack err)))
          else .getNext kind id todo (some (.pack err)), h)
      | .ok ctx => some (.getKeep kind id e todo last ⟨e.pack, bytes, ctx⟩, h)
  | .getKeep kind id e todo _ vp, h =>
    some (readFrom kind id e todo vp, { h with store := { h.store with cache := h.store.cache.insert vp } })
  | .adoptCheck claimed bytes, h =>
    let found := packNameOf bytes
    if found ≠ claimed then
      some (.finished (.adopted claimed (.error (.pack (.nameMismatch (hex claimed.val) (hex found.val))))), h)
    else
      match openPack bytes claimed h.store.fmk with
      | .error e => some (.finished (.adopted claimed (.error (.pack e))), h)
      | .ok ctx =>
        some (if (h.store.disk.packs.lookup claimed).isSome then .adoptNote claimed bytes ctx
          else .adoptWrite claimed bytes ctx, h)
  | .adoptWrite claimed bytes ctx, h =>
    some (.adoptNote claimed bytes ctx, { h with store := { h.store with disk := h.store.disk.withPack bytes } })
  | .adoptNote claimed bytes ctx, h =>
    some (.adoptKeep claimed bytes ctx,
      { h with store := { h.store with dangling := h.store.dangling.filter (· ≠ claimed) } })
  | .adoptKeep claimed bytes ctx, h =>
    some (.merging (ctx.entries.map (FooterEntry.located claimed)) [] (.adopted claimed (.ok ())),
      { h with store := { h.store with cache := h.store.cache.insert ⟨claimed, bytes, ctx⟩ } })
  | .finished _, _ => none

end StoreTask

/-! ## A `get` waits for nobody -/

def StoreTask.IsGet (kind : BlobKind) (id : BlobId) : StoreTask → Prop
  | .getStaged kind' id' | .getLocations kind' id' | .getSort kind' id' _ _ _ | .getNext kind' id' _ _
  | .getCache kind' id' _ _ _ | .getOpen kind' id' _ _ _ | .getKeep kind' id' _ _ _ _
  | .finished (.got kind' id' _) => kind' = kind ∧ id' = id
  | _ => False

/-- A bound on the steps that a `get` has left, on a handle whose table stays as it is. -/
def StoreTask.left (h : StoreHandle) : StoreTask → Nat
  | .getStaged kind id => 5 * (h.store.locations.candidates kind id).length + 4
  | .getLocations kind id => 5 * (h.store.locations.candidates kind id).length + 3
  | .getSort _ _ todo there missing => 5 * todo.length + 4 * (there.length + missing.length) + 2
  | .getNext _ _ todo _ => 4 * todo.length + 1
  | .getCache _ _ _ todo _ => 4 * todo.length + 4
  | .getOpen _ _ _ todo _ => 4 * todo.length + 3
  | .getKeep _ _ _ todo _ _ => 4 * todo.length + 2
  | _ => 0

section
variable {kind : BlobKind} {id : BlobId} {t : StoreTask}

theorem StoreTask.isGet_readFrom (e : IndexEntry) (todo : List IndexEntry) (vp : VerifiedPack) (h : StoreHandle) :
    (readFrom kind id e todo vp).IsGet kind id ∧ (readFrom kind id e todo vp).left h ≤ 4 * todo.length + 1 := by
  unfold readFrom
  split
  · exact ⟨⟨rfl, rfl⟩, Nat.zero_le _⟩
  · split
    · exact ⟨⟨rfl, rfl⟩, Nat.zero_le _⟩
    · exact ⟨⟨rfl, rfl⟩, le_rfl⟩

/-- A get that is not finished can go on, and has fewer steps left then. -/
theorem StoreTask.get_step (ht : t.IsGet kind id) (h : StoreHandle) : (∃ r, t = .finished (.got kind id r)) ∨
      ∃ t' h', t.step h = some (t', h') ∧ t'.IsGet kind id ∧ t'.left h' < t.left h := by
  cases t with
  | getStaged kind' id' =>
    obtain ⟨rfl, rfl⟩ := ht
    refine .inr ?_
    rw [step]
    cases h.store.staging.stagedBytes kind' id' with
    | none => exact ⟨_, _, rfl, ⟨rfl, rfl⟩, Nat.lt_succ_self _⟩
    | some =>
      dsimp only
      split
      · exact ⟨_, _, rfl, ⟨rfl, rfl⟩, Nat.zero_lt_succ _⟩
      · exact ⟨_, _, rfl, ⟨rfl, rfl⟩, Nat.zero_lt_succ _⟩
  | getLocations kind' id' =>
    obtain ⟨rfl, rfl⟩ := ht
    refine .inr ?_
    rw [step, left]
    cases h.store.locations.candidates kind' id' with
    | nil => exact ⟨_, _, rfl, ⟨rfl, rfl⟩, Nat.zero_lt_succ _⟩
    | cons =>
      refine ⟨_, _, rfl, ⟨rfl, rfl⟩, ?_⟩
      rw [left, length_nil]
      omega
  | getSort kind' id' todo =>
    obtain ⟨rfl, rfl⟩ := ht
    refine .inr ?_
    cases todo with
    | nil =>
      refine ⟨_, _, rfl, ⟨rfl, rfl⟩, ?_⟩
      rw [left, left, length_append, length_nil]
      omega
    | cons =>
      refine ⟨_, _, rfl, ?_, ?_⟩
      · split <;> exact ⟨rfl, rfl⟩
      · split <;> simp only [left, length_append, length_cons, length_nil] <;> omega
  | getNext kind' id' todo =>
    obtain ⟨rfl, rfl⟩ := ht
    refine .inr ?_
    cases todo with
    | nil => exact ⟨_, _, rfl, ⟨rfl, rfl⟩, Nat.zero_lt_succ _⟩
    | cons =>
      refine ⟨_, _, rfl, ?_, ?_⟩
      · split <;> exact ⟨rfl, rfl⟩
      · split <;> simp only [left, length_cons] <;> omega
  | getCache kind' id' e todo =>
    obtain ⟨rfl, rfl⟩ := ht
    refine .inr ?_
    rw [step]
    cases h.store.cache.find e.pack with
    | none => exact ⟨_, _, rfl, ⟨rfl, rfl⟩, Nat.lt_succ_self _⟩
    | some vp =>
      obtain ⟨hget, hleft⟩ := isGet_readFrom e todo vp
        { h with store := { h.store with cache := h.store.cache.promote vp } }
      refine ⟨_, _, rfl, hget, hleft.trans_lt ?_⟩
      rw [left]
      omega
  | getOpen kind' id' e =>
    obtain ⟨rfl, rfl⟩ := ht
    refine .inr ?_
    rw [step]
    cases h.store.disk.packs.lookup e.pack with
    | none =>
      refine ⟨_, _, rfl, ⟨rfl, rfl⟩, ?_⟩
      rw [left, left]
      omega
    | some bytes =>
      dsimp only
      cases openPack bytes e.pack h.store.fmk with
      | ok => exact ⟨_, _, rfl, ⟨rfl, rfl⟩, Nat.lt_succ_self _⟩
      | error =>
        refine ⟨_, _, rfl, ?_, ?_⟩
        · split <;> exact ⟨rfl, rfl⟩
        · split <;> simp only [left] <;> omega
  | getKeep kind' id' e todo last vp =>
    obtain ⟨rfl, rfl⟩ := ht
    obtain ⟨hget, hleft⟩ := isGet_readFrom e todo vp
      { h with store := { h.store with cache := h.store.cache.insert vp } }
    refine .inr ⟨_, _, rfl, hget, hleft.trans_lt ?_⟩
    rw [left]
    omega
  | finished reply =>
    cases reply with
    | got kind' id' r =>
      obtain ⟨rfl, rfl⟩ := ht
      exact .inl ⟨r, rfl⟩
    | put | flushed | adopted | compacted => cases ht
  | putCheck | putOffer | flushDrain | sealing | adoptKeep =>
    cases ht
  | noting | merging | indexing | adoptCheck | adoptWrite | adoptNote => cases ht

end

/-! ## The folder -/

/-- The files of a folder, the handles that are open on it, and the calls that were started, each with
the number of its handle. -/
structure SharedFolder where
  fmk : ByteArr 32
  disk : PackDisk
  handles : List StoreHandle
  tasks : List (Nat × StoreTask)

/-- Somebody opens the folder, starts a call, or goes on with one. -/
inductive FolderMove where
  | open (draw : Nat)
  | start (handle : Nat) (call : SharedCall)
  | step (task : Nat)

namespace SharedFolder

def view (w : SharedFolder) (h : StoreHandle) : StoreHandle := { h with store := { h.store with disk := w.disk } }

/-- A move; a call that waits for a lock stays where it is. -/
def move (w : SharedFolder) : FolderMove → SharedFolder
  | .open draw =>
    match openStore w.disk w.fmk draw with
    | .ok s => { w with handles := w.handles ++ [⟨s, false⟩] }
    | .error _ => w
  | .start handle call =>
    if handle < w.handles.length then { w with tasks := w.tasks ++ [(handle, call.task)] } else w
  | .step i =>
    match w.tasks[i]? with
    | none => w
    | some (n, task) =>
      match w.handles[n]? with
      | none => w
      | some h =>
        match task.step (w.view h) with
        | none => w
        | some (task', h') =>
          { w with
            disk := h'.store.disk
            handles := w.handles.set n h'
            tasks := w.tasks.set i (n, task') }

def after (w : SharedFolder) (moves : List FolderMove) : SharedFolder := moves.foldl move w

/-- Every move of a run meets the condition, in the state it starts from. -/
def Along (P : SharedFolder → FolderMove → Prop) : List FolderMove → SharedFolder → Prop
  | [], _ => True
  | m :: moves, w => P w m ∧ Along P moves (w.move m)

section
variable {P Q : SharedFolder → FolderMove → Prop} {I : SharedFolder → Prop} {w : SharedFolder}
  {moves moves' : List FolderMove}

theorem after_append : w.after (moves ++ moves') = (w.after moves).after moves' := foldl_append

theorem Along.append (h : Along P (moves ++ moves') w) : Along P moves w ∧ Along P moves' (w.after moves) := by
  induction moves generalizing w with
  | nil => exact ⟨trivial, h⟩
  | cons m moves ih => exact ⟨⟨h.1, (ih h.2).1⟩, (ih h.2).2⟩

theorem Along.and (h : Along P moves w) (h' : Along Q moves w) : Along (fun w m => P w m ∧ Q w m) moves w := by
  induction moves generalizing w with
  | nil => trivial
  | cons m moves ih => exact ⟨⟨h.1, h'.1⟩, ih h.2 h'.2⟩

theorem Along.invariant (h : Along P moves w) (hstep : ∀ w m, I w → P w m → I (w.move m)) (hw : I w) :
    I (w.after moves) := by
  induction moves generalizing w with
  | nil => exact hw
  | cons m moves ih => exact ih h.2 (hstep w m hw h.1)

end

end SharedFolder

end

end Ferry
