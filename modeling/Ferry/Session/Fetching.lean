import Ferry.Packs.Sound
import Ferry.Session.Answers

/-! # Fetching from an arbitrary peer

`fetch_blobs` on the pack store itself, with frames as bytes. What comes in is
up to the peer: which batches, in which order, of which kinds, with which bytes
and ids. An item counts only if its bytes hash to its id, and each round asks
again for the ids that have not come.
-/

namespace Ferry

open Lib List

def msgRequestItems : UInt8 := 0x07

inductive FetchError where
  | wire (e : ProtoError)
  /-- `wire_store_err`. -/
  | store (e : BlobError)

/-- A dialogue that works on a store; an error comes with the store as it was left. -/
abbrev Fetch := Dialogue FrameBody (FetchError × PackStore)

namespace PackStore

section
variable [PackEnv]

/-! ## The program -/

def receiveItem (expectedKind : BlobKind) (got : List BlobId) (item : BlobKind × BlobId × Bytes) :
    EStateM FetchError PackStore (List BlobId) :=
  if item.1 ≠ expectedKind then throw (.wire (bad "wrong blob kind in batch"))
  else if Env.blake3 item.2.2 ≠ item.2.1 then return got
  else do
    let _ ← (putBlob item.1 item.2.2).adaptExcept .store
    return got ++ [item.2.1]

/-- One round of `read_item_batches`, on the frame that `expect_frame` has read. -/
def receiveBatch (expectedKind : BlobKind) (x : List BlobId × PackStore) (fb : FrameBody) :
    Fetch ((List BlobId × PackStore) ⊕ (List BlobId × PackStore)) :=
  if fb.msgType ≠ msgItemBatch then
    Dialogue.fail (.wire (bad "unexpected message in this state"), x.2)
  else
    match ItemBatch.parse fb.payload with
    | .error e => Dialogue.fail (.wire e, x.2)
    | .ok items =>
      if items = [] then pure (.inr x)
      else
        match items.foldlM (receiveItem expectedKind) x.1 x.2 with
        | .ok got s => pure (.inl (got, s))
        | .error e s => Dialogue.fail (e, s)

/-- The loop takes any frame, so it never fails by itself. -/
def readItemBatches (expectedKind : BlobKind) (s : PackStore) : Fetch (List BlobId × PackStore) :=
  Dialogue.loop (fun _ => true) (.wire (bad "unexpected message in this state"), s)
    (receiveBatch expectedKind) ([], s)

def askItems (version : ProtocolVersion) (folderId : ByteArr 16) (kind : BlobKind) (group : List BlobId)
    (s : PackStore) : Fetch Unit :=
  match RequestItems.encode ⟨folderId, group.map fun id => (kind, id)⟩ with
  | .error e => Dialogue.fail (.wire e, s)
  | .ok payload => Dialogue.send ⟨msgRequestItems, version, payload⟩

def fetchBlobs (version : ProtocolVersion) (folderId : ByteArr 16) (maxRetries : Nat) (kind : BlobKind)
    (want : List BlobId) (s : PackStore) : Fetch PackStore :=
  fetchRounds (askItems version folderId kind) (readItemBatches kind)
    (fun n s => (.wire (.missingItems n), s)) (maxRetries + 1) want s

end

def ending : Status FrameBody (FetchError × PackStore) PackStore → Option PackStore
  | .waits _ _ => none
  | .failed e => some e.2
  | .returned s _ => some s

end PackStore

/-- Taking an item in is what a session sees of it: the same ids have come, and whatever can be read
afterwards can be read in the packs. -/
theorem PackStore.Sound.receiveItem_view [SessionEnv] {s : PackStore} (h : s.Sound) (laws : CipherLaws)
    (expectedKind : BlobKind) (got : List BlobId) (item : BlobKind × BlobId × Bytes)
    (hrange : segmentCount item.2.2.length ≤ 2 ^ 31)
    (hinj : (s.files ∪ s.sealedBy item.1 item.2.2).InjOn packNameOf) :
    Triple (· = s) (PackStore.receiveItem expectedKind got item)
      (fun got' s' => s'.Sound ∧ ∃ st, takeItem expectedKind (got, s.view) item = .ok (got', st) ∧
        ∀ kind id, (st.get kind id).isOk → (s'.view.get kind id).isOk)
      (fun _ s' => s'.Sound) := by
  unfold PackStore.receiveItem takeItem
  split
  · exact Triple.throw fun _ heq => heq ▸ h
  split
  · refine Triple.pure fun _ heq => ?_
    rw [heq]
    exact ⟨h, s.view, rfl, fun _ _ hok => hok⟩
  by_cases hne : item.2.2 = []
  · rw [hne]
    refine Triple.bind (Q := fun _ _ => False) (Triple.adaptExcept (f := FetchError.store) ?_) fun _ =>
      Triple.pure fun _ hfalse => hfalse.elim
    unfold Ferry.putBlob
    rw [if_pos rfl]
    exact Triple.throw fun _ heq => heq ▸ h
  · refine Triple.bind (Triple.adaptExcept (f := FetchError.store) (h.putBlob_view laws hne hrange hinj)) fun id => ?_
    refine Triple.pure fun s' ⟨hs', st, hput, hold⟩ => ⟨hs', st, ?_, hold⟩
    simp only [hput]

/-! ## What is asked -/

def FrameBody.items (fb : FrameBody) : ItemBatch := (ItemBatch.parse fb.payload).toOption.getD []

/-- The items that are true of their bytes. -/
def genuineIds [Env] (items : ItemBatch) : List BlobId :=
  (items.filter fun item => Env.blake3 item.2.2 = item.2.1).map (·.2.1)

def receivedIds [Env] (frames : List FrameBody) : List BlobId := frames.flatMap fun fb => genuineIds fb.items

structure FrameBody.IsBatch (fb : FrameBody) (items : ItemBatch) : Prop where
  type : fb.msgType = msgItemBatch
  parses : ItemBatch.parse fb.payload = .ok items

theorem FrameBody.IsBatch.items_eq {fb : FrameBody} {items : ItemBatch} (h : fb.IsBatch items) :
    fb.items = items := by
  rw [FrameBody.items, h.parses]
  rfl

/-- A complete answer to a request: batches of the kind that was asked for, and then an empty one. -/
def IsReply (kind : BlobKind) (frames : List FrameBody) : Prop :=
  ∃ batches last, frames = batches ++ [last] ∧ last.IsBatch [] ∧
    ∀ fb ∈ batches, ∃ items, fb.IsBatch items ∧ items ≠ [] ∧ ∀ item ∈ items, item.1 = kind

/-- The frame asks for a group of ids that is within the limit. -/
structure FrameBody.Asks (folderId : ByteArr 16) (kind : BlobKind) (fb : FrameBody) (group : List BlobId) :
    Prop where
  type : fb.msgType = msgRequestItems
  limit : group.length ≤ maxRequestItems
  encodes : RequestItems.encode ⟨folderId, group.map fun id => (kind, id)⟩ = .ok fb.payload

/-- The groups that are asked for in at most so many rounds, given what is still missing and what
comes in. A round asks for all that is missing, a group at a time; the next one goes without the ids
that have come. -/
inductive Rounds [Env] (kind : BlobKind) : Nat → List BlobId → List FrameBody → List (List BlobId) → Prop
  | ended {n : Nat} {missing : List BlobId} {frames : List FrameBody} : Rounds kind n missing frames []
  | within {n : Nat} {missing : List BlobId} {frames : List FrameBody} {asked : List (List BlobId)} :
      asked <+: chunksOf maxRequestItems missing → Rounds kind (n + 1) missing frames asked
  | round {n : Nat} {missing : List BlobId} {replies : List (List FrameBody)} {rest : List FrameBody}
      {asked : List (List BlobId)} :
      missing ≠ [] → List.Forall₂ (fun _ => IsReply kind) (chunksOf maxRequestItems missing) replies →
      Rounds kind n (missing.filter (· ∉ receivedIds replies.flatten)) rest asked →
      Rounds kind (n + 1) missing (replies.flatten ++ rest) (chunksOf maxRequestItems missing ++ asked)

theorem length_le_of_mem_chunksOf {α : Type} {n : Nat} {l group : List α} (h : group ∈ chunksOf n l) :
    group.length ≤ n := by
  obtain ⟨i, -, rfl⟩ := mem_map.1 h
  exact length_take_le n _

/-! ## Collisions -/

def offeredBlobs (frames : List FrameBody) : List (BlobKind × Bytes) :=
  (frames.flatMap FrameBody.items).map fun item => (item.1, item.2.2)

theorem offeredBlobs_append (xs ys : List FrameBody) :
    offeredBlobs (xs ++ ys) = offeredBlobs xs ++ offeredBlobs ys := by
  simp [offeredBlobs]

namespace PackStore

section
variable [PackEnv]

def PutFrom (blobs : List (BlobKind × Bytes)) : PackStore → PackStore → Prop :=
  Relation.ReflTransGen fun s s' => ∃ x ∈ blobs, ∃ id, putBlob x.1 x.2 s = .ok id s'

variable {s : PackStore} {kind : BlobKind}

theorem PutFrom.put {blobs : List (BlobKind × Bytes)} {s₀ s' : PackStore} (h : PutFrom blobs s₀ s)
    {bytes : Bytes} {id : BlobId} (hmem : (kind, bytes) ∈ blobs)
    (hput : putBlob kind bytes s = .ok id s') : PutFrom blobs s₀ s' :=
  Relation.ReflTransGen.tail h ⟨(kind, bytes), hmem, id, hput⟩

/-- No two of the pack files that are there, or that come to be when the blobs are put, have the same
hash. -/
def CollisionFree (blobs : List (BlobKind × Bytes)) (s : PackStore) : Prop :=
  ∀ s₁, PutFrom blobs s s₁ → ∀ x ∈ blobs, (s₁.files ∪ s₁.sealedBy x.1 x.2).InjOn packNameOf

/-! ## Runs -/

/-- How far a fetch has come: the store can still be relied on, what has come is in it, and what it
knew is not lost. -/
structure Progress (blobs : List (BlobKind × Bytes)) (s₀ : PackStore) (kind : BlobKind) (s : PackStore)
    (got : List BlobId) (s' : PackStore) : Prop where
  sound : s'.Sound
  reached : PutFrom blobs s₀ s'
  stored : ∀ id ∈ got, s'.Knows kind id
  keeps : ∀ kind id, s.Knows kind id → s'.Knows kind id

theorem Progress.trans {blobs : List (BlobKind × Bytes)} {s₀ s' s'' : PackStore}
    {got more : List BlobId} (h : Progress blobs s₀ kind s got s') (h' : Progress blobs s₀ kind s' more s'') :
    Progress blobs s₀ kind s (got ++ more) s'' where
  sound := h'.sound
  reached := h'.reached
  stored id hid := by
    rcases mem_append.1 hid with hid | hid
    · exact h'.keeps kind id (h.stored id hid)
    · exact h'.stored id hid
  keeps kind id hknows := h'.keeps kind id (h.keeps kind id hknows)

theorem Progress.start {blobs : List (BlobKind × Bytes)} {s₀ : PackStore} (hs : s.Sound)
    (hreached : PutFrom blobs s₀ s) (kind : BlobKind) : Progress blobs s₀ kind s [] s where
  sound := hs
  reached := hreached
  stored id hid := by cases hid
  keeps _ _ h := h

section
variable {blobs : List (BlobKind × Bytes)} {s₀ : PackStore} (laws : CipherLaws)
  (hfree : CollisionFree blobs s₀) (hrange : ∀ x ∈ blobs, segmentCount x.2.length ≤ 2 ^ 31)
include laws hfree hrange

theorem putBlob_progress (hs : s.Sound) (hreached : PutFrom blobs s₀ s)
    {bytes : Bytes} (hmem : (kind, bytes) ∈ blobs) :
    Triple (· = s) (putBlob kind bytes) (fun _ s' => Progress blobs s₀ kind s [Env.blake3 bytes] s')
      (fun _ s' => s'.Sound) := by
  have hinj : (s.files ∪ s.sealedBy kind bytes).InjOn packNameOf := hfree s hreached (kind, bytes) hmem
  have hput := hs.putBlob laws (hrange (kind, bytes) hmem) hinj
  have hstep : Triple (· = s) (putBlob kind bytes) (fun _ s' => PutFrom blobs s₀ s') (fun _ _ => True) :=
    Triple.of_runs (fun _ _ hrun => hreached.put hmem hrun) (fun _ _ _ => trivial)
  refine (hput.and hstep).weaken (fun _ h => h) (fun id s' h => ?_) (fun _ _ h => h.1)
  obtain ⟨⟨hsound, rfl, hknows, hkeeps⟩, hreached'⟩ := h
  refine ⟨hsound, hreached', fun id hid => ?_, hkeeps⟩
  rw [mem_singleton.1 hid]
  exact hknows

/-- One item: its kind is checked, and its bytes are put under their own hash. -/
theorem receiveItem_progress (hs : s.Sound) (hreached : PutFrom blobs s₀ s)
    (expectedKind : BlobKind) (got : List BlobId) {item : BlobKind × BlobId × Bytes}
    (hmem : (item.1, item.2.2) ∈ blobs) :
    Triple (· = s) (receiveItem expectedKind got item)
      (fun got' s' => item.1 = expectedKind ∧ got' = got ++ genuineIds [item] ∧
        Progress blobs s₀ expectedKind s (genuineIds [item]) s')
      (fun _ s' => s'.Sound) := by
  unfold receiveItem
  split
  · exact Triple.throw fun _ heq => heq ▸ hs
  rename_i hkind
  rw [not_not] at hkind
  subst hkind
  split
  · rename_i hhash
    have hnone : genuineIds [item] = [] := by simp [genuineIds, hhash]
    refine Triple.pure fun _ heq => ?_
    rw [heq, hnone, append_nil]
    exact ⟨rfl, rfl, .start hs hreached _⟩
  · rename_i hhash
    rw [not_not] at hhash
    have hone : genuineIds [item] = [item.2.1] := by simp [genuineIds, hhash]
    have hput := putBlob_progress laws hfree hrange hs hreached hmem
    rw [hhash] at hput
    rw [hone]
    refine Triple.bind (Triple.adaptExcept (f := FetchError.store) hput) fun id => ?_
    exact Triple.pure fun s' hs' => ⟨rfl, rfl, hs'⟩

/-- The items of a batch, by induction. -/
theorem receiveItems_progress (hs : s.Sound) (hreached : PutFrom blobs s₀ s)
    (expectedKind : BlobKind) (got : List BlobId) (items : ItemBatch)
    (hmem : ∀ item ∈ items, (item.1, item.2.2) ∈ blobs) :
    Triple (· = s) (items.foldlM (receiveItem expectedKind) got)
      (fun got' s' => (∀ item ∈ items, item.1 = expectedKind) ∧ got' = got ++ genuineIds items ∧
        Progress blobs s₀ expectedKind s (genuineIds items) s')
      (fun _ s' => s'.Sound) := by
  have hloop := Triple.foldlM (f := receiveItem expectedKind) (X := fun (_ : FetchError) s' => s'.Sound)
    (I := fun done got' s' => (∀ item ∈ done, item.1 = expectedKind) ∧ got' = got ++ genuineIds done ∧
      Progress blobs s₀ expectedKind s (genuineIds done) s') items ?_ got
  · refine hloop.weaken ?_ (fun _ _ h => h) (fun _ _ h => h)
    rintro _ rfl
    exact ⟨by simp, by simp [genuineIds], .start hs hreached _⟩
  intro done item rest got' hitems
  refine Triple.of_each fun s₁ hs₁ => ?_
  obtain ⟨hkinds, rfl, hprogress⟩ := hs₁
  have hone := receiveItem_progress laws hfree hrange hprogress.sound hprogress.reached expectedKind
    (got ++ genuineIds done) (hmem item (by simp [hitems]))
  refine hone.weaken (fun _ h => h) (fun got₂ s₂ hs₂ => ?_) (fun _ _ h => h)
  obtain ⟨hkind, rfl, hprogress₂⟩ := hs₂
  have happend : genuineIds (done ++ [item]) = genuineIds done ++ genuineIds [item] := by
    simp [genuineIds]
  rw [happend]
  refine ⟨fun item' hitem' => ?_, append_assoc .., hprogress.trans hprogress₂⟩
  rcases mem_append.1 hitem' with hitem' | hitem'
  · exact hkinds item' hitem'
  · rw [mem_singleton.1 hitem']
    exact hkind

/-- What one frame does to the loop: it ends the fetch, ends the reply, or is a batch of it. -/
theorem receiveBatch_cases (hs : s.Sound) (hreached : PutFrom blobs s₀ s) (kind : BlobKind)
    (got : List BlobId) {fb : FrameBody} (hmem : ∀ item ∈ fb.items, (item.1, item.2.2) ∈ blobs) :
    (∃ e s', receiveBatch kind (got, s) fb = Dialogue.fail (e, s') ∧ s'.Sound) ∨
      (receiveBatch kind (got, s) fb = pure (.inr (got, s)) ∧ fb.IsBatch []) ∨
      ∃ items s', receiveBatch kind (got, s) fb = pure (.inl (got ++ genuineIds items, s')) ∧
        fb.IsBatch items ∧ items ≠ [] ∧ (∀ item ∈ items, item.1 = kind) ∧
        Progress blobs s₀ kind s (genuineIds items) s' := by
  unfold receiveBatch
  by_cases htype : fb.msgType = msgItemBatch
  · rw [if_neg (not_not.2 htype)]
    cases hparse : ItemBatch.parse fb.payload with
    | error => exact .inl ⟨_, s, rfl, hs⟩
    | ok items =>
      have hitems : fb.items = items := FrameBody.IsBatch.items_eq ⟨htype, hparse⟩
      dsimp only
      by_cases hnil : items = []
      · subst hnil
        exact .inr (.inl ⟨if_pos rfl, htype, hparse⟩)
      rw [if_neg hnil]
      have hrun := receiveItems_progress laws hfree hrange hs hreached kind got items (hitems ▸ hmem)
      cases hfold : items.foldlM (receiveItem kind) got s with
      | ok got' s' =>
        obtain ⟨hkinds, rfl, hprogress⟩ := hrun.of_ok rfl hfold
        exact .inr (.inr ⟨items, s', rfl, ⟨htype, hparse⟩, hnil, hkinds, hprogress⟩)
      | error e s' => exact .inl ⟨e, s', rfl, hrun.of_error rfl hfold⟩
  · rw [if_pos htype]
    exact .inl ⟨_, s, rfl, hs⟩

variable {t : Transcript FrameBody (FetchError × PackStore) (List BlobId × PackStore)}

/-- The batches of a reply, whatever the peer sends, by induction on its frames. -/
theorem readBatches_run (unexpected : FetchError × PackStore) (kind : BlobKind) (xs : List FrameBody)
    (hmem : ∀ x ∈ offeredBlobs xs, x ∈ blobs) (got : List BlobId) (hs : s.Sound)
    (hreached : PutFrom blobs s₀ s)
    (ht : (Dialogue.loop (fun _ => true) unexpected (receiveBatch kind) (got, s)).run xs = t) :
    t.sent = [] ∧ (∀ e, t.status = .failed e → e.2.Sound) ∧
      ∀ x rest, t.status = .returned x rest → ∃ reply, xs = reply ++ rest ∧ IsReply kind reply ∧
        x.1 = got ++ receivedIds reply ∧ Progress blobs s₀ kind s (receivedIds reply) x.2 := by
  induction xs generalizing got s with
  | nil =>
    cases ht
    refine ⟨rfl, fun e he => ?_, fun x rest hx => ?_⟩
    · cases he
    · cases hx
  | cons fb xs ih =>
    rw [← singleton_append, offeredBlobs_append] at hmem
    have hfb : ∀ item ∈ fb.items, (item.1, item.2.2) ∈ blobs := fun item hitem =>
      hmem _ (mem_append_left _ (mem_map_of_mem (by simpa using hitem)))
    have hxs : ∀ x ∈ offeredBlobs xs, x ∈ blobs := fun x hx => hmem x (mem_append_right _ hx)
    rw [Dialogue.run_loop_cons rfl] at ht
    rcases receiveBatch_cases laws hfree hrange hs hreached kind got hfb with
      ⟨e, s', hbody, hs'⟩ | ⟨hbody, hlast⟩ | ⟨items, s', hbody, hbatch, hne, hkinds, hprogress⟩
    · rw [hbody] at ht
      cases ht
      refine ⟨rfl, fun e he => ?_, fun x rest hx => ?_⟩
      · cases he
        exact hs'
      · cases hx
    · rw [hbody] at ht
      cases ht
      refine ⟨rfl, fun e he => ?_, fun x rest hx => ?_⟩
      · cases he
      · cases hx
        have hnone : receivedIds [fb] = [] := by simp [receivedIds, hlast.items_eq, genuineIds]
        refine ⟨[fb], rfl, ⟨[], fb, rfl, hlast, by simp⟩, ?_, ?_⟩
        · rw [hnone, append_nil]
        · rw [hnone]
          exact .start hs hreached kind
    · rw [hbody] at ht
      obtain ⟨hsent, hfailed, hreturned⟩ := ih hxs (got ++ genuineIds items) hprogress.sound
        hprogress.reached ht
      refine ⟨hsent, hfailed, fun x rest hx => ?_⟩
      obtain ⟨reply, rfl, ⟨batches, last, rfl, hlast, hbatches⟩, hgot, hmore⟩ := hreturned x rest hx
      have hcons : receivedIds (fb :: (batches ++ [last])) =
          genuineIds items ++ receivedIds (batches ++ [last]) := by
        simp [receivedIds, hbatch.items_eq]
      refine ⟨fb :: (batches ++ [last]), rfl, ⟨fb :: batches, last, rfl, hlast, ?_⟩, ?_, ?_⟩
      · intro fb' hfb'
        rcases mem_cons.1 hfb' with rfl | hfb'
        · exact ⟨items, hbatch, hne, hkinds⟩
        · exact hbatches fb' hfb'
      · rw [hgot, hcons, append_assoc]
      · rw [hcons]
        exact hprogress.trans hmore

/-- The requests of a round, by induction on the groups. -/
theorem fetchGroups_run (version : ProtocolVersion) (folderId : ByteArr 16) (kind : BlobKind)
    (groups : List (List BlobId)) (hgroups : ∀ group ∈ groups, group.length ≤ maxRequestItems)
    (xs : List FrameBody) (hmem : ∀ x ∈ offeredBlobs xs, x ∈ blobs) (got : List BlobId)
    (hs : s.Sound) (hreached : PutFrom blobs s₀ s)
    (ht : (fetchGroups (askItems version folderId kind) (readItemBatches kind) groups got s).run xs = t) :
    ∃ asked, asked <+: groups ∧ List.Forall₂ (FrameBody.Asks folderId kind) t.sent asked ∧
      (∀ e, t.status = .failed e → e.2.Sound) ∧
      ∀ x rest, t.status = .returned x rest → asked = groups ∧ ∃ replies,
        List.Forall₂ (fun _ => IsReply kind) groups replies ∧ xs = replies.flatten ++ rest ∧
        x.1 = got ++ receivedIds replies.flatten ∧
        Progress blobs s₀ kind s (receivedIds replies.flatten) x.2 := by
  induction groups generalizing xs got s t with
  | nil =>
    cases ht
    refine ⟨[], nil_prefix, .nil, fun e he => ?_, fun x rest hx => ?_⟩
    · cases he
    · cases hx
      exact ⟨rfl, [], .nil, rfl, (append_nil got).symm, .start hs hreached kind⟩
  | cons group groups ih =>
    have hlimit := hgroups group (by simp)
    cases hencode : RequestItems.encode ⟨folderId, group.map fun id => (kind, id)⟩ with
    | error =>
      unfold RequestItems.encode at hencode
      rw [length_map, if_neg (Nat.not_lt.2 hlimit)] at hencode
      cases hencode
    | ok payload =>
      have hasks : FrameBody.Asks folderId kind ⟨msgRequestItems, version, payload⟩ group :=
        ⟨rfl, hlimit, hencode⟩
      rw [fetchGroups, askItems, hencode] at ht
      rw [Dialogue.run_send_bind, Dialogue.run_bind] at ht
      obtain ⟨hsent, hfailed, hreturned⟩ := readBatches_run laws hfree hrange
        (.wire (bad "unexpected message in this state"), s) kind xs hmem [] hs hreached rfl
      rw [← readItemBatches] at hsent hfailed hreturned
      generalize hr : (readItemBatches kind s).run xs = r at ht hsent hfailed hreturned
      obtain ⟨sent, status⟩ := r
      cases hsent
      cases status with
      | waits =>
        cases ht
        refine ⟨[group], by simp, .cons hasks .nil, fun e he => ?_, fun x rest hx => ?_⟩
        · cases he
        · cases hx
      | failed e =>
        cases ht
        refine ⟨[group], by simp, .cons hasks .nil, fun e' he => ?_, fun x rest hx => ?_⟩
        · cases he
          exact hfailed e rfl
        · cases hx
      | returned x rest =>
        obtain ⟨reply, rfl, hreply, hgot, hprogress⟩ := hreturned x rest rfl
        rw [offeredBlobs_append] at hmem
        obtain ⟨asked, hprefix, hasked, hfailed', hreturned'⟩ := ih
          (fun g hg => hgroups g (by simp [hg])) rest (fun y hy => hmem y (by simp [hy])) (got ++ x.1)
          hprogress.sound hprogress.reached rfl
        cases ht
        refine ⟨group :: asked, by simpa using hprefix, .cons hasks hasked, hfailed', ?_⟩
        intro y rest' hy
        obtain ⟨rfl, replies, hreplies, rfl, hgot', hprogress'⟩ := hreturned' y rest' hy
        have hids : receivedIds (reply :: replies).flatten =
            receivedIds reply ++ receivedIds replies.flatten := by
          simp [receivedIds]
        refine ⟨rfl, reply :: replies, .cons hreply hreplies, by simp, ?_, ?_⟩
        · rw [hgot', hgot, hids]
          simp
        · rw [hids]
          exact hprogress.trans hprogress'

/-- The run lemma over the rounds: what is reported as got is in the store under its hash. -/
theorem fetchRounds_run {version : ProtocolVersion} {folderId : ByteArr 16} (n : Nat)
    (missing : List BlobId) (xs : List FrameBody) (hmem : ∀ x ∈ offeredBlobs xs, x ∈ blobs)
    (hs : s.Sound) (hreached : PutFrom blobs s₀ s)
    {t : Transcript FrameBody (FetchError × PackStore) PackStore}
    (ht : (fetchRounds (askItems version folderId kind) (readItemBatches kind)
      (fun n s => (.wire (.missingItems n), s)) n missing s).run xs = t) :
    ∃ asked, Rounds kind n missing xs asked ∧ List.Forall₂ (FrameBody.Asks folderId kind) t.sent asked ∧
      (∀ e, t.status = .failed e → e.2.Sound) ∧
      ∀ s' rest, t.status = .returned s' rest → Progress blobs s₀ kind s missing s' := by
  induction n generalizing missing xs s t with
  | zero =>
    unfold fetchRounds at ht
    split at ht
    · rename_i hnil
      cases ht
      refine ⟨[], .ended, .nil, fun e he => ?_, fun s' rest hx => ?_⟩
      · cases he
      · cases hx
        rw [hnil]
        exact .start hs hreached kind
    · cases ht
      refine ⟨[], .ended, .nil, fun e he => ?_, fun s' rest hx => ?_⟩
      · cases he
        exact hs
      · cases hx
  | succ n ih =>
    unfold fetchRounds at ht
    split at ht
    · rename_i hnil
      cases ht
      refine ⟨[], .ended, .nil, fun e he => ?_, fun s' rest hx => ?_⟩
      · cases he
      · cases hx
        rw [hnil]
        exact .start hs hreached kind
    · rename_i hne
      rw [Dialogue.run_bind] at ht
      obtain ⟨asked, hprefix, hasked, hfailed, hreturned⟩ := fetchGroups_run laws hfree hrange
        version folderId kind (chunksOf maxRequestItems missing)
        (fun group hgroup => length_le_of_mem_chunksOf hgroup) xs hmem [] hs hreached rfl
      generalize (fetchGroups (askItems version folderId kind) (readItemBatches kind)
        (chunksOf maxRequestItems missing) [] s).run xs = r at ht hasked hfailed hreturned
      obtain ⟨sent, status⟩ := r
      cases status with
      | waits =>
        cases ht
        refine ⟨asked, .within hprefix, hasked, fun e he => ?_, fun s' rest hx => ?_⟩
        · cases he
        · cases hx
      | failed e =>
        cases ht
        refine ⟨asked, .within hprefix, hasked, fun e' he => ?_, fun s' rest hx => ?_⟩
        · cases he
          exact hfailed e rfl
        · cases hx
      | returned x rest =>
        obtain ⟨got, s₁⟩ := x
        obtain ⟨rfl, replies, hreplies, rfl, hgot, hprogress⟩ := hreturned _ rest rfl
        subst hgot
        rw [offeredBlobs_append] at hmem
        obtain ⟨asked', hrounds, hasked', hfailed', hreturned'⟩ := ih _ rest
          (fun y hy => hmem y (by simp [hy])) hprogress.sound hprogress.reached rfl
        cases ht
        refine ⟨_, .round hne hreplies hrounds, rel_append hasked hasked', hfailed',
          fun s' rest' hx => ?_⟩
        · have hlast := hprogress.trans (hreturned' s' rest' hx)
          refine ⟨hlast.sound, hlast.reached, fun id hid => hlast.stored id ?_, hlast.keeps⟩
          rw [mem_append, mem_filter]
          by_cases hin : id ∈ receivedIds replies.flatten
          · exact .inl hin
          · exact .inr ⟨hid, by simpa using hin⟩

end

/-! ## Fetching -/

omit [PackEnv] in
theorem offered_range {frames : List FrameBody} (hfits : ∀ fb ∈ frames, fb.payload.length < 2 ^ 32) :
    ∀ x ∈ offeredBlobs frames, segmentCount x.2.length ≤ 2 ^ 31 := by
  intro x hx
  obtain ⟨item, hitem, rfl⟩ := mem_map.1 hx
  obtain ⟨fb, hfb, hitem⟩ := mem_flatMap.1 hitem
  have hlt : item.2.2.length < 2 ^ 32 := by
    cases hparse : ItemBatch.parse fb.payload with
    | error =>
      rw [FrameBody.items, hparse] at hitem
      cases hitem
    | ok items =>
      rw [FrameBody.items, hparse] at hitem
      obtain ⟨-, -, hpayload⟩ := ItemBatch.parse_eq_ok.1 hparse
      have hlen := ItemBatch.length_payload items
      rw [← hpayload] at hlen
      have hin : item ∈ items := hitem
      have hle := ItemBatch.le_payloadLen hin
      have hfit := hfits fb hfb
      omega
  unfold segmentCount segmentPlainLen
  dsimp only
  omega

end

end PackStore

namespace Sample

/-- A peer that sends the right bytes under a wrong id at first. -/
def lateFrames : List FrameBody :=
  [[(.dataChunk, zeroId, [7])], [], [(.dataChunk, Env.blake3 [7], [7])], []].map fun batch =>
    ⟨msgItemBatch, 0x0100, (ItemBatch.encode batch).toOption.getD []⟩

def stagedStore : PackStore := (StoreOp.putBlob .dataChunk [7]).after freshStore

theorem collisionFree_freshStore : freshStore.CollisionFree [(.dataChunk, [7]), (.dataChunk, [7])] := by
  have hfresh : putBlob .dataChunk [7] freshStore = .ok (Env.blake3 [7]) stagedStore := rfl
  have hstaged : putBlob .dataChunk [7] stagedStore = .ok (Env.blake3 [7]) stagedStore := rfl
  have hnone : ∀ s : PackStore, s = freshStore ∨ s = stagedStore →
      s.files ∪ s.sealedBy .dataChunk [7] = ∅ := by
    intro s hs
    have hdisk : s.disk.packs = ∅ := by rcases hs with rfl | rfl <;> rfl
    have hcache : s.cache = [] := by rcases hs with rfl | rfl <;> rfl
    have hfull : (s.staging.offer s.draw .dataChunk (Env.blake3 [7]) [7] s.sealTarget).2.1 = [] := by
      rcases hs with rfl | rfl <;> rfl
    refine Set.eq_empty_of_forall_notMem ?_
    rintro f ((⟨name, hname⟩ | ⟨vp, hvp, -⟩) | ⟨sp, hsp, -⟩)
    · rw [hdisk] at hname
      cases hname
    · rw [hcache] at hvp
      cases hvp
    · rw [hfull] at hsp
      cases hsp
  intro s₁ hs₁ x hx
  have hx : x = (.dataChunk, [7]) := by simpa using hx
  subst hx
  have hcases : s₁ = freshStore ∨ s₁ = stagedStore := by
    induction hs₁ with
    | refl => exact .inl rfl
    | tail _ hput ih =>
      obtain ⟨x, hx, id, hput⟩ := hput
      have hx : x = (.dataChunk, [7]) := by simpa using hx
      subst hx
      rcases ih with rfl | rfl
      · rw [hfresh] at hput
        cases hput
        exact .inr rfl
      · rw [hstaged] at hput
        cases hput
        exact .inr rfl
  rw [hnone s₁ hcases]
  exact Set.injOn_empty _

end Sample

section
open Sample

end

end Ferry
