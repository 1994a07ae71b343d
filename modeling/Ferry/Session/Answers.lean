import Mathlib.Algebra.Order.BigOperators.Group.List
import Ferry.Packs.History
import Ferry.Session.Channel
import Ferry.Session.Serving
import Ferry.Sync.Mirror

/-! # Answers to requests

`serve_items` cuts its answer into batches, by count and by size. A batch is
closed only after a blob has been added that made it too large, so how long a
frame gets depends on the blobs of the store. The reader on the other side stops
at the first empty batch.
-/

namespace Ferry

open Lib Session Net List

/-! ## The length of a frame -/

def msgItemBatch : UInt8 := 0x09

theorem sealedLen_eq (msgType : UInt8) (version : ProtocolVersion) (payload : Bytes) :
    sealedLen msgType version payload = payload.length + 23 := by
  simp only [sealedLen, FrameBody.encode, wireMagic, length_append, leBytes_length,
    length_cons, length_nil]
  omega

theorem length_itemBytes (item : BlobKind × BlobId × Bytes) :
    (itemBytes item).length = 41 + item.2.2.length := by
  simp only [itemBytes, length_cons, length_append, item.2.1.property, leBytes_length]
  omega

variable {item : BlobKind × BlobId × Bytes} {batch : ItemBatch}

theorem ItemBatch.le_payloadLen (h : item ∈ batch) : 45 + item.2.2.length ≤ ItemBatch.payloadLen batch := by
  have hle : 41 + item.2.2.length ≤ (batch.map fun item => 41 + item.2.2.length).sum :=
    le_sum_of_mem (mem_map_of_mem h)
  unfold ItemBatch.payloadLen
  omega

theorem ItemBatch.length_payload (batch : ItemBatch) :
    (batchBytes batch).length = ItemBatch.payloadLen batch := by
  simp only [batchBytes, length_append, leBytes_length, length_flatMap, ItemBatch.payloadLen, length_itemBytes]

section
variable [SessionEnv] {α β : Type}

/-! ## The batches of an answer -/

/-- What an answer has in it for a request. -/
def Store.answer (st : Store) (item : BlobKind × BlobId) : Option (BlobKind × BlobId × Bytes) :=
  (st.get item.1 item.2).toOption.map fun b => (item.1, item.2, b)

/-- The batches hold what the store has of the items, in their order. -/
theorem itemBatches_flatten (st : Store) (items : List (BlobKind × BlobId)) (acc : ItemBatch) (size : Nat) :
    (itemBatches st items acc size).flatten = acc ++ items.filterMap st.answer := by
  induction items generalizing acc size with
  | nil =>
    unfold itemBatches
    split
    · simp [*]
    · simp
  | cons item rest ih =>
    obtain ⟨kind, id⟩ := item
    unfold itemBatches
    cases hget : st.get kind id with
    | ok bytes =>
      have hanswer : st.answer (kind, id) = some (kind, id, bytes) := by
        simp [Store.answer, hget, Except.toOption]
      rw [filterMap_cons_some hanswer]
      dsimp only
      split
      · rw [flatten_cons, ih]
        simp
      · rw [ih]
        simp
    | error =>
      have hanswer : st.answer (kind, id) = none := by
        simp [Store.answer, hget, Except.toOption]
      rw [filterMap_cons_none hanswer]
      dsimp only
      split
      · rw [flatten_cons, ih]
        simp
      · rw [ih]

def Store.Has (st : Store) (item : BlobKind × BlobId × Bytes) : Prop :=
  st.get item.1 item.2.1 = .ok item.2.2

variable {batches : List ItemBatch} {ex : Exchange} {r : RequestItems} {kind : BlobKind} {st : Store}

theorem Store.answer_eq_some {key : BlobKind × BlobId} :
    st.answer key = some item ↔ key = (item.1, item.2.1) ∧ st.Has item := by
  unfold Store.answer Store.Has
  constructor
  · intro h
    obtain ⟨b, hb, rfl⟩ := Option.map_eq_some_iff.1 h
    refine ⟨rfl, ?_⟩
    cases hget : st.get key.1 key.2 with
    | error =>
      rw [hget] at hb
      cases hb
    | ok =>
      rw [hget] at hb
      cases hb
      rfl
  · rintro ⟨rfl, hhas⟩
    rw [hhas]
    rfl

/-- The bytes of the blobs of a batch, as the server counts them. -/
def ItemBatch.content (batch : ItemBatch) : Nat := (batch.map (·.2.2.length)).sum

omit [SessionEnv] in
theorem ItemBatch.content_append (xs ys : ItemBatch) :
    ItemBatch.content (xs ++ ys) = ItemBatch.content xs + ItemBatch.content ys := by
  simp [ItemBatch.content]

/-- The batch was still open when its last item came. -/
def ItemBatch.Cut (batch : ItemBatch) : Prop :=
  ∃ xs x, batch = xs ++ [x] ∧ xs.length < maxBatchItems ∧ ItemBatch.content xs < batchFlushBytes

/-- Each batch is cut as soon as it is long or large enough. -/
theorem itemBatches_cut {items : List (BlobKind × BlobId)} {acc : ItemBatch}
    (hcount : acc.length < maxBatchItems) (hsize : ItemBatch.content acc < batchFlushBytes) :
    ∀ b ∈ itemBatches st items acc (ItemBatch.content acc), ItemBatch.Cut b := by
  induction items generalizing acc with
  | nil =>
    intro b hb
    unfold itemBatches at hb
    split at hb
    · simp at hb
    rename_i hne
    rw [mem_singleton] at hb
    subst hb
    refine ⟨b.dropLast, b.getLast hne, (dropLast_append_getLast hne).symm, ?_, ?_⟩
    · rw [length_dropLast]
      omega
    · rw [← dropLast_append_getLast hne, ItemBatch.content_append] at hsize
      omega
  | cons key rest ih =>
    obtain ⟨kind, id⟩ := key
    intro b hb
    unfold itemBatches at hb
    cases hget : st.get kind id with
    | ok bytes =>
      have hcontent : ItemBatch.content acc + bytes.length =
          ItemBatch.content (acc ++ [(kind, id, bytes)]) := by
        simp [ItemBatch.content]
      simp only [hget, hcontent] at hb
      split at hb
      · rcases mem_cons.1 hb with rfl | hb
        · exact ⟨acc, _, rfl, hcount, hsize⟩
        · exact ih (by decide) (by decide) b hb
      · rename_i hopen
        rw [not_or, Nat.not_le, Nat.not_le] at hopen
        exact ih hopen.1 hopen.2 b hb
    | error =>
      simp only [hget] at hb
      rw [if_neg (by omega)] at hb
      exact ih hcount hsize b hb

/-- Any blobs that stay below the limits, and one more, are a batch of some request. -/
theorem itemBatches_single {ys : ItemBatch} {x : BlobKind × BlobId × Bytes}
    (hys : ∀ y ∈ ys, st.Has y) (hx : st.Has x) (acc : ItemBatch)
    (hcount : (acc ++ ys).length < maxBatchItems) (hsize : ItemBatch.content (acc ++ ys) < batchFlushBytes) :
    itemBatches st ((ys ++ [x]).map fun y => (y.1, y.2.1)) acc (ItemBatch.content acc) =
      [acc ++ ys ++ [x]] := by
  induction ys generalizing acc with
  | nil =>
    simp only [nil_append, map_cons, map_nil, itemBatches]
    rw [hx]
    simp
  | cons y ys ih =>
    have hy : st.get y.1 y.2.1 = .ok y.2.2 := hys y (by simp)
    have hcontent : ItemBatch.content acc + y.2.2.length = ItemBatch.content (acc ++ [y]) := by
      simp [ItemBatch.content]
    rw [append_cons] at hcount hsize
    have hopen : ¬ (maxBatchItems ≤ (acc ++ [y]).length ∨
        batchFlushBytes ≤ ItemBatch.content (acc ++ [y])) := by
      rw [length_append] at hcount
      rw [ItemBatch.content_append] at hsize
      omega
    simp only [cons_append, map_cons, itemBatches, hy, hcontent]
    rw [if_neg hopen, ih (fun z hz => hys z (by simp [hz])) (acc ++ [y]) hcount hsize]
    simp

/-! ## Taking an answer in -/

/-- `st'` has taken over the blobs with the given ids: each is stored, or was said to be. -/
structure Store.Took (st srv : Store) (kind : BlobKind) (ids : List BlobId) (st' : Store) : Prop where
  grown : st.Grown srv st'
  there : ∀ id ∈ ids, st'.present kind id

theorem Store.Took.trans {srv st₁ st₂ : Store} {ids₁ ids₂ : List BlobId}
    (h₁ : st.Took srv kind ids₁ st₁) (h₂ : st₁.Took srv kind ids₂ st₂) :
    st.Took srv kind (ids₁ ++ ids₂) st₂ := by
  refine ⟨h₁.grown.trans h₂.grown, fun id hid => ?_⟩
  rcases mem_append.1 hid with hid | hid
  · exact h₂.grown.present kind id (h₁.there id hid)
  · exact h₂.there id hid

/-- Taking in the blobs of an honest server stores each of them. -/
theorem takeItems_took {srv : Store} {items : ItemBatch}
    (hitems : ∀ x ∈ items, x.1 = kind ∧ srv.get x.1 x.2.1 = .ok x.2.2 ∧ x.2.2 ≠ []) (got : List BlobId)
    (st : Store) :
    ∃ st', items.foldlM (takeItem kind) (got, st) = .ok (got ++ items.map (·.2.1), st') ∧
      st.Took srv kind (items.map (·.2.1)) st' := by
  induction items generalizing got st with
  | nil => exact ⟨st, by simp [pure, Except.pure], Store.Grown.refl st srv, by simp⟩
  | cons x rest ih =>
    obtain ⟨hkind, hget, hne⟩ := hitems x (by simp)
    have hid : Env.blake3 x.2.2 = x.2.1 := srv.get_hash _ _ _ hget
    have hput : ∃ st₁, st.putBlob x.1 x.2.2 = .ok (x.2.1, st₁) ∧ st.Took srv kind [x.2.1] st₁ := by
      rw [← hid] at hget
      rcases st.putBlob_cases x.1 hne with ⟨hthere, hput⟩ | ⟨hnew, hput⟩
      · refine ⟨st, hid ▸ hput, Store.Grown.refl st srv, fun id hmem => ?_⟩
        rwa [mem_singleton.1 hmem, ← hid, ← hkind]
      · refine ⟨_, hid ▸ hput, Store.Grown.withBlob hget hnew, fun id hmem => ?_⟩
        rw [mem_singleton.1 hmem, ← hid, ← hkind]
        simp [Store.withBlob]
    obtain ⟨st₁, hput, hfirst⟩ := hput
    have htake : takeItem kind (got, st) x = .ok (got ++ [x.2.1], st₁) := by
      rw [takeItem, if_neg (not_not.2 hkind), if_neg (not_not.2 hid)]
      simp only [hput]
    obtain ⟨st', hfold, htook⟩ := ih (fun y hy => hitems y (by simp [hy])) (got ++ [x.2.1]) st₁
    refine ⟨st', ?_, hfirst.trans htook⟩
    rw [foldlM_cons, htake]
    simpa using hfold

theorem batchStep_terminator {maxFrame : Nat} (hmax : 27 ≤ maxFrame) (s : List BlobId × Store) :
    batchStep maxFrame kind s terminator = pure (.inr s) := by
  have hshort : ¬ maxFrame < ItemBatch.payloadLen [] + 23 := Nat.not_lt.2 hmax
  rw [terminator, batchStep, if_neg hshort, if_pos rfl]

theorem batchStep_batch {maxFrame : Nat} {b : ItemBatch} (hne : b ≠ [])
    (hshort : ItemBatch.payloadLen b + 23 ≤ maxFrame) {s s' : List BlobId × Store}
    (htake : b.foldlM (takeItem kind) s = .ok s') :
    batchStep maxFrame kind s (.itemBatch b) = pure (.inl s') := by
  rw [batchStep, if_neg (Nat.not_lt.2 hshort), if_neg hne, htake]
  rfl

/-- The requester's loop takes in the batches of an answer one after the other and stops at the
terminator. -/
theorem readBatches_run {msg : String} {maxFrame : Nat} (hmax : 27 ≤ maxFrame) (hne : ∀ b ∈ batches, b ≠ [])
    (hshort : ∀ b ∈ batches, ItemBatch.payloadLen b + 23 ≤ maxFrame) {s s' : List BlobId × Store}
    (htake : batches.flatten.foldlM (takeItem kind) s = .ok s') (rest : List Frame) :
    (loopOn [.itemBatch] msg (batchStep maxFrame kind) s).run (batches.map .itemBatch ++ terminator :: rest) =
      ⟨[], .returned s' rest⟩ := by
  induction batches generalizing s with
  | nil =>
    cases htake
    rw [map_nil, nil_append, loopOn, Dialogue.run_loop_cons (by rfl), batchStep_terminator hmax]
    rfl
  | cons b batches ih =>
    rw [flatten_cons, foldlM_append] at htake
    obtain ⟨s₁, hb, htake⟩ := bind_eq_ok.1 htake
    have ih := ih (fun b' hb' => hne b' (by simp [hb'])) (fun b' hb' => hshort b' (by simp [hb'])) htake
    have hstep := batchStep_batch (hne b (by simp)) (hshort b (by simp)) hb
    rw [map_cons, cons_append, loopOn, Dialogue.run_loop_cons (by rfl), hstep]
    exact ih

omit [SessionEnv] in
theorem forM_sendBatch (hfull : ∀ b ∈ batches, ∀ x ∈ b, x.2.2 ≠ []) :
    batches.forM sendBatch = Dialogue.sendAll (batches.map .itemBatch) := by
  induction batches with
  | nil => rfl
  | cons b batches ih =>
    have hsend : sendBatch b = Dialogue.send (.itemBatch b) := by
      refine if_neg ?_
      rw [any_eq_true]
      rintro ⟨x, hx, hempty⟩
      exact hfull b (by simp) x hx (of_decide_eq_true hempty)
    change (sendBatch b >>= fun _ => batches.forM sendBatch) = _
    rw [map_cons, Dialogue.sendAll_cons, hsend, ih fun b' hb' => hfull b' (by simp [hb'])]

/-- A puller reads the batches one by one and ends with all of them. -/
theorem readBatches_runs {msg : String} {maxFrame : Nat} (hmax : 27 ≤ maxFrame)
    (hne : ∀ b ∈ batches, b ≠ []) (hshort : ∀ b ∈ batches, ItemBatch.payloadLen b + 23 ≤ maxFrame)
    (hfull : ∀ b ∈ batches, ∀ x ∈ b, x.2.2 ≠ [])
    {s s' : List BlobId × Store} (htake : batches.flatten.foldlM (takeItem kind) s = .ok s')
    {k : List BlobId × Store → Session α} {r : Unit → Session β} {m : Net Frame SessionError α β}
    (h : Runs ⟨k s', r (), [], []⟩ m) :
    Runs ⟨loopOn [.itemBatch] msg (batchStep maxFrame kind) s >>= k,
      batches.forM sendBatch >>= fun _ => Dialogue.send terminator >>= r, [], []⟩ m := by
  rw [forM_sendBatch hfull]
  apply Runs.sendAll_right
  apply Runs.send_right
  clear hfull
  induction batches generalizing s with
  | nil =>
    cases htake
    apply Runs.loop_left (by rfl)
    rw [batchStep_terminator hmax]
    exact h
  | cons b batches ih =>
    rw [flatten_cons, foldlM_append] at htake
    obtain ⟨s₁, hb, htake⟩ := bind_eq_ok.1 htake
    apply Runs.loop_left (by rfl)
    rw [batchStep_batch (hne b (by simp)) (hshort b (by simp)) hb]
    exact ih (fun b' hb' => hne b' (by simp [hb'])) (fun b' hb' => hshort b' (by simp [hb'])) htake

/-! ## Legal answers -/

/-- The frame of a batch: it can be encoded, is read back as it was and is not too long. -/
def ItemBatch.Sendable (batch : ItemBatch) : Prop :=
  ∃ payload, ItemBatch.encode batch = .ok payload ∧ ItemBatch.parse payload = .ok batch ∧
    ∀ version, sealedLen msgItemBatch version payload ≤ maxFrameBody

structure Answered (ex : Exchange) (r : RequestItems) (batches : List ItemBatch) : Prop where
  /-- The batches and one terminator go out, and nothing else. -/
  sent : ∀ inbox, (serveItems ex r).run inbox = ⟨batches.map .itemBatch ++ [terminator], .returned () inbox⟩
  /-- The blobs that are there, in the order of the request. -/
  content : batches.flatten = r.items.filterMap ex.store.answer
  nonempty : ∀ b ∈ batches, b ≠ []
  count : ∀ b ∈ batches, b.length ≤ maxBatchItems
  sendable : ∀ b ∈ batches, ItemBatch.Sendable b
  ends : ItemBatch.Sendable []
  /-- A requester that asked for blobs of one kind takes all of them in and stops. -/
  read : ∀ kind st, (∀ item ∈ r.items, item.1 = kind) → ∃ st',
    (readItemBatches maxFrameBody kind st).run (batches.map .itemBatch ++ [terminator]) =
        ⟨[], .returned (batches.flatten.map (·.2.1), st') []⟩ ∧
      st.Took ex.store kind (batches.flatten.map (·.2.1)) st'

/-- A request for blobs of the served folder, as the parser lets it through. -/
def RequestItems.Legal (r : RequestItems) (ex : Exchange) : Prop :=
  r.folderId = ex.folderId ∧ r.items.length ≤ maxRequestItems

/-- No blob is empty, and a blob that comes last in a batch leaves it short enough. -/
structure Store.Servable (st : Store) : Prop where
  nonempty : ∀ item, st.Has item → item.2.2 ≠ []
  short : ∀ (xs : ItemBatch) x, (∀ y ∈ xs, st.Has y) → st.Has x → xs.length < maxBatchItems →
    ItemBatch.content xs < batchFlushBytes → ItemBatch.payloadLen (xs ++ [x]) + 23 ≤ maxFrameBody

theorem Answered.has (h : Answered ex r batches) (hmem : (item.1, item.2.1) ∈ r.items)
    (hhas : ex.store.Has item) : ∃ b ∈ batches, item ∈ b := by
  apply mem_flatten.1
  rw [h.content]
  exact mem_filterMap.2 ⟨_, hmem, Store.answer_eq_some.2 ⟨rfl, hhas⟩⟩

omit [SessionEnv] in
theorem ItemBatch.sendable_of (hcount : batch.length ≤ maxBatchItems)
    (hfull : ∀ item ∈ batch, item.2.2 ≠ []) (hshort : ItemBatch.payloadLen batch + 23 ≤ maxFrameBody) :
    ItemBatch.Sendable batch := by
  have hlen : ∀ item ∈ batch, item.2.2.length < 2 ^ 64 := by
    intro item hitem
    have hle := ItemBatch.le_payloadLen hitem
    have hmax : maxFrameBody < 2 ^ 64 := by decide
    omega
  have hencode := ItemBatch.encode_eq_ok.2 ⟨hcount, hfull, rfl⟩
  refine ⟨_, hencode, ItemBatch.parse_encode hencode hlen, fun version => ?_⟩
  rwa [sealedLen_eq, ItemBatch.length_payload]

omit [SessionEnv] in
theorem ItemBatch.Sendable.short (h : ItemBatch.Sendable batch) :
    (∀ item ∈ batch, item.2.2 ≠ []) ∧ ItemBatch.payloadLen batch + 23 ≤ maxFrameBody := by
  obtain ⟨payload, hencode, -, hlen⟩ := h
  obtain ⟨-, hfull, rfl⟩ := ItemBatch.encode_eq_ok.1 hencode
  have hlen := hlen 0
  rw [sealedLen_eq, ItemBatch.length_payload] at hlen
  exact ⟨hfull, hlen⟩

theorem serveItems_run (hf : r.folderId = ex.folderId)
    (hfull : ∀ b ∈ itemBatches ex.store r.items [] 0, ∀ x ∈ b, x.2.2 ≠ []) (inbox : List Frame) :
    (serveItems ex r).run inbox =
      ⟨(itemBatches ex.store r.items [] 0).map .itemBatch ++ [terminator], .returned () inbox⟩ := by
  rw [serveItems, if_neg (not_not.2 hf), forM_sendBatch hfull]
  exact Dialogue.run_sendAll_bind ..

/-- If every batch can be sent, every legal request is answered. -/
theorem Store.Servable.answered (h : ex.store.Servable)
    (hf : r.folderId = ex.folderId) : Answered ex r (itemBatches ex.store r.items [] 0) := by
  have hflat := itemBatches_flatten ex.store r.items [] 0
  rw [nil_append] at hflat
  have hhas : ∀ b ∈ itemBatches ex.store r.items [] 0, ∀ x ∈ b, ex.store.Has x := by
    intro b hb x hx
    have hmem : x ∈ r.items.filterMap ex.store.answer := hflat ▸ mem_flatten.2 ⟨b, hb, hx⟩
    obtain ⟨key, -, hkey⟩ := mem_filterMap.1 hmem
    exact (Store.answer_eq_some.1 hkey).2
  have hfull : ∀ b ∈ itemBatches ex.store r.items [] 0, ∀ x ∈ b, x.2.2 ≠ [] :=
    fun b hb x hx => h.nonempty x (hhas b hb x hx)
  have hcut := @itemBatches_cut _ ex.store r.items [] (by decide) (by decide)
  have hcount : ∀ b ∈ itemBatches ex.store r.items [] 0, b.length ≤ maxBatchItems := by
    intro b hb
    obtain ⟨xs, x, rfl, hlen, -⟩ := hcut b hb
    rw [length_append]
    exact hlen
  have hshort : ∀ b ∈ itemBatches ex.store r.items [] 0, ItemBatch.payloadLen b + 23 ≤ maxFrameBody := by
    intro b hb
    obtain ⟨xs, x, rfl, hlen, hsize⟩ := hcut b hb
    exact h.short xs x (fun y hy => hhas _ hb y (by simp [hy])) (hhas _ hb x (by simp)) hlen hsize
  refine ⟨serveItems_run hf hfull, hflat, itemBatches_ne_nil fun _ => rfl, hcount, ?_, ?_, ?_⟩
  · exact fun b hb => ItemBatch.sendable_of (hcount _ hb) (hfull _ hb) (hshort b hb)
  · exact ItemBatch.sendable_of (by decide) (by simp) (by decide)
  · intro kind st hkind
    have hitems : ∀ x ∈ (itemBatches ex.store r.items [] 0).flatten,
        x.1 = kind ∧ ex.store.get x.1 x.2.1 = .ok x.2.2 ∧ x.2.2 ≠ [] := by
      intro x hx
      rw [hflat] at hx
      obtain ⟨key, hkey, hanswer⟩ := mem_filterMap.1 hx
      obtain ⟨rfl, hget⟩ := Store.answer_eq_some.1 hanswer
      exact ⟨hkind _ hkey, hget, h.nonempty x hget⟩
    obtain ⟨st', hfold, htook⟩ := takeItems_took hitems [] st
    exact ⟨st', readBatches_run (by decide) (itemBatches_ne_nil fun _ => rfl) hshort hfold [], htook⟩

theorem Answered.batches_eq (h : Answered ex r batches) (hf : r.folderId = ex.folderId)
    (hfull : ∀ b ∈ itemBatches ex.store r.items [] 0, ∀ x ∈ b, x.2.2 ≠ []) :
    batches = itemBatches ex.store r.items [] 0 := by
  have hsent := congrArg Transcript.sent ((h.sent []).symm.trans (serveItems_run hf hfull []))
  exact map_injective_iff.2 (fun _ _ => Frame.itemBatch.inj) (append_cancel_right hsent)

/-- A batch that cannot be sent belongs to a legal request. -/
theorem servable_of_answered
    (hall : ∀ r : RequestItems, r.Legal ex → ∃ batches, Answered ex r batches) : ex.store.Servable := by
  have hlegal : ∀ (xs : ItemBatch) (x : BlobKind × BlobId × Bytes), xs.length < maxBatchItems →
      (RequestItems.mk ex.folderId ((xs ++ [x]).map fun y => (y.1, y.2.1))).Legal ex := by
    intro xs x hlen
    refine ⟨rfl, ?_⟩
    rw [length_map, length_append]
    exact hlen
  have hnonempty : ∀ item, ex.store.Has item → item.2.2 ≠ [] := by
    intro item hitem
    obtain ⟨batches, hanswered⟩ := hall _ (hlegal [] item (by decide))
    obtain ⟨b, hb, hin⟩ := hanswered.has (mem_singleton_self _) hitem
    exact (hanswered.sendable b hb).short.1 item hin
  refine ⟨hnonempty, fun xs x hxs hx hlen hsize => ?_⟩
  have hsingle := itemBatches_single hxs hx [] hlen hsize
  obtain ⟨batches, hanswered⟩ := hall _ (hlegal xs x hlen)
  have hbatches := hanswered.batches_eq rfl ?_
  · have hmem : xs ++ [x] ∈ batches := by
      rw [hbatches]
      exact hsingle ▸ mem_singleton_self _
    exact (hanswered.sendable _ hmem).short.2
  intro b hb y hy
  obtain rfl : b = xs ++ [x] := mem_singleton.1 (hsingle ▸ hb)
  rcases mem_append.1 hy with hy | hy
  · exact hnonempty y (hxs y hy)
  · rw [mem_singleton.1 hy]
    exact hnonempty x hx

/-- The requests of a folder are all answered legally exactly when its store is servable. -/
theorem serveItems_answered_iff (ex : Exchange) :
    (∀ r : RequestItems, r.Legal ex → ∃ batches, Answered ex r batches) ↔ ex.store.Servable :=
  ⟨servable_of_answered, fun h _ hr => ⟨_, h.answered hr.1⟩⟩

end

/-! ### A tree node that no frame can carry -/

/-- A party of a session for the folder 1. -/
def Exchange.ofStore [SessionEnv] (st : Store) : Exchange where
  store := st
  packs _ := none
  folderId := ByteArr.fill 16 1
  maxRetries := 0
  maxFrame := maxFrameBody

theorem not_answered_of_long [SessionEnv] {bytes : Bytes} (hlen : maxFrameBody ≤ bytes.length) :
    ¬ ∃ batches, Answered (.ofStore (Store.empty.withBlob .treeNode bytes))
      ⟨ByteArr.fill 16 1, [(.treeNode, Env.blake3 bytes)]⟩ batches := by
  rintro ⟨batches, hanswered⟩
  have hhas : (Store.empty.withBlob .treeNode bytes).Has (.treeNode, Env.blake3 bytes, bytes) :=
    if_pos ⟨rfl, rfl⟩
  obtain ⟨b, hb, hin⟩ := hanswered.has (mem_singleton_self _) hhas
  have hshort := (hanswered.sendable b hb).short.2
  have hle := ItemBatch.le_payloadLen hin
  dsimp only at hle
  omega

namespace Sample

scoped instance sampleSessionEnv : SessionEnv := { sampleSyncEnv, samplePackEnv with }

/-- The directory with one file, of chunks of 8 MiB that are all the same. -/
def longNode (chunks : Nat) : TreeNode :=
  ⟨[⟨"z", false, 0, 0, .file (8388608 * chunks) (List.replicate chunks (zeroId, 8388608))⟩]⟩

theorem parseTreeNode_longNode {n : Nat} (hn : n < 2 ^ 32) :
    parseTreeNode (nodeBytes (longNode n).entries) = .ok (longNode n) := by
  have hsize : 8388608 * n < 2 ^ 64 := by omega
  have hsum : sumLens (List.replicate n (zeroId, 8388608)) = 8388608 * n := by
    rw [sumLens, map_replicate, sum_replicate_nat, Nat.mul_comm, Nat.mod_eq_of_lt hsize]
  refine parseTreeNode_ok_iff.2 ⟨?_, (by decide : 1 < 2 ^ 32), fun e he => ?_, rfl⟩
  · have hname : validateName "z" = .ok () := by decide
    simp [validateEntries, longNode, checkOrder, validateEntry, hname, hsum]
  obtain rfl := mem_singleton.1 he
  refine ⟨⟨show I64Range 0 by decide, show 0 < 2 ^ 32 by decide, hsize, fun c hc => ?_⟩,
    show (strBytes "z").length < 2 ^ 32 by decide, ?_⟩
  · rw [eq_of_mem_replicate hc]
    exact (by decide : 8388608 < 2 ^ 64)
  · change (List.replicate n _).length < 2 ^ 32
    rwa [length_replicate]

theorem length_longNode (n : Nat) : 40 * n ≤ (nodeBytes (longNode n).entries).length := by
  have hchunks : ((List.replicate n (zeroId, 8388608)).flatMap chunkRecord).length = n * 40 := by
    rw [length_flatMap, map_replicate, sum_replicate]
    rfl
  simp only [nodeBytes, longNode, TreeEntry.bytes, EntryPayload.bytes, flatMap_cons, length_append]
  omega

end Sample

open Sample in
/-- The node of a file with two million chunks is asked for. -/
theorem serveItems_longNode :
    ∃ bytes, parseTreeNode bytes = .ok (longNode 2000000) ∧
      ∃ r : RequestItems, r.Legal (.ofStore (Store.empty.withBlob .treeNode bytes)) ∧
        ¬ ∃ batches, Answered (.ofStore (Store.empty.withBlob .treeNode bytes)) r batches := by
  have hlen := length_longNode 2000000
  have hparse := parseTreeNode_longNode (n := 2000000) (by decide)
  generalize nodeBytes (longNode 2000000).entries = bytes at hlen hparse
  refine ⟨bytes, hparse, ⟨ByteArr.fill 16 1, [(.treeNode, Env.blake3 bytes)]⟩, ⟨rfl, ?_⟩, ?_⟩
  · exact (by decide : 1 ≤ maxRequestItems)
  · apply not_answered_of_long
    unfold maxFrameBody
    omega

end Ferry
