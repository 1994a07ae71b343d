import Ferry.Packs.Index
import Ferry.Packs.Sealing

/-! # Messages on the wire

The messages of a session after the handshake, and the layout of those whose
bytes the proofs look at: the body of a frame, a request for items and a batch
of items. A layout is given by its encoder; the parser is proved to accept what
the encoder writes.
-/

namespace Ferry

open Lib

/-! ## Frames -/

inductive MsgType where
  | folderOffer
  | indexAdvert
  | requestItems
  | requestPacks
  | itemBatch
  | packItem
  | bye
  deriving DecidableEq

inductive ByeReason where
  | normal
  | versionIncompatible
  | protocolViolation
  | authFailed
  | resourceLimit
  | internal
  deriving DecidableEq

structure FolderOffer where
  folderId : ByteArr 16
  manifestId : BlobId
  deriving DecidableEq

structure IndexAdvert where
  entries : List IndexEntry
  more : Bool
  deriving DecidableEq

structure RequestItems where
  folderId : ByteArr 16
  items : List (BlobKind × BlobId)
  deriving DecidableEq

structure RequestPacks where
  folderId : ByteArr 16
  packs : List PackId
  deriving DecidableEq

abbrev ItemBatch := List (BlobKind × BlobId × Bytes)

structure PackItem where
  pack : PackId
  bytes : Bytes
  deriving DecidableEq

inductive Frame where
  | folderOffer (offer : FolderOffer)
  | indexAdvert (advert : IndexAdvert)
  | requestItems (request : RequestItems)
  | requestPacks (request : RequestPacks)
  | itemBatch (items : ItemBatch)
  | packItem (item : PackItem)
  | bye (reason : ByeReason)
  deriving DecidableEq

def Frame.msgType : Frame → MsgType
  | .folderOffer _ => .folderOffer
  | .indexAdvert _ => .indexAdvert
  | .requestItems _ => .requestItems
  | .requestPacks _ => .requestPacks
  | .itemBatch _ => .itemBatch
  | .packItem _ => .packItem
  | .bye _ => .bye

def maxRequestItems : Nat := 512

def maxRequestPacks : Nat := 128

def maxBatchItems : Nat := 512

/-! ## Errors -/

inductive ProtoError where
  | protocolViolation (what : String)
  | missingItems (count : Nat)
  | byeReceived (reason : ByeReason)
  | frameTooLarge (len max : Nat)
  | auth (what : String)
  | unknownMessage (msgType : UInt8)
  | counterExhausted
  /-- `wire_store_err`. -/
  | store (e : StoreError)
  deriving DecidableEq

def bad (why : String) : ProtoError := .protocolViolation why

/-! ## Frame bodies -/

/-- Major version in the high byte, minor version in the low one. -/
abbrev ProtocolVersion := UInt16

def wireMagic : Bytes := [0x46, 0x52, 0x57, 0x31]

structure FrameBody where
  msgType : UInt8
  version : ProtocolVersion
  payload : Bytes
  deriving DecidableEq

def FrameBody.encode (fb : FrameBody) : Bytes :=
  wireMagic ++ [fb.msgType] ++ leBytes 2 fb.version.toNat ++ fb.payload

/-- `Reader::rest`. -/
def Reader.restBytes {ε : Type} : Read ε Bytes := fun r => .ok (r.buf.drop r.pos, r)

def Reader.u16 : Read FormatError UInt16 := do return UInt16.ofNat (leNat (← Reader.take 2))

def rdU16 : Read ProtoError UInt16 := Reader.u16.mapError fun _ => bad "truncated"

def readFrameBody : Read ProtoError FrameBody := do
  let head ← (Reader.take 4).mapError fun _ => bad "truncated"
  if head ≠ wireMagic then throw (bad "bad magic")
  let msgType ← Reader.u8.mapError fun _ => bad "type"
  let version ← rdU16
  let payload ← Reader.restBytes
  return ⟨msgType, version, payload⟩

def FrameBody.parse (bytes : Bytes) : Except ProtoError FrameBody := do
  let (fb, _) ← readFrameBody.run (Reader.new bytes)
  return fb

theorem Reader.restBytes_decodes {ε α : Type} (f : Bytes → α) :
    DecodesAll (do return f (← Reader.restBytes) : Read ε α) fun a w => a = f w := by
  intro r hr a
  constructor
  · rintro ⟨r', h⟩
    cases h
    rfl
  · rintro rfl
    exact ⟨r, rfl⟩

theorem Reader.u16_decodes : Decodes Reader.u16 fun v w => w = leBytes 2 v.toNat :=
  Reader.wordOf_decodes 2 (fun v => v.toNat_lt) (fun _ hm => UInt16.toNat_ofNat_of_lt' hm) fun _ =>
    UInt16.ofNat_toNat

theorem readFrameBody_decodes : DecodesAll readFrameBody fun fb w => w = fb.encode := by
  apply DecodesAll.congr
  · apply DecodesAll.field (Reader.take_decodes 4)
    intro head
    apply DecodesAll.guard
    apply DecodesAll.field Reader.u8_decodes
    intro msgType
    apply DecodesAll.field Reader.u16_decodes
    intro version
    exact Reader.restBytes_decodes fun payload => FrameBody.mk msgType version payload
  rintro ⟨msgType, version, payload⟩ u
  simp [FrameBody.encode, wireMagic]

theorem FrameBody.parse_eq_ok {b : Bytes} {fb : FrameBody} : parse b = .ok fb ↔ b = fb.encode :=
  readFrameBody_decodes.run_new

/-! ## Requests for items -/

def BlobKind.itemBytes (item : BlobKind × BlobId) : Bytes := item.1.toU8 :: item.2.val

def RequestItems.encode (r : RequestItems) : Except ProtoError Bytes :=
  if maxRequestItems < r.items.length then .error (.frameTooLarge r.items.length maxRequestItems)
  else .ok (r.folderId.val ++ leBytes 4 r.items.length ++ r.items.flatMap BlobKind.itemBytes)

/-! ## Batches of items -/

def itemBytes (item : BlobKind × BlobId × Bytes) : Bytes :=
  item.1.toU8 :: (item.2.1.val ++ leBytes 8 item.2.2.length ++ item.2.2)

def ItemBatch.encode (batch : ItemBatch) : Except ProtoError Bytes :=
  if maxBatchItems < batch.length then .error (.frameTooLarge batch.length maxBatchItems)
  else if batch.any (·.2.2 = []) then .error (bad "empty blob cannot exist")
  else .ok (leBytes 4 batch.length ++ batch.flatMap itemBytes)

def readItem : Read ProtoError (BlobKind × BlobId × Bytes) := do
  let kb ← Reader.u8.mapError fun _ => bad "batch short"
  match BlobKind.fromU8 kb with
  | none => throw (bad "unknown blob kind")
  | some kind =>
    let id ← (Reader.array 32).mapError fun _ => bad "batch short"
    let len ← Reader.u64.mapError fun _ => bad "batch short"
    let bytes ← (Reader.take len).mapError fun _ => bad "batch truncated"
    return (kind, id, bytes)

def readBatch : Read ProtoError ItemBatch := do
  let n ← Reader.u32.mapError fun _ => bad "batch short"
  if maxBatchItems < n then throw (bad "batch too many items")
  let items ← readN readItem n
  Reader.expectEnd.mapError fun _ => bad "batch trailing"
  return items

def ItemBatch.parse (payload : Bytes) : Except ProtoError ItemBatch := do
  let (items, _) ← readBatch.run (Reader.new payload)
  return items

theorem readItem_decodes : Decodes readItem fun item w => item.2.2.length < 2 ^ 64 ∧ w = itemBytes item := by
  apply Decodes.congr
  · apply BlobKind.decodes
    intro kind
    apply Decodes.field (Reader.array_decodes 32)
    intro id
    apply Decodes.field Reader.u64_decodes
    intro len
    apply Decodes.field (Reader.take_decodes len)
    intro bytes
    exact .pure _
  rintro ⟨kind, id, bytes⟩ u
  simp [-Subtype.exists, itemBytes]

theorem readBatch_decodes : DecodesAll readBatch fun items w => items.length ≤ maxBatchItems ∧
    (∀ item ∈ items, item.2.2.length < 2 ^ 64) ∧ w = leBytes 4 items.length ++ items.flatMap itemBytes := by
  apply DecodesAll.congr
  · apply DecodesAll.field Reader.u32_decodes
    intro n
    apply DecodesAll.guard
    apply DecodesAll.bind (readN_decodes readItem_decodes n)
    intro items
    exact Reader.ends_decodes _ _
  intro items u
  simp [and_assoc]
  exact fun hmax _ _ => lt_of_le_of_lt hmax (by decide)

def batchBytes (batch : ItemBatch) : Bytes := leBytes 4 batch.length ++ batch.flatMap itemBytes

theorem ItemBatch.parse_eq_ok {payload : Bytes} {batch : ItemBatch} :
    ItemBatch.parse payload = .ok batch ↔ batch.length ≤ maxBatchItems ∧
      (∀ item ∈ batch, item.2.2.length < 2 ^ 64) ∧
      payload = batchBytes batch :=
  readBatch_decodes.run_new

theorem ItemBatch.encode_eq_ok {batch : ItemBatch} {b : Bytes} : ItemBatch.encode batch = .ok b ↔
    batch.length ≤ maxBatchItems ∧ (∀ item ∈ batch, item.2.2 ≠ []) ∧ b = batchBytes batch := by
  unfold ItemBatch.encode batchBytes
  split
  · rename_i hmax
    simp [Nat.not_le.2 hmax]
  rename_i hmax
  split
  · rename_i hempty
    obtain ⟨item, hitem, hnil⟩ := List.any_eq_true.1 hempty
    constructor
    · intro h
      cases h
    · rintro ⟨-, hall, -⟩
      exact absurd (of_decide_eq_true hnil) (hall item hitem)
  · rename_i hempty
    have hall : ∀ item ∈ batch, item.2.2 ≠ [] := fun item hitem hnil =>
      hempty (List.any_eq_true.2 ⟨item, hitem, decide_eq_true hnil⟩)
    constructor
    · intro h
      cases h
      exact ⟨Nat.not_lt.1 hmax, hall, rfl⟩
    · rintro ⟨-, -, rfl⟩
      rfl

theorem ItemBatch.parse_encode {payload : Bytes} {batch : ItemBatch} (h : ItemBatch.encode batch = .ok payload)
    (hfits : ∀ item ∈ batch, item.2.2.length < 2 ^ 64) : ItemBatch.parse payload = .ok batch := by
  obtain ⟨hmax, -, rfl⟩ := ItemBatch.encode_eq_ok.1 h
  exact ItemBatch.parse_eq_ok.2 ⟨hmax, hfits, rfl⟩

end Ferry
