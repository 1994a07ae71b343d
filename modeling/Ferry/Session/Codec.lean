import Ferry.Packs.Compaction
import Ferry.Session.Wire

/-! # The wire codec

Every message has an encoder and a parser, written apart from each other and
each with checks of its own. For each message one statement says which payloads
the parser accepts and what it makes of them; comparing that with the encoder
shows where the two sets of checks differ.
-/

namespace Ferry

open Lib List

/-! ## Words -/

namespace Reader

def word32 : Read FormatError UInt32 := do return UInt32.ofNat (leNat (← take 4))

def word64 : Read FormatError UInt64 := do return UInt64.ofNat (leNat (← take 8))

theorem word32_decodes : Decodes word32 fun v w => w = leBytes 4 v.toNat :=
  wordOf_decodes 4 (fun v => v.toNat_lt) (fun _ hm => UInt32.toNat_ofNat_of_lt' hm) fun _ => UInt32.ofNat_toNat

theorem word64_decodes : Decodes word64 fun v w => w = leBytes 8 v.toNat :=
  wordOf_decodes 8 (fun v => v.toNat_lt) (fun _ hm => UInt64.toNat_ofNat_of_lt' hm) fun _ => UInt64.ofNat_toNat

end Reader

/-- The check at the end of a parser, with its own text. -/
def expectEndOr (why : String) : Read ProtoError Unit := Reader.expectEnd.mapError fun _ => bad why

theorem expectEndOr_ok_iff (why : String) (r : Reader) (hr : Cursor.InBounds r) (x : Unit × Reader) :
    expectEndOr why r = .ok x ↔ Cursor.rest r = [] ∧ x = ((), r) := by
  rw [expectEndOr, Read.mapError_ok_iff]
  exact Reader.expectEnd_ok_iff hr x

/-! ## Greetings -/

structure Hello where
  version : ProtocolVersion
  flags : UInt64
  ephPub : ByteArr 32
  statPub : ByteArr 32
  nonce : ByteArr 32
  deriving DecidableEq

def Hello.encode (h : Hello) : Bytes :=
  leBytes 2 h.version.toNat ++ leBytes 8 h.flags.toNat ++ h.ephPub.val ++ h.statPub.val ++ h.nonce.val

def readHello : Read ProtoError Hello := do
  let version ← rdU16
  let flags ← Reader.word64.mapError fun _ => bad "hello short"
  let ephPub ← (Reader.array 32).mapError fun _ => bad "hello short"
  let statPub ← (Reader.array 32).mapError fun _ => bad "hello short"
  let nonce ← (Reader.array 32).mapError fun _ => bad "hello short"
  expectEndOr "hello trailing"
  return ⟨version, flags, ephPub, statPub, nonce⟩

def Hello.parse (payload : Bytes) : Except ProtoError Hello := do
  let (h, _) ← readHello.run (Reader.new payload)
  return h

theorem readHello_decodes : DecodesAll readHello fun h w => w = h.encode := by
  apply DecodesAll.congr
  · apply DecodesAll.field Reader.u16_decodes
    intro version
    apply DecodesAll.field Reader.word64_decodes
    intro flags
    apply DecodesAll.field (Reader.array_decodes 32)
    intro ephPub
    apply DecodesAll.field (Reader.array_decodes 32)
    intro statPub
    apply DecodesAll.field (Reader.array_decodes 32)
    intro nonce
    exact DecodesAll.ends _ (expectEndOr_ok_iff _)
  rintro ⟨version, flags, ephPub, statPub, nonce⟩ u
  simp [-Subtype.exists, Hello.encode]

variable {b : Bytes}

theorem Hello.parse_eq_ok {h : Hello} : parse b = .ok h ↔ b = h.encode :=
  readHello_decodes.run_new

structure HelloAck where
  version : ProtocolVersion
  agreed : ProtocolVersion
  flags : UInt64
  ephPub : ByteArr 32
  statPub : ByteArr 32
  nonce : ByteArr 32
  deriving DecidableEq

def HelloAck.encode (h : HelloAck) : Bytes :=
  leBytes 2 h.version.toNat ++ leBytes 2 h.agreed.toNat ++ leBytes 8 h.flags.toNat ++ h.ephPub.val ++
    h.statPub.val ++ h.nonce.val

def readHelloAck : Read ProtoError HelloAck := do
  let version ← rdU16
  let agreed ← rdU16
  let flags ← Reader.word64.mapError fun _ => bad "ack short"
  let ephPub ← (Reader.array 32).mapError fun _ => bad "ack short"
  let statPub ← (Reader.array 32).mapError fun _ => bad "ack short"
  let nonce ← (Reader.array 32).mapError fun _ => bad "ack short"
  expectEndOr "ack trailing"
  return ⟨version, agreed, flags, ephPub, statPub, nonce⟩

def HelloAck.parse (payload : Bytes) : Except ProtoError HelloAck := do
  let (h, _) ← readHelloAck.run (Reader.new payload)
  return h

theorem readHelloAck_decodes : DecodesAll readHelloAck fun h w => w = h.encode := by
  apply DecodesAll.congr
  · apply DecodesAll.field Reader.u16_decodes
    intro version
    apply DecodesAll.field Reader.u16_decodes
    intro agreed
    apply DecodesAll.field Reader.word64_decodes
    intro flags
    apply DecodesAll.field (Reader.array_decodes 32)
    intro ephPub
    apply DecodesAll.field (Reader.array_decodes 32)
    intro statPub
    apply DecodesAll.field (Reader.array_decodes 32)
    intro nonce
    exact DecodesAll.ends _ (expectEndOr_ok_iff _)
  rintro ⟨version, agreed, flags, ephPub, statPub, nonce⟩ u
  simp [-Subtype.exists, HelloAck.encode]

theorem HelloAck.parse_eq_ok {h : HelloAck} : parse b = .ok h ↔ b = h.encode :=
  readHelloAck_decodes.run_new

/-- A proof is made by `AuthProof::new`, which checks its length. -/
structure AuthProof where
  ciphertext : ByteArr 48
  deriving DecidableEq

def AuthProof.new (ciphertext : Bytes) : Except ProtoError AuthProof :=
  if h : ciphertext.length = 48 then .ok ⟨⟨ciphertext, h⟩⟩ else .error (bad "auth proof length")

def AuthProof.encode (p : AuthProof) : Bytes := p.ciphertext.val

def AuthProof.parse (payload : Bytes) : Except ProtoError AuthProof := AuthProof.new payload

theorem AuthProof.parse_eq_ok {p : AuthProof} : parse b = .ok p ↔ b = p.encode := by
  unfold parse new encode
  split
  · constructor
    · intro h
      cases h
      rfl
    · rintro rfl
      rfl
  · rename_i hlen
    constructor
    · intro h
      cases h
    · rintro rfl
      exact absurd p.ciphertext.property hlen

/-! ## Offers -/

/-- `FolderOffer` with its reserved field, which is zero in an offer that was parsed. -/
structure WireOffer extends FolderOffer where
  reserved : UInt32
  deriving DecidableEq

def WireOffer.encode (o : WireOffer) : Bytes :=
  o.folderId.val ++ o.manifestId.val ++ leBytes 4 o.reserved.toNat

def readOffer : Read ProtoError WireOffer := do
  let folderId ← (Reader.array 16).mapError fun _ => bad "offer short"
  let manifestId ← (Reader.array 32).mapError fun _ => bad "offer short"
  let reserved ← Reader.word32.mapError fun _ => bad "offer short"
  expectEndOr "offer trailing"
  if reserved ≠ 0 then throw (bad "offer reserved nonzero")
  return ⟨⟨folderId, manifestId⟩, reserved⟩

def WireOffer.parse (payload : Bytes) : Except ProtoError WireOffer := do
  let (o, _) ← readOffer.run (Reader.new payload)
  return o

theorem readOffer_decodes : DecodesAll readOffer fun o w => o.reserved = 0 ∧ w = o.encode := by
  apply DecodesAll.congr
  · apply DecodesAll.field (Reader.array_decodes 16)
    intro folderId
    apply DecodesAll.field (Reader.array_decodes 32)
    intro manifestId
    apply DecodesAll.field Reader.word32_decodes
    intro reserved
    apply DecodesAll.ends_then (expectEndOr_ok_iff _)
    apply DecodesAll.guard
    exact .pure _
  rintro ⟨⟨folderId, manifestId⟩, reserved⟩ u
  simp [-Subtype.exists, WireOffer.encode]
  rintro rfl
  rfl

theorem WireOffer.parse_eq_ok {o : WireOffer} :
    parse b = .ok o ↔ o.reserved = 0 ∧ b = o.encode :=
  readOffer_decodes.run_new

/-! ## Adverts -/

def maxRows : Nat := 2048

def IndexAdvert.encode (a : IndexAdvert) : Bytes :=
  tablePlain a.entries ++ [if a.more then 1 else 0]

def IndexAdvert.parse (payload : Bytes) : Except ProtoError IndexAdvert :=
  match payload.getLast? with
  | none => .error (bad "advert empty")
  | some moreByte =>
    match tableParse payload.dropLast with
    | .error _ => .error (bad "advert table malformed")
    | .ok entries =>
      if moreByte = 0 then .ok ⟨entries, false⟩
      else if moreByte = 1 then .ok ⟨entries, true⟩
      else .error (bad "advert flag invalid")

theorem IndexAdvert.parse_append (table : Bytes) (more : UInt8) {a : IndexAdvert} :
    parse (table ++ [more]) = .ok a ↔ tableParse table = .ok a.entries ∧ more = if a.more then 1 else 0 := by
  unfold parse
  rw [dropLast_concat]
  cases htable : tableParse table with
  | error => simp
  | ok =>
    obtain ⟨rows, flag⟩ := a
    by_cases hzero : more = 0
    · subst hzero
      cases flag <;> simp
    · by_cases hone : more = 1
      · subst hone
        cases flag <;> simp
      · cases flag <;> simp [hzero, hone]

theorem IndexAdvert.parse_eq_ok {a : IndexAdvert} : parse b = .ok a ↔
    ∃ table, tableParse table = .ok a.entries ∧ b = table ++ [if a.more then 1 else 0] := by
  rcases eq_nil_or_concat b with rfl | ⟨table, more, rfl⟩
  · simp [parse]
  rw [concat_eq_append, parse_append]
  constructor
  · rintro ⟨htable, rfl⟩
    exact ⟨table, htable, rfl⟩
  · rintro ⟨table', htable, heq⟩
    obtain ⟨rfl, hmore⟩ := append_inj' heq rfl
    exact ⟨htable, singleton_inj.1 hmore⟩

/-! ## Requests -/

def readRequestItem : Read ProtoError (BlobKind × BlobId) := do
  let kb ← Reader.u8.mapError fun _ => bad "req short"
  match BlobKind.fromU8 kb with
  | none => throw (bad "unknown blob kind")
  | some kind =>
    let id ← (Reader.array 32).mapError fun _ => bad "req short"
    return (kind, id)

def readRequestItems : Read ProtoError RequestItems := do
  let folderId ← (Reader.array 16).mapError fun _ => bad "req short"
  let n ← Reader.u32.mapError fun _ => bad "req short"
  if maxRequestItems < n then throw (bad "request too many items")
  let items ← readN readRequestItem n
  expectEndOr "req trailing"
  return ⟨folderId, items⟩

def RequestItems.parse (payload : Bytes) : Except ProtoError RequestItems := do
  let (r, _) ← readRequestItems.run (Reader.new payload)
  return r

theorem readRequestItem_decodes :
    Decodes readRequestItem fun item w => True ∧ w = BlobKind.itemBytes item := by
  apply Decodes.congr
  · apply BlobKind.decodes
    intro kind
    apply Decodes.field (Reader.array_decodes 32)
    intro id
    exact .pure _
  rintro ⟨kind, id⟩ u
  simp [-Subtype.exists, BlobKind.itemBytes]

def RequestItems.bytes (r : RequestItems) : Bytes :=
  r.folderId.val ++ leBytes 4 r.items.length ++ r.items.flatMap BlobKind.itemBytes

theorem readRequestItems_decodes : DecodesAll readRequestItems fun r w =>
    r.items.length ≤ maxRequestItems ∧ w = r.bytes := by
  apply DecodesAll.congr
  · apply DecodesAll.field (Reader.array_decodes 16)
    intro folderId
    apply DecodesAll.field Reader.u32_decodes
    intro n
    apply DecodesAll.guard
    apply DecodesAll.bind (readN_decodes readRequestItem_decodes n)
    intro items
    exact DecodesAll.ends _ (expectEndOr_ok_iff _)
  rintro ⟨folderId, items⟩ u
  simp [-Subtype.exists, RequestItems.bytes]
  exact fun _ hmax => lt_of_le_of_lt hmax (by decide)

theorem RequestItems.parse_eq_ok {r : RequestItems} :
    parse b = .ok r ↔ r.items.length ≤ maxRequestItems ∧ b = r.bytes :=
  readRequestItems_decodes.run_new

theorem RequestItems.encode_eq_ok {r : RequestItems} :
    r.encode = .ok b ↔ r.items.length ≤ maxRequestItems ∧ b = r.bytes := by
  unfold encode bytes
  split
  · rename_i hmax
    simp [Nat.not_le.2 hmax]
  · rename_i hmax
    simp [Nat.not_lt.1 hmax, eq_comm]

def RequestPacks.bytes (r : RequestPacks) : Bytes :=
  r.folderId.val ++ leBytes 4 r.packs.length ++ r.packs.flatMap (·.val)

def RequestPacks.encode (r : RequestPacks) : Except ProtoError Bytes :=
  if maxRequestPacks < r.packs.length then .error (.frameTooLarge r.packs.length maxRequestPacks)
  else .ok r.bytes

def readRequestPacks : Read ProtoError RequestPacks := do
  let folderId ← (Reader.array 16).mapError fun _ => bad "reqp short"
  let n ← Reader.u32.mapError fun _ => bad "reqp short"
  if maxRequestPacks < n then throw (bad "request too many packs")
  let packs ← readN ((Reader.array 32).mapError fun _ => bad "reqp short") n
  expectEndOr "reqp trailing"
  return ⟨folderId, packs⟩

def RequestPacks.parse (payload : Bytes) : Except ProtoError RequestPacks := do
  let (r, _) ← readRequestPacks.run (Reader.new payload)
  return r

theorem readRequestPacks_decodes : DecodesAll readRequestPacks fun r w =>
    r.packs.length ≤ maxRequestPacks ∧ w = r.bytes := by
  have hpack : ∀ f : FormatError → ProtoError, Decodes ((Reader.array 32).mapError f)
      fun (p : PackId) w => True ∧ w = p.val := fun f =>
    ((Reader.array_decodes 32).mapError f).congr fun p w => by simp
  apply DecodesAll.congr
  · apply DecodesAll.field (Reader.array_decodes 16)
    intro folderId
    apply DecodesAll.field Reader.u32_decodes
    intro n
    apply DecodesAll.guard
    apply DecodesAll.bind (readN_decodes (hpack _) n)
    intro packs
    exact DecodesAll.ends _ (expectEndOr_ok_iff _)
  rintro ⟨folderId, packs⟩ u
  simp [-Subtype.exists, RequestPacks.bytes]
  exact fun _ hmax => lt_of_le_of_lt hmax (by decide)

theorem RequestPacks.parse_eq_ok {r : RequestPacks} :
    parse b = .ok r ↔ r.packs.length ≤ maxRequestPacks ∧ b = r.bytes :=
  readRequestPacks_decodes.run_new

theorem RequestPacks.encode_eq_ok {r : RequestPacks} :
    r.encode = .ok b ↔ r.packs.length ≤ maxRequestPacks ∧ b = r.bytes := by
  unfold encode
  split
  · rename_i hmax
    simp [Nat.not_le.2 hmax]
  · rename_i hmax
    simp [Nat.not_lt.1 hmax, eq_comm]

/-! ## Contents -/

/-- The length is written as a `u32`. -/
def PackItem.bytesOf (item : PackItem) : Bytes :=
  item.pack.val ++ leBytes 4 item.bytes.length ++ item.bytes

def PackItem.encode (item : PackItem) : Except ProtoError Bytes := .ok item.bytesOf

def readPackItem : Read ProtoError PackItem := do
  let pack ← (Reader.array 32).mapError fun _ => bad "packitem short"
  let len ← Reader.u32.mapError fun _ => bad "packitem short"
  let bytes ← (Reader.take len).mapError fun _ => bad "packitem truncated"
  expectEndOr "packitem trailing"
  if bytes = [] then throw (bad "empty pack")
  return ⟨pack, bytes⟩

def PackItem.parse (payload : Bytes) : Except ProtoError PackItem := do
  let (item, _) ← readPackItem.run (Reader.new payload)
  return item

theorem readPackItem_decodes : DecodesAll readPackItem fun item w =>
    item.bytes ≠ [] ∧ item.bytes.length < 2 ^ 32 ∧ w = item.bytesOf := by
  apply DecodesAll.congr
  · apply DecodesAll.field (Reader.array_decodes 32)
    intro pack
    apply DecodesAll.field Reader.u32_decodes
    intro len
    apply DecodesAll.field (Reader.take_decodes len)
    intro bytes
    apply DecodesAll.ends_then (expectEndOr_ok_iff _)
    apply DecodesAll.guard
    exact .pure _
  rintro ⟨pack, bytes⟩ u
  simp [PackItem.bytesOf, and_assoc]
  exact and_left_comm

theorem PackItem.parse_eq_ok {item : PackItem} : parse b = .ok item ↔
    item.bytes ≠ [] ∧ item.bytes.length < 2 ^ 32 ∧ b = item.bytesOf :=
  readPackItem_decodes.run_new

/-! ## Farewells -/

def ByeReason.toU8 : ByeReason → UInt8
  | .normal => 0
  | .versionIncompatible => 1
  | .protocolViolation => 2
  | .authFailed => 3
  | .resourceLimit => 4
  | .internal => 5

def ByeReason.fromU8 (v : UInt8) : Option ByeReason :=
  if v = 0 then some .normal
  else if v = 1 then some .versionIncompatible
  else if v = 2 then some .protocolViolation
  else if v = 3 then some .authFailed
  else if v = 4 then some .resourceLimit
  else if v = 5 then some .internal
  else none

theorem ByeReason.fromU8_eq_some {v : UInt8} {reason : ByeReason} :
    fromU8 v = some reason ↔ v = reason.toU8 := by
  constructor
  · unfold fromU8
    intro h
    split_ifs at h <;> cases h <;> assumption
  · rintro rfl
    cases reason <;> rfl

def readBye : Read ProtoError ByeReason := do
  let code ← Reader.u8.mapError fun _ => bad "bye short"
  expectEndOr "bye trailing"
  match ByeReason.fromU8 code with
  | none => throw (bad "unknown bye code")
  | some reason => return reason

def ByeReason.encode (reason : ByeReason) : Bytes := [reason.toU8]

def ByeReason.parse (payload : Bytes) : Except ProtoError ByeReason := do
  let (reason, _) ← readBye.run (Reader.new payload)
  return reason

theorem readBye_decodes : DecodesAll readBye fun reason w => w = reason.encode := by
  apply DecodesAll.congr
  · apply DecodesAll.field Reader.u8_decodes
    intro code
    apply DecodesAll.ends_then (expectEndOr_ok_iff _)
    apply DecodesAll.ofOption (ByeReason.fromU8 code)
    · intro reason hreason
      rw [hreason]
      exact .pure _
    · exact fun hnone => ⟨_, by rw [hnone]⟩
  intro reason u
  constructor
  · rintro ⟨code, _, _, rfl, ⟨rfl, reason', hreason, rfl⟩, rfl⟩
    obtain rfl := ByeReason.fromU8_eq_some.1 hreason
    rfl
  · rintro rfl
    exact ⟨_, _, _, rfl, ⟨rfl, reason, ByeReason.fromU8_eq_some.2 rfl, rfl⟩, rfl⟩

theorem ByeReason.parse_eq_ok {reason : ByeReason} : parse b = .ok reason ↔ b = reason.encode :=
  readBye_decodes.run_new

end Ferry
