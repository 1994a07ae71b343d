import Ferry.Store.Codec

/-! # Pack files

A pack holds the plaintext of many blobs one after the other, sealed in segments
of 64 KiB, and a sealed footer that says where each blob lies. A pack is named
by the hash of its file, and a blob read from it is checked against its own id.
The cipher, the key derivation and the source of random bytes are third-party
code and stand as parameters.
-/

namespace Ferry

open Lib

abbrev PackId := BlobId

inductive ContainerKind where
  | packData
  | packMeta
  | index
  | configHead
  deriving DecidableEq, Repr

def ContainerKind.toU8 : ContainerKind → UInt8
  | .packData => 0x01
  | .packMeta => 0x02
  | .index => 0x03
  | .configHead => 0x04

def BlobKind.toU8 : BlobKind → UInt8
  | .dataChunk => 0x01
  | .treeNode => 0x02
  | .manifest => 0x03
  | .polynomial => 0x04

def BlobKind.fromU8 (v : UInt8) : Option BlobKind :=
  if v = 0x01 then some .dataChunk
  else if v = 0x02 then some .treeNode
  else if v = 0x03 then some .manifest
  else if v = 0x04 then some .polynomial
  else none

def BlobKind.isMeta : BlobKind → Bool
  | .dataChunk => false
  | _ => true

inductive CryptoError where
  | malformedCiphertext
  | tagMismatch
  deriving DecidableEq, Repr

/-- The cipher of a folder, its key derivation, and the random source: `salt` and `pick` give
the outcome of each draw. -/
class PackEnv extends Env where
  cipherSeal : ByteArr 32 → ByteArr 12 → Bytes → Bytes → Except CryptoError Bytes
  cipherOpen : ByteArr 32 → ByteArr 12 → Bytes → Bytes → Except CryptoError Bytes
  hkdfExpand : Bytes → ByteArr 16 → ByteArr 32 → ByteArr 32
  salt : Nat → ByteArr 16
  pick : Nat → Nat

inductive PackError where
  | badMagic
  | unknownKind (kind : UInt8)
  | badVersion
  | tooShort
  | notAPack
  | nameMismatch (expected found : String)
  | footerCrypto (e : CryptoError)
  | footerCorrupt (what : String)
  | reservedNonzero
  | disagreement (index footer : Nat × Nat)
  | bodyRegionMismatch (got want : Nat)
  | notFound
  | hashMismatch (expected found : String)
  | format (e : FormatError)
  | io
  /-- A slice index, a capacity or a nonce counter out of range: stands for a panic. -/
  | outOfRange
  deriving DecidableEq

/-! ## Headers, keys and nonces -/

def magic : Bytes := [0x46, 0x45, 0x52, 0x52, 0x59]

def formatVersion : Nat := 1

def headerLen : Nat := 10

def saltLen : Nat := 16

def tagLen : Nat := 16

def segmentPlainLen : Nat := 65536

def writeHeader (kind : ContainerKind) : Bytes := magic ++ [kind.toU8] ++ leBytes 4 formatVersion

def parseHeader (bytes : Bytes) : Except FormatError ContainerKind :=
  if bytes.length < headerLen then .error (.truncated headerLen bytes.length)
  else if bytes.take 5 ≠ magic then .error .badMagic
  else
    let kindByte := (bytes.drop 5).headD 0
    let version := leNat ((bytes.drop 6).take 4)
    let checked (kind : ContainerKind) : Except FormatError ContainerKind :=
      if version ≠ formatVersion then .error (.badVersion version formatVersion) else .ok kind
    if kindByte = 0x01 then checked .packData
    else if kindByte = 0x02 then checked .packMeta
    else if kindByte = 0x03 then checked .index
    else if kindByte = 0x04 then checked .configHead
    else .error (.unknownKind kindByte)

def bodyAad (header : Bytes) (kind : ContainerKind) : Bytes := header ++ [kind.toU8, 0x00]

def footerAad (header : Bytes) (kind : ContainerKind) : Bytes := header ++ [kind.toU8, 0x01]

/-- `body_nonce`: the counter and the last flag as one big-endian word. -/
def bodyNonce (counter : Nat) (last : Bool) : ByteArr 12 :=
  ⟨List.replicate 8 0 ++ (leBytes 4 (2 * counter + last.toNat)).reverse, by simp⟩

def footerNonce : ByteArr 12 := ⟨List.replicate 8 0 ++ List.replicate 4 0xFF, by simp⟩

def segmentCount (bodyPlainLen : Nat) : Nat := (bodyPlainLen + segmentPlainLen - 1) / segmentPlainLen

/-- On `u64`, where the sum may wrap. -/
def bodyRegionLen (bodyPlainLen : Nat) : Nat :=
  (bodyPlainLen + tagLen * segmentCount bodyPlainLen) % 2 ^ 64

def infoPackData : Bytes := strBytes "ferry/v1/pack/data"

def infoPackMeta : Bytes := strBytes "ferry/v1/pack/meta"

def infoIndex : Bytes := strBytes "ferry/v1/index"

section
variable [PackEnv]

/-- `derive_pack_key`; the kinds other than packs are never passed. -/
def derivePackKey (fmk : ByteArr 32) (salt : ByteArr 16) (kind : ContainerKind) : ByteArr 32 :=
  PackEnv.hkdfExpand (if kind = .packMeta then infoPackMeta else infoPackData) salt fmk

def deriveIndexKey (fmk : ByteArr 32) (salt : ByteArr 16) : ByteArr 32 :=
  PackEnv.hkdfExpand infoIndex salt fmk

end

/-! ## Footers -/

structure FooterEntry where
  kind : BlobKind
  id : BlobId
  plainOff : Nat
  plainLen : Nat
  deriving DecidableEq

def putFooterEntry (out : Bytes) (e : FooterEntry) : Bytes :=
  putU64 (putU64 (putBytes (putU8 out e.kind.toU8) e.id.val) e.plainOff) e.plainLen

def footerPlain (entries : List FooterEntry) (bodyPlainLen : Nat) : Bytes :=
  putU32 (entries.foldl putFooterEntry (putU32 (putU64 [] bodyPlainLen) entries.length)) 0

/-- `map_err(|_| PackError::FooterCorrupt("truncated"))`. -/
def footerStep {α : Type} (m : Read FormatError α) : Read PackError α :=
  m.mapError fun _ => .footerCorrupt "truncated"

def readFooterEntry : Read PackError FooterEntry := do
  let kb ← footerStep Reader.u8
  match BlobKind.fromU8 kb with
  | none => throw (.footerCorrupt "unknown blob kind")
  | some kind =>
    let id ← footerStep (Reader.array 32)
    let plainOff ← footerStep Reader.u64
    let plainLen ← footerStep Reader.u64
    return ⟨kind, id, plainOff, plainLen⟩

def readFooterTable : Read PackError (Nat × List FooterEntry) := do
  let bodyPlainLen ← footerStep Reader.u64
  let count ← footerStep Reader.u32
  let entries ← readN readFooterEntry count
  let reserved ← footerStep Reader.u32
  if reserved ≠ 0 then throw .reservedNonzero
  Reader.expectEnd.mapError fun _ => .footerCorrupt "trailing bytes"
  return (bodyPlainLen, entries)

def footerParse (bytes : Bytes) : Except PackError (Nat × List FooterEntry) := do
  let (r, _) ← readFooterTable.run (Reader.new bytes)
  return r

/-! ## Sealing and opening -/

section
variable [PackEnv]

def packNameOf (file : Bytes) : PackId := Env.blake3 file

def sealSegment (key : ByteArr 32) (aad body : Bytes) (count s : Nat) : Except CryptoError Bytes :=
  PackEnv.cipherSeal key (bodyNonce s (s + 1 == count)) aad
    ((body.drop (s * segmentPlainLen)).take segmentPlainLen)

def sealPackBytes (kind : ContainerKind) (fmk : ByteArr 32) (salt : ByteArr 16) (body : Bytes)
    (entries : List FooterEntry) : Except CryptoError Bytes := do
  let header := writeHeader kind
  let key := derivePackKey fmk salt kind
  let count := segmentCount body.length
  let segments ← (List.range count).mapM (sealSegment key (bodyAad header kind) body count)
  let footerCt ← PackEnv.cipherSeal key footerNonce (footerAad header kind)
    (footerPlain entries body.length)
  return header ++ salt.val ++ segments.flatten ++ footerCt ++ leBytes 4 footerCt.length

structure PackContext where
  kind : ContainerKind
  key : ByteArr 32
  bodyStart : Nat
  footerStart : Nat
  bodyPlainLen : Nat
  entries : List FooterEntry
  deriving DecidableEq

/-- `FormatError` as `open_pack` reports it. -/
def PackError.ofHeader : FormatError → PackError
  | .badMagic => .badMagic
  | .unknownKind k => .unknownKind k
  | .badVersion _ _ => .badVersion
  | other => .format other

/-- The salt behind the header; a shorter file has been refused before. -/
def saltOf (file : Bytes) : ByteArr 16 :=
  ⟨((file.drop headerLen).take saltLen ++ List.replicate saltLen 0).take saltLen, by simp [saltLen]⟩

def openPack (file : Bytes) (expected : PackId) (fmk : ByteArr 32) : Except PackError PackContext := do
  if packNameOf file ≠ expected then
    throw (.nameMismatch (hex expected.val) (hex (packNameOf file).val))
  if file.length < headerLen + saltLen + 4 then throw .tooShort
  let kind ← (parseHeader file).mapError .ofHeader
  if kind ≠ .packData ∧ kind ≠ .packMeta then throw .notAPack
  let flenPos := file.length - 4
  let footerLen := leNat (file.drop flenPos)
  if flenPos < footerLen then throw (.footerCorrupt "negative footer extent")
  let footerStart := flenPos - footerLen
  if footerStart < headerLen + saltLen then throw (.footerCorrupt "footer overlaps prologue")
  let key := derivePackKey fmk (saltOf file) kind
  let footerPt ← (PackEnv.cipherOpen key footerNonce (footerAad (file.take headerLen) kind)
    ((file.drop footerStart).take footerLen)).mapError .footerCrypto
  let (bodyPlainLen, entries) ← footerParse footerPt
  let gotRegion := footerStart - (headerLen + saltLen)
  if gotRegion ≠ bodyRegionLen bodyPlainLen then
    throw (.bodyRegionMismatch gotRegion (bodyRegionLen bodyPlainLen))
  return ⟨kind, key, headerLen + saltLen, footerStart, bodyPlainLen, entries⟩

def readFooter (file : Bytes) (expected : PackId) (fmk : ByteArr 32) :
    Except PackError (Nat × List FooterEntry) := do
  let ctx ← openPack file expected fmk
  return (ctx.bodyPlainLen, ctx.entries)

/-! ## Reading a blob -/

/-- The loop over the segments from `s`, `rounds` of them; lengths and offsets are 64-bit and wrap.
The counter of a nonce has 31 bits: `body_nonce` panics on a larger one. -/
def readSegments (file : Bytes) (ctx : PackContext) : Nat → Nat → Except PackError Bytes
  | 0, _ => .ok []
  | rounds + 1, s => do
    let plainHere := min segmentPlainLen
      ((ctx.bodyPlainLen + 2 ^ 64 - s * segmentPlainLen % 2 ^ 64) % 2 ^ 64)
    let ctOff := (ctx.bodyStart + s * (segmentPlainLen + tagLen)) % 2 ^ 64
    let ctEnd := (ctOff + plainHere + tagLen) % 2 ^ 64
    if ctx.footerStart < ctEnd then throw (.bodyRegionMismatch ctEnd ctx.footerStart)
    if 2 ^ 31 ≤ s % 2 ^ 32 ∨ ctEnd < ctOff then throw .outOfRange
    let pt ← (PackEnv.cipherOpen ctx.key (bodyNonce s (s + 1 == segmentCount ctx.bodyPlainLen))
      (bodyAad (file.take headerLen) ctx.kind) ((file.drop ctOff).take (ctEnd - ctOff))).mapError
        .footerCrypto
    let rest ← readSegments file ctx rounds (s + 1)
    return pt ++ rest

/-- The bytes, if they hash to the id they are asked for under. -/
def verifyHash (wantId : BlobId) (plain : Bytes) : Except PackError Bytes :=
  if Env.blake3 plain = wantId then .ok plain
  else .error (.hashMismatch (hex wantId.val) (hex (Env.blake3 plain).val))

/-- The last segment that an entry reaches into; on `u64`, where an empty entry wraps. -/
def lastSegment (entry : FooterEntry) : Nat :=
  ((entry.plainOff + entry.plainLen + 2 ^ 64 - 1) % 2 ^ 64) / segmentPlainLen

def sliceEntry (entry : FooterEntry) (assembled : Bytes) : Except PackError Bytes :=
  let start := entry.plainOff % segmentPlainLen
  if assembled.length < start + entry.plainLen then .error .outOfRange
  else verifyHash entry.id ((assembled.drop start).take entry.plainLen)

/-- The part of `read_blob_from_ctx` after the entry is found and agreed on. A vector has a capacity
below `2 ^ 63`. -/
def readEntry (file : Bytes) (ctx : PackContext) (entry : FooterEntry) : Except PackError Bytes := do
  if 2 ^ 63 ≤ entry.plainLen then throw .outOfRange
  let firstSeg := entry.plainOff / segmentPlainLen
  let assembled ← readSegments file ctx (lastSegment entry + 1 - firstSeg) firstSeg
  sliceEntry entry assembled

/-- `read_blob_from_ctx`, with the location the index claims. -/
def readBlobFromCtx (file : Bytes) (ctx : PackContext) (wantKind : BlobKind) (wantId : BlobId)
    (indexLoc : Nat × Nat) : Except PackError Bytes :=
  match ctx.entries.find? (fun e => e.kind = wantKind ∧ e.id = wantId) with
  | none => .error .notFound
  | some entry =>
    if indexLoc ≠ (entry.plainOff, entry.plainLen) then
      .error (.disagreement indexLoc (entry.plainOff, entry.plainLen))
    else readEntry file ctx entry

/-- `read_blob`; without a location of the index there is nothing to agree on. -/
def readBlob (file : Bytes) (expected : PackId) (fmk : ByteArr 32) (wantKind : BlobKind)
    (wantId : BlobId) (indexLoc : Option (Nat × Nat)) : Except PackError Bytes := do
  let ctx ← openPack file expected fmk
  match indexLoc with
  | some loc => readBlobFromCtx file ctx wantKind wantId loc
  | none =>
    match ctx.entries.find? (fun e => e.kind = wantKind ∧ e.id = wantId) with
    | none => throw .notFound
    | some entry => readEntry file ctx entry

variable {b file : Bytes} {id : BlobId} {ctx : PackContext} {kind : BlobKind}

theorem verifyHash_ok {plain : Bytes} (h : verifyHash id plain = .ok b) :
    b = plain ∧ Env.blake3 b = id := by
  unfold verifyHash at h
  split at h
  · cases h
    exact ⟨rfl, ‹_›⟩
  · cases h

theorem sliceEntry_hash {entry : FooterEntry} {assembled : Bytes}
    (h : sliceEntry entry assembled = .ok b) : Env.blake3 b = entry.id := by
  unfold sliceEntry at h
  dsimp only at h
  split at h
  · cases h
  · exact (verifyHash_ok h).2

theorem readEntry_hash {entry : FooterEntry}
    (h : readEntry file ctx entry = .ok b) : Env.blake3 b = entry.id := by
  unfold readEntry at h
  split at h
  · cases h
  · obtain ⟨assembled, -, h⟩ := bind_eq_ok.1 h
    exact sliceEntry_hash h

theorem readBlobFromCtx_ok {loc : Nat × Nat} (h : readBlobFromCtx file ctx kind id loc = .ok b) :
    ∃ e ∈ ctx.entries, e.kind = kind ∧ e.id = id ∧ readEntry file ctx e = .ok b := by
  unfold readBlobFromCtx at h
  split at h
  · cases h
  rename_i e he
  have hkey : e.kind = kind ∧ e.id = id := by simpa using List.find?_some he
  split at h
  · cases h
  · exact ⟨e, List.mem_of_find?_eq_some he, hkey.1, hkey.2, h⟩

theorem readBlobFromCtx_hash {loc : Nat × Nat} (h : readBlobFromCtx file ctx kind id loc = .ok b) :
    Env.blake3 b = id := by
  obtain ⟨e, -, -, hid, hread⟩ := readBlobFromCtx_ok h
  rw [readEntry_hash hread, hid]

theorem readBlob_hash {expected : PackId} {fmk : ByteArr 32} {indexLoc : Option (Nat × Nat)}
    (h : readBlob file expected fmk kind id indexLoc = .ok b) : Env.blake3 b = id := by
  obtain ⟨ctx, -, h⟩ := bind_eq_ok.1 h
  cases indexLoc with
  | some => exact readBlobFromCtx_hash h
  | none =>
    dsimp only at h
    split at h
    · cases h
    · rename_i e he
      have hkey : e.kind = kind ∧ e.id = id := by simpa using List.find?_some he
      rw [readEntry_hash h, hkey.2]

end

end Ferry
