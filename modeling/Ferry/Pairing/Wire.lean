import Ferry.Lib.Except
import Ferry.Store.Codec

/-! # Offers, responses and grants

A device that shares a folder makes an offer with a one-time secret. Whoever
answers it proves knowledge of the secret by a MAC over the offer and their own
device id, and gets the folder key wrapped for that device in a grant sealed
under a key derived from the same secret. HMAC, AEAD, key derivation and key
wrapping are third-party code and stand as parameters.
-/

namespace Ferry

open Lib

/-- A device is named by its public key. -/
abbrev DeviceId := ByteArr 32

def wrappedLen : Nat := 80

inductive FolderKeyError where
  | auth
  | badLen (len : Nat)
  | degeneratePeerKey
  deriving DecidableEq

/-- Third-party functions: HMAC-SHA256, HKDF with the labels of grants, the AEAD, the key pair of a
device, and key wrapping; `draw` numbers the random choices. -/
class PairEnv where
  hmac : Bytes → Bytes → ByteArr 32
  grantKey : Bytes → ByteArr 32
  aeadSeal : ByteArr 32 → ByteArr 12 → Bytes → Bytes → Option Bytes
  aeadOpen : ByteArr 32 → ByteArr 12 → Bytes → Bytes → Option Bytes
  publicOf : ByteArr 32 → DeviceId
  wrapFolderKey : ByteArr 32 → ByteArr 16 → DeviceId → Nat → Except FolderKeyError (ByteArr 80)
  unwrapFolderKey : ByteArr 80 → ByteArr 16 → ByteArr 32 → Except FolderKeyError (ByteArr 32)
  grantNonce : Nat → ByteArr 12
  /-- `String::from_utf8_lossy`. -/
  utf8Lossy : Bytes → List Char

inductive PairingError where
  | badMagic
  | badVersion (v : UInt8)
  | truncated (need have_ : Nat)
  | macMismatch
  | keyWrap (e : FolderKeyError)
  deriving DecidableEq

inductive GrantError where
  | malformed (need have_ : Nat)
  | auth
  | offerTruncated (need have_ : Nat)
  | internal
  deriving DecidableEq

/-- `bytes[off..off + n]`, on bytes that are long enough. -/
def ByteArr.slice (b : Bytes) (off n : Nat) : ByteArr n :=
  ⟨((b.drop off).take n ++ List.replicate n 0).take n, by simp⟩

theorem ByteArr.slice_append {n : Nat} (pre post : Bytes) (x : ByteArr n) :
    ByteArr.slice (pre ++ (x.val ++ post)) pre.length n = x := by
  simp [ByteArr.slice, x.property]

theorem ByteArr.slice_append' {n off : Nat} (pre post : Bytes) (x : ByteArr n) (h : pre.length = off) :
    ByteArr.slice (pre ++ (x.val ++ post)) off n = x := by
  subst h
  exact ByteArr.slice_append pre post x

/-! ## Offers -/

def offerMagic : Bytes := [0x46, 0x52, 0x50, 0x4F]

def responseMagic : Bytes := [0x46, 0x52, 0x50, 0x52]

def pairingVersion : UInt8 := 1

def offerLen : Nat := 4 + 1 + 16 + 32 + 32 + 8

def responseLen : Nat := 4 + 1 + 32 + 32 + 8

structure PairingOffer where
  folderId : ByteArr 16
  initiatorPub : DeviceId
  secret : ByteArr 32
  createdSec : Int
  deriving DecidableEq

def PairingOffer.serialize (o : PairingOffer) : Bytes :=
  offerMagic ++ ([pairingVersion] ++ (o.folderId.val ++ (o.initiatorPub.val ++ (o.secret.val ++
    leBytes 8 (i64Word o.createdSec)))))

def PairingOffer.parse (bytes : Bytes) : Except PairingError PairingOffer :=
  if bytes.length ≠ offerLen then .error (.truncated offerLen bytes.length)
  else if bytes.take 4 ≠ offerMagic then .error .badMagic
  else if (bytes.drop 4).headD 0 ≠ pairingVersion then .error (.badVersion ((bytes.drop 4).headD 0))
  else .ok ⟨.slice bytes 5 16, .slice bytes 21 32, .slice bytes 53 32,
    wordI64 (leNat (ByteArr.slice bytes 85 8).val)⟩

theorem PairingOffer.length_serialize (o : PairingOffer) : o.serialize.length = offerLen := by
  simp [serialize, offerMagic, offerLen, o.folderId.property, o.initiatorPub.property, o.secret.property]

/-- An offer is read back as it was written. -/
theorem PairingOffer.parse_serialize (o : PairingOffer) (h : I64Range o.createdSec) :
    parse o.serialize = .ok o := by
  have hfolder : ByteArr.slice o.serialize 5 16 = o.folderId :=
    ByteArr.slice_append' (offerMagic ++ [pairingVersion]) _ o.folderId rfl
  have hpub : ByteArr.slice o.serialize 21 32 = o.initiatorPub := by
    exact ByteArr.slice_append' _ _ o.initiatorPub (by simp [o.folderId.property])
  have hsecret : ByteArr.slice o.serialize 53 32 = o.secret := by
    have hsplit : o.serialize = (offerMagic ++ [pairingVersion] ++ o.folderId.val ++ o.initiatorPub.val) ++
        (o.secret.val ++ leBytes 8 (i64Word o.createdSec)) := by
      simp [serialize]
    rw [hsplit]
    exact ByteArr.slice_append' _ _ o.secret
      (by simp [offerMagic, o.folderId.property, o.initiatorPub.property])
  have hcreated : (ByteArr.slice o.serialize 85 8).val = leBytes 8 (i64Word o.createdSec) := by
    have hsplit : o.serialize = (offerMagic ++ [pairingVersion] ++ o.folderId.val ++ o.initiatorPub.val ++
        o.secret.val) ++ (leBytes 8 (i64Word o.createdSec) ++ []) := by
      simp [serialize]
    rw [hsplit]
    exact congrArg Subtype.val (ByteArr.slice_append' _ _ ⟨_, leBytes_length 8 _⟩
      (by simp [offerMagic, o.folderId.property, o.initiatorPub.property, o.secret.property]))
  unfold parse
  rw [if_neg (not_not.2 o.length_serialize), if_neg (by simp [serialize, offerMagic]),
    if_neg (by simp [serialize, offerMagic]), hfolder, hpub, hsecret, hcreated,
    leNat_leBytes _ _ (i64Word_lt _), wordI64_i64Word _ h]

/-! ## Responses -/

structure PairingResponse where
  responderPub : DeviceId
  mac : ByteArr 32
  createdSec : Int
  deriving DecidableEq

def PairingResponse.serialize (r : PairingResponse) : Bytes :=
  responseMagic ++ ([pairingVersion] ++ (r.responderPub.val ++ (r.mac.val ++
    leBytes 8 (i64Word r.createdSec))))

def PairingResponse.parse (bytes : Bytes) : Except PairingError PairingResponse :=
  if bytes.length ≠ responseLen then .error (.truncated responseLen bytes.length)
  else if bytes.take 4 ≠ responseMagic then .error .badMagic
  else if (bytes.drop 4).headD 0 ≠ pairingVersion then .error (.badVersion ((bytes.drop 4).headD 0))
  else .ok ⟨.slice bytes 5 32, .slice bytes 37 32, wordI64 (leNat (ByteArr.slice bytes 69 8).val)⟩

theorem PairingResponse.parse_serialize (r : PairingResponse) (h : I64Range r.createdSec) :
    parse r.serialize = .ok r := by
  have hpub : ByteArr.slice r.serialize 5 32 = r.responderPub :=
    ByteArr.slice_append' (responseMagic ++ [pairingVersion]) _ r.responderPub rfl
  have hmac : ByteArr.slice r.serialize 37 32 = r.mac := by
    exact ByteArr.slice_append' _ _ r.mac (by simp [r.responderPub.property])
  have hcreated : (ByteArr.slice r.serialize 69 8).val = leBytes 8 (i64Word r.createdSec) := by
    have hsplit : r.serialize = (responseMagic ++ [pairingVersion] ++ r.responderPub.val ++ r.mac.val) ++
        (leBytes 8 (i64Word r.createdSec) ++ []) := by
      simp [serialize]
    rw [hsplit]
    exact congrArg Subtype.val (ByteArr.slice_append' _ _ ⟨_, leBytes_length 8 _⟩
      (by simp [responseMagic, r.responderPub.property, r.mac.property]))
  have hlen : r.serialize.length = responseLen := by
    simp [serialize, responseMagic, responseLen, r.responderPub.property, r.mac.property]
  unfold parse
  rw [if_neg (not_not.2 hlen), if_neg (by simp [serialize, responseMagic]),
    if_neg (by simp [serialize, responseMagic]), hpub, hmac, hcreated,
    leNat_leBytes _ _ (i64Word_lt _), wordI64_i64Word _ h]

section
variable [PairEnv]

def transcriptInfo : Bytes := strBytes "ferry/v1/pairing/confirm"

def computeMac (offerBytes : Bytes) (oneTimeSecret : ByteArr 32) (responderPub : DeviceId) : ByteArr 32 :=
  PairEnv.hmac oneTimeSecret.val (transcriptInfo ++ offerBytes ++ responderPub.val)

def PairingResponse.verify (r : PairingResponse) (offer : PairingOffer) (offerBytes : Bytes) :
    Except PairingError Unit :=
  if computeMac offerBytes offer.secret r.responderPub ≠ r.mac then .error .macMismatch
  else if offer.serialize ≠ offerBytes then .error .macMismatch
  else .ok ()

def respond (offer : PairingOffer) (responderPub : DeviceId) (nowSec : Int) : PairingResponse :=
  ⟨responderPub, computeMac offer.serialize offer.secret responderPub, nowSec⟩

structure CompletedPairing where
  peerPub : DeviceId
  wrappedForSelf : ByteArr 80
  wrappedForPeer : ByteArr 80
  deriving DecidableEq

def completePairing (offer : PairingOffer) (offerBytes : Bytes) (response : PairingResponse)
    (fmk : ByteArr 32) (initiatorPub : DeviceId) (draw : Nat) : Except PairingError CompletedPairing := do
  response.verify offer offerBytes
  let wrappedForPeer ← (PairEnv.wrapFolderKey fmk offer.folderId response.responderPub draw).mapError .keyWrap
  let wrappedForSelf ← (PairEnv.wrapFolderKey fmk offer.folderId initiatorPub (draw + 1)).mapError .keyWrap
  return ⟨response.responderPub, wrappedForSelf, wrappedForPeer⟩

theorem verify_respond (offer : PairingOffer) (d : DeviceId) (now : Int) :
    (respond offer d now).verify offer offer.serialize = .ok () := by
  simp [PairingResponse.verify, respond]

/-! ## Grants -/

def grantMagic : Bytes := [0x46, 0x52, 0x47, 0x52]

def grantVersion : UInt8 := 1

def grantHeaderLen : Nat := 4 + 1 + 12

/-- `offer_bytes.get(53..85)`. -/
def offerOneTimeSecret (offerBytes : Bytes) : Except GrantError Bytes :=
  if offerBytes.length < 85 then .error (.offerTruncated 85 offerBytes.length)
  else .ok ((offerBytes.drop 53).take 32)

def sealPairGrant (offerBytes body : Bytes) (draw : Nat) : Except GrantError Bytes := do
  let secret ← offerOneTimeSecret offerBytes
  let nonce := PairEnv.grantNonce draw
  match PairEnv.aeadSeal (PairEnv.grantKey secret) nonce offerBytes body with
  | none => throw .internal
  | some ct => return grantMagic ++ ([grantVersion] ++ (nonce.val ++ ct))

def openPairGrant (offerBytes raw : Bytes) : Except GrantError Bytes :=
  if raw.length < grantHeaderLen ∨ raw.take 4 ≠ grantMagic ∨ (raw.drop 4).headD 0 ≠ grantVersion then
    .error (.malformed grantHeaderLen raw.length)
  else do
    let secret ← offerOneTimeSecret offerBytes
    match PairEnv.aeadOpen (PairEnv.grantKey secret) (.slice raw 5 12) offerBytes
        (raw.drop grantHeaderLen) with
    | none => throw .auth
    | some body => return body

end

namespace Sample

/-- Stand-ins with which small runs can be evaluated: a polynomial hash for the MAC, no encryption. -/
scoped instance samplePairEnv : PairEnv where
  hmac key msg := ⟨leBytes 32 ((key ++ msg).foldl (fun acc b => acc * 257 + b.toNat + 1) 0), by simp⟩
  grantKey _ := zeroId
  aeadSeal _ _ _ body := some body
  aeadOpen _ _ _ ct := some ct
  publicOf sk := sk
  wrapFolderKey fmk _ device _ := .ok ⟨fmk.val ++ (device.val ++ List.replicate 16 0), by
    simp [fmk.property, device.property]⟩
  unwrapFolderKey w _ _ := .ok (.slice w.val 0 32)
  grantNonce n := ⟨leBytes 12 n, by simp⟩
  utf8Lossy b := b.map fun x => Char.ofNat x.toNat

end Sample

end Ferry
