import Ferry.Pairing.Wire

/-! # The device that shares

An open offer can be answered in three ways: over a network server that runs
until the offer expires, by a device in the same process that enters the code,
and by a response file beside the offer file. Each has its own bookkeeping: a
callback that can be used once, an entry in the rendezvous map, the files
themselves. Times are nanoseconds.
-/

namespace Ferry

open Lib

structure FolderError where
  code : String
  message : String
  hint : String
  deriving DecidableEq

def FolderKeyError.text : FolderKeyError → String
  | .auth => "wrapped key envelope failed authentication"
  | .badLen len => "wrapped_len MUST be 80 in v1, got " ++ toString len
  | .degeneratePeerKey => "peer public key produced a degenerate shared secret"

def PairingError.text : PairingError → String
  | .badMagic => "bad magic bytes"
  | .badVersion v => "unsupported pairing format_version " ++ toString v
  | .truncated need have_ =>
    "truncated pairing message: need " ++ toString need ++ " bytes, have " ++ toString have_
  | .macMismatch => "response MAC failed verification"
  | .keyWrap e => e.text

/-! ## The key envelopes of a folder -/

structure WrappedKeyEntry where
  devicePub : DeviceId
  wrapped : ByteArr 80
  deriving DecidableEq

structure ConfigHead where
  folderId : ByteArr 16
  entries : List WrappedKeyEntry
  deriving DecidableEq

/-- `append_wrap_entry_for`; a file that is missing or does not parse is `none`. -/
def appendWrapEntry (head : Option ConfigHead) (folderId : ByteArr 16) (recipient : DeviceId)
    (wrapped : ByteArr 80) : Except FolderError ConfigHead :=
  match head with
  | none => .error ⟨"config-corrupt", "", "missing key envelope"⟩
  | some h =>
    if h.entries.any (·.devicePub = recipient) then .ok h
    else .ok ⟨folderId, h.entries ++ [⟨recipient, wrapped⟩]⟩

/-! ## Payload envelopes -/

def payloadPrefix : List Char := "FERRY1".toList

def codeAlphabet : List Char := "23456789ABCDEFGHJKLMNPQRSTUVWXYZ".toList

/-- `char::is_whitespace`. -/
def isWhitespace (c : Char) : Bool :=
  let n := c.toNat
  (9 ≤ n ∧ n ≤ 13) ∨ n = 32 ∨ n = 0x85 ∨ n = 0xA0 ∨ n = 0x1680 ∨ (0x2000 ≤ n ∧ n ≤ 0x200A) ∨
    n = 0x2028 ∨ n = 0x2029 ∨ n = 0x202F ∨ n = 0x205F ∨ n = 0x3000

def trimChars (cs : List Char) : List Char :=
  ((cs.dropWhile isWhitespace).reverse.dropWhile isWhitespace).reverse

def toAsciiUppercase (c : Char) : Char :=
  if 'a' ≤ c ∧ c ≤ 'z' then Char.ofNat (c.toNat - 32) else c

def codeKey (code : List Char) : List Char :=
  ((trimChars code).filter fun c => c ≠ '-' ∧ c ≠ ' ').map toAsciiUppercase

/-- `parse::<u64>`. -/
def parseU64 (cs : List Char) : Option Nat :=
  let digits := match cs with
    | '+' :: rest => rest
    | _ => cs
  if digits ≠ [] ∧ digits.all (fun c => '0' ≤ c ∧ c ≤ '9') then
    let n := digits.foldl (fun acc c => acc * 10 + (c.toNat - 48)) 0
    if n < 2 ^ 64 then some n else none
  else none

def splitColon (cs : List Char) : List (List Char) :=
  match cs with
  | [] => [[]]
  | c :: rest =>
    if c = ':' then [] :: splitColon rest
    else match splitColon rest with
      | [] => [[c]]
      | part :: parts => (c :: part) :: parts

structure PayloadEnvelope where
  code : List Char
  offerBytes : Bytes
  expiresAt : Int
  deriving DecidableEq

def parsePayloadEnvelope (text : List Char) : Option PayloadEnvelope := do
  let rest ← (payloadPrefix ++ [':']).isPrefixOf? (trimChars text)
  match splitColon rest with
  | code :: offerHex :: secs :: _ => do
    let secs ← parseU64 secs
    let code := codeKey code
    if code.length ≠ 6 ∨ ¬ code.all (· ∈ codeAlphabet) then none
    else do
      let offer ← unhex offerLen offerHex
      return ⟨code, offer.val, secs * 10 ^ 9⟩
  | _ => none

def encodeEnvelope (code : List Char) (offerBytes : Bytes) (expiresAt : Int) : List Char :=
  payloadPrefix ++ [':'] ++ codeKey code ++ [':'] ++
    (offerBytes.flatMap fun x => [hexDigit (x.toNat / 16), hexDigit (x.toNat % 16)]) ++ [':'] ++
    Nat.toDigits 10 (expiresAt.toNat / 10 ^ 9)

def expired (expiresAt now : Int) : Bool := expiresAt ≤ now

/-! ## The state of an offer -/

/-- The record of an open offer in the rendezvous map. -/
structure SessionRecord where
  folderId : ByteArr 16
  offerBytes : Bytes
  fmk : ByteArr 32
  poly : Nat
  expiresAt : Int
  deriving DecidableEq

inductive ServerPhase where
  | listening
  /-- A client has been sent the offer. -/
  | connected
  | ended
  deriving DecidableEq

/-- The server thread; `callback` tells whether `on_response` is still there. -/
structure PairingServer where
  phase : ServerPhase
  stopped : Bool
  callback : Bool
  offerBytes : Bytes
  expiresAt : Int
  fmk : ByteArr 32
  poly : Nat
  deriving DecidableEq

/-- The sharing device, as far as one offer is concerned. -/
structure Sharer where
  /-- The secret key of the device. -/
  identity : ByteArr 32
  code : List Char
  folderId : ByteArr 16
  poly : Nat
  head : Option ConfigHead
  server : Option PairingServer
  session : Option SessionRecord
  /-- Devices that have read the record and have yet to join. -/
  joining : List (ByteArr 32 × SessionRecord)
  offerFile : Option Bytes
  responseFile : Option Bytes
  grantFile : Option Bytes
  draw : Nat
  /-- The devices added because of the offer, with the time. -/
  added : List (Int × DeviceId)

inductive PairEvent where
  /-- The server thread goes round its loop, with a client waiting. -/
  | serve
  | frame (bytes : Bytes)
  /-- The client sends nothing in time. -/
  | hangUp
  | poll
  /-- Others write offer and response file. -/
  | files (offer response : Option Bytes)
  /-- A device in the same process enters the code. -/
  | enter (device : ByteArr 32) (code : List Char)
  /-- It joins; `adopts` tells whether it can set up its own copy. -/
  | join (device : ByteArr 32) (adopts : Bool)
  deriving DecidableEq

section
variable [PairEnv]

def Sharer.publicKey (s : Sharer) : DeviceId := PairEnv.publicOf s.identity

/-- `append_wrap_entry_for` on the shared folder. -/
def Sharer.admitPeer (s : Sharer) (now : Int) (device : DeviceId) (wrapped : ByteArr 80) :
    Except FolderError Sharer :=
  match appendWrapEntry s.head s.folderId device wrapped with
  | .error e => .error e
  | .ok head => .ok { s with
      head := some head,
      added := if s.head = some head then s.added else s.added ++ [(now, device)] }

/-- `let _ = append_wrap_entry_for(..)`: a failure is ignored. -/
def Sharer.tryAdmit (s : Sharer) (now : Int) (device : DeviceId) (wrapped : ByteArr 80) : Sharer :=
  match s.admitPeer now device wrapped with
  | .error _ => s
  | .ok s' => s'

/-- `json!(..).to_string()`. -/
def grantBody (wrapped : ByteArr 80) (poly : Nat) : Bytes :=
  strBytes ("\x7b\"poly\":" ++ toString poly ++ ",\"wrapped_for_peer\":\"" ++ hex wrapped.val ++ "\"\x7d")

def sealGrant (offerBytes : Bytes) (wrapped : ByteArr 80) (poly draw : Nat) : Except GrantError Bytes :=
  sealPairGrant offerBytes (grantBody wrapped poly) draw

/-! ## Making an offer -/

def offerExpiry (now : Int) : Int := now + 24 * 3600 * 10 ^ 9

/-- `create_offer` with the outcome of its random choices; `serverStarts` tells whether the listening
socket could be bound. -/
def createOffer (identity : ByteArr 32) (code : List Char) (folderId : ByteArr 16) (poly : Nat) (head : ConfigHead)
    (fmk secret : ByteArr 32) (nowSec now : Int) (serverStarts : Bool) (draw : Nat) : Sharer :=
  let offer : PairingOffer := ⟨folderId, PairEnv.publicOf identity, secret, nowSec⟩
  let expiresAt := offerExpiry now
  { identity, code, folderId, poly, head := some head
    server := if serverStarts then
      some ⟨.listening, false, true, offer.serialize, expiresAt, fmk, poly⟩ else none
    session := some ⟨folderId, offer.serialize, fmk, poly, expiresAt⟩
    joining := [], offerFile := none, responseFile := none, grantFile := none, draw, added := [] }

/-! ## The network server -/

/-- One round of the server loop; the offer is sent to a client that is let in. -/
def Sharer.serve (s : Sharer) (now : Int) : Sharer × Option Bytes :=
  match s.server with
  | none => (s, none)
  | some srv =>
    if srv.phase ≠ .listening then (s, none)
    else if srv.stopped ∨ srv.expiresAt < now then
      ({ s with server := some { srv with phase := .ended } }, none)
    else ({ s with server := some { srv with phase := .connected } }, some srv.offerBytes)

/-- The checks of `on_response`. -/
def PairingServer.complete (srv : PairingServer) (bytes : Bytes) (self : DeviceId) (draw : Nat) :
    Except PairingError CompletedPairing := do
  let offer ← PairingOffer.parse srv.offerBytes
  let response ← PairingResponse.parse bytes
  completePairing offer srv.offerBytes response srv.fmk self draw

/-- `on_response`: the entry in the key envelopes may fail to be written, which is ignored. -/
def Sharer.onResponse (s : Sharer) (srv : PairingServer) (now : Int) (bytes : Bytes) :
    Sharer × Option Bytes :=
  match srv.complete bytes s.publicKey s.draw with
  | .error _ => (s, none)
  | .ok done =>
    let s := { s with draw := s.draw + 2 }
    let s := s.tryAdmit now done.peerPub done.wrappedForPeer
    match sealGrant srv.offerBytes done.wrappedForPeer srv.poly s.draw with
    | .error _ => (s, none)
    | .ok grant => ({ s with session := none, draw := s.draw + 1 }, some grant)

/-- A frame arrives on the open connection; the answer is a grant, an empty frame, or nothing once
the callback is gone. -/
def Sharer.frame (s : Sharer) (now : Int) (bytes : Bytes) : Sharer × Option Bytes :=
  match s.server with
  | none => (s, none)
  | some srv =>
    if srv.phase ≠ .connected then (s, none)
    else if srv.callback then
      match s.onResponse srv now bytes with
      | (s', some grant) =>
        ({ s' with server := some { srv with phase := .ended, stopped := true, callback := false } },
          some grant)
      | (s', none) =>
        ({ s' with server := some { srv with phase := .listening, callback := false } }, some [])
    else ({ s with server := some { srv with phase := .listening } }, none)

def Sharer.hangUp (s : Sharer) : Sharer :=
  match s.server with
  | none => s
  | some srv =>
    if srv.phase ≠ .connected then s
    else { s with server := some { srv with phase := .listening } }

/-! ## The shared session -/

def Sharer.stopServer (s : Sharer) : Sharer :=
  { s with server := s.server.map fun srv => { srv with stopped := true } }

/-- `peek_session`, then `consume_expired`. -/
def Sharer.enter (s : Sharer) (now : Int) (device : ByteArr 32) (code : List Char) : Sharer :=
  match s.session with
  | none => s
  | some record =>
    if codeKey code ≠ s.code then s
    else if expired record.expiresAt now then { s.stopServer with session := none }
    else { s with joining := s.joining ++ [(device, record)] }

/-- `join_via_session`, on the record that was read before. -/
def Sharer.join (s : Sharer) (now : Int) (device : ByteArr 32) (adopts : Bool) : Sharer :=
  match s.joining.find? (·.1 = device) with
  | none => s
  | some (_, record) =>
    let s := { s with joining := s.joining.filter (·.1 ≠ device) }
    if adopts = false then s
    else match PairEnv.wrapFolderKey record.fmk record.folderId (PairEnv.publicOf device) s.draw with
      | .error _ => s
      | .ok wrapped =>
        let s := s.tryAdmit now (PairEnv.publicOf device) wrapped
        { s.stopServer with session := none, draw := s.draw + 1 }

/-! ## Files beside the offer -/

def unwrapOwnFmk (head : Option ConfigHead) (identity : ByteArr 32) : Except FolderError (ByteArr 32) :=
  match head with
  | none => .error ⟨"config-corrupt", "", "the folder's key envelope is missing or unreadable"⟩
  | some h =>
    match h.entries.find? (·.devicePub = PairEnv.publicOf identity) with
    | none => .error ⟨"not-shared-with-device", "this folder was not shared with this device",
        "run `ferry init` here or ask the owner to share again"⟩
    | some entry =>
      (PairEnv.unwrapFolderKey entry.wrapped h.folderId identity).mapError fun e =>
        ⟨"key-unwrap", e.text, "your device.key may have changed; restore it or re-pair"⟩

def badOffer (e : PairingError) : FolderError :=
  ⟨"bad-offer", e.text, "get a fresh offer file from the sharing device"⟩

def readEnvelope (file : Bytes) : Except FolderError PayloadEnvelope :=
  match parsePayloadEnvelope (PairEnv.utf8Lossy file) with
  | some envelope => .ok envelope
  | none => .error ⟨"bad-offer", "the payload file is not a FERRY1 pairing envelope",
      "get a fresh offer file from the sharing device"⟩

/-- `poll_offer_at` up to the completed pairing, if the files hold an answer. -/
def Sharer.pollAnswer (s : Sharer) : Except FolderError (Option (PayloadEnvelope × CompletedPairing)) :=
  match s.offerFile with
  | none => .ok none
  | some file => do
    let envelope ← readEnvelope file
    match s.responseFile with
    | none => return none
    | some bytes =>
      if bytes = [] then return none
      else match PairingResponse.parse bytes with
        | .error (.truncated _ _) => return none
        | .error _ => throw ⟨"pair-bad-response",
            "the response file is damaged; have the other device re-run accept",
            "have the other device re-run accept"⟩
        | .ok response => do
          let fmk ← unwrapOwnFmk s.head s.identity
          let offer ← (PairingOffer.parse envelope.offerBytes).mapError badOffer
          let done ← (completePairing offer envelope.offerBytes response fmk s.publicKey
            s.draw).mapError fun e => ⟨"pair-verify", e.text,
              "the response did not match this offer; start over with a fresh offer"⟩
          return some (envelope, done)

def Sharer.poll (s : Sharer) (now : Int) : Sharer :=
  match s.pollAnswer with
  | .ok (some (envelope, done)) =>
    match s.admitPeer now done.peerPub done.wrappedForPeer with
    | .error _ => s
    | .ok s' =>
      match sealGrant envelope.offerBytes done.wrappedForPeer s'.poly s'.draw with
      | .error _ => s'
      | .ok grant => { s' with grantFile := some grant, draw := s'.draw + 3 }
  | _ => s

/-! ## Runs -/

def Sharer.step (s : Sharer) (now : Int) : PairEvent → Sharer
  | .serve => (s.serve now).1
  | .frame bytes => (s.frame now bytes).1
  | .hangUp => s.hangUp
  | .poll => s.poll now
  | .files offer response => { s with offerFile := offer, responseFile := response }
  | .enter device code => s.enter now device code
  | .join device adopts => s.join now device adopts

def Sharer.after (s : Sharer) (events : List (Int × PairEvent)) : Sharer :=
  events.foldl (fun s e => s.step e.1 e.2) s

end

end Ferry
