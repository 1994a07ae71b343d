import Ferry.Lib.Effect
import Ferry.Session.Wire

/-! # The encrypted channel

After the handshake every frame of one direction is sealed under one key, with a
counter for the nonce on either side. An attacker between the two sides decides
what the receiver is handed and when. The cipher is third-party code and stands
as a parameter; that it is authentic is said of a run: what opens was sealed
before, under the same nonce and with the same length in front.
-/

namespace Ferry

open Lib List

/-- ChaCha20-Poly1305: key, nonce, associated data, and the text. -/
class AeadEnv where
  aeadSeal : ByteArr 32 → Bytes → Bytes → Bytes → Option Bytes
  aeadOpen : ByteArr 32 → Bytes → Bytes → Bytes → Option Bytes

def beBytes (width v : Nat) : Bytes := (leBytes width v).reverse

theorem beBytes_inj {width v v' : Nat} (hv : v < 256 ^ width) (hv' : v' < 256 ^ width)
    (h : beBytes width v = beBytes width v') : v = v' := by
  rw [← leNat_leBytes width v hv, reverse_injective h, leNat_leBytes width v' hv']

/-! ## The cipher of a direction -/

structure SessionCipher where
  key : ByteArr 32
  /-- A `u64`; the last value is never used for a nonce. -/
  seq : Nat

def SessionCipher.new (key : ByteArr 32) : SessionCipher := ⟨key, 0⟩

def lastSeq : Nat := 2 ^ 64 - 1

def trafficNoncePrefix : Bytes := [0x46, 0x50, 0x4E, 0x31]

def trafficNonce (seq : Nat) : Bytes := trafficNoncePrefix ++ beBytes 8 seq

theorem trafficNonce_inj {m n : Nat} (hm : m < lastSeq) (hn : n < lastSeq)
    (h : trafficNonce m = trafficNonce n) : m = n := by
  have hlast : lastSeq < 256 ^ 8 := by decide
  exact beBytes_inj (hm.trans hlast) (hn.trans hlast) (append_cancel_left h)

/-- A step of a cipher; its counter stays where it is when the step fails. -/
abbrev CipherM := EStateM ProtoError SessionCipher

def nextNonce : CipherM Bytes := fun c =>
  if c.seq = lastSeq then .error .counterExhausted c
  else .ok (trafficNonce c.seq) { c with seq := c.seq + 1 }

section
variable [AeadEnv]

def sealFrame (lenPrefix : Nat) (bodyRegion : Bytes) : CipherM Bytes := do
  let nonce ← nextNonce
  match AeadEnv.aeadSeal (← get).key nonce (beBytes 4 lenPrefix) bodyRegion with
  | some ct => return ct
  | none => throw (.protocolViolation "frame seal failure")

def openFrame (lenPrefix : Nat) (ct : Bytes) : CipherM Bytes := do
  if ct.length < 16 then throw (.protocolViolation "sealed body too short")
  else
    let nonce ← nextNonce
    match AeadEnv.aeadOpen (← get).key nonce (beBytes 4 lenPrefix) ct with
    | some body => return body
    | none => throw (.auth "post-auth frame failed tag verification")

end

/-! ## Sending and receiving -/

structure SessionIo where
  version : ProtocolVersion
  tx : Option SessionCipher
  rx : Option SessionCipher
  peerMax : ProtocolVersion
  peerFlags : UInt64

abbrev SessionM := EStateM ProtoError SessionIo

def knownTypes : List UInt8 :=
  [0x01, 0x02, 0x03, 0x04, 0x05, 0x06, 0x07, 0x08, 0x09, 0x0A, 0x0B]

def flagExtensionAware : UInt64 := 1

/-- The peer is of a later minor version and uses flags that are not known here. -/
def SessionIo.skipsUnknown (io : SessionIo) : Bool :=
  (io.peerMax >>> 8 == 0x01 && decide (0 < io.peerMax % 256)) &&
    (io.peerFlags &&& ~~~ flagExtensionAware) != 0

section
variable [AeadEnv]

/-- `send_frame` up to the link: what the link is handed to send. -/
def sendFrame (msgType : UInt8) (payload : Bytes) : SessionM Bytes := fun io =>
  let body := (FrameBody.mk msgType io.version payload).encode
  match io.tx with
  | none => .ok body io
  | some c =>
    match sealFrame ((body.length + 16) % 2 ^ 32) body c with
    | .ok ct c' => .ok ct { io with tx := some c' }
    | .error e c' => .error e { io with tx := some c' }

/-- The plain text of a body that the link has received. -/
def openBody (raw : Bytes) : SessionM Bytes := fun io =>
  match io.rx with
  | none => .ok raw io
  | some c =>
    match openFrame (raw.length % 2 ^ 32) raw c with
    | .ok body c' => .ok body { io with rx := some c' }
    | .error e c' => .error e { io with rx := some c' }

/-- How a turn of the loop of `recv_frame` ends. -/
inductive Turn where
  | skipped (fb : FrameBody)
  | returned (fb : FrameBody)

/-- One turn of the loop of `recv_frame`, on what the link hands it. -/
def recvTurn (raw : Bytes) : SessionM Turn := fun io =>
  match openBody raw io with
  | .error e io' => .error e io'
  | .ok plain io' =>
    match FrameBody.parse plain with
    | .error e => .error e io'
    | .ok fb =>
      if fb.msgType ∈ knownTypes then .ok (.returned fb) io'
      else if io'.skipsUnknown then .ok (.skipped fb) io'
      else .error (.unknownMessage fb.msgType) io'

end

/-! ## Runs between an honest sender and an attacker -/

/-- One encryption: what the cipher was called with, and what it gave. -/
structure Seal where
  nonce : Bytes
  aad : Bytes
  body : Bytes
  ct : Option Bytes

structure Channel where
  sender : SessionIo
  receiver : SessionIo
  /-- Every encryption of the sender. -/
  seals : List Seal
  /-- The frames that the sender has handed to its link. -/
  sent : List FrameBody
  /-- The frames that the receiver has taken in, those it skips included. -/
  taken : List FrameBody
  /-- The frames that `recv_frame` has returned. -/
  received : List FrameBody
  /-- The first error of the receiver. -/
  failed : Option ProtoError

inductive ChannelEvent where
  /-- The sender calls `send_frame`. -/
  | send (msgType : UInt8) (payload : Bytes)
  /-- The attacker hands the receiver a body. -/
  | deliver (raw : Bytes)

section
variable [AeadEnv]

/-- The encryption that `send_frame` makes, if its counter is not used up. -/
def SessionIo.sealing (io : SessionIo) (msgType : UInt8) (payload : Bytes) : Option Seal :=
  let body := (FrameBody.mk msgType io.version payload).encode
  let aad := beBytes 4 ((body.length + 16) % 2 ^ 32)
  match io.tx with
  | none => none
  | some c =>
    if c.seq = lastSeq then none
    else some ⟨trafficNonce c.seq, aad, body, AeadEnv.aeadSeal c.key (trafficNonce c.seq) aad body⟩

namespace Channel

def step (ch : Channel) : ChannelEvent → Channel
  | .send msgType payload =>
    let seals := ch.seals ++ (ch.sender.sealing msgType payload).toList
    match sendFrame msgType payload ch.sender with
    | .ok _ io =>
      { ch with
        sender := io
        seals := seals
        sent := ch.sent ++ [⟨msgType, ch.sender.version, payload⟩] }
    | .error _ io => { ch with sender := io, seals := seals }
  | .deliver raw =>
    match ch.failed with
    | some _ => ch
    | none =>
      match recvTurn raw ch.receiver with
      | .ok (.skipped fb) io => { ch with receiver := io, taken := ch.taken ++ [fb] }
      | .ok (.returned fb) io =>
        { ch with receiver := io, taken := ch.taken ++ [fb], received := ch.received ++ [fb] }
      | .error e io => { ch with receiver := io, failed := some e }

def run (ch : Channel) (events : List ChannelEvent) : Channel := events.foldl step ch

/-- What opens is what the sender has sealed, under the same nonce and length. -/
def Authentic (key : ByteArr 32) (ch : Channel) (raw : Bytes) : Prop :=
  ∀ nonce aad body, AeadEnv.aeadOpen key nonce aad raw = some body → ⟨nonce, aad, body, some raw⟩ ∈ ch.seals

/-- The attacker forges nothing in the whole run. -/
def AuthenticRun (key : ByteArr 32) : Channel → List ChannelEvent → Prop
  | _, [] => True
  | ch, .send msgType payload :: events => AuthenticRun key (ch.step (.send msgType payload)) events
  | ch, .deliver raw :: events => ch.Authentic key raw ∧ AuthenticRun key (ch.step (.deliver raw)) events

end Channel

end

namespace Channel

def start (key : ByteArr 32) (sender receiver : SessionIo) : Channel where
  sender := { sender with tx := some (.new key) }
  receiver := { receiver with rx := some (.new key) }
  seals := []
  sent := []
  taken := []
  received := []
  failed := none

/-! ## The two counters -/

/-- The counters tell how much was sealed and how much was taken in, and what was taken in are the
first frames that were sealed. -/
structure Synced (key : ByteArr 32) (ch : Channel) : Prop where
  tx : ch.sender.tx = some ⟨key, ch.seals.length⟩
  bound : ch.seals.length ≤ lastSeq
  nonces : ch.seals.map (·.nonce) = (List.range ch.seals.length).map trafficNonce
  sent : ch.sent.map FrameBody.encode = (ch.seals.filter (·.ct.isSome)).map (·.body)
  rx : ch.failed = none → ch.receiver.rx = some ⟨key, ch.taken.length⟩
  taken : ∃ front rest, ch.seals = front ++ rest ∧ (∀ s ∈ front, s.ct.isSome) ∧
    ch.taken.map FrameBody.encode = front.map (·.body)
  received : ch.received = ch.taken.filter (·.msgType ∈ knownTypes)

variable {key : ByteArr 32} {ch : Channel}

theorem synced_start (key : ByteArr 32) (sender receiver : SessionIo) :
    Synced key (start key sender receiver) where
  tx := rfl
  bound := Nat.zero_le _
  nonces := rfl
  sent := rfl
  rx _ := rfl
  taken := ⟨[], [], rfl, by simp, rfl⟩
  received := rfl

theorem Synced.place (h : ch.Synced key) {s : Seal} (hs : s ∈ ch.seals) {n : Nat} (hn : n < lastSeq)
    (hnonce : s.nonce = trafficNonce n) : ch.seals[n]? = some s := by
  obtain ⟨i, hi, rfl⟩ := getElem_of_mem hs
  have hat : trafficNonce i = trafficNonce n := by
    rw [← hnonce]
    have hmap := congrArg (·[i]?) h.nonces
    simpa [hi] using hmap.symm
  obtain rfl := trafficNonce_inj (lt_of_lt_of_le hi h.bound) hn hat
  exact getElem?_eq_getElem hi

theorem Synced.nodup (h : ch.Synced key) : (ch.seals.map (·.nonce)).Nodup := by
  rw [h.nonces]
  refine nodup_range.map_on ?_
  intro m hm n hn heq
  exact trafficNonce_inj (lt_of_lt_of_le (mem_range.1 hm) h.bound)
    (lt_of_lt_of_le (mem_range.1 hn) h.bound) heq

end Channel

/-! ## One step -/

section
variable [AeadEnv] {io io' : SessionIo} {key : ByteArr 32} {n : Nat}

omit [AeadEnv] in
theorem nextNonce_of_ne (hn : n ≠ lastSeq) :
    nextNonce ⟨key, n⟩ = .ok (trafficNonce n) ⟨key, n + 1⟩ := if_neg hn

theorem sealFrame_eq (hn : n ≠ lastSeq) (len : Nat) (body : Bytes) :
    sealFrame len body ⟨key, n⟩ = match AeadEnv.aeadSeal key (trafficNonce n) (beBytes 4 len) body with
      | some ct => .ok ct ⟨key, n + 1⟩
      | none => .error (.protocolViolation "frame seal failure") ⟨key, n + 1⟩ := by
  unfold sealFrame
  rw [run_bind_ok (nextNonce_of_ne hn), run_bind_ok (run_get _)]
  cases AeadEnv.aeadSeal key (trafficNonce n) (beBytes 4 len) body with
  | none | some => rfl

theorem openFrame_ok {len : Nat} {ct body : Bytes} {c : SessionCipher}
    (h : openFrame len ct ⟨key, n⟩ = .ok body c) : n ≠ lastSeq ∧ c = ⟨key, n + 1⟩ ∧
      AeadEnv.aeadOpen key (trafficNonce n) (beBytes 4 len) ct = some body := by
  unfold openFrame at h
  split at h
  · cases h
  by_cases hn : n = lastSeq
  · have hnonce : nextNonce ⟨key, n⟩ = .error .counterExhausted ⟨key, n⟩ := if_pos hn
    rw [run_bind_error hnonce] at h
    cases h
  rw [run_bind_ok (nextNonce_of_ne hn), run_bind_ok (run_get _)] at h
  cases hopen : AeadEnv.aeadOpen key (trafficNonce n) (beBytes 4 len) ct with
  | none =>
    simp only [hopen] at h
    cases h
  | some =>
    simp only [hopen] at h
    cases h
    exact ⟨hn, rfl, rfl⟩

theorem sendFrame_exhausted (htx : io.tx = some ⟨key, lastSeq⟩) (msgType : UInt8) (payload : Bytes) :
    sendFrame msgType payload io = .error .counterExhausted io ∧ io.sealing msgType payload = none := by
  refine ⟨?_, by simp [SessionIo.sealing, htx]⟩
  unfold sendFrame
  rw [htx]
  change EStateM.Result.error _ { io with tx := some ⟨key, lastSeq⟩ } = _
  rw [← htx]

theorem sendFrame_sealed (htx : io.tx = some ⟨key, n⟩) (hn : n ≠ lastSeq) (msgType : UInt8)
    (payload : Bytes) :
    ∃ s, io.sealing msgType payload = some s ∧ s.nonce = trafficNonce n ∧
      s.body = (FrameBody.mk msgType io.version payload).encode ∧
      match s.ct with
      | some ct => sendFrame msgType payload io = .ok ct { io with tx := some ⟨key, n + 1⟩ }
      | none => ∃ e, sendFrame msgType payload io = .error e { io with tx := some ⟨key, n + 1⟩ } := by
  refine ⟨_, by rw [SessionIo.sealing, htx]; exact if_neg hn, rfl, rfl, ?_⟩
  unfold sendFrame
  rw [htx]
  dsimp only
  rw [sealFrame_eq hn]
  split
  · rename_i ct hct
    simp
  · rename_i hct
    simp

def Turn.frame : Turn → FrameBody
  | .skipped fb => fb
  | .returned fb => fb

/-- What a receive tells of the bytes that came: sealed under this key and number. -/
theorem recvTurn_ok {raw : Bytes} {turn : Turn} (hrx : io.rx = some ⟨key, n⟩)
    (h : recvTurn raw io = .ok turn io') :
    n ≠ lastSeq ∧ io'.rx = some ⟨key, n + 1⟩ ∧
      AeadEnv.aeadOpen key (trafficNonce n) (beBytes 4 (raw.length % 2 ^ 32)) raw = some turn.frame.encode ∧
      match turn with
      | .skipped fb => fb.msgType ∉ knownTypes
      | .returned fb => fb.msgType ∈ knownTypes := by
  unfold recvTurn openBody at h
  rw [hrx] at h
  dsimp only at h
  cases hopen : openFrame (raw.length % 2 ^ 32) raw ⟨key, n⟩ with
  | error =>
    rw [hopen] at h
    cases h
  | ok plain =>
    rw [hopen] at h
    obtain ⟨hn, rfl, hsome⟩ := openFrame_ok hopen
    dsimp only at h
    cases hparse : FrameBody.parse plain with
    | error =>
      rw [hparse] at h
      cases h
    | ok =>
      obtain rfl := FrameBody.parse_eq_ok.1 hparse
      rw [hparse] at h
      dsimp only at h
      split at h
      · cases h
        exact ⟨hn, rfl, hsome, ‹_›⟩
      · split at h
        · cases h
          exact ⟨hn, rfl, hsome, ‹_›⟩
        · cases h

namespace Channel

variable {ch : Channel}

/-- A sent frame joins those under way. -/
theorem Synced.send (h : ch.Synced key) (msgType : UInt8) (payload : Bytes) :
    (ch.step (.send msgType payload)).Synced key := by
  by_cases hlast : ch.seals.length = lastSeq
  · obtain ⟨hsend, hseal⟩ := sendFrame_exhausted (hlast ▸ h.tx) msgType payload
    have hstep : ch.step (.send msgType payload) = ch := by
      simp only [step, hsend, hseal, Option.toList_none, append_nil]
    rw [hstep]
    exact h
  obtain ⟨s, hseal, hnonce, hbody, hres⟩ := sendFrame_sealed h.tx hlast msgType payload
  have hbound : (ch.seals ++ [s]).length ≤ lastSeq := by
    have hle := h.bound
    simp only [length_append, length_singleton]
    omega
  have hnonces : (ch.seals ++ [s]).map (·.nonce) =
      (List.range (ch.seals ++ [s]).length).map trafficNonce := by
    simp [range_succ, h.nonces, hnonce]
  obtain ⟨front, rest, hsplit, hfront, htaken⟩ := h.taken
  have htaken' : ∃ front rest, ch.seals ++ [s] = front ++ rest ∧ (∀ s ∈ front, s.ct.isSome) ∧
      ch.taken.map FrameBody.encode = front.map (·.body) :=
    ⟨front, rest ++ [s], by rw [hsplit, append_assoc], hfront, htaken⟩
  cases hct : s.ct with
  | none =>
    rw [hct] at hres
    obtain ⟨e, hsend⟩ := hres
    have hstep : ch.step (.send msgType payload) = { ch with
        sender := { ch.sender with tx := some ⟨key, ch.seals.length + 1⟩ }
        seals := ch.seals ++ [s] } := by
      simp only [step, hsend, hseal, Option.toList_some]
    rw [hstep]
    exact ⟨by simp, hbound, hnonces, by simp [h.sent, hct], h.rx, htaken', h.received⟩
  | some =>
    rw [hct] at hres
    have hstep : ch.step (.send msgType payload) = { ch with
        sender := { ch.sender with tx := some ⟨key, ch.seals.length + 1⟩ }
        seals := ch.seals ++ [s]
        sent := ch.sent ++ [⟨msgType, ch.sender.version, payload⟩] } := by
      simp only [step, hres, hseal, Option.toList_some]
    rw [hstep]
    exact ⟨by simp, hbound, hnonces, by simp [h.sent, hct, hbody], h.rx, htaken', h.received⟩

omit [AeadEnv] in
/-- What the receiver opens is the next frame in the order of sealing. -/
theorem Synced.takeIn (h : ch.Synced key) {fb : FrameBody} {aad raw : Bytes} (hn : ch.taken.length ≠ lastSeq)
    (hseal : ⟨trafficNonce ch.taken.length, aad, fb.encode, some raw⟩ ∈ ch.seals) :
    ∃ front rest, ch.seals = front ++ rest ∧ (∀ s ∈ front, s.ct.isSome) ∧
      (ch.taken ++ [fb]).map FrameBody.encode = front.map (·.body) := by
  obtain ⟨front, rest, hsplit, hfront, htaken⟩ := h.taken
  have hlen : ch.taken.length = front.length := by
    simpa using congrArg List.length htaken
  have hlt : ch.taken.length < lastSeq := by
    have hle := h.bound
    rw [hsplit, length_append] at hle
    omega
  have hat := h.place hseal hlt rfl
  rw [hsplit, hlen, getElem?_append_right le_rfl, Nat.sub_self] at hat
  cases rest with
  | nil => cases hat
  | cons s rest =>
    cases hat
    refine ⟨front ++ [_], rest, by rw [hsplit, append_assoc]; rfl, ?_, by simp [htaken]⟩
    intro s hs
    rcases mem_append.1 hs with hs | hs
    · exact hfront s hs
    · rw [mem_singleton.1 hs]
      rfl

/-- The step lemma for a delivery: a frame comes in only in its turn. -/
theorem Synced.deliver (h : ch.Synced key) {raw : Bytes} (hauth : ch.Authentic key raw) :
    (ch.step (.deliver raw)).Synced key := by
  cases hfailed : ch.failed with
  | some =>
    have hstep : ch.step (.deliver raw) = ch := by simp only [step, hfailed]
    rw [hstep]
    exact h
  | none =>
    cases hturn : recvTurn raw ch.receiver with
    | error e io =>
      have hstep : ch.step (.deliver raw) = { ch with receiver := io, failed := some e } := by
        simp only [step, hfailed, hturn]
      rw [hstep]
      exact ⟨h.tx, h.bound, h.nonces, h.sent, by simp, h.taken, h.received⟩
    | ok turn io =>
      obtain ⟨hn, hrx, hopen, hknown⟩ := recvTurn_ok (h.rx hfailed) hturn
      have htaken := h.takeIn hn (hauth _ _ _ hopen)
      cases turn with
      | skipped fb =>
        have hstep : ch.step (.deliver raw) =
            { ch with receiver := io, taken := ch.taken ++ [fb] } := by
          simp only [step, hfailed, hturn]
        rw [hstep]
        refine ⟨h.tx, h.bound, h.nonces, h.sent, fun _ => by simpa using hrx, htaken, ?_⟩
        simpa [h.received] using hknown
      | returned fb =>
        have hstep : ch.step (.deliver raw) =
            { ch with
              receiver := io
              taken := ch.taken ++ [fb]
              received := ch.received ++ [fb] } := by
          simp only [step, hfailed, hturn]
        rw [hstep]
        refine ⟨h.tx, h.bound, h.nonces, h.sent, fun _ => by simpa using hrx, htaken, ?_⟩
        simp [h.received, hknown]

theorem Synced.run {events : List ChannelEvent} (h : ch.Synced key) (hauth : AuthenticRun key ch events) :
    (ch.run events).Synced key := by
  induction events generalizing ch with
  | nil => exact h
  | cons event events ih =>
    cases event with
    | send msgType payload => exact ih (h.send msgType payload) hauth
    | deliver => exact ih (h.deliver hauth.1) hauth.2

omit [AeadEnv] in
theorem encode_injective : Function.Injective FrameBody.encode := by
  intro fb fb' heq
  have hparse := FrameBody.parse_eq_ok.2 heq
  rw [FrameBody.parse_eq_ok.2 rfl] at hparse
  exact Except.ok.inj hparse

omit [AeadEnv] in
theorem Synced.taken_prefix_sent (h : ch.Synced key) : ch.taken <+: ch.sent := by
  obtain ⟨front, rest, hsplit, hfront, htaken⟩ := h.taken
  have hsent := h.sent
  rw [hsplit, filter_append, filter_eq_self.2 hfront, map_append, ← htaken] at hsent
  have hpre : ch.taken.map FrameBody.encode <+: ch.sent.map FrameBody.encode := ⟨_, hsent.symm⟩
  have htake := prefix_iff_eq_take.1 hpre
  rw [length_map, ← map_take] at htake
  rw [map_injective_iff.2 encode_injective htake]
  exact take_prefix _ _

/-- Whatever an attacker does with the ciphertexts, the receiver takes in the first frames that were
sent, in their order, and returns those of a known type; and no nonce is used for two encryptions. -/
theorem run_delivers_prefix (key : ByteArr 32) (sender receiver : SessionIo) (events : List ChannelEvent)
    (h : AuthenticRun key (start key sender receiver) events) :
    ((start key sender receiver).run events).taken <+: ((start key sender receiver).run events).sent ∧
      ((start key sender receiver).run events).received =
        ((start key sender receiver).run events).taken.filter (·.msgType ∈ knownTypes) ∧
      (((start key sender receiver).run events).seals.map (·.nonce)).Nodup := by
  have hsynced := (synced_start key sender receiver).run h
  exact ⟨hsynced.taken_prefix_sent, hsynced.received, hsynced.nodup⟩

end Channel

end

namespace Sample

/-- A cipher that writes the nonce and the associated data in front. -/
scoped instance sampleAeadEnv : AeadEnv where
  aeadSeal _ nonce aad body := some (nonce ++ aad ++ body)
  aeadOpen _ nonce aad ct :=
    if ct.take 12 = nonce ∧ (ct.drop 12).take 4 = aad then some (ct.drop 16) else none

def sampleIo : SessionIo := ⟨0x0100, none, none, 0x0100, 0⟩

def sampleKey : ByteArr 32 := ByteArr.fill 32 0

def firstSealed : Bytes :=
  trafficNonce 0 ++ beBytes 4 24 ++ (FrameBody.mk 0x0B 0x0100 [0]).encode

/-- Two frames are sent, and the attacker delivers the first one twice. -/
def replayed : List ChannelEvent :=
  [.send 0x0B [0], .send 0x0B [1], .deliver firstSealed, .deliver firstSealed]

theorem replayed_authentic : Channel.AuthenticRun sampleKey (.start sampleKey sampleIo sampleIo) replayed := by
  have hopen : ∀ nonce aad body, AeadEnv.aeadOpen sampleKey nonce aad firstSealed = some body →
      nonce = trafficNonce 0 ∧ aad = beBytes 4 24 ∧ body = (FrameBody.mk 0x0B 0x0100 [0]).encode := by
    intro nonce aad body h
    change (if _ then _ else _) = _ at h
    split at h
    · rename_i hc
      cases h
      exact ⟨hc.1.symm.trans (by decide), hc.2.symm.trans (by decide), by decide⟩
    · cases h
  refine ⟨?_, ?_, trivial⟩
  all_goals
    intro nonce aad body h
    obtain ⟨rfl, rfl, rfl⟩ := hopen nonce aad body h
    exact mem_cons_self

theorem run_delivers_prefix_replayed :
    ((Channel.start sampleKey sampleIo sampleIo).run replayed).received = [⟨0x0B, 0x0100, [0]⟩] ∧
      ((Channel.start sampleKey sampleIo sampleIo).run replayed).taken <+:
        ((Channel.start sampleKey sampleIo sampleIo).run replayed).sent :=
  ⟨by decide +kernel, (Channel.run_delivers_prefix _ _ _ _ replayed_authentic).1⟩

end Sample

end Ferry
