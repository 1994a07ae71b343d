import Ferry.Lib.Dialogue
import Ferry.Session.Wire
import Ferry.Sync.Converge

/-! # The parties of a session

What a session on an established connection works on. A frame arrives as it was
sent, unless it is longer than the link allows; its bytes and their encryption are
below this level. The store is seen as its clients see it, so sealing a pack early
(`flush`) does nothing here, and neither do status lines and the count of rejected
items.
-/

namespace Ferry

open Lib

/-! ## Limits -/

def batchFlushBytes : Nat := 8 * 1024 * 1024

def budget : Nat := 64

/-- `slice::chunks`. -/
def chunksOf {α : Type} (n : Nat) (l : List α) : List (List α) :=
  (List.range ((l.length + n - 1) / n)).map fun i => (l.drop (i * n)).take n

/-! ## The length of a frame -/

/-- What `RawLink::recv_body` takes in; the TCP and iroh connections go up to 512 MiB. -/
def maxFrameBody : Nat := 64 * 1024 * 1024

/-- The length of a frame once it is sealed, as `send_frame` computes it. -/
def sealedLen (msgType : UInt8) (version : ProtocolVersion) (payload : Bytes) : Nat :=
  (FrameBody.mk msgType version payload).encode.length + 16

/-- The bytes of a batch before it is sealed. -/
def ItemBatch.payloadLen (batch : ItemBatch) : Nat :=
  4 + (batch.map fun item => 41 + item.2.2.length).sum

/-! ## Errors -/

inductive SessionError where
  | wire (e : ProtoError)
  | ingest (e : PackError)
  | apply (e : ConvergenceError)
  | manifest (e : ManifestError)
  deriving DecidableEq

abbrev Session := Dialogue Frame SessionError

namespace Session

def violation (what : String) : SessionError := .wire (.protocolViolation what)

/-- `loop { let fb = expect_frame(..)?; .. }` -/
def loopOn {α β : Type} (types : List MsgType) (unexpected : String)
    (body : β → Frame → Session (β ⊕ α)) (b : β) : Session α :=
  Dialogue.loop (fun f => decide (f.msgType ∈ types)) (violation unexpected) body b

/-- A frame of a kind that the receive before has ruled out. -/
def impossible {α : Type} : Session α := Dialogue.fail (violation "unexpected message in this state")

end Session

open Session

/-! ## The two parties -/

class SessionEnv extends SyncEnv, PackEnv

section
variable [SessionEnv]

/-- What a party of a session works with. -/
structure Exchange where
  store : Store
  /-- The files under `packs/` that can be read. -/
  packs : PackId → Option Bytes
  folderId : ByteArr 16
  maxRetries : Nat
  /-- The longest frame that the link takes in. -/
  maxFrame : Nat

end

end Ferry
