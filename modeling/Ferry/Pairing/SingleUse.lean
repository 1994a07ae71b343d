import Mathlib.Data.List.Induction
import Ferry.Pairing.Share

/-! # How often an offer can be used

An answer over the network ends the server and removes the record; an answer in
the same process does the same. So an offer that is answered only in these ways,
one answer after the other, adds one device. The checks are made when an answer
begins, not when it is processed, and a response file is subject to neither.
-/

namespace Ferry

open Lib

/-- The offer added at most one device, and none after it expired. -/
def Sharer.UsedOnce (s : Sharer) (expiresAt : Int) : Prop :=
  (∀ a ∈ s.added, ∀ a' ∈ s.added, a.2 = a'.2) ∧ ∀ a ∈ s.added, a.1 ≤ expiresAt

/-- Once a device was added, both channels are closed. -/
structure Sharer.Fair (s : Sharer) (expiresAt : Int) : Prop where
  once : s.added.length ≤ 1
  inTime : ∀ a ∈ s.added, a.1 ≤ expiresAt
  closed : s.added ≠ [] → s.session = none ∧ ∀ srv, s.server = some srv → srv.stopped = true
  offer : ∀ srv, s.server = some srv → srv.offerBytes.length = offerLen

namespace Sharer

variable {s : Sharer} {expiresAt now : Int}

theorem admit_ok {device : DeviceId} {wrapped : ByteArr 80} {s' : Sharer}
    (h : s.admitPeer now device wrapped = .ok s') :
    s' = { s with head := s'.head, added := s'.added } ∧
      (s'.added = s.added ∨ s'.added = s.added ++ [(now, device)]) := by
  unfold admitPeer at h
  split at h
  · cases h
  cases h
  refine ⟨rfl, ?_⟩
  split
  · exact .inl rfl
  · exact .inr rfl

theorem tryAdmit_cases (s : Sharer) (now : Int) (device : DeviceId) (wrapped : ByteArr 80) :
    ∃ head added, s.tryAdmit now device wrapped = { s with head := head, added := added } ∧
      (added = s.added ∨ added = s.added ++ [(now, device)]) := by
  unfold tryAdmit
  cases h : s.admitPeer now device wrapped with
  | error => exact ⟨s.head, s.added, rfl, .inl rfl⟩
  | ok s' =>
    obtain ⟨heq, hadded⟩ := admit_ok h
    exact ⟨s'.head, s'.added, heq, hadded⟩

theorem Fair.added_nil (h : s.Fair expiresAt) (hopen : s.session.isSome ∨
    ∃ srv, s.server = some srv ∧ srv.stopped = false) : s.added = [] := by
  by_contra hne
  obtain ⟨hnone, hstopped⟩ := h.closed hne
  rcases hopen with hsome | ⟨srv, hsrv, hrun⟩
  · rw [hnone] at hsome
    cases hsome
  · rw [hstopped srv hsrv] at hrun
    cases hrun

theorem Fair.of_added {s' : Sharer} {device : DeviceId} (hnil : s.added = [])
    (hadded : s'.added = s.added ∨ s'.added = s.added ++ [(now, device)]) (hnow : now ≤ expiresAt)
    (hclosed : s'.added ≠ [] → s'.session = none ∧ ∀ srv, s'.server = some srv → srv.stopped = true)
    (hoffer : ∀ srv, s'.server = some srv → srv.offerBytes.length = offerLen) : s'.Fair expiresAt where
  once := by
    rcases hadded with h | h <;> simp [h, hnil]
  inTime := by
    intro a ha
    rcases hadded with h | h <;> simp [h, hnil] at ha
    rw [ha]
    exact hnow
  closed := hclosed
  offer := hoffer

variable (h : s.Fair expiresAt)
include h

theorem Fair.usedOnce : s.UsedOnce expiresAt := by
  refine ⟨fun a ha a' ha' => ?_, h.inTime⟩
  obtain ⟨x, hx⟩ : ∃ x, s.added = [x] := List.length_eq_one_iff.1 (by
    have := List.length_pos_of_mem ha
    have := h.once
    omega)
  rw [hx, List.mem_singleton] at ha ha'
  rw [ha, ha']

theorem Fair.phase {srv : PairingServer} (hsrv : s.server = some srv)
    (phase : ServerPhase) (callback : Bool) :
    Fair { s with server := some { srv with phase := phase, callback := callback } } expiresAt :=
  { h with
    closed := fun hne => ⟨(h.closed hne).1, fun srv' heq => by
      cases heq
      exact (h.closed hne).2 srv hsrv⟩
    offer := fun srv' heq => by
      cases heq
      exact h.offer srv hsrv }

theorem Fair.serve : (s.serve now).1.Fair expiresAt := by
  unfold Sharer.serve
  split
  · exact h
  rename_i srv hsrv
  split
  · exact h
  · split
    · exact h.phase hsrv .ended srv.callback
    · exact h.phase hsrv .connected srv.callback

theorem Fair.hangUp : s.hangUp.Fair expiresAt := by
  unfold Sharer.hangUp
  split
  · exact h
  · rename_i srv hsrv
    split
    · exact h
    · exact h.phase hsrv .listening srv.callback

theorem Fair.stopServer : Fair { s.stopServer with session := none } expiresAt where
  once := h.once
  inTime := h.inTime
  closed _ := ⟨rfl, fun srv heq => by
    obtain ⟨srv', -, rfl⟩ := Option.map_eq_some_iff.1 heq
    rfl⟩
  offer srv heq := by
    obtain ⟨srv', hsrv', rfl⟩ := Option.map_eq_some_iff.1 heq
    exact h.offer srv' hsrv'

theorem Fair.enter (device : ByteArr 32) (code : List Char) : (s.enter now device code).Fair expiresAt := by
  unfold Sharer.enter
  split
  · exact h
  split
  · exact h
  · split
    · exact h.stopServer
    · exact { h with }

end Sharer

section
variable [PairEnv]

/-- Encryption does not fail on messages of this size. -/
def SealsAlways : Prop :=
  ∀ (key : ByteArr 32) (nonce : ByteArr 12) (aad body : Bytes), (PairEnv.aeadSeal key nonce aad body).isSome

/-- The answer is processed while the offer is still open: over the network before the server was
told to stop, in the process while the record is still there, both before the offer expires; and a
poll finds no answer in the files. -/
def Sharer.InTurn (s : Sharer) (expiresAt now : Int) : PairEvent → Prop
  | .frame _ => (∀ srv, s.server = some srv → srv.stopped = false) ∧ now ≤ expiresAt
  | .join _ _ => s.session.isSome ∧ now ≤ expiresAt
  | .poll => ∀ answer, s.pollAnswer ≠ .ok (some answer)
  | _ => True

theorem sealGrant_ok (hseal : SealsAlways) {offerBytes : Bytes} (hlen : offerBytes.length = offerLen)
    (wrapped : ByteArr 80) (poly draw : Nat) : ∃ grant, sealGrant offerBytes wrapped poly draw = .ok grant := by
  obtain ⟨ct, hct⟩ := Option.isSome_iff_exists.1
    (hseal (PairEnv.grantKey ((offerBytes.drop 53).take 32)) (PairEnv.grantNonce draw) offerBytes
      (grantBody wrapped poly))
  have hsecret : offerOneTimeSecret offerBytes = .ok ((offerBytes.drop 53).take 32) := by
    unfold offerOneTimeSecret
    rw [if_neg (by rw [hlen]; decide)]
  refine ⟨grantMagic ++ ([grantVersion] ++ ((PairEnv.grantNonce draw).val ++ ct)), ?_⟩
  unfold sealGrant sealPairGrant
  rw [hsecret]
  dsimp only [bind, Except.bind]
  rw [hct]
  rfl

namespace Sharer

variable {s : Sharer} {expiresAt now : Int}

/-- The callback changes nothing, or it adds the responder, gives a grant and removes the record. -/
theorem onResponse_cases (s : Sharer) (now : Int) (hseal : SealsAlways) {srv : PairingServer}
    (hlen : srv.offerBytes.length = offerLen) (bytes : Bytes) : s.onResponse srv now bytes = (s, none) ∨
      ∃ head added draw grant device, s.onResponse srv now bytes =
          ({ s with head := head, added := added, session := none, draw := draw }, some grant) ∧
        (added = s.added ∨ added = s.added ++ [(now, device)]) := by
  unfold onResponse
  cases hdone : srv.complete bytes s.publicKey s.draw with
  | error => exact .inl rfl
  | ok done =>
    refine .inr ?_
    dsimp only
    obtain ⟨head, added, heq, hadded⟩ := tryAdmit_cases { s with draw := s.draw + 2 } now done.peerPub
      done.wrappedForPeer
    rw [heq]
    obtain ⟨grant, hgrant⟩ := sealGrant_ok hseal hlen done.wrappedForPeer srv.poly (s.draw + 2)
    rw [hgrant]
    exact ⟨head, added, _, grant, done.peerPub, rfl, hadded⟩

/-- The step lemma for an answer over the network. -/
theorem Fair.frame (hseal : SealsAlways) (h : s.Fair expiresAt) (bytes : Bytes)
    (hturn : s.InTurn expiresAt now (.frame bytes)) : (s.frame now bytes).1.Fair expiresAt := by
  unfold Sharer.frame
  split
  · exact h
  rename_i srv hsrv
  split
  · exact h
  split
  · rcases onResponse_cases s now hseal (h.offer srv hsrv) bytes with
      heq | ⟨head, added, draw, grant, device, heq, hadded⟩
    · rw [heq]
      exact h.phase hsrv .listening false
    rw [heq]
    have hnil := h.added_nil (.inr ⟨srv, hsrv, hturn.1 srv hsrv⟩)
    refine Fair.of_added hnil hadded hturn.2 (fun _ => ⟨rfl, ?_⟩) ?_
    · intro srv' hsrv'
      cases hsrv'
      rfl
    · intro srv' hsrv'
      cases hsrv'
      exact h.offer srv hsrv
  · exact h.phase hsrv .listening srv.callback

/-- The step lemma for a join through the record on disk. -/
theorem Fair.join (h : s.Fair expiresAt) (device : ByteArr 32) (adopts : Bool)
    (hturn : s.InTurn expiresAt now (.join device adopts)) :
    (s.join now device adopts).Fair expiresAt := by
  unfold Sharer.join
  split
  · exact h
  dsimp only
  split
  · exact { h with }
  split
  · exact { h with }
  rename_i wrapped hwrap
  obtain ⟨head, added, heq, hadded⟩ := tryAdmit_cases
    { s with joining := s.joining.filter (·.1 ≠ device) } now (PairEnv.publicOf device) wrapped
  rw [heq]
  have hnil := h.added_nil (.inl hturn.1)
  refine Fair.of_added hnil hadded hturn.2 (fun _ => ⟨rfl, ?_⟩) ?_
  · intro srv hsrv
    obtain ⟨srv', -, rfl⟩ := Option.map_eq_some_iff.1 hsrv
    rfl
  · intro srv hsrv
    obtain ⟨srv', hsrv', rfl⟩ := Option.map_eq_some_iff.1 hsrv
    exact h.offer srv' hsrv'

theorem Fair.poll (h : s.Fair expiresAt) (hturn : s.InTurn expiresAt now .poll) :
    (s.poll now).Fair expiresAt := by
  unfold Sharer.poll
  split
  · rename_i hanswer
    exact absurd hanswer (hturn _)
  · exact h

theorem Fair.step (hseal : SealsAlways) (h : s.Fair expiresAt) (e : PairEvent)
    (hturn : s.InTurn expiresAt now e) : (s.step now e).Fair expiresAt := by
  cases e with
  | serve => exact h.serve
  | frame bytes => exact h.frame hseal bytes hturn
  | hangUp => exact h.hangUp
  | poll => exact h.poll hturn
  | files => exact { h with }
  | enter device code => exact h.enter device code
  | join device adopts => exact h.join device adopts hturn

theorem Fair.after (hseal : SealsAlways) (h : s.Fair expiresAt) (events : List (Int × PairEvent))
    (hturn : ∀ before now e rest, events = before ++ (now, e) :: rest →
      (s.after before).InTurn expiresAt now e) : (s.after events).Fair expiresAt := by
  induction events using List.reverseRecOn with
  | nil => exact h
  | append_singleton events x ih =>
    have hbefore : (s.after events).Fair expiresAt := ih fun before now e rest heq =>
      hturn before now e (rest ++ [x]) (by simp [heq])
    have hstep : s.after (events ++ [x]) = (s.after events).step x.1 x.2 := by
      simp [Sharer.after]
    rw [hstep]
    exact hbefore.step hseal x.2 (hturn events x.1 x.2 [] rfl)

end Sharer

theorem fair_createOffer (identity : ByteArr 32) (code : List Char) (folderId : ByteArr 16) (poly : Nat)
    (head : ConfigHead) (fmk secret : ByteArr 32) (nowSec now : Int) (serverStarts : Bool) (draw : Nat) :
    (createOffer identity code folderId poly head fmk secret nowSec now serverStarts draw).Fair
      (offerExpiry now) where
  once := by simp [createOffer]
  inTime := by simp [createOffer]
  closed h := absurd rfl h
  offer srv heq := by
    simp only [createOffer] at heq
    split at heq
    · cases heq
      exact PairingOffer.length_serialize _
    · cases heq

/-- An offer whose answers are all processed in turn adds at most one device, and none after it
expired. -/
theorem offer_usedOnce (hseal : SealsAlways) (identity : ByteArr 32) (code : List Char)
    (folderId : ByteArr 16) (poly : Nat) (head : ConfigHead) (fmk secret : ByteArr 32) (nowSec now : Int)
    (serverStarts : Bool) (draw : Nat) (events : List (Int × PairEvent))
    (hturn : ∀ before t e rest, events = before ++ (t, e) :: rest →
      ((createOffer identity code folderId poly head fmk secret nowSec now serverStarts draw).after
        before).InTurn (offerExpiry now) t e) :
    ((createOffer identity code folderId poly head fmk secret nowSec now serverStarts draw).after
      events).UsedOnce (offerExpiry now) :=
  ((fair_createOffer identity code folderId poly head fmk secret nowSec now serverStarts draw).after hseal
    events hturn).usedOnce

end

namespace Sample

def sampleCode : List Char := "XUM5CA".toList

def device (n : UInt8) : ByteArr 32 := ByteArr.fill 32 n

/-- The key envelopes of a folder that only device 1 knows. -/
def sampleHead : ConfigHead :=
  ⟨ByteArr.fill 16 9, [⟨device 1, ⟨(device 5).val ++ ((device 1).val ++ List.replicate 16 0), rfl⟩⟩]⟩

def offering : Sharer :=
  createOffer (device 1) sampleCode (ByteArr.fill 16 9) 3 sampleHead (device 5) (device 7) 0 0 true 0

def sampleOffer : PairingOffer := ⟨ByteArr.fill 16 9, device 1, device 7, 0⟩

def offerEnvelope : Bytes :=
  (encodeEnvelope sampleCode sampleOffer.serialize (offerExpiry 0)).map fun c => UInt8.ofNat c.toNat

/-- Two devices answer by file, the second one after the offer expired. -/
def twoPolls : List (Int × PairEvent) :=
  [(1, .files (some offerEnvelope) (some (respond sampleOffer (device 2) 0).serialize)), (2, .poll),
    (3, .files (some offerEnvelope) (some (respond sampleOffer (device 3) 0).serialize)),
    (offerExpiry 0 + 1, .poll)]

end Sample

open scoped Sample in
/-- A device that connects to the server and answers is added; a device that enters the code after
that is not. -/
theorem offer_usedOnce_network :
    ((Sample.offering.after
        [(1, .serve), (2, .frame (respond Sample.sampleOffer (Sample.device 2) 0).serialize)]).added =
      [(2, Sample.device 2)]) ∧
    (Sample.offering.after
      [(1, .serve), (2, .frame (respond Sample.sampleOffer (Sample.device 2) 0).serialize)]).UsedOnce
        (offerExpiry 0) := by
  refine ⟨by decide +kernel, offer_usedOnce (fun _ _ _ _ => rfl) _ _ _ _ _ _ _ _ _ _ _ _ ?_⟩
  intro before t e rest heq
  rcases before with _ | ⟨x, _ | ⟨y, before⟩⟩
  · cases heq
    trivial
  · cases heq
    refine ⟨?_, by decide⟩
    intro srv hsrv
    cases hsrv
    rfl
  · simp at heq

open scoped Sample in
/-- Answers by file are not counted, and not checked for the time: the offer adds two devices, one
of them after it expired. -/
theorem offer_usedTwice : (Sample.offering.after Sample.twoPolls).added =
      [(2, Sample.device 2), (offerExpiry 0 + 1, Sample.device 3)] ∧
    ¬ (Sample.offering.after Sample.twoPolls).UsedOnce (offerExpiry 0) := by
  have hadded : (Sample.offering.after Sample.twoPolls).added =
      [(2, Sample.device 2), (offerExpiry 0 + 1, Sample.device 3)] := by decide +kernel
  refine ⟨hadded, fun h => ?_⟩
  have hlate := h.2 (offerExpiry 0 + 1, Sample.device 3) (by simp [hadded])
  exact absurd hlate (by decide)

end Ferry
