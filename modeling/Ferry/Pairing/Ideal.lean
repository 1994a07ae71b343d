import Ferry.Lib.Symbolic
import Ferry.Pairing.SingleUse

/-! # What the server asks of a client

A client that found the port of an open offer is sent the offer, and the offer
carries the one-time secret. Here the messages of such a client are terms that
it can make from what it was sent, with the one-time secret as an atom; a message
counts as accepted if the server accepts its bytes whatever the secret is.
-/

namespace Ferry

open Lib

/-- The random values of an offer. -/
inductive OfferAtom where
  | secret
  | code
  deriving DecidableEq

abbrev PairTerm := Term OfferAtom Bytes

def PairingOffer.term (o : PairingOffer) : PairTerm :=
  .pair (.data (offerMagic ++ ([pairingVersion] ++ (o.folderId.val ++ o.initiatorPub.val))))
    (.pair (.atom .secret) (.data (leBytes 8 (i64Word o.createdSec))))

section
variable [PairEnv]

/-- The answer of `respond`. -/
def PairingOffer.responseTerm (o : PairingOffer) (device : DeviceId) (nowSec : Int) : PairTerm :=
  .pair (.data (responseMagic ++ ([pairingVersion] ++ device.val)))
    (.pair (.mac (.atom .secret) (.pair (.pair (.data transcriptInfo) o.term) (.data device.val)))
      (.data (leBytes 8 (i64Word nowSec))))

def termBytes (value : OfferAtom → Bytes) : PairTerm → Bytes
  | .data d => d
  | .atom a => value a
  | .pair x y => termBytes value x ++ termBytes value y
  | .mac key body => (PairEnv.hmac (termBytes value key) (termBytes value body)).val
  | .derived secret => (PairEnv.grantKey (termBytes value secret)).val
  | .sealed key aad body => (PairEnv.aeadSeal (.slice (termBytes value key) 0 32) (PairEnv.grantNonce 0)
      (termBytes value aad) (termBytes value body)).getD []

theorem termBytes_term (o : PairingOffer) {value : OfferAtom → Bytes} (h : value .secret = o.secret.val) :
    termBytes value o.term = o.serialize := by
  simp [termBytes, PairingOffer.term, PairingOffer.serialize, h]

theorem termBytes_responseTerm (o : PairingOffer) {value : OfferAtom → Bytes}
    (h : value .secret = o.secret.val) (device : DeviceId) (nowSec : Int) :
    termBytes value (o.responseTerm device nowSec) = (respond o device nowSec).serialize := by
  simp only [PairingOffer.responseTerm, termBytes, termBytes_term o h, h, respond,
    PairingResponse.serialize, computeMac, List.append_assoc]

omit [PairEnv] in
theorem knows_responseTerm (o : PairingOffer) (device : DeviceId) (nowSec : Int) {K : Set PairTerm}
    (h : o.term ∈ K) : Term.Knows K (o.responseTerm device nowSec) := by
  have hoffer : Term.Knows K o.term := .sent h
  have hsecret : Term.Knows K (.atom .secret) := hoffer.snd.fst
  have hmac : Term.Knows K (.mac (.atom .secret)
      (.pair (.pair (.data transcriptInfo) o.term) (.data device.val))) :=
    .mac hsecret (.pair (.pair (.data _) hoffer) (.data _))
  exact .pair (.data _) (.pair hmac (.data _))

/-! ## Clients of the server -/

/-- What the third-party functions promise: sealing works and is undone by opening, and a folder key
can be wrapped for the public key of a device. -/
structure PairLaws : Prop where
  seals : SealsAlways
  opens : ∀ (key : ByteArr 32) (nonce : ByteArr 12) (aad body ct : Bytes),
    PairEnv.aeadSeal key nonce aad body = some ct → PairEnv.aeadOpen key nonce aad ct = some body
  wraps : ∀ (fmk : ByteArr 32) (folderId : ByteArr 16) (sk : ByteArr 32) (draw : Nat),
    ∃ w, PairEnv.wrapFolderKey fmk folderId (PairEnv.publicOf sk) draw = .ok w

/-- The same server with another one-time secret in its offer. -/
def Sharer.redraw (s : Sharer) (o : PairingOffer) (secret : ByteArr 32) : Sharer :=
  { s with server := s.server.map fun srv =>
      { srv with offerBytes := PairingOffer.serialize { o with secret := secret } } }

/-- The next client that connects is sent the offer, and its answer is heard. -/
def Sharer.Listening (s : Sharer) (now : Int) : Prop :=
  ∃ srv, s.server = some srv ∧ srv.phase = .listening ∧ srv.stopped = false ∧ now ≤ srv.expiresAt ∧
    srv.callback = true

/-- What a client that connects is sent before it answers. -/
def Sharer.sentTerms (s : Sharer) (o : PairingOffer) (now : Int) : Set PairTerm :=
  { t | t = o.term ∧ (s.serve now).2.isSome }

/-- A client connects and sends these bytes: the state after it, and the server's answer. -/
def Sharer.meet (s : Sharer) (now : Int) (bytes : Bytes) : Sharer × Option Bytes :=
  (s.serve now).1.frame now bytes

/-- The client is let in, and its message makes the server add a device or send a grant that opens
with the offer, whatever the one-time secret and the code are. -/
def Sharer.Completes (s : Sharer) (o : PairingOffer) (now : Int) (m : PairTerm) : Prop :=
  ∀ (secret : ByteArr 32) (code bytes : Bytes),
    bytes = termBytes (fun | .secret => secret.val | .code => code) m →
    ((s.redraw o secret).serve now).2.isSome ∧
    (((s.redraw o secret).meet now bytes).1.added ≠ s.added ∨
      ∃ grant body, ((s.redraw o secret).meet now bytes).2 = some grant ∧
        openPairGrant (PairingOffer.serialize { o with secret := secret }) grant = .ok body)

/-- A sealed grant opens with the offer it was made for. -/
theorem openPairGrant_sealPairGrant (laws : PairLaws) {offerBytes body grant : Bytes} {draw : Nat}
    (h : sealPairGrant offerBytes body draw = .ok grant) : openPairGrant offerBytes grant = .ok body := by
  obtain ⟨secret, hsecret, h⟩ := bind_eq_ok.1 h
  dsimp only at h
  cases hseal : PairEnv.aeadSeal (PairEnv.grantKey secret) (PairEnv.grantNonce draw) offerBytes body with
  | none =>
    rw [hseal] at h
    cases h
  | some ct =>
    rw [hseal] at h
    cases h
    have hnonce : ByteArr.slice (grantMagic ++ ([grantVersion] ++ ((PairEnv.grantNonce draw).val ++ ct))) 5 12 =
        PairEnv.grantNonce draw :=
      ByteArr.slice_append' (grantMagic ++ [grantVersion]) ct (PairEnv.grantNonce draw) rfl
    have hct : (grantMagic ++ ([grantVersion] ++ ((PairEnv.grantNonce draw).val ++ ct))).drop
        grantHeaderLen = ct := by
      have hlen := (PairEnv.grantNonce draw).property
      simp [grantMagic, grantHeaderLen, hlen]
    unfold openPairGrant
    rw [if_neg (by simp [grantMagic, grantHeaderLen, (PairEnv.grantNonce draw).property])]
    rw [hsecret, hnonce, hct]
    dsimp only [bind, Except.bind]
    rw [laws.opens _ _ _ _ _ hseal]
    rfl

theorem complete_respond (laws : PairLaws) (o : PairingOffer) (hcreated : I64Range o.createdSec)
    (srv : PairingServer) (hsrv : srv.offerBytes = o.serialize) (device sk : ByteArr 32) (draw : Nat)
    {nowSec : Int} (hnow : I64Range nowSec) :
    ∃ done, srv.complete (respond o (PairEnv.publicOf device) nowSec).serialize (PairEnv.publicOf sk) draw =
      .ok done := by
  obtain ⟨wrappedForPeer, hpeer⟩ := laws.wraps srv.fmk o.folderId device draw
  obtain ⟨wrappedForSelf, hself⟩ := laws.wraps srv.fmk o.folderId sk (draw + 1)
  refine ⟨⟨PairEnv.publicOf device, wrappedForSelf, wrappedForPeer⟩, ?_⟩
  unfold PairingServer.complete
  rw [hsrv, PairingOffer.parse_serialize o hcreated,
    PairingResponse.parse_serialize (respond o (PairEnv.publicOf device) nowSec) hnow]
  dsimp only [bind, Except.bind]
  unfold completePairing
  rw [verify_respond]
  rw [show (respond o (PairEnv.publicOf device) nowSec).responderPub = PairEnv.publicOf device from rfl,
    hpeer, hself]
  rfl

variable {srv : PairingServer}

/-- The callback of the server gives a grant to whoever passes its checks, and the grant opens. -/
theorem onResponse_grants (laws : PairLaws) (s : Sharer) (now : Int) {bytes : Bytes}
    (hlen : srv.offerBytes.length = offerLen) {done : CompletedPairing}
    (hdone : srv.complete bytes s.publicKey s.draw = .ok done) :
    ∃ s' grant body, s.onResponse srv now bytes = (s', some grant) ∧
      openPairGrant srv.offerBytes grant = .ok body := by
  unfold Sharer.onResponse
  rw [hdone]
  dsimp only
  obtain ⟨head, added, heq, -⟩ := Sharer.tryAdmit_cases { s with draw := s.draw + 2 } now done.peerPub
    done.wrappedForPeer
  rw [heq]
  obtain ⟨grant, hgrant⟩ := sealGrant_ok laws.seals hlen done.wrappedForPeer srv.poly (s.draw + 2)
  rw [hgrant]
  exact ⟨_, grant, _, rfl, openPairGrant_sealPairGrant laws hgrant⟩

omit [PairEnv] in
theorem serve_of_listening {s : Sharer} {now : Int} (hsrv : s.server = some srv)
    (hphase : srv.phase = .listening) (hstopped : srv.stopped = false) (hnow : now ≤ srv.expiresAt) :
    s.serve now = ({ s with server := some { srv with phase := .connected } }, some srv.offerBytes) := by
  unfold Sharer.serve
  rw [hsrv]
  dsimp only
  rw [if_neg (not_not.2 hphase), if_neg (by simp [hstopped, hnow])]

omit [PairEnv] in
theorem listening_of_serve {s : Sharer} {now : Int} (h : (s.serve now).2.isSome) :
    ∃ srv, s.server = some srv ∧ srv.phase = .listening ∧ srv.stopped = false ∧ now ≤ srv.expiresAt := by
  unfold Sharer.serve at h
  split at h
  · cases h
  rename_i srv hsrv
  split at h
  · cases h
  split at h
  · cases h
  · rename_i hphase hrun
    rw [not_or, not_lt, Bool.not_eq_true] at hrun
    exact ⟨srv, hsrv, not_not.1 hphase, hrun.1, hrun.2⟩

theorem meet_of_no_callback {s : Sharer} {now : Int} (hsrv : s.server = some srv)
    (hphase : srv.phase = .listening) (hstopped : srv.stopped = false) (hnow : now ≤ srv.expiresAt)
    (hcallback : srv.callback = false) (bytes : Bytes) :
    (s.meet now bytes).1.added = s.added ∧ (s.meet now bytes).2 = none := by
  unfold Sharer.meet
  rw [serve_of_listening hsrv hphase hstopped hnow]
  unfold Sharer.frame
  dsimp only
  rw [if_neg (not_not.2 rfl), if_neg (by simp [hcallback])]
  exact ⟨rfl, rfl⟩

/-- Clients that know only what the server sends them are kept out exactly while the server lets
nobody in. -/
theorem server_keepsOut_iff (laws : PairLaws) (s : Sharer) (o : PairingOffer) (now : Int)
    (hcreated : I64Range o.createdSec) :
    (∀ m, Term.Knows (s.sentTerms o now) m → ¬ s.Completes o now m) ↔ ¬ s.Listening now := by
  constructor
  · rintro hout ⟨srv, hsrv, hphase, hstopped, hnow, hcallback⟩
    have hsent : o.term ∈ s.sentTerms o now :=
      ⟨rfl, by rw [serve_of_listening hsrv hphase hstopped hnow]; rfl⟩
    refine hout _ (knows_responseTerm o (PairEnv.publicOf zeroId) 0 hsent) ?_
    rintro secret code bytes rfl
    -- the server with another secret is in the same phase
    have hredraw : (s.redraw o secret).server =
        some { srv with offerBytes := PairingOffer.serialize { o with secret := secret } } := by
      simp [Sharer.redraw, hsrv]
    have hserve := serve_of_listening hredraw hphase hstopped hnow
    refine ⟨by rw [hserve]; rfl, .inr ?_⟩
    obtain ⟨done, hdone⟩ := complete_respond laws { o with secret := secret } hcreated
      { srv with
        phase := .connected
        offerBytes := PairingOffer.serialize { o with secret := secret } } rfl zeroId s.identity s.draw
      (show I64Range 0 by decide)
    have hbytes : termBytes (fun | .secret => secret.val | .code => code)
        (o.responseTerm (PairEnv.publicOf zeroId) 0) =
        (respond { o with secret := secret } (PairEnv.publicOf zeroId) 0).serialize :=
      termBytes_responseTerm { o with secret := secret } rfl (PairEnv.publicOf zeroId) 0
    obtain ⟨s', grant, body, hrun, hopen⟩ := onResponse_grants laws
      { s.redraw o secret with server := some { srv with
          phase := .connected
          offerBytes := PairingOffer.serialize { o with secret := secret } } } now
      (PairingOffer.length_serialize _) hdone
    refine ⟨grant, body, ?_, hopen⟩
    unfold Sharer.meet
    rw [hserve, hbytes]
    unfold Sharer.frame
    dsimp only
    rw [if_neg (not_not.2 rfl), if_pos hcallback, hrun]
  · intro hclosed m _ hcompletes
    obtain ⟨hlet, hdone⟩ := hcompletes o.secret [] _ rfl
    obtain ⟨srv', hsrv', hphase, hstopped, hnow⟩ := listening_of_serve hlet
    obtain ⟨srv, hsrv, rfl⟩ := Option.map_eq_some_iff.1 hsrv'
    have hcallback : srv.callback = false := by
      by_contra hne
      exact hclosed ⟨srv, hsrv, hphase, hstopped, hnow, Bool.eq_true_of_not_eq_false hne⟩
    obtain ⟨hadded, hnone⟩ := meet_of_no_callback hsrv' hphase hstopped hnow hcallback
      (termBytes (fun | .secret => o.secret.val | .code => []) m)
    rcases hdone with hnew | ⟨grant, body, hgrant, -⟩
    · exact hnew hadded
    · rw [hnone] at hgrant
      cases hgrant

end

namespace Sample

theorem samplePairLaws : PairLaws where
  seals _ _ _ _ := rfl
  opens _ _ _ _ _ h := h.symm
  wraps _ _ _ _ := ⟨_, rfl⟩

/-- A client of device 2 that has nothing but the frame it is sent. -/
def answerOffer (frame : Bytes) : Bytes :=
  match PairingOffer.parse frame with
  | .ok offer => (respond offer (device 2) 0).serialize
  | .error _ => []

end Sample

open scoped Sample in
/-- An open offer does not keep them out. -/
theorem server_keepsOut_iff_open : Sample.offering.Listening 1 ∧
    ¬ ∀ m, Term.Knows (Sample.offering.sentTerms Sample.sampleOffer 1) m →
      ¬ Sample.offering.Completes Sample.sampleOffer 1 m := by
  have hopen : Sample.offering.Listening 1 := ⟨_, rfl, rfl, rfl, by decide, rfl⟩
  refine ⟨hopen, fun hout => ?_⟩
  exact (server_keepsOut_iff Sample.samplePairLaws Sample.offering Sample.sampleOffer 1 (by decide)).1
    hout hopen

open scoped Sample in
/-- The client reads the one-time secret from the offer it is sent; it becomes a member, and the
grant it gets holds the folder key. -/
theorem server_admits_without_code : ∃ frame grant wrapped, (Sample.offering.serve 1).2 = some frame ∧
    (Sample.offering.meet 1 (Sample.answerOffer frame)).1.added = [(1, Sample.device 2)] ∧
    (Sample.offering.meet 1 (Sample.answerOffer frame)).2 = some grant ∧
    openPairGrant frame grant = .ok (grantBody wrapped 3) ∧
    PairEnv.unwrapFolderKey wrapped (ByteArr.fill 16 9) (Sample.device 2) = .ok (Sample.device 5) := by
  have hadded : (Sample.offering.meet 1 (Sample.answerOffer Sample.sampleOffer.serialize)).1.added =
      [(1, Sample.device 2)] := by decide +kernel
  have hgrant : (Sample.offering.meet 1 (Sample.answerOffer Sample.sampleOffer.serialize)).2.map
      (openPairGrant Sample.sampleOffer.serialize) = some (.ok (grantBody
        ⟨(Sample.device 5).val ++ ((Sample.device 2).val ++ List.replicate 16 0), rfl⟩ 3)) := by
    decide +kernel
  obtain ⟨grant, hsent, hopen⟩ := Option.map_eq_some_iff.1 hgrant
  exact ⟨Sample.sampleOffer.serialize, grant, _, rfl, hadded, hsent, hopen, by decide +kernel⟩

end Ferry
