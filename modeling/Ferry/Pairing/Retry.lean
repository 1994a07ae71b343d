import Ferry.Pairing.Ideal

/-! # Clients that fail

Clients come to the pairing server one after the other. The first whole frame
that any of them sends takes the callback away, whatever is in the frame, so an
offer survives clients that send nothing and no others.
-/

namespace Ferry

open Lib

/-- What a client does that has connected: it sends a frame, or nothing that arrives whole in time. -/
inductive Visit where
  | sends (bytes : Bytes)
  | silent
  deriving DecidableEq

section
variable [PairEnv]

namespace Sharer

/-- A client connects; the state after it has gone, and what it was answered. -/
def visit (s : Sharer) (now : Int) : Visit → Sharer × Option Bytes
  | .sends bytes => s.meet now bytes
  | .silent => ((s.serve now).1.hangUp, none)

def visits (s : Sharer) (vs : List (Int × Visit)) : Sharer :=
  vs.foldl (fun s v => (s.visit v.1 v.2).1) s

@[simp] theorem visit_sends (s : Sharer) (now : Int) (bytes : Bytes) :
    s.visit now (.sends bytes) = s.meet now bytes := rfl

def Gave (s : Sharer) : List (Int × Visit) → Prop
  | [] => False
  | v :: vs => (∃ grant, (s.visit v.1 v.2).2 = some grant ∧ grant ≠ []) ∨ (s.visit v.1 v.2).1.Gave vs

/-- A device connects, is sent the offer, answers it and receives a grant that opens. -/
def Serves (s : Sharer) (o : PairingOffer) (now : Int) (device : ByteArr 32) (nowSec : Int) : Prop :=
  (s.serve now).2 = some o.serialize ∧
    ∃ grant body, (s.meet now (respond o (PairEnv.publicOf device) nowSec).serialize).2 = some grant ∧
      openPairGrant o.serialize grant = .ok body

/-- The callback would take these bytes for an answer to the offer. -/
def Accepts (s : Sharer) (o : PairingOffer) (expiresAt : Int) (fmk : ByteArr 32) (poly : Nat)
    (bytes : Bytes) : Prop :=
  ∃ done, PairingServer.complete ⟨.connected, false, true, o.serialize, expiresAt, fmk, poly⟩ bytes
    s.publicKey s.draw = .ok done

/-- The server waits for its next client; `callback` tells whether it will hear the answer. -/
structure Waits (s : Sharer) (o : PairingOffer) (expiresAt : Int) (fmk : ByteArr 32) (poly : Nat)
    (callback : Bool) : Prop where
  server : s.server = some ⟨.listening, false, callback, o.serialize, expiresAt, fmk, poly⟩

variable {s : Sharer} {o : PairingOffer} {expiresAt now : Int} {fmk : ByteArr 32} {poly : Nat}
  {callback : Bool}

omit [PairEnv] in
theorem Waits.serve (h : s.Waits o expiresAt fmk poly callback) (hnow : now ≤ expiresAt) :
    s.serve now = ({ s with server := some ⟨.connected, false, callback, o.serialize, expiresAt, fmk, poly⟩ },
      some o.serialize) :=
  serve_of_listening h.server rfl rfl hnow

theorem Waits.silent (h : s.Waits o expiresAt fmk poly callback) (hnow : now ≤ expiresAt) :
    s.visit now .silent = (s, none) := by
  unfold visit
  rw [h.serve hnow]
  obtain ⟨identity, code, folderId, poly', head, server, session, joining, offerFile, responseFile,
    grantFile, draw, added⟩ := s
  cases h.server
  rfl

theorem Waits.meet (h : s.Waits o expiresAt fmk poly true) (hnow : now ≤ expiresAt) (bytes : Bytes) :
    s.meet now bytes =
      match ({ s with server := some ⟨.connected, false, true, o.serialize, expiresAt, fmk, poly⟩ } :
          Sharer).onResponse ⟨.connected, false, true, o.serialize, expiresAt, fmk, poly⟩ now bytes with
      | (s', some grant) =>
        ({ s' with server := some ⟨.ended, true, false, o.serialize, expiresAt, fmk, poly⟩ }, some grant)
      | (s', none) =>
        ({ s' with server := some ⟨.listening, false, false, o.serialize, expiresAt, fmk, poly⟩ },
          some []) := by
  unfold Sharer.meet
  rw [h.serve hnow]
  unfold frame
  dsimp only
  rw [if_neg (not_not.2 rfl)]
  exact if_pos rfl

theorem onResponse_error (s : Sharer) {srv : PairingServer} (now : Int) {bytes : Bytes} {e : PairingError}
    (h : srv.complete bytes s.publicKey s.draw = .error e) : s.onResponse srv now bytes = (s, none) := by
  unfold onResponse
  rw [h]

theorem Waits.spent (h : s.Waits o expiresAt fmk poly true) (hnow : now ≤ expiresAt) {bytes : Bytes}
    (hbad : ¬ s.Accepts o expiresAt fmk poly bytes) :
    (s.visit now (.sends bytes)).1.Waits o expiresAt fmk poly false ∧
      (s.visit now (.sends bytes)).2 = some [] := by
  cases hdone : PairingServer.complete ⟨.connected, false, true, o.serialize, expiresAt, fmk, poly⟩ bytes
      s.publicKey s.draw with
  | ok done => exact absurd ⟨done, hdone⟩ hbad
  | error e =>
    have hrefused := onResponse_error
      { s with server := some ⟨.connected, false, true, o.serialize, expiresAt, fmk, poly⟩ } now hdone
    rw [visit_sends, h.meet hnow, hrefused]
    exact ⟨⟨rfl⟩, rfl⟩

theorem Waits.granted (laws : PairLaws) (h : s.Waits o expiresAt fmk poly true) (hnow : now ≤ expiresAt)
    {bytes : Bytes} (hgood : s.Accepts o expiresAt fmk poly bytes) :
    ∃ grant body, (s.meet now bytes).2 = some grant ∧ openPairGrant o.serialize grant = .ok body := by
  obtain ⟨done, hdone⟩ := hgood
  obtain ⟨s', grant, body, hrun, hopen⟩ := onResponse_grants laws
    { s with server := some ⟨.connected, false, true, o.serialize, expiresAt, fmk, poly⟩ } now
    o.length_serialize hdone
  refine ⟨grant, body, ?_, hopen⟩
  rw [h.meet hnow, hrun]

theorem openPairGrant_ne_nil {offerBytes grant body : Bytes} (h : openPairGrant offerBytes grant = .ok body) :
    grant ≠ [] := by
  rintro rfl
  cases h

section
variable (h : s.Waits o expiresAt fmk poly false)
include h

theorem Waits.deaf (hnow : now ≤ expiresAt) (v : Visit) :
    (s.visit now v).1.Waits o expiresAt fmk poly false ∧ (s.visit now v).2 = none := by
  cases v with
  | silent =>
    rw [h.silent hnow]
    exact ⟨h, rfl⟩
  | sends bytes =>
    refine ⟨?_, (meet_of_no_callback h.server rfl rfl hnow rfl bytes).2⟩
    rw [visit_sends, Sharer.meet, h.serve hnow]
    exact ⟨rfl⟩

theorem Waits.deaf_visits {vs : List (Int × Visit)}
    (hvs : ∀ v ∈ vs, v.1 ≤ expiresAt) : (s.visits vs).Waits o expiresAt fmk poly false ∧ ¬ s.Gave vs := by
  induction vs generalizing s with
  | nil => exact ⟨h, id⟩
  | cons v vs ih =>
    obtain ⟨hv, hvs⟩ := List.forall_mem_cons.1 hvs
    obtain ⟨hnext, hnone⟩ := h.deaf hv v.2
    obtain ⟨hlast, hgave⟩ := ih hnext hvs
    refine ⟨hlast, ?_⟩
    rintro (⟨grant, hgrant, -⟩ | hrest)
    · rw [hnone] at hgrant
      cases hgrant
    · exact hgave hrest

theorem Waits.not_serves (hnow : now ≤ expiresAt)
    (device : ByteArr 32) (nowSec : Int) : ¬ s.Serves o now device nowSec := by
  rintro ⟨-, grant, body, hgrant, -⟩
  rw [(meet_of_no_callback h.server rfl rfl hnow rfl _).2] at hgrant
  cases hgrant

end

theorem Waits.serves (laws : PairLaws) (h : s.Waits o expiresAt fmk poly true) (hnow : now ≤ expiresAt)
    (hcreated : I64Range o.createdSec) (device : ByteArr 32) {nowSec : Int} (hsec : I64Range nowSec) :
    s.Serves o now device nowSec := by
  have hgood : s.Accepts o expiresAt fmk poly (respond o (PairEnv.publicOf device) nowSec).serialize :=
    complete_respond laws o hcreated _ rfl device s.identity s.draw hsec
  exact ⟨by rw [h.serve hnow], h.granted laws hnow hgood⟩

end Sharer

def firstFrame (vs : List (Int × Visit)) : Option Bytes :=
  vs.findSome? fun v => match v.2 with
    | .sends bytes => some bytes
    | .silent => none

namespace Sharer

variable {s : Sharer} {o : PairingOffer} {expiresAt now : Int} {fmk : ByteArr 32} {poly : Nat}

/-- A server that waits gives a grant to a device that answers after others, or has given one before,
exactly if the first of their frames was a right answer. -/
theorem Waits.gave_or_serves_iff (laws : PairLaws) (h : s.Waits o expiresAt fmk poly true)
    (hcreated : I64Range o.createdSec) {vs : List (Int × Visit)} (hvs : ∀ v ∈ vs, v.1 ≤ expiresAt)
    (hnow : now ≤ expiresAt) (device : ByteArr 32) {nowSec : Int} (hsec : I64Range nowSec) :
    (s.Gave vs ∨ (s.visits vs).Serves o now device nowSec) ↔
      ∀ bytes, firstFrame vs = some bytes → s.Accepts o expiresAt fmk poly bytes := by
  induction vs with
  | nil => exact iff_of_true (.inr (h.serves laws hnow hcreated device hsec)) fun _ hnone => by cases hnone
  | cons v vs ih =>
    obtain ⟨hv, hrest⟩ := List.forall_mem_cons.1 hvs
    obtain ⟨t, act⟩ := v
    cases act with
    | silent =>
      -- the state is as before, so the rest decides
      have hsame : ∀ x, firstFrame ((t, Visit.silent) :: vs) = some x ↔ firstFrame vs = some x :=
        fun _ => Iff.rfl
      simp only [hsame, ← ih hrest]
      simp only [Gave, visits, List.foldl_cons, h.silent hv]
      simp
    | sends bytes =>
      have hfirst : firstFrame ((t, Visit.sends bytes) :: vs) = some bytes := rfl
      simp only [hfirst, Option.some.injEq, forall_eq']
      constructor
      · intro hgood
        by_contra hbad
        obtain ⟨hnext, hempty⟩ := h.spent hv hbad
        obtain ⟨hlast, hgave⟩ := hnext.deaf_visits hrest
        rcases hgood with (⟨grant, hgrant, hne⟩ | hlater) | hserves
        · rw [hempty] at hgrant
          cases hgrant
          exact hne rfl
        · exact hgave hlater
        · exact hlast.not_serves hnow device nowSec hserves
      · intro hgood
        obtain ⟨grant, body, hgrant, hopen⟩ := h.granted laws hv hgood
        exact .inl (.inl ⟨grant, hgrant, openPairGrant_ne_nil hopen⟩)

end Sharer

/-- Before it expires, an offer is still good for the device that answers it exactly if no client
before sent a frame that was not a right answer, unless a grant has been given. -/
theorem offer_survives_iff (laws : PairLaws) (identity : ByteArr 32) (code : List Char)
    (folderId : ByteArr 16) (poly : Nat) (head : ConfigHead) (fmk secret : ByteArr 32) {createdSec : Int}
    (hcreated : I64Range createdSec) (made : Int) (draw : Nat) (vs : List (Int × Visit))
    (hvs : ∀ v ∈ vs, v.1 ≤ offerExpiry made) {now : Int} (hnow : now ≤ offerExpiry made)
    (device : ByteArr 32) {nowSec : Int} (hsec : I64Range nowSec) :
    let s := createOffer identity code folderId poly head fmk secret createdSec made true draw
    let o : PairingOffer := ⟨folderId, PairEnv.publicOf identity, secret, createdSec⟩
    (s.Gave vs ∨ (s.visits vs).Serves o now device nowSec) ↔
      ∀ bytes, firstFrame vs = some bytes → s.Accepts o (offerExpiry made) fmk poly bytes := by
  intro s o
  have hwaits : s.Waits o (offerExpiry made) fmk poly true := ⟨rfl⟩
  exact hwaits.gave_or_serves_iff laws hcreated hvs hnow device hsec

end

open scoped Sample in
/-- After a client that sent nothing the offer is as good as before. -/
theorem offer_survives_silence : ¬ Sample.offering.Gave [(1, .silent)] ∧
    (Sample.offering.visits [(1, .silent)]).Serves Sample.sampleOffer 2 (Sample.device 2) 0 := by
  have hgave : ¬ Sample.offering.Gave [(1, .silent)] := by
    rintro (⟨grant, hgrant, -⟩ | hrest)
    · cases hgrant
    · exact hrest
  have hserves := (offer_survives_iff Sample.samplePairLaws (Sample.device 1) Sample.sampleCode
    (ByteArr.fill 16 9) 3 Sample.sampleHead (Sample.device 5) (Sample.device 7) (show I64Range 0 by decide) 0 0
    [(1, .silent)] (by decide) (show 2 ≤ offerExpiry 0 by decide) (Sample.device 2)
    (show I64Range 0 by decide)).2 (fun bytes hnone => by cases hnone)
  exact ⟨hgave, hserves.resolve_left hgave⟩

open scoped Sample in
/-- A client that sends one byte uses the offer up: the right answer that comes next is not answered. -/
theorem offer_used_up : (Sample.offering.visit 1 (.sends [0])).2 = some [] ∧
    ((Sample.offering.visits [(1, .sends [0])]).serve 2).2 = some Sample.sampleOffer.serialize ∧
    ((Sample.offering.visits [(1, .sends [0])]).meet 2
      (respond Sample.sampleOffer (PairEnv.publicOf (Sample.device 2)) 0).serialize).2 = none :=
  ⟨by decide +kernel, by decide +kernel, by decide +kernel⟩

end Ferry
