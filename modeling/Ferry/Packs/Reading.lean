import Ferry.Packs.Store

/-! # What a read returns

`get` changes the store it reads from: it notes packs that are missing and keeps
packs it has opened. This module says what the reading steps return as functions
of the state, and how little of the state they change.
-/

namespace Ferry

open Lib

variable {s : PackStore}

namespace PackStore

/-! ## Packs that are there -/

def present (s : PackStore) (pack : PackId) : Bool :=
  pack ∉ s.dangling ∧ (s.disk.packs.lookup pack).isSome

def presentAt (s : PackStore) (kind : BlobKind) (id : BlobId) : List IndexEntry :=
  (s.locations.candidates kind id).filter fun e => s.present e.pack

/-- Only packs that are not there have been noted as such. -/
def Noted (s s' : PackStore) : Prop :=
  (∃ dangling, s' = { s with dangling := dangling }) ∧ s'.present = s.present

theorem Noted.refl (s : PackStore) : s.Noted s := ⟨⟨s.dangling, rfl⟩, rfl⟩

theorem Noted.trans {s' s'' : PackStore} (h : s.Noted s') (h' : s'.Noted s'') : s.Noted s'' := by
  obtain ⟨⟨d, rfl⟩, hp⟩ := h
  obtain ⟨⟨d', rfl⟩, hp'⟩ := h'
  exact ⟨⟨d', rfl⟩, hp'.trans hp⟩

end PackStore

/-- Asking for a pack changes nothing but the list of those found missing. -/
theorem run_packExists (s : PackStore) (pack : PackId) :
    ∃ s', packExists pack s = .ok (s.present pack) s' ∧ s.Noted s' := by
  unfold packExists
  rw [run_bind_ok (run_get s)]
  by_cases hd : pack ∈ s.dangling
  · rw [if_pos hd]
    refine ⟨s, ?_, .refl s⟩
    simp [PackStore.present, hd]
  rw [if_neg hd]
  by_cases hf : (s.disk.packs.lookup pack).isSome
  · rw [if_pos hf]
    refine ⟨s, ?_, .refl s⟩
    simp [PackStore.present, hd, hf]
  rw [if_neg hf]
  refine ⟨{ s with dangling := pack :: s.dangling }, ?_, ⟨_, rfl⟩, ?_⟩
  · simp [PackStore.present, hf]
    rfl
  · funext p
    by_cases hp : p = pack
    · subst hp
      simp [PackStore.present, hf]
    · simp [PackStore.present, hp]

theorem run_anyExists (es : List IndexEntry) (s : PackStore) :
    ∃ s', anyExists es s = .ok (es.any fun e => s.present e.pack) s' ∧ s.Noted s' := by
  induction es generalizing s with
  | nil => exact ⟨s, rfl, .refl s⟩
  | cons e es ih =>
    obtain ⟨s₁, hrun, hnoted⟩ := run_packExists s e.pack
    unfold anyExists
    rw [run_bind_ok hrun]
    cases hp : s.present e.pack with
    | true => exact ⟨s₁, by simp [hp], hnoted⟩
    | false =>
      obtain ⟨s₂, hrest, hnoted'⟩ := ih s₁
      refine ⟨s₂, ?_, hnoted.trans hnoted'⟩
      rw [hnoted.2] at hrest
      simpa [hp] using hrest

theorem run_existingFirst (es : List IndexEntry) (s : PackStore) :
    ∃ s', existingFirst es s = .ok (es.filter fun e => s.present e.pack) s' ∧ s.Noted s' := by
  induction es generalizing s with
  | nil => exact ⟨s, rfl, .refl s⟩
  | cons e es ih =>
    obtain ⟨s₁, hrun, hnoted⟩ := run_packExists s e.pack
    obtain ⟨s₂, hrest, hnoted'⟩ := ih s₁
    refine ⟨s₂, ?_, hnoted.trans hnoted'⟩
    unfold existingFirst
    rw [run_bind_ok hrun, run_bind_ok hrest, hnoted.2]
    cases hp : s.present e.pack with
    | true | false => simp [hp]

/-! ## Opening a pack -/

section
variable [PackEnv]

namespace PackStore

/-- The pack as the next read sees it: the cached copy, or else the file. -/
def verified (s : PackStore) (pack : PackId) : Except PackError VerifiedPack :=
  match s.cache.find pack with
  | some vp => .ok vp
  | none =>
    match s.disk.packs.lookup pack with
    | none => .error .io
    | some bytes => (openPack bytes pack s.fmk).map fun ctx => ⟨pack, bytes, ctx⟩

def opened (s : PackStore) (pack : PackId) : PackStore :=
  match s.cache.find pack, s.verified pack with
  | some vp, _ => { s with cache := s.cache.promote vp }
  | none, .ok vp => { s with cache := s.cache.insert vp }
  | none, .error _ => s

def reads (s : PackStore) (kind : BlobKind) (id : BlobId) (e : IndexEntry) : Except PackError Bytes :=
  (s.verified e.pack).bind fun vp => readBlobFromCtx vp.bytes vp.ctx kind id (e.plainOff, e.plainLen)

/-- The packs at these locations, opened one after the other, give `b`: each is passed over with an
error that does not end the read, until one has the bytes. -/
inductive Answers (kind : BlobKind) (id : BlobId) (b : Bytes) : PackStore → List IndexEntry → Prop
  | here {s : PackStore} {e : IndexEntry} {rest : List IndexEntry} :
      s.reads kind id e = .ok b → Answers kind id b s (e :: rest)
  | later {s : PackStore} {e : IndexEntry} {rest : List IndexEntry} {err : PackError} :
      s.reads kind id e = .error err → ¬ err.endsRead → Answers kind id b (s.opened e.pack) rest →
      Answers kind id b s (e :: rest)

end PackStore

theorem run_openVerified (s : PackStore) (pack : PackId) :
    openVerified pack s = .ok (s.verified pack) (s.opened pack) := by
  unfold openVerified PackStore.opened PackStore.verified
  rw [run_bind_ok (run_get s)]
  cases hc : s.cache.find pack with
  | some => rfl
  | none =>
    cases hl : s.disk.packs.lookup pack with
    | none => rfl
    | some bytes =>
      dsimp only
      cases ho : openPack bytes pack s.fmk with
      | error | ok => rfl

variable {kind : BlobKind} {id : BlobId} {b : Bytes}

/-- The loop of `get` returns `b` exactly if the locations answer with it. -/
theorem run_readFirst_iff (es : List IndexEntry) (last : BlobError) (s : PackStore) :
    (∃ s', readFirst kind id es last s = .ok b s') ↔ PackStore.Answers kind id b s es := by
  induction es generalizing s last with
  | nil =>
    constructor
    · rintro ⟨s', h⟩
      cases h
    · intro h
      cases h
  | cons e es ih =>
    unfold readFirst
    rw [run_bind_ok (run_openVerified s e.pack)]
    have hreads : ((s.verified e.pack).bind fun vp =>
        readBlobFromCtx vp.bytes vp.ctx kind id (e.plainOff, e.plainLen)) = s.reads kind id e := rfl
    rw [hreads]
    cases hr : s.reads kind id e with
    | ok =>
      constructor
      · rintro ⟨s', h⟩
        cases h
        exact .here hr
      · intro h
        cases h with
        | here hok =>
          rw [hr] at hok
          cases hok
          exact ⟨_, rfl⟩
        | later herr =>
          rw [hr] at herr
          cases herr
    | error err =>
      change (∃ s', (if err.endsRead then throw (.pack err)
        else readFirst kind id es (.pack err) : BlobM Bytes) (s.opened e.pack) = .ok b s') ↔ _
      by_cases hd : err.endsRead
      · rw [if_pos hd]
        constructor
        · rintro ⟨s', h⟩
          cases h
        · intro h
          cases h with
          | here hok =>
            rw [hr] at hok
            cases hok
          | later herr hnd =>
            rw [hr] at herr
            cases herr
            exact absurd hd hnd
      · rw [if_neg hd, ih]
        constructor
        · exact .later hr hd
        · intro h
          cases h with
          | here hok =>
            rw [hr] at hok
            cases hok
          | later _ _ hrest => exact hrest

theorem PackStore.Answers.of_dangling
    {es : List IndexEntry} (h : Answers kind id b s es) (dangling : List PackId) :
    Answers kind id b { s with dangling := dangling } es := by
  induction h with
  | here hok => exact .here hok
  | @later s e rest err herr hnd _ ih =>
    refine .later (by exact herr) hnd ?_
    convert ih using 1
    unfold opened verified
    cases s.cache.find e.pack with
    | some => rfl
    | none =>
      cases s.disk.packs.lookup e.pack with
      | none => rfl
      | some bytes =>
        dsimp only
        cases openPack bytes e.pack s.fmk with
        | error | ok => rfl

/-- The answer of `get` in a state: staged bytes come first. -/
def PackStore.Gives (s : PackStore) (kind : BlobKind) (id : BlobId) (b : Bytes) : Prop :=
  match s.staging.stagedBytes kind id with
  | some staged => staged = b ∧ Env.blake3 b = id
  | none => PackStore.Answers kind id b s (s.presentAt kind id)

/-- A get returns bytes exactly if they are staged or a location gives them. -/
theorem run_getBlob_iff (s : PackStore) : (∃ s', getBlob kind id s = .ok b s') ↔ s.Gives kind id b := by
  unfold getBlob PackStore.Gives
  rw [run_bind_ok (run_get s)]
  cases hs : s.staging.stagedBytes kind id with
  | some staged =>
    dsimp only
    by_cases hid : Env.blake3 staged = id
    · rw [if_neg (not_not.2 hid)]
      constructor
      · rintro ⟨s', h⟩
        cases h
        exact ⟨rfl, hid⟩
      · rintro ⟨rfl, -⟩
        exact ⟨s, rfl⟩
    · rw [if_pos hid]
      constructor
      · rintro ⟨s', h⟩
        cases h
      · rintro ⟨rfl, h⟩
        exact absurd h hid
  | none =>
    dsimp only
    obtain ⟨s', hrun, hnoted⟩ := run_existingFirst (s.locations.candidates kind id) s
    rw [run_bind_ok hrun, run_readFirst_iff]
    obtain ⟨⟨d, rfl⟩, -⟩ := hnoted
    exact ⟨fun h => h.of_dangling s.dangling, fun h => h.of_dangling d⟩

theorem PackStore.Answers.hash {es : List IndexEntry} (h : Answers kind id b s es) : Env.blake3 b = id := by
  induction h with
  | here hok =>
    obtain ⟨vp, -, hread⟩ := bind_eq_ok.1 hok
    exact readBlobFromCtx_hash hread
  | later _ _ _ ih => exact ih

theorem getBlob_hash {s' : PackStore} (h : getBlob kind id s = .ok b s') : Env.blake3 b = id := by
  have hgives := (run_getBlob_iff s).1 ⟨s', h⟩
  unfold PackStore.Gives at hgives
  split at hgives
  · exact hgives.2
  · exact hgives.hash

/-! ## What a read keeps -/

section
variable {I : PackStore → Prop} (hopened : ∀ s pack, I s → I (s.opened pack))
include hopened

theorem keeps_readFirst (kind : BlobKind) (id : BlobId)
    (es : List IndexEntry) (last : BlobError) : Keeps I (readFirst kind id es last) := by
  induction es generalizing last with
  | nil => exact .throw _
  | cons e es ih =>
    refine .bind (fun s hs => ?_) fun verified => ?_
    · rw [run_openVerified]
      exact hopened s e.pack hs
    split
    · exact .pure _
    · split
      · exact .throw _
      · exact ih _

theorem keeps_getBlob (hnoted : ∀ s s', s.Noted s' → I s → I s') (kind : BlobKind) (id : BlobId) :
    Keeps I (getBlob kind id) := by
  refine .get_bind fun s => ?_
  split
  · split
    · exact .throw _
    · exact .pure _
  · refine .bind (fun s hs => ?_) fun ordered => keeps_readFirst hopened kind id ordered _
    obtain ⟨s', hrun, hn⟩ := run_existingFirst _ s
    rw [hrun]
    exact hnoted s s' hn hs

end

end

end Ferry
