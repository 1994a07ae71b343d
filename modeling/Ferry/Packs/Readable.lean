import Ferry.Packs.Roundtrip

/-! # Locations that can be read

A location says that a blob lies in a pack, at an offset and with a length. The
store trusts its locations: a blob that has one whose pack is there is not stored
again. Locations come from packs that the store has sealed itself, and from packs
that a peer has sent.
-/

namespace Ferry

open Lib List

/-! ## Steps that write index files -/

/-- Only the index files, and the counters that go with them, have changed. -/
def PackStore.Reindexed (s s' : PackStore) : Prop :=
  ∃ index nextIndex draw,
    s' = { s with disk := { s.disk with index := index }, nextIndex := nextIndex, draw := draw }

theorem LocationTable.mem_merge {t incoming : LocationTable} {e : IndexEntry} :
    e ∈ t.merge incoming ↔ e ∈ t ∨ e ∈ incoming := by
  unfold merge
  induction incoming generalizing t with
  | nil => simp
  | cons e' incoming ih =>
    have hadd : e ∈ t.add e' ↔ e ∈ t ∨ e = e' := by
      unfold add
      split
      · exact ⟨.inl, fun h => h.elim id fun heq => heq ▸ ‹_›⟩
      · simp
    rw [foldl_cons, ih, hadd, mem_cons, or_assoc]

section
variable [PackEnv]

variable {s s₀ : PackStore} {claimed : PackId}

omit [PackEnv] in
theorem keeps_reindexed_modify {f : PackStore → PackStore}
    (h : ∀ s : PackStore, s.Reindexed (f s)) : Keeps s₀.Reindexed (modify f : BlobM PUnit) := by
  refine Triple.modify ?_
  rintro _ ⟨index, n, draw, rfl⟩
  obtain ⟨index', n', draw', heq⟩ := h { s₀ with
    disk := { s₀.disk with index := index }, nextIndex := n, draw := draw }
  exact ⟨index', n', draw', heq⟩

theorem keeps_reindexed_writeIndexFile (entries : List IndexEntry) :
    Keeps s₀.Reindexed (writeIndexFile entries) := by
  refine .bind ?_ fun salt => .get_bind fun s => .bind ?_ fun file => .bind ?_ fun n =>
    .bind (keeps_reindexed_modify fun s => ⟨_, _, _, rfl⟩) fun _ => .pure n
  · exact .get_bind fun s => .bind (keeps_reindexed_modify fun s => ⟨_, _, _, rfl⟩) fun _ => .pure _
  · cases sealIndexContainer s.fmk salt entries with
    | ok a => exact Keeps.pure a
    | error => exact Keeps.throw _
  · exact .get_bind fun s => .bind (keeps_reindexed_modify fun s => ⟨_, _, _, rfl⟩) fun _ => .pure _

theorem keeps_reindexed_appendIndexFile (entries : List IndexEntry) :
    Keeps s₀.Reindexed (appendIndexFile entries) := by
  refine .bind (keeps_reindexed_writeIndexFile entries) fun _ => .get_bind fun s => ?_
  split
  · exact .get_bind fun _ => .bind (keeps_reindexed_writeIndexFile _) fun _ =>
      keeps_reindexed_modify fun s => ⟨_, _, _, rfl⟩
  · exact .pure _

/-! ## Locations -/

namespace PackStore

/-- The pack of the location is there and gives bytes that hash to the id. -/
def ReadableAt (s : PackStore) (e : IndexEntry) : Prop :=
  s.present e.pack ∧ ∃ b, s.reads e.kind e.id e = .ok b ∧ Env.blake3 b = e.id

/-- Each entry of the location table can be read back. -/
def LocationsReadable (s : PackStore) : Prop := ∀ e ∈ s.locations, s.ReadableAt e

theorem readableAt_iff {e : IndexEntry} :
    s.ReadableAt e ↔ s.present e.pack ∧ ∃ b, s.reads e.kind e.id e = .ok b := by
  refine and_congr_right fun _ => exists_congr fun b => and_iff_left_of_imp fun h => ?_
  obtain ⟨vp, -, hread⟩ := bind_eq_ok.1 h
  exact readBlobFromCtx_hash hread

theorem Reindexed.readableAt_iff {s' : PackStore} (h : s.Reindexed s') {e : IndexEntry} :
    s'.ReadableAt e ↔ s.ReadableAt e := by
  obtain ⟨index, n, draw, rfl⟩ := h
  exact Iff.rfl

end PackStore

/-! ## Packs in memory -/

/-- What a store keeps in its cache was opened under the name it has. -/
def PackStore.Genuine (fmk : ByteArr 32) (s : PackStore) : Prop :=
  s.fmk = fmk ∧ ∀ vp ∈ s.cache, openPack vp.bytes vp.packId fmk = .ok vp.ctx

theorem indifferent_genuine (fmk : ByteArr 32) : Indifferent (PackStore.Genuine fmk) where
  tables _ _ _ _ _ h := h
  cache _ hcache h := by
    refine ⟨h.1, fun vp hvp => ?_⟩
    rcases hcache vp hvp with hvp | hopen
    · exact h.2 vp hvp
    · exact h.1 ▸ hopen

theorem PackStore.Genuine.promote {fmk : ByteArr 32} (h : s.Genuine fmk) {vp : VerifiedPack}
    (hvp : openPack vp.bytes vp.packId fmk = .ok vp.ctx) :
    PackStore.Genuine fmk { s with cache := s.cache.promote vp } := by
  refine (indifferent_genuine fmk).cache _ (fun vp' hvp' => ?_) h
  rcases PackCache.mem_promote hvp' with rfl | hmem
  · exact .inr (h.1.symm ▸ hvp)
  · exact .inl hmem

theorem PackStore.Genuine.opened {fmk : ByteArr 32} (h : s.Genuine fmk) (pack : PackId) :
    (s.opened pack).Genuine fmk := (indifferent_genuine fmk).opened pack h

/-! ## Packs from a peer -/

inductive IngestError where
  | nameMismatch (claimed found : String)
  | other (e : BlobError)
  deriving DecidableEq

/-- `ingest_pack_verified`; how another error is worded is left out. -/
def ingestPackVerified (claimed : PackId) (bytes : Bytes) : EStateM IngestError PackStore Unit := fun s =>
  match adoptPack claimed bytes s with
  | .ok _ s' => .ok () s'
  | .error (.pack (.nameMismatch expected found)) s' => .error (.nameMismatch expected found) s'
  | .error e s' => .error (.other e) s'

namespace PackStore

def adopted (s : PackStore) (claimed : PackId) (bytes : Bytes) (ctx : PackContext) : PackStore :=
  { s with
    disk := { s.disk with packs :=
      if (s.disk.packs.lookup claimed).isSome then s.disk.packs else s.disk.packs.insert claimed bytes }
    dangling := s.dangling.filter (· ≠ claimed)
    cache := s.cache.insert ⟨claimed, bytes, ctx⟩
    locations := s.locations.merge (ctx.entries.map (FooterEntry.located claimed)) }

/-- The copy that a read of the pack finds once it is adopted: the bytes from the peer if they are
kept in memory or if there was no other copy. -/
def adoptedCopy (s : PackStore) (claimed : PackId) (bytes : Bytes) : Except PackError VerifiedPack :=
  if bytes.length ≤ maxCachedPackBytes ∨
      (s.cache.find claimed = none ∧ s.disk.packs.lookup claimed = none) then
    (openPack bytes claimed s.fmk).map fun ctx => ⟨claimed, bytes, ctx⟩
  else s.verified claimed

/-- Each row of the pack's footer that the store does not know yet is true of the pack. -/
def HonestPack (s : PackStore) (claimed : PackId) (bytes : Bytes) : Prop :=
  ∀ ctx, openPack bytes claimed s.fmk = .ok ctx → ∀ e ∈ ctx.entries, e.located claimed ∉ s.locations →
    ∃ b, ((s.adoptedCopy claimed bytes).bind fun vp =>
      readBlobFromCtx vp.bytes vp.ctx e.kind e.id (e.plainOff, e.plainLen)) = .ok b

end PackStore

/-- The pack has been taken in; nothing else has happened but to index files. -/
def PackStore.Adopts (claimed : PackId) (bytes : Bytes) (s s' : PackStore) : Prop :=
  ∃ ctx, openPack bytes claimed s.fmk = .ok ctx ∧ (s.adopted claimed bytes ctx).Reindexed s'

/-- An adopted pack is written and indexed under its own name, or nothing has happened. -/
theorem adoptPack_adopts (claimed : PackId) (bytes : Bytes) (s : PackStore) :
    Triple (· = s) (adoptPack claimed bytes) (fun _ => s.Adopts claimed bytes)
      (fun _ s' => s' = s ∨ s.Adopts claimed bytes s') := by
  rintro s rfl
  unfold adoptPack
  by_cases hname : packNameOf bytes = claimed
  · dsimp only
    rw [if_neg (not_not.2 hname), hname, run_bind_ok (run_get s)]
    cases hopen : openPack bytes claimed s.fmk with
    | error => exact .inl rfl
    | ok ctx =>
      have happend : Triple (s.adopted claimed bytes ctx).Reindexed
          (appendIndexFile (ctx.entries.map (FooterEntry.located claimed)))
          (fun _ => s.Adopts claimed bytes) (fun _ s' => s' = s ∨ s.Adopts claimed bytes s') :=
        (keeps_reindexed_appendIndexFile _).weaken (fun _ h => h) (fun _ _ h => ⟨ctx, hopen, h⟩)
          (fun _ _ h => .inr ⟨ctx, hopen, h⟩)
      rw [run_bind_ok (show liftAs BlobError.pack (.ok ctx) s = .ok ctx s from rfl),
        run_bind_ok (run_modify ..), notePackWritten]
      convert happend (s.adopted claimed bytes ctx) ⟨_, _, _, rfl⟩ using 2
      unfold PackStore.adopted
      split <;> rfl
  · dsimp only
    rw [if_pos hname]
    exact .inl rfl

theorem adoptPack_ok {bytes : Bytes} {s' : PackStore}
    (h : adoptPack claimed bytes s = .ok () s') : s.Adopts claimed bytes s' :=
  (adoptPack_adopts claimed bytes s).of_ok rfl h

omit [PackEnv] in
theorem PackCache.find_promote (c : PackCache) (vp : VerifiedPack) :
    (c.promote vp).find vp.packId = some vp := by
  simp [PackCache.promote, PackCache.find, defaultPackCacheCapacity]

namespace PackStore

theorem verified_adopted {bytes : Bytes} {ctx : PackContext}
    (hopen : openPack bytes claimed s.fmk = .ok ctx) :
    (s.adopted claimed bytes ctx).verified claimed = s.adoptedCopy claimed bytes := by
  unfold adoptedCopy
  by_cases hsmall : bytes.length ≤ maxCachedPackBytes
  · have hfind : (s.adopted claimed bytes ctx).cache.find claimed = some ⟨claimed, bytes, ctx⟩ := by
      simp only [adopted, PackCache.insert, if_neg (Nat.not_lt.2 hsmall)]
      exact PackCache.find_promote s.cache ⟨claimed, bytes, ctx⟩
    rw [if_pos (.inl hsmall), verified, hfind, hopen]
    rfl
  have hcache : (s.adopted claimed bytes ctx).cache = s.cache := by
    simp only [adopted, PackCache.insert, if_pos (Nat.lt_of_not_le hsmall)]
  unfold verified
  rw [hcache]
  cases hfind : s.cache.find claimed with
  | some => simp [hsmall]
  | none =>
    cases hfile : s.disk.packs.lookup claimed with
    | none => simp [adopted, hfile]
    | some => simp [adopted, hfile, hsmall]

omit [PackEnv] in
theorem present_adopted (s : PackStore) (claimed : PackId) (bytes : Bytes) (ctx : PackContext) :
    (s.adopted claimed bytes ctx).present claimed := by
  unfold present adopted
  cases hfile : s.disk.packs.lookup claimed with
  | none => simp
  | some => simp [hfile]

theorem readableAt_adopted {bytes : Bytes} {ctx : PackContext}
    (hopen : openPack bytes claimed s.fmk = .ok ctx) (e : FooterEntry) :
    (s.adopted claimed bytes ctx).ReadableAt (e.located claimed) ↔
      ∃ b, ((s.adoptedCopy claimed bytes).bind fun vp =>
        readBlobFromCtx vp.bytes vp.ctx e.kind e.id (e.plainOff, e.plainLen)) = .ok b := by
  rw [readableAt_iff, ← verified_adopted hopen]
  exact and_iff_right (s.present_adopted claimed bytes ctx)

end PackStore

/-- What a pack from a peer adds to the location table can be read back exactly when the rows of its
footer that are new are true. -/
theorem ingestPackVerified_readable_iff {claimed : PackId} {bytes : Bytes} {s s' : PackStore}
    (h : ingestPackVerified claimed bytes s = .ok () s') :
    (∀ e ∈ s'.locations, e ∉ s.locations → s'.ReadableAt e) ↔ s.HonestPack claimed bytes := by
  have hadopt : adoptPack claimed bytes s = .ok () s' := by
    unfold ingestPackVerified at h
    split at h
    · cases h
      assumption
    · cases h
    · cases h
  obtain ⟨ctx, hopen, hindexed⟩ := adoptPack_ok hadopt
  have hlocations : ∀ e, e ∈ s'.locations ↔ e ∈ s.locations ∨ ∃ f ∈ ctx.entries, f.located claimed = e := by
    intro e
    obtain ⟨index, n, draw, rfl⟩ := hindexed
    rw [← mem_map]
    exact LocationTable.mem_merge
  constructor
  · intro hall ctx' hopen' e he hnew
    rw [hopen] at hopen'
    cases hopen'
    rw [← PackStore.readableAt_adopted hopen, ← hindexed.readableAt_iff]
    exact hall _ ((hlocations _).2 (.inr ⟨e, he, rfl⟩)) hnew
  · intro hhonest e he hnew
    obtain ⟨f, hf, rfl⟩ := ((hlocations e).1 he).resolve_left hnew
    rw [hindexed.readableAt_iff, PackStore.readableAt_adopted hopen]
    exact hhonest ctx hopen f hf hnew

end

/-! ### A footer that lies -/

namespace Sample

def packWith (id : BlobId) : Bytes :=
  match sealPackBytes .packData zeroId (PackEnv.salt 0) [7] [⟨.dataChunk, id, 0, 1⟩] with
  | .ok file => file
  | .error _ => []

def ingested (bytes : Bytes) : PackStore :=
  match ingestPackVerified (packNameOf bytes) bytes freshStore with
  | .ok _ s => s
  | .error _ s => s

theorem ingestPackVerified_packWith (id : BlobId)
    (h : (match ingestPackVerified (packNameOf (packWith id)) (packWith id) freshStore with
      | .ok _ _ => true
      | .error _ _ => false) = true) :
    ingestPackVerified (packNameOf (packWith id)) (packWith id) freshStore =
      .ok () (ingested (packWith id)) := by
  unfold ingested
  split at h
  · rename_i hrun
    rw [hrun]
  · cases h

end Sample

open Sample in
/-- The footer lists the chunk under an id that is not its hash. -/
theorem ingestPackVerified_lie :
    freshStore.LocationsReadable ∧
      ∃ bytes s', ingestPackVerified (packNameOf bytes) bytes freshStore = .ok () s' ∧
        ¬ ∀ e ∈ s'.locations, e ∉ freshStore.locations → s'.ReadableAt e := by
  refine ⟨fun e he => (nomatch he), packWith zeroId, ingested (packWith zeroId), ?_, fun hall => ?_⟩
  · exact ingestPackVerified_packWith zeroId (by decide +kernel)
  · have hread := hall ⟨.dataChunk, zeroId, packNameOf (packWith zeroId), 0, 1⟩ (by decide +kernel)
      (fun he => (nomatch he))
    obtain ⟨-, b, hb, -⟩ := hread
    have hfails : ((ingested (packWith zeroId)).reads .dataChunk zeroId
        ⟨.dataChunk, zeroId, packNameOf (packWith zeroId), 0, 1⟩).toOption = none := by decide +kernel
    rw [hb] at hfails
    cases hfails

open Sample in
/-- It lists the chunk under its hash. -/
theorem ingestPackVerified_readable_iff_true :
    ∃ s', ingestPackVerified (packNameOf (packWith (Env.blake3 [7]))) (packWith (Env.blake3 [7]))
        freshStore = .ok () s' ∧ s'.locations ≠ [] ∧
      ∀ e ∈ s'.locations, e ∉ freshStore.locations → s'.ReadableAt e := by
  have hrun := ingestPackVerified_packWith (Env.blake3 [7]) (by decide +kernel)
  refine ⟨_, hrun, by decide +kernel, (ingestPackVerified_readable_iff hrun).2 ?_⟩
  intro ctx hopen e he _
  have hall : ((openPack (packWith (Env.blake3 [7])) (packNameOf (packWith (Env.blake3 [7])))
      freshStore.fmk).toOption.all fun ctx => ctx.entries.all fun e =>
        ((freshStore.adoptedCopy (packNameOf (packWith (Env.blake3 [7]))) (packWith (Env.blake3 [7]))).bind
          fun vp => readBlobFromCtx vp.bytes vp.ctx e.kind e.id (e.plainOff, e.plainLen)).isOk) = true := by
    decide +kernel
  rw [hopen] at hall
  exact exists_of_isOk (all_eq_true.1 hall e he)

end Ferry
