import Ferry.Packs.Gc
import Ferry.Packs.Sealing

/-! # Histories of a store

Whatever is done with a store, and whatever happens to its files meanwhile, the
index of staged blobs tells the truth about the open packs. From this follows
when a blob that was put can be read back.
-/

namespace Ferry

open Lib List

/-! ## Steps that leave the open packs alone -/

theorem PackCache.mem_promote {c : PackCache} {vp vp' : VerifiedPack} (h : vp' ∈ c.promote vp) :
    vp' = vp ∨ vp' ∈ c := by
  rcases mem_cons.1 (mem_of_mem_take h) with rfl | h
  · exact .inl rfl
  · exact .inr (mem_of_mem_filter h)

theorem PackCache.mem_insert {c : PackCache} {vp vp' : VerifiedPack} (h : vp' ∈ c.insert vp) :
    vp' = vp ∨ vp' ∈ c := by
  unfold PackCache.insert at h
  split at h
  · exact .inr h
  · exact mem_promote h

theorem keeps_liftAs {I : PackStore → Prop} {ε α : Type} (wrap : ε → BlobError) (x : Except ε α) :
    Keeps I (liftAs wrap x) := by
  cases x with
  | ok a => exact Keeps.pure a
  | error e => exact Keeps.throw (wrap e)

/-! ## Errors of a footer -/

section
variable {ε α β : Type} {P : ε → Prop}

/-- Every error of the reader has the property. -/
def Raises (P : ε → Prop) (m : Read ε α) : Prop := ∀ r e, m r = .error e → P e

namespace Raises

theorem bind {m : Read ε α} {f : α → Read ε β} (hm : Raises P m) (hf : ∀ a, Raises P (f a)) : Raises P (m >>= f) := by
  intro r e h
  rcases bind_eq_error.1 (show (m r >>= fun x => f x.1 x.2) = .error e from h) with h | ⟨x, -, h⟩
  · exact hm r e h
  · exact hf x.1 x.2 e h

theorem pure (a : α) : Raises P (Pure.pure a : Read ε α) := by
  intro r e h
  cases h

theorem throw {e : ε} (he : P e) : Raises P (MonadExcept.throw e : Read ε α) := by
  intro r e' h
  cases h
  exact he

theorem mapError {ε' : Type} {f : ε' → ε} (hf : ∀ e, P (f e)) (m : Read ε' α) : Raises P (m.mapError f) := by
  intro r e h
  unfold Read.mapError at h
  split at h
  · cases h
  · cases h
    exact hf _

theorem readN {step : Read ε α} (h : Raises P step) (count : Nat) : Raises P (readN step count) := by
  induction count with
  | zero => exact .pure _
  | succ count ih => exact h.bind fun x => ih.bind fun xs => .pure _

end Raises

end

theorem raises_readFooterTable : Raises (fun e => e.endsRead = false) readFooterTable := by
  have hstep : ∀ {α : Type} (m : Read FormatError α), Raises (fun e => e.endsRead = false) (footerStep m) :=
    fun m => Raises.mapError (P := fun e : PackError => e.endsRead = false) (fun _ => rfl) m
  have hentry : Raises (fun e => e.endsRead = false) readFooterEntry := by
    refine (hstep _).bind fun kb => ?_
    split
    · exact .throw rfl
    · exact (hstep _).bind fun id => (hstep _).bind fun off => (hstep _).bind fun len => .pure _
  refine (hstep _).bind fun len => (hstep _).bind fun count => (hentry.readN _).bind fun entries =>
    (hstep _).bind fun reserved => ?_
  split
  · exact .throw rfl
  · exact (Raises.mapError (P := fun e : PackError => e.endsRead = false) (fun _ => rfl) _).bind fun _ => .pure _

/-! ## Any state -/

variable {s : PackStore}

section
variable [PackEnv]

/-- An assertion that does not depend on the files, the tables and the counters of a store, and
allows for any pack in memory that was opened under its name. -/
structure Indifferent (I : PackStore → Prop) : Prop where
  tables : ∀ {s : PackStore} disk locations nextIndex dangling draw, I s → I { s with
    disk := disk, locations := locations, nextIndex := nextIndex, dangling := dangling, draw := draw }
  cache : ∀ {s : PackStore} cache,
    (∀ vp ∈ cache, vp ∈ s.cache ∨ openPack vp.bytes vp.packId s.fmk = .ok vp.ctx) → I s →
      I { s with cache := cache }

theorem indifferent_staging (P : StagingPools → Prop) : Indifferent fun s => P s.staging where
  tables _ _ _ _ _ h := h
  cache _ _ h := h

namespace Indifferent

variable {I : PackStore → Prop} (hI : Indifferent I)
include hI

theorem keeps_modify {f : PackStore → PackStore} (h : ∀ s, ∃ disk locations nextIndex dangling draw,
    f s = { s with disk := disk, locations := locations, nextIndex := nextIndex, dangling := dangling,
                   draw := draw }) :
    Keeps I (modify f : BlobM PUnit) := by
  refine Triple.modify fun s hs => ?_
  obtain ⟨disk, locations, nextIndex, dangling, draw, heq⟩ := h s
  rw [heq]
  exact hI.tables disk locations nextIndex dangling draw hs

theorem keeps_writeIndexFile (entries : List IndexEntry) : Keeps I (writeIndexFile entries) := by
  refine .bind ?_ fun salt => .get_bind fun s => .bind (keeps_liftAs _ _) fun file =>
    .bind ?_ fun n => .bind (hI.keeps_modify fun _ => ⟨_, _, _, _, _, rfl⟩) fun _ => .pure n
  · exact .get_bind fun s => .bind (hI.keeps_modify fun _ => ⟨_, _, _, _, _, rfl⟩) fun _ => .pure _
  · exact .get_bind fun s => .bind (hI.keeps_modify fun _ => ⟨_, _, _, _, _, rfl⟩) fun _ => .pure _

theorem keeps_compactIndex : Keeps I compactIndex :=
  .get_bind fun _ => .bind (hI.keeps_writeIndexFile _) fun _ =>
    hI.keeps_modify fun _ => ⟨_, _, _, _, _, rfl⟩

theorem keeps_appendIndexFile (entries : List IndexEntry) : Keeps I (appendIndexFile entries) := by
  refine .bind (hI.keeps_writeIndexFile entries) fun _ => .get_bind fun s => ?_
  split
  · exact hI.keeps_compactIndex
  · exact .pure _

theorem keeps_writeIndexSnapshot : Keeps I writeIndexSnapshot :=
  .get_bind fun _ => hI.keeps_appendIndexFile _

theorem keeps_rebuildIndex : Keeps I rebuildIndex :=
  .bind (hI.keeps_modify fun _ => ⟨_, _, _, _, _, rfl⟩) fun _ => hI.keeps_writeIndexSnapshot

theorem keeps_sealToDisk (sp : StagingPack) : Keeps I (sealToDisk sp) :=
  .get_bind fun _ => .bind (keeps_liftAs _ _) fun _ =>
    .bind (hI.keeps_modify fun _ => ⟨_, _, _, _, _, rfl⟩) fun _ =>
    .bind (hI.keeps_modify fun _ => ⟨_, _, _, _, _, rfl⟩) fun _ =>
    .bind (hI.keeps_modify fun _ => ⟨_, _, _, _, _, rfl⟩) fun _ => hI.keeps_appendIndexFile _

theorem noted {s' : PackStore} (h : s.Noted s') (hs : I s) : I s' := by
  obtain ⟨⟨dangling, rfl⟩, -⟩ := h
  exact hI.tables s.disk s.locations s.nextIndex dangling s.draw hs

theorem keeps_anyExists (es : List IndexEntry) : Keeps I (anyExists es) := by
  intro s hs
  obtain ⟨s', hrun, hnoted⟩ := run_anyExists es s
  rw [hrun]
  exact hI.noted hnoted hs

theorem opened (pack : PackId) (hs : I s) : I (s.opened pack) := by
  unfold PackStore.opened
  cases hc : s.cache.find pack with
  | some =>
    refine hI.cache _ (fun vp' hvp' => ?_) hs
    rcases PackCache.mem_promote hvp' with rfl | hmem
    · exact .inl (mem_of_find?_eq_some hc)
    · exact .inl hmem
  | none =>
    cases hv : s.verified pack with
    | error => exact hs
    | ok =>
      refine hI.cache _ (fun vp' hvp' => ?_) hs
      rcases PackCache.mem_insert hvp' with rfl | hmem
      · refine .inr ?_
        unfold PackStore.verified at hv
        rw [hc] at hv
        dsimp only at hv
        split at hv
        · cases hv
        rename_i bytes hl
        cases ho : openPack bytes pack s.fmk with
        | error =>
          rw [ho] at hv
          cases hv
        | ok =>
          rw [ho] at hv
          cases hv
          exact ho
      · exact .inl hmem

theorem keeps_getBlob (kind : BlobKind) (id : BlobId) : Keeps I (getBlob kind id) :=
  Ferry.keeps_getBlob (fun _ pack hs => hI.opened pack hs) (fun _ _ h hs => hI.noted h hs) kind id

theorem keeps_adoptPack (claimed : PackId) (bytes : Bytes) : Keeps I (adoptPack claimed bytes) := by
  unfold adoptPack
  dsimp only
  split
  · exact .throw _
  refine Triple.get_bind fun s hs => ?_
  cases hopen : openPack bytes claimed s.fmk with
  | error => exact Triple.throw fun _ heq => heq ▸ hs
  | ok ctx =>
    rw [show liftAs BlobError.pack (.ok ctx) = pure ctx from rfl, pure_bind]
    refine Triple.bind (Q := fun _ s' => I s' ∧ s'.fmk = s.fmk) (Triple.modify ?_) fun _ =>
      Triple.bind (Q := fun _ s' => I s' ∧ s'.fmk = s.fmk) (Triple.modify ?_) fun _ =>
      Triple.bind (Q := fun _ => I) (Triple.modify ?_) fun _ =>
      Keeps.bind (hI.keeps_modify fun _ => ⟨_, _, _, _, _, rfl⟩) fun _ => hI.keeps_appendIndexFile _
    · rintro _ rfl
      split
      · exact ⟨hs, rfl⟩
      · exact ⟨hI.tables _ _ _ _ _ hs, rfl⟩
    · rintro s' ⟨hs', hfmk⟩
      exact ⟨hI.tables _ _ _ _ _ hs', hfmk⟩
    · rintro s' ⟨hs', hfmk⟩
      refine hI.cache _ (fun vp hvp => ?_) hs'
      rcases PackCache.mem_insert hvp with rfl | hmem
      · exact .inr (hfmk ▸ hopen)
      · exact .inl hmem

theorem keeps_markManifests (ids : List BlobId) (m : Marking) : Keeps I (markManifests ids m) := by
  induction ids generalizing m with
  | nil => exact .pure _
  | cons id ids ih =>
    exact .bind (hI.keeps_getBlob _ _) fun _ => .bind (keeps_liftAs _ _) fun _ => ih _

theorem keeps_markTrees (fuel : Nat) (m : Marking) : Keeps I (markTrees fuel m) := by
  fun_induction markTrees fuel m with
  | case1 => exact .pure _
  | case2 => exact .throw _
  | case3 fuel set treeId stack hmem ih => exact ih
  | case4 fuel set treeId stack hmem ih =>
    exact .bind (hI.keeps_getBlob _ _) fun _ => .bind (keeps_liftAs _ _) fun node => ih node

theorem keeps_packBlobList (pack : PackId) : Keeps I (packBlobList pack) := by
  refine Triple.get_bind fun s hs => ?_
  split
  · rename_i vp hfind
    refine Triple.bind (Triple.modify (Q := fun _ => I) fun _ heq => ?_) fun _ => Keeps.pure _
    rw [heq]
    refine hI.cache _ (fun vp' hvp' => ?_) hs
    rcases PackCache.mem_promote hvp' with rfl | hmem
    · exact .inl (mem_of_find?_eq_some hfind)
    · exact .inl hmem
  · split <;> exact Triple.pure fun _ heq => heq ▸ hs

theorem keeps_deletePack (pack : PackId) : Keeps I (deletePack pack) := by
  refine Triple.modify fun s hs => ?_
  have hcache := hI.cache (PackCache.remove s.cache pack) (fun vp hvp => .inl (mem_of_mem_filter hvp)) hs
  exact hI.tables _ s.locations s.nextIndex s.dangling s.draw hcache

theorem keeps_sweepPack (reachable : List (BlobKind × BlobId)) (grace : Nat) (now : Int) (sw : Sweep)
    (pack : PackId) : Keeps I (sweepPack reachable grace now sw pack) := by
  refine .bind (hI.keeps_packBlobList pack) fun listed => ?_
  split
  · exact .pure _
  split
  · exact .pure _
  · dsimp only
    split
    · exact .bind (hI.keeps_deletePack pack) fun _ => .pure _
    · exact .pure _

theorem keeps_collectGarbage (fuel : Nat) (roots : List BlobId) (grace : Nat) (now : Int) :
    Keeps I (collectGarbage fuel roots grace now) := by
  refine .bind ?_ fun reachable => .get_bind fun s => .bind ?_ fun sw => ?_
  · exact .bind (hI.keeps_markManifests _ _) fun m => hI.keeps_markTrees _ m
  · exact .foldlM fun sw pack _ => hI.keeps_sweepPack _ _ _ sw pack
  · dsimp only
    split
    · exact .bind (hI.keeps_modify fun _ => ⟨_, _, _, _, _, rfl⟩) fun _ => .pure _
    · exact .pure _

end Indifferent

/-! ## Reachable stores -/

inductive StoreOp where
  | putBlob (kind : BlobKind) (bytes : Bytes)
  | get (kind : BlobKind) (id : BlobId)
  | flush
  | adoptPack (claimed : PackId) (bytes : Bytes)
  | writeIndexSnapshot
  | compactIndex
  | rebuildIndex
  | collectGarbage (fuel : Nat) (roots : List BlobId) (grace : Nat) (now : Int)
  | setSealTarget (target : Nat)

def StoreOp.run : StoreOp → BlobM Unit
  | .putBlob kind bytes => discard (Ferry.putBlob kind bytes)
  | .get kind id => discard (getBlob kind id)
  | .flush => Ferry.flush
  | .adoptPack claimed bytes => Ferry.adoptPack claimed bytes
  | .writeIndexSnapshot => Ferry.writeIndexSnapshot
  | .compactIndex => Ferry.compactIndex
  | .rebuildIndex => Ferry.rebuildIndex
  | .collectGarbage fuel roots grace now => discard (Ferry.collectGarbage fuel roots grace now)
  | .setSealTarget target => modify fun s => { s with sealTarget := target }

def StoreOp.after (op : StoreOp) (s : PackStore) : PackStore :=
  match op.run s with
  | .ok _ s' => s'
  | .error _ s' => s'

theorem StoreOp.after_of_triple {op : StoreOp} {P Q : PackStore → Prop}
    (h : Triple P op.run (fun _ => Q) (fun _ => Q)) (hs : P s) : Q (op.after s) := by
  unfold StoreOp.after
  cases hrun : op.run s with
  | ok => exact h.of_ok hs hrun
  | error => exact h.of_error hs hrun

/-- The states of a store: opened on some files, then used, while its files may change at any time
in any way. -/
inductive PackStore.Reached : PackStore → Prop
  | opened {disk : PackDisk} {fmk : ByteArr 32} {draw : Nat} {s : PackStore} :
      openStore disk fmk draw = .ok s → Reached s
  | op {s : PackStore} (op : StoreOp) : Reached s → Reached (op.after s)
  | files {s : PackStore} (disk : PackDisk) : Reached s → Reached { s with disk := disk }

theorem openStore_staging {disk : PackDisk} {fmk : ByteArr 32} {draw : Nat}
    (h : openStore disk fmk draw = .ok s) : s.staging = .new := by
  unfold openStore at h
  cases hload : loadLocations fmk (sortIndexFiles disk.index) with
  | error =>
    rw [hload] at h
    cases h
  | ok =>
    rw [hload] at h
    cases h
    rfl

variable {kind : BlobKind}

theorem keeps_offerBlob {bytes : Bytes} :
    Triple (fun s => s.staging.Wf ∧ ¬ s.staging.contains kind (Env.blake3 bytes))
      (offerBlob kind (Env.blake3 bytes) bytes)
      (fun _ s => s.staging.Wf ∧ s.staging.stagedBytes kind (Env.blake3 bytes) = some bytes)
      (fun _ s => s.staging.Wf) := by
  refine Triple.get_bind fun s hs => ?_
  cases hoffer : s.staging.offer s.draw kind (Env.blake3 bytes) bytes s.sealTarget with
  | mk =>
    obtain ⟨hwf, hstaged, -⟩ := hs.1.offer hs.2 hoffer
    rintro _ rfl
    exact ⟨hwf, hstaged⟩

/-- What a successful `put_blob` has done: nothing, because some pack or the staging index has the
blob already, or it staged the bytes. -/
theorem putBlob_ok {b : Bytes} {id : BlobId} {s' : PackStore}
    (hwf : s.staging.Wf) (h : putBlob kind b s = .ok id s') :
    id = Env.blake3 b ∧ ((s.Noted s' ∧ (s.presentAt kind id ≠ [] ∨ s.staging.contains kind id)) ∨
        (s.presentAt kind id = [] ∧ ¬ s.staging.contains kind id ∧
          s'.staging.stagedBytes kind id = some b)) := by
  unfold putBlob at h
  split at h
  · cases h
  dsimp only at h
  obtain ⟨s₁, hany, hnoted⟩ := run_anyExists (s.locations.candidates kind (Env.blake3 b)) s
  rw [run_bind_ok (run_get s), run_bind_ok hany] at h
  have hpresent : s.presentAt kind (Env.blake3 b) = [] ↔
      (s.locations.candidates kind (Env.blake3 b)).any (fun e => s.present e.pack) = false := by
    simp [PackStore.presentAt]
  cases hex : (s.locations.candidates kind (Env.blake3 b)).any (fun e => s.present e.pack) with
  | true =>
    rw [hex] at h
    cases h
    refine ⟨rfl, .inl ⟨hnoted, .inl fun hnil => ?_⟩⟩
    rw [hpresent.1 hnil] at hex
    cases hex
  | false =>
    rw [hex, if_neg Bool.false_ne_true, run_bind_ok (run_get s₁)] at h
    obtain ⟨⟨d, rfl⟩, hp⟩ := hnoted
    split at h
    · cases h
      exact ⟨rfl, .inl ⟨⟨⟨d, rfl⟩, hp⟩, .inr ‹_›⟩⟩
    obtain ⟨full, s₂, hoffer, h⟩ := run_bind_eq_ok.1 h
    obtain ⟨_, s₃, hseal, h⟩ := run_bind_eq_ok.1 h
    cases h
    have hstaged := (keeps_offerBlob.of_ok (s := { s with dangling := d }) ⟨hwf, ‹_›⟩ hoffer).2
    have hkeep : Keeps (fun s : PackStore => s.staging.stagedBytes kind (Env.blake3 b) = some b)
        (full.forM sealToDisk) := .forM fun sp _ =>
          (indifferent_staging fun p => p.stagedBytes kind (Env.blake3 b) = some b).keeps_sealToDisk sp
    exact ⟨rfl, .inr ⟨hpresent.2 hex, ‹_›, hkeep.of_ok hstaged hseal⟩⟩

theorem wf_putBlob (kind : BlobKind) (b : Bytes) : Keeps (fun s => s.staging.Wf) (putBlob kind b) := by
  unfold putBlob
  split
  · exact .throw _
  refine .get_bind fun s => .bind ((indifferent_staging _).keeps_anyExists _) fun there => ?_
  split
  · exact .pure _
  refine Triple.get_bind fun s hs => ?_
  split
  · rintro _ rfl
    exact hs
  have hoffer : Triple (· = s) (offerBlob kind (Env.blake3 b) b) (fun _ s => s.staging.Wf)
      (fun _ s => s.staging.Wf) :=
    keeps_offerBlob.weaken (fun _ heq => heq ▸ ⟨hs, ‹_›⟩) (fun _ _ h => h.1) (fun _ _ h => h)
  exact hoffer.bind fun full =>
    Keeps.bind (.forM fun sp _ => (indifferent_staging _).keeps_sealToDisk sp) fun _ => Keeps.pure _

theorem wf_flush : Keeps (fun s => s.staging.Wf) flush := by
  refine .get_bind fun s => ?_
  have hempty : Keeps (fun s : PackStore => s.staging.Wf)
      (modify fun s => { s with staging := .new } : BlobM PUnit) :=
    Triple.modify fun _ _ => StagingPools.wf_new
  exact hempty.bind fun _ => .forM fun sp _ => (indifferent_staging _).keeps_sealToDisk sp

theorem StoreOp.wf_run (op : StoreOp) : Keeps (fun s => s.staging.Wf) op.run := by
  have hI := indifferent_staging StagingPools.Wf
  cases op with
  | putBlob kind bytes => exact .bind (wf_putBlob kind bytes) fun _ => .pure _
  | get kind id => exact .bind (hI.keeps_getBlob kind id) fun _ => .pure _
  | flush => exact wf_flush
  | adoptPack claimed bytes => exact hI.keeps_adoptPack claimed bytes
  | writeIndexSnapshot => exact hI.keeps_writeIndexSnapshot
  | compactIndex => exact hI.keeps_compactIndex
  | rebuildIndex => exact hI.keeps_rebuildIndex
  | collectGarbage fuel roots grace now =>
    exact .bind (hI.keeps_collectGarbage fuel roots grace now) fun _ => .pure _
  | setSealTarget => exact Triple.modify fun _ hs => hs

theorem PackStore.Reached.wf (h : s.Reached) : s.staging.Wf := by
  induction h with
  | opened hopen =>
    rw [openStore_staging hopen]
    exact StagingPools.wf_new
  | op op _ ih => exact StoreOp.after_of_triple op.wf_run ih
  | files _ _ ih => exact ih

/-! ## Reading back -/

/-- A pack that does not open is passed over. -/
theorem openPack_error {file : Bytes} {pack : PackId} {fmk : ByteArr 32} {err : PackError}
    (h : openPack file pack fmk = .error err) : err.endsRead = false := by
  have hheader : ∀ e : FormatError, (PackError.ofHeader e).endsRead = false := by
    intro e
    cases e <;> rfl
  unfold openPack at h
  obtain ⟨-, rfl⟩ | ⟨-, h⟩ := guard_eq_error.1 h
  · rfl
  obtain ⟨-, rfl⟩ | ⟨-, h⟩ := guard_eq_error.1 h
  · rfl
  obtain h | ⟨kind, -, h⟩ := bind_eq_error.1 h
  · obtain ⟨e, -, rfl⟩ := mapError_eq_error.1 h
    exact hheader e
  obtain ⟨-, rfl⟩ | ⟨-, h⟩ := guard_eq_error.1 h
  · rfl
  obtain ⟨-, rfl⟩ | ⟨-, h⟩ := guard_eq_error.1 h
  · rfl
  obtain ⟨-, rfl⟩ | ⟨-, h⟩ := guard_eq_error.1 h
  · rfl
  obtain h | ⟨plain, -, h⟩ := bind_eq_error.1 h
  · obtain ⟨e, -, rfl⟩ := mapError_eq_error.1 h
    rfl
  obtain h | ⟨⟨len, entries⟩, -, h⟩ := bind_eq_error.1 h
  · obtain h | ⟨_, -, h⟩ := bind_eq_error.1 h
    · exact raises_readFooterTable _ _ h
    · cases h
  obtain ⟨-, rfl⟩ | ⟨-, h⟩ := guard_eq_error.1 h
  · rfl
  · cases h

theorem readSegments_error {file : Bytes} {ctx : PackContext} {rounds seg : Nat} {err : PackError}
    (h : readSegments file ctx rounds seg = .error err) (hends : err.endsRead) : err = .outOfRange := by
  induction rounds generalizing seg with
  | zero => cases h
  | succ rounds ih =>
    unfold readSegments at h
    obtain ⟨-, rfl⟩ | ⟨-, h⟩ := guard_eq_error.1 h
    · cases hends
    obtain ⟨-, rfl⟩ | ⟨-, h⟩ := guard_eq_error.1 h
    · rfl
    obtain h | ⟨pt, -, h⟩ := bind_eq_error.1 h
    · obtain ⟨e, -, rfl⟩ := mapError_eq_error.1 h
      cases hends
    obtain h | ⟨rest, -, h⟩ := bind_eq_error.1 h
    · exact ih h
    · cases h

theorem readEntry_error {file : Bytes} {ctx : PackContext} {entry : FooterEntry} {err : PackError}
    (h : readEntry file ctx entry = .error err) (hends : err.endsRead) : err = .outOfRange := by
  unfold readEntry at h
  obtain ⟨-, rfl⟩ | ⟨-, h⟩ := guard_eq_error.1 h
  · rfl
  obtain h | ⟨text, -, h⟩ := bind_eq_error.1 h
  · exact readSegments_error h hends
  · unfold sliceEntry verifyHash at h
    dsimp only at h
    split_ifs at h
    · cases h
      rfl
    · cases h
      cases hends

namespace PackStore

/-- The pack of a location as the next read finds it: the copy in memory, or else the file, if it has
the hash that it is named after and a footer of this folder. -/
def Finds (s : PackStore) (e : IndexEntry) (file : Bytes) (ctx : PackContext) : Prop :=
  match s.cache.find e.pack with
  | some vp => vp.bytes = file ∧ vp.ctx = ctx
  | none => s.disk.packs.lookup e.pack = some file ∧ Opened file e.pack s.fmk ctx

/-- The footer of the pack behind the location places the blob at the entry. -/
def Places (s : PackStore) (kind : BlobKind) (id : BlobId) (e : IndexEntry) (file : Bytes) (ctx : PackContext)
    (entry : FooterEntry) : Prop :=
  s.Finds e file ctx ∧ ctx.entries.find? (fun x => x.kind = kind ∧ x.id = id) = some entry

/-- The entry's part of the body, segment by segment decrypted. -/
structure Decrypts (file : Bytes) (ctx : PackContext) (entry : FooterEntry) (b : Bytes) : Prop where
  capacity : entry.plainLen < 2 ^ 63
  segments : ∃ text, readSegments file ctx (lastSegment entry + 1 - entry.plainOff / segmentPlainLen)
    (entry.plainOff / segmentPlainLen) = .ok text ∧
    entry.plainOff % segmentPlainLen + entry.plainLen ≤ text.length ∧
    b = (text.drop (entry.plainOff % segmentPlainLen)).take entry.plainLen

/-- The pack behind the location has the bytes, at the place that the index says. -/
def Holds (s : PackStore) (kind : BlobKind) (id : BlobId) (b : Bytes) (e : IndexEntry) : Prop :=
  ∃ file ctx entry, s.Places kind id e file ctx entry ∧
    (e.plainOff, e.plainLen) = (entry.plainOff, entry.plainLen) ∧ Decrypts file ctx entry b ∧ Env.blake3 b = id

/-- The read ends at the location: the footer has the blob elsewhere than the index says, or its bytes
would be cut from outside of the body. -/
def Stops (s : PackStore) (kind : BlobKind) (id : BlobId) (e : IndexEntry) : Prop :=
  ∃ file ctx entry, s.Places kind id e file ctx entry ∧
    ((e.plainOff, e.plainLen) ≠ (entry.plainOff, entry.plainLen) ∨ readEntry file ctx entry = .error .outOfRange)

def openedAll (s : PackStore) (es : List IndexEntry) : PackStore := es.foldl (fun s e => s.opened e.pack) s

/-- The store can answer for the bytes before they are put: what is staged under their id are these
bytes, and if nothing is, no pack is there that the index names for the blob, or the first of them that
holds it, with none before that ends the read, holds these bytes. -/
def Answerable (s : PackStore) (kind : BlobKind) (b : Bytes) : Prop :=
  match s.staging.stagedBytes kind (Env.blake3 b) with
  | some staged => staged = b
  | none => s.presentAt kind (Env.blake3 b) = [] ∨
      ∃ before e after, s.presentAt kind (Env.blake3 b) = before ++ e :: after ∧
        (∀ earlier e' later, before = earlier ++ e' :: later →
          ¬ (s.openedAll earlier).Stops kind (Env.blake3 b) e' ∧
            ∀ b', ¬ (s.openedAll earlier).Holds kind (Env.blake3 b) b' e') ∧
        (s.openedAll before).Holds kind (Env.blake3 b) b e

variable {kind : BlobKind} {id : BlobId} {b : Bytes} {e : IndexEntry}

/-- A location finds a file and its footer exactly if the pack verifies, cached or not. -/
theorem finds_iff {file : Bytes} {ctx : PackContext} :
    s.Finds e file ctx ↔ ∃ vp, s.verified e.pack = .ok vp ∧ vp.bytes = file ∧ vp.ctx = ctx := by
  unfold Finds verified
  cases s.cache.find e.pack with
  | some vp => simp
  | none =>
    cases s.disk.packs.lookup e.pack with
    | none => simp
    | some bytes =>
      simp only [Option.some.injEq, ← openPack_ok_iff]
      constructor
      · rintro ⟨rfl, hopen⟩
        exact ⟨⟨e.pack, bytes, ctx⟩, by rw [hopen]; rfl, rfl, rfl⟩
      · rintro ⟨vp, hvp, rfl, rfl⟩
        cases hopen : openPack bytes e.pack s.fmk with
        | error =>
          rw [hopen] at hvp
          cases hvp
        | ok =>
          rw [hopen] at hvp
          cases hvp
          exact ⟨rfl, hopen⟩

theorem readEntry_eq_ok_iff {file : Bytes} {ctx : PackContext} {entry : FooterEntry} :
    readEntry file ctx entry = .ok b ↔ Decrypts file ctx entry b ∧ Env.blake3 b = entry.id := by
  unfold readEntry
  rw [guard_eq_ok, bind_eq_ok]
  constructor
  · rintro ⟨hcap, text, hread, h⟩
    unfold sliceEntry at h
    dsimp only at h
    split at h
    · cases h
    · rename_i hlen
      obtain ⟨rfl, hhash⟩ := verifyHash_ok h
      exact ⟨⟨not_le.1 hcap, text, hread, not_lt.1 hlen, rfl⟩, hhash⟩
  · rintro ⟨⟨hcap, text, hread, hlen, rfl⟩, hhash⟩
    refine ⟨not_le.2 hcap, text, hread, ?_⟩
    unfold sliceEntry verifyHash
    dsimp only
    rw [if_neg (not_lt.2 hlen), if_pos hhash]

theorem places_iff {file : Bytes} {ctx : PackContext} {entry : FooterEntry} :
    s.Places kind id e file ctx entry ↔ ∃ vp, s.verified e.pack = .ok vp ∧ vp.bytes = file ∧ vp.ctx = ctx ∧
      vp.ctx.entries.find? (fun x => x.kind = kind ∧ x.id = id) = some entry := by
  unfold Places
  rw [finds_iff]
  constructor
  · rintro ⟨⟨vp, hvp, rfl, rfl⟩, hfind⟩
    exact ⟨vp, hvp, rfl, rfl, hfind⟩
  · rintro ⟨vp, hvp, rfl, rfl, hfind⟩
    exact ⟨⟨vp, hvp, rfl, rfl⟩, hfind⟩

/-- A location gives bytes exactly if its pack holds them there. -/
theorem reads_eq_ok_iff : s.reads kind id e = .ok b ↔ s.Holds kind id b e := by
  have hid : ∀ {entries : List FooterEntry} {entry : FooterEntry},
      entries.find? (fun x => x.kind = kind ∧ x.id = id) = some entry → entry.id = id := by
    intro entries entry h
    have hkey : entry.kind = kind ∧ entry.id = id := by simpa using find?_some h
    exact hkey.2
  unfold Holds
  simp only [places_iff]
  constructor
  · intro h
    obtain ⟨vp, hvp, h⟩ := bind_eq_ok.1 (show (s.verified e.pack >>= _) = .ok b from h)
    unfold readBlobFromCtx at h
    split at h
    · cases h
    rename_i entry hfind
    split at h
    · cases h
    rename_i hloc
    obtain ⟨hdecrypts, hhash⟩ := readEntry_eq_ok_iff.1 h
    exact ⟨_, _, entry, ⟨vp, hvp, rfl, rfl, hfind⟩, not_not.1 hloc, hdecrypts, hhash.trans (hid hfind)⟩
  · rintro ⟨_, _, entry, ⟨vp, hvp, rfl, rfl, hfind⟩, hloc, hdecrypts, hhash⟩
    refine bind_eq_ok.2 ⟨vp, hvp, ?_⟩
    simp only [readBlobFromCtx, hfind, if_neg (not_not.2 hloc)]
    exact readEntry_eq_ok_iff.2 ⟨hdecrypts, hhash.trans (hid hfind).symm⟩

/-- Which locations end the read with an error. -/
theorem reads_stops_iff : (∃ err, s.reads kind id e = .error err ∧ err.endsRead) ↔ s.Stops kind id e := by
  unfold Stops
  simp only [places_iff]
  constructor
  · rintro ⟨err, h, hends⟩
    rcases bind_eq_error.1 (show (s.verified e.pack >>= _) = .error err from h) with h | ⟨vp, hvp, h⟩
    · -- a pack that is not found or does not open does not end the read
      unfold verified at h
      split at h
      · cases h
      split at h
      · cases h
        cases hends
      · cases hopen : openPack _ e.pack s.fmk with
        | ok =>
          rw [hopen] at h
          cases h
        | error =>
          rw [hopen] at h
          cases h
          rw [openPack_error hopen] at hends
          cases hends
    · unfold readBlobFromCtx at h
      split at h
      · cases h
        cases hends
      rename_i entry hfind
      refine ⟨_, _, entry, ⟨vp, hvp, rfl, rfl, hfind⟩, ?_⟩
      split at h
      · exact .inl ‹_›
      · exact .inr (readEntry_error h hends ▸ h)
  · rintro ⟨_, _, entry, ⟨vp, hvp, rfl, rfl, hfind⟩, hstop⟩
    have hreads : s.reads kind id e = readBlobFromCtx vp.bytes vp.ctx kind id (e.plainOff, e.plainLen) := by
      unfold reads
      rw [hvp]
      rfl
    rw [hreads]
    simp only [readBlobFromCtx, hfind]
    by_cases hloc : (e.plainOff, e.plainLen) = (entry.plainOff, entry.plainLen)
    · rw [if_neg (not_not.2 hloc)]
      exact ⟨_, hstop.resolve_left (not_not.2 hloc), rfl⟩
    · exact ⟨_, if_pos hloc, rfl⟩

/-- The packs at the locations answer with the first of them that holds the blob. -/
theorem answers_iff {es : List IndexEntry} : Answers kind id b s es ↔
    ∃ before e after, es = before ++ e :: after ∧
      (∀ earlier e' later, before = earlier ++ e' :: later →
        ¬ (s.openedAll earlier).Stops kind id e' ∧ ∀ b', ¬ (s.openedAll earlier).Holds kind id b' e') ∧
      (s.openedAll before).Holds kind id b e := by
  constructor
  · intro h
    induction h with
    | here hok =>
      refine ⟨[], _, _, rfl, fun earlier e' later hsplit => ?_, reads_eq_ok_iff.1 hok⟩
      cases earlier <;> cases hsplit
    | @later s e rest err herr hgoes _ ih =>
      obtain ⟨before, e₁, after, rfl, hbefore, hholds⟩ := ih
      refine ⟨e :: before, e₁, after, rfl, fun earlier e' later hsplit => ?_, hholds⟩
      cases earlier with
      | nil =>
        cases hsplit
        refine ⟨fun hstops => ?_, fun b' hb' => ?_⟩
        · obtain ⟨err', herr', hends⟩ := reads_stops_iff.2 hstops
          cases herr.symm.trans herr'
          exact hgoes hends
        · cases herr.symm.trans (reads_eq_ok_iff.2 hb')
      | cons =>
        cases hsplit
        exact hbefore _ e' later rfl
  · rintro ⟨before, e, after, rfl, hbefore, hholds⟩
    induction before generalizing s with
    | nil => exact .here (reads_eq_ok_iff.2 hholds)
    | cons e₁ before ih =>
      obtain ⟨hstops, hnone⟩ := hbefore [] e₁ before rfl
      cases hread : s.reads kind id e₁ with
      | ok b' => exact absurd (reads_eq_ok_iff.1 hread) (hnone b')
      | error err =>
        refine .later hread (fun hends => hstops (reads_stops_iff.1 ⟨err, hread, hends⟩)) ?_
        exact ih (fun earlier e' later hsplit => hbefore (e₁ :: earlier) e' later (by rw [hsplit]; rfl)) hholds

end PackStore

theorem PackStore.Noted.gives_iff {s' : PackStore} (h : s.Noted s') {id : BlobId}
    {b : Bytes} : s'.Gives kind id b ↔ s.Gives kind id b := by
  obtain ⟨⟨d, rfl⟩, hp⟩ := h
  have hat : presentAt { s with dangling := d } kind id = s.presentAt kind id := by
    unfold presentAt
    rw [hp]
  unfold Gives
  rw [hat]
  cases s.staging.stagedBytes kind id with
  | some => exact Iff.rfl
  | none => exact ⟨fun h => h.of_dangling s.dangling, fun h => h.of_dangling d⟩

end

namespace Sample

/-- `PassthroughCipher`, with salts that only count the draws. -/
scoped instance samplePackEnv : PackEnv where
  cipherSeal _ _ _ plain := .ok (plain ++ List.replicate tagLen 0)
  cipherOpen _ _ _ ct :=
    if ct.length < tagLen then .error .malformedCiphertext
    else if (ct.drop (ct.length - tagLen)).any (· ≠ 0) then .error .tagMismatch
    else .ok (ct.take (ct.length - tagLen))
  hkdfExpand _ _ fmk := fmk
  salt n := ⟨leBytes 16 n, by simp⟩
  pick n := n

def emptyDisk : PackDisk := ⟨∅, ∅, ∅⟩

def freshStore : PackStore := .fresh emptyDisk zeroId 0 []

def flushedStore : PackStore := StoreOp.flush.after ((StoreOp.putBlob .dataChunk [7]).after freshStore)

def truncatedStore : PackStore :=
  { flushedStore with disk := { flushedStore.disk with packs :=
      (flushedStore.disk.packs.entries.map fun f => (⟨f.1, []⟩ : Σ _ : PackId, Bytes)).toAList } }

theorem flushedStore_reached : flushedStore.Reached :=
  .op .flush (.op (.putBlob .dataChunk [7])
    (@PackStore.Reached.opened _ emptyDisk zeroId 0 _ rfl))

theorem truncatedStore_reached : truncatedStore.Reached := .files _ flushedStore_reached

def resultOf {α : Type} (r : EStateM.Result BlobError PackStore α) : Except BlobError α :=
  match r with
  | .ok a _ => .ok a
  | .error e _ => .error e

theorem run_of_resultOf {α : Type} {m : BlobM α} {a : α}
    (h : resultOf (m s) = .ok a) : ∃ s', m s = .ok a s' := by
  cases hrun : m s with
  | ok b s' =>
    rw [hrun] at h
    cases h
    exact ⟨s', rfl⟩
  | error =>
    rw [hrun] at h
    cases h

end Sample

end Ferry
