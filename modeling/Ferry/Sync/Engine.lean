import Ferry.Lib.Hoare
import Ferry.Sync.Quarantine

/-! # Convergence

`converge` carries a plan out: it holds back what a pin covers, makes sure that
every chunk is there, writes the losers of conflicts beside the winners, applies
the rest under the overwrite guard and records an agreement if nothing is left
to be sent, held or settled. Any of the writes at the end may fail and end the run;
nobody else writes to the folder.
-/

namespace Ferry

open Lib List

def foldIntoChangeSet (cs : ChangeSet) (op : MaterializeOp) : ChangeSet :=
  match op.base, op.result with
  | base, none =>
    let state := base.getD ⟨.file, false, 0, 0, [], none⟩
    { cs with removed := cs.removed ++ [⟨op.path, state⟩] }
  | none, some r => { cs with added := cs.added ++ [⟨op.path, r⟩] }
  | some b, some r =>
    let m : Modified := ⟨op.path, b, r⟩
    if b.kind ≠ r.kind then { cs with typeChanged := cs.typeChanged ++ [m] }
    else if b.chunks ≠ r.chunks ∨ b.target ≠ r.target then
      { cs with contentModified := cs.contentModified ++ [m] }
    else { cs with metadataModified := cs.metadataModified ++ [m] }

def planChangeSet (plan : ActionPlan) : ChangeSet := plan.materialize.foldl foldIntoChangeSet {}

inductive HoldConfig where
  | auto
  | disabled
  | custom (gate : CompPath → Bool)

theorem mem_appendHeld {e : HeldEntry} {entries existing : List HeldEntry}
    (h : e ∈ appendHeld existing entries) : e ∈ existing ∨ e ∈ entries := by
  induction entries generalizing existing with
  | nil => exact .inl h
  | cons x entries ih =>
    rw [appendHeld, foldl_cons] at h
    rcases ih h with h | h
    · split at h
      · exact .inl h
      · simpa [or_assoc] using Or.inl (b := e ∈ entries) (mem_append.1 h)
    · exact .inr (mem_cons_of_mem x h)

section
variable [SyncEnv]

/-- What is there stays. -/
def Store.Keeps (st st' : Store) : Prop := ∀ kind id, st.present kind id → st'.present kind id

/-- A source of missing chunks, which only adds to the store. -/
structure BlobFetch where
  fetch : Chunks → Store → Except String Store
  keeps : ∀ {want st st'}, fetch want st = .ok st' → st.Keeps st'

abbrev ConvergeM := EStateM ConvergenceError Replica

structure ConvergenceEngine where
  root : CompPath
  now : Int × Nat
  hold : HoldConfig
  fetcher : Option BlobFetch
  fuel : Nat
  /-- Where the end of the run fails, if it does. -/
  fault : Option RecordStep

structure ConvergenceResult where
  quarantined : List String
  conflicts : List ConflictEntry
  send : Chunks
  held : List HeldPath
  agreedManifestId : Option BlobId
  hasLocalWins : Bool

def liftConv {α : Type} (x : Except ConvergenceError α) : ConvergeM α := fun s =>
  match x with
  | .ok a => .ok a s
  | .error e => .error e s

/-- A run of the applier on the device's folder. -/
def liftExec {α : Type} (m : ExecM α) : ConvergeM α := fun s =>
  match m ⟨s.disk, fun _ => none, []⟩ with
  | .ok a x => .ok a { s with disk := x.disk }
  | .error e x => .error (.materialize e) { s with disk := x.disk }

/-- The fetch and the copies of the losers, with no one else at work. -/
def liftCopies {α : Type} (m : CopyM α) : ConvergeM α := fun s =>
  match m.alone ⟨s.disk, s.store, [], []⟩ with
  | .ok a x => .ok a { s with disk := x.disk, store := x.store }
  | .error e x => .error e { s with disk := x.disk, store := x.store }

def liftReconcile {α : Type} : Except ReconcileError α → Except ConvergenceError α
  | .ok a => .ok a
  | .error e => .error (.reconcile e)

/-- The gate of a pin: what its lines match, and the directories above them. -/
def pinGate (paths : List String) : Except ConvergenceError (CompPath → Bool) :=
  if "*" ∈ paths then .ok fun _ => true
  else
    match SyncEnv.gitignore paths with
    | .error (line, reason) => .error (.pinBadPattern line reason)
    | .ok matches_ => .ok fun rel => matches_ rel || paths.any fun pat =>
      ((joinPath rel).toList ++ ['/']).isPrefixOf (pat.toList.dropWhile (· == '/'))

def applyHold (hold : HoldConfig) (pin : Option PinRecord) (plan : ActionPlan) :
    Except ConvergenceError (ActionPlan × List HeldPath) :=
  match hold, pin with
  | .custom gate, _ => gatePlan plan gate
  | .disabled, _ => .ok (plan, [])
  | .auto, none => .ok (plan, [])
  | .auto, some rec =>
    if rec.holding then
      match pinGate rec.paths with
      | .error e => .error e
      | .ok gate => gatePlan plan gate
    else .ok (plan, [])

def kindStr : ConflictKind → String
  | .bothChanged => "both_changed"
  | .deleteVsEdit => "delete_vs_edit"
  | .addVsAdd => "add_vs_add"

def quarantinedAs (plan : ActionPlan) (destRel : List String) (path : CompPath) : Option String :=
  (plan.quarantine.findIdx? (·.path = path)).bind (destRel[·]?)

def conflictEntry (now : Int × Nat) (folderId : ByteArr 16) (plan : ActionPlan)
    (destRel : List String) (c : PlannedConflict) : ConflictEntry where
  ts := SyncEnv.fmtRfc3339 now.1
  folderId := hex folderId.val
  path := joinPath c.path
  kind := kindStr c.kind
  winner := ⟨hex c.winnerDevice.val, some (c.winnerMtimeSec, c.winnerMtimeNsec)⟩
  loser := ⟨hex c.loserDevice.val, c.loserMtimeSec.map fun s => (s, c.loserMtimeNsec.getD 0)⟩
  quarantinedAs := quarantinedAs plan destRel c.path

def heldEntry (now : Int × Nat) (peerHex remoteHex : String) (h : HeldPath) : HeldEntry where
  heldSec := now.1
  heldNsec := now.2
  path := h.path
  deviceId := peerHex
  remoteManifestId := remoteHex
  chunks := h.chunks.map fun c => (hex c.1.val, c.2)
  decision := match h.decision with
    | .remoteApply => "remote_apply"
    | .remoteDelete => "remote_delete"
    | .conflict _ => "conflict"
  conflictWinner := match h.decision with
    | .conflict (some .localSide) => some "local"
    | .conflict (some .remoteSide) => some "remote"
    | _ => none

def failAt (fault : Option RecordStep) (step : RecordStep) : ConvergeM Unit :=
  if fault = some step then throw (.recording step) else return ()

def putMeta (kind : BlobKind) (bytes : Bytes) : ConvergeM BlobId := fun s =>
  match s.store.putBlob kind bytes with
  | .error e => .error (.store e) s
  | .ok (id, st) => .ok id { s with store := st }

/-- The held paths go to the ledger of the peer, and its manifest into the store. -/
def recordHeld (fault : Option RecordStep) (now : Int × Nat) (remoteM : RootManifest) (held : List HeldPath) :
    ConvergeM Unit := do
  if held = [] then return ()
  else do
    failAt fault .putMeta
    let remoteId ← putMeta .manifest (serializeManifest remoteM)
    failAt fault .flush
    failAt fault .loadPeer
    failAt fault .appendHeld
    let peerHex := hex remoteM.deviceId.val
    let entries := held.map (heldEntry now peerHex (hex remoteId.val))
    modify fun s => { s with heldLedger := fun peer =>
      if peer = peerHex then appendHeld (s.heldLedger peer) entries else s.heldLedger peer }

def Replica.recordAgreed (s : Replica) (folder : ByteArr 16) (rec : AgreedRecord) : Replica :=
  { s with agreements f p :=
      if f = folder ∧ p = rec.peerDeviceId then some rec else s.agreements f p }

/-- The agreement is recorded when nothing is contested, held or left to send. -/
def recordAgreement (fault : Option RecordStep) (now : Int × Nat) (localM remoteM : RootManifest)
    (plan : ActionPlan) (held : List HeldPath) : ConvergeM (Option BlobId) := do
  if plan.conflicts.isEmpty && held.isEmpty && plan.send.isEmpty && !plan.hasLocalWins then do
    failAt fault .putMeta
    let id ← putMeta .manifest (serializeManifest remoteM)
    failAt fault .agreement
    modify (·.recordAgreed localM.folderId ⟨remoteM.deviceId, id, now.1, now.2⟩)
    return some id
  else return none

namespace ConvergenceEngine

def apply (eng : ConvergenceEngine) (localM : RootManifest) (plan : ActionPlan) : ConvergeM Unit := do
  let cs := planChangeSet plan
  let st := (← get).store
  if cs.isEmpty then return ()
  else liftExec (Applier.applyChangeSet ⟨st, eng.root, .expect localM, eng.fuel⟩ cs)

/-- The end of `converge`: the conflict log, the held ledger and the agreement. -/
def record (eng : ConvergenceEngine) (localM remoteM : RootManifest) (plan : ActionPlan)
    (held : List HeldPath) (landed : List CompPath) : ConvergeM ConvergenceResult := do
  let destRel := landed.map fun p => joinPath (p.drop eng.root.length)
  let conflicts := plan.conflicts.map (conflictEntry eng.now localM.folderId plan destRel)
  failAt eng.fault .conflictLog
  modify fun s => { s with conflictLog := s.conflictLog ++ conflicts }
  recordHeld eng.fault eng.now remoteM held
  let agreed ← recordAgreement eng.fault eng.now localM remoteM plan held
  return ⟨destRel, conflicts, plan.send, held, agreed, plan.hasLocalWins⟩

def converge (eng : ConvergenceEngine) (localM remoteM : RootManifest) (base : Option RootManifest) :
    ConvergeM ConvergenceResult := do
  let s ← get
  let (plan, st) ← liftConv (liftReconcile (reconcile s.store eng.fuel localM remoteM base))
  modify fun s => { s with store := st }
  let (plan, held) ← liftConv (applyHold eng.hold s.pin plan)
  let landed ← liftCopies (quarantineLosers eng.root nameBound (eng.fetcher.map (·.fetch)) plan)
  eng.apply localM plan
  eng.record localM remoteM plan held landed

end ConvergenceEngine

/-! ## What a run records -/

namespace Store

theorem Keeps.trans {st st' st'' : Store} (h : st.Keeps st') (h' : st'.Keeps st'') : st.Keeps st'' :=
  fun kind id hok => h' kind id (h kind id hok)

theorem keeps_putBlob {st st' : Store} {kind : BlobKind} {bytes : Bytes} {id : BlobId}
    (h : st.putBlob kind bytes = .ok (id, st')) : st.Keeps st' ∧ st'.present kind id := by
  by_cases hne : bytes = []
  · rw [putBlob, if_pos hne] at h
    cases h
  rcases st.putBlob_cases kind hne with ⟨hthere, hput⟩ | ⟨-, hput⟩
  · rw [hput] at h
    cases h
    exact ⟨fun _ _ hok => hok, hthere⟩
  · rw [hput] at h
    cases h
    exact ⟨fun k i hok => by simp [withBlob, hok], by simp [withBlob]⟩

end Store

/-- A state that a run has come to which has put nothing on record yet. -/
structure Replica.Unrecorded (s s' : Replica) : Prop where
  log : s'.conflictLog = s.conflictLog
  held : s'.heldLedger = s.heldLedger
  agreements : s'.agreements = s.agreements
  store : s.store.Keeps s'.store

/-- Where a run fails: its conflicts may be in the log, and nothing else is on record. -/
structure Replica.Failed (s s' : Replica) : Prop where
  log : s.conflictLog <+: s'.conflictLog
  held : s'.heldLedger = s.heldLedger
  agreements : s'.agreements = s.agreements
  store : s.store.Keeps s'.store

theorem Replica.Unrecorded.failed {s s' : Replica} (h : s.Unrecorded s') : s.Failed s' :=
  ⟨h.log ▸ prefix_refl _, h.held, h.agreements, h.store⟩

def ConvergenceResult.Settled (r : ConvergenceResult) : Prop :=
  r.conflicts = [] ∧ r.held = [] ∧ r.send = [] ∧ r.hasLocalWins = false

/-- What a run that returns has put on record. -/
structure ConvergenceEngine.Records (eng : ConvergenceEngine) (localM remoteM : RootManifest)
    (r : ConvergenceResult) (s s' : Replica) : Prop where
  log : s'.conflictLog = s.conflictLog ++ r.conflicts
  held : ∀ peer, ∀ e ∈ s'.heldLedger peer, e ∈ s.heldLedger peer ∨
    ∃ id, e.remoteManifestId = hex id.val ∧ s'.store.present .manifest id
  agreed : (¬r.Settled ∧ r.agreedManifestId = none ∧ s'.agreements = s.agreements) ∨
    (r.Settled ∧ ∃ id, r.agreedManifestId = some id ∧ s'.store.present .manifest id ∧
      s'.agreements = (s.recordAgreed localM.folderId
        ⟨remoteM.deviceId, id, eng.now.1, eng.now.2⟩).agreements)
  store : s.store.Keeps s'.store

variable {s : Replica}

theorem triple_liftConv {α : Type} {P : Replica → Prop} (x : Except ConvergenceError α) :
    Triple P (liftConv x) (fun a s => P s ∧ x = .ok a) (fun _ => P) := by
  intro s hs
  cases x with
  | ok => exact ⟨hs, rfl⟩
  | error => exact hs

theorem reconcile_keeps {st st' : Store} {fuel : Nat} {localM remoteM : RootManifest}
    {base : Option RootManifest} {plan : ActionPlan}
    (h : reconcile st fuel localM remoteM base = .ok (plan, st')) : st.Keeps st' := by
  obtain ⟨emptyRoot, hempty, -⟩ := reconcile_planOf h
  obtain ⟨-, rfl | rfl⟩ := withEmptyTree_eq hempty
  · exact fun _ _ hok => hok
  · exact fun k i hok => by simp [Store.withBlob, hok]

theorem fetchOutcome_keeps (fetcher : Option BlobFetch) (want : Chunks) (st : Store) :
    st.Keeps (fetchOutcome (fetcher.map (·.fetch)) want st).2 := by
  unfold fetchOutcome
  dsimp only
  split
  · exact fun _ _ hok => hok
  cases fetcher with
  | none => exact fun _ _ hok => hok
  | some f =>
    dsimp only [Option.map_some]
    split
    · exact fun _ _ hok => hok
    · rename_i hfetch
      exact f.keeps hfetch

theorem triple_liftCopies (root : CompPath) (fetcher : Option BlobFetch) (plan : ActionPlan) :
    Triple s.Unrecorded (liftCopies (quarantineLosers root nameBound (fetcher.map (·.fetch)) plan))
      (fun _ => s.Unrecorded) (fun _ => s.Unrecorded) := by
  intro s₁ h
  have hrun := Steps.runs_alone Others.refl (quarantineLosers root nameBound (fetcher.map (·.fetch)) plan)
    ⟨s₁.disk, s₁.store, [], []⟩
  unfold liftCopies
  cases halone : (quarantineLosers root nameBound (fetcher.map (·.fetch)) plan).alone
      ⟨s₁.disk, s₁.store, [], []⟩ with
  | ok dests x | error e x =>
    rw [halone] at hrun
    have hstore := quarantineLosers_store rfl hrun
    exact ⟨h.log, h.held, h.agreements, h.store.trans (hstore ▸ fetchOutcome_keeps fetcher plan.fetch s₁.store)⟩

theorem triple_apply (eng : ConvergenceEngine) (localM : RootManifest) (plan : ActionPlan) :
    Triple s.Unrecorded (eng.apply localM plan) (fun _ => s.Unrecorded) (fun _ => s.Unrecorded) := by
  refine Triple.get_bind fun s₁ h => ?_
  split
  · exact Triple.pure fun _ heq => heq ▸ h
  intro s₂ heq
  subst s₂
  dsimp only [liftExec]
  cases Applier.applyChangeSet _ _ ⟨s₁.disk, fun _ => none, []⟩ with
  | ok | error => exact ⟨h.log, h.held, h.agreements, h.store⟩

theorem triple_failAt {P : Replica → Prop} {X : ConvergenceError → Replica → Prop} (hX : ∀ e s, P s → X e s)
    (fault : Option RecordStep) (step : RecordStep) : Triple P (failAt fault step) (fun _ => P) X := by
  unfold failAt
  split
  · exact Triple.throw fun s hs => hX _ s hs
  · exact Triple.pure fun _ hs => hs

/-- A blob goes into the store, and nothing else changes. -/
theorem triple_putMeta (kind : BlobKind) (bytes : Bytes) (s : Replica) :
    Triple (· = s) (putMeta kind bytes)
      (fun id s' => ∃ st, s' = { s with store := st } ∧ s.store.Keeps st ∧ st.present kind id)
      (fun _ s' => s' = s) := by
  intro s₁ heq
  subst s₁
  unfold putMeta
  cases hput : s.store.putBlob kind bytes with
  | error => rfl
  | ok r => exact ⟨r.2, rfl, Store.keeps_putBlob hput⟩

/-- The ledger gains entries whose manifest is in the store. -/
theorem triple_recordHeld (fault : Option RecordStep) (now : Int × Nat) (remoteM : RootManifest)
    (held : List HeldPath) (s : Replica) :
    Triple (· = s) (recordHeld fault now remoteM held)
      (fun _ s' => s'.conflictLog = s.conflictLog ∧ s'.agreements = s.agreements ∧ s.store.Keeps s'.store ∧
        (held = [] → s'.heldLedger = s.heldLedger) ∧ ∀ peer, ∀ e ∈ s'.heldLedger peer, e ∈ s.heldLedger peer ∨
          ∃ id, e.remoteManifestId = hex id.val ∧ s'.store.present .manifest id)
      (fun _ => s.Unrecorded) := by
  unfold recordHeld
  split
  · refine Triple.pure fun s₁ heq => ?_
    rw [heq]
    exact ⟨rfl, rfl, fun _ _ hok => hok, fun _ => rfl, fun _ _ he => .inl he⟩
  rename_i hheld
  have hsame : ∀ (e : ConvergenceError) s₁, s₁ = s → s.Unrecorded s₁ := by
    rintro - s₁ rfl
    exact ⟨rfl, rfl, rfl, fun _ _ hok => hok⟩
  refine (triple_failAt hsame _ _).bind fun _ => ((triple_putMeta _ _ _).fails hsame).bind fun id => ?_
  have hput : ∀ (e : ConvergenceError) s₁, (∃ st, s₁ = { s with store := st } ∧ s.store.Keeps st ∧
      st.present .manifest id) → s.Unrecorded s₁ := by
    rintro - s₁ ⟨st, rfl, hkeeps, -⟩
    exact ⟨rfl, rfl, rfl, hkeeps⟩
  refine (triple_failAt hput _ _).bind fun _ => (triple_failAt hput _ _).bind fun _ =>
    (triple_failAt hput _ _).bind fun _ => Triple.modify ?_
  rintro s₁ ⟨st, rfl, hkeeps, hthere⟩
  refine ⟨rfl, rfl, hkeeps, fun hnil => absurd hnil hheld, fun peer e he => ?_⟩
  dsimp only at he
  split at he
  · refine (mem_appendHeld he).imp_right fun he => ?_
    obtain ⟨h, -, rfl⟩ := mem_map.1 he
    exact ⟨_, rfl, hthere⟩
  · exact .inl he

/-- An agreement is recorded with its manifest in the store, or not at all. -/
theorem triple_recordAgreement (fault : Option RecordStep) (now : Int × Nat) (localM remoteM : RootManifest)
    (plan : ActionPlan) (held : List HeldPath) (s : Replica) :
    Triple (· = s) (recordAgreement fault now localM remoteM plan held)
      (fun agreed s' => s'.conflictLog = s.conflictLog ∧ s'.heldLedger = s.heldLedger ∧
        s.store.Keeps s'.store ∧
        if plan.conflicts.isEmpty && held.isEmpty && plan.send.isEmpty && !plan.hasLocalWins then
          ∃ id, agreed = some id ∧ s'.store.present .manifest id ∧ s'.agreements =
            (s.recordAgreed localM.folderId ⟨remoteM.deviceId, id, now.1, now.2⟩).agreements
        else agreed = none ∧ s'.agreements = s.agreements)
      (fun _ s' => held = [] ∧ s.Unrecorded s') := by
  unfold recordAgreement
  cases hsettled : plan.conflicts.isEmpty && held.isEmpty && plan.send.isEmpty && !plan.hasLocalWins with
  | false =>
    refine Triple.pure fun s₁ heq => ?_
    rw [heq]
    exact ⟨rfl, rfl, fun _ _ hok => hok, rfl, rfl⟩
  | true =>
    have hheld : held = [] := by
      simp only [Bool.and_eq_true, List.isEmpty_iff] at hsettled
      exact hsettled.1.1.2
    have hsame : ∀ (e : ConvergenceError) s₁, s₁ = s → held = [] ∧ s.Unrecorded s₁ := by
      rintro - s₁ rfl
      exact ⟨hheld, rfl, rfl, rfl, fun _ _ hok => hok⟩
    refine (triple_failAt hsame _ _).bind fun _ => ((triple_putMeta _ _ _).fails hsame).bind fun id => ?_
    refine (triple_failAt (fun _ s₁ h => ?_) _ _).bind fun _ => Triple.bind (Q := fun _ s' => s'.conflictLog =
      s.conflictLog ∧ s'.heldLedger = s.heldLedger ∧ s.store.Keeps s'.store ∧ s'.store.present .manifest id ∧
        s'.agreements = (s.recordAgreed localM.folderId ⟨remoteM.deviceId, id, now.1, now.2⟩).agreements)
      (Triple.modify ?_) fun _ => Triple.pure fun s' ⟨hlog, hheld, hkeeps, hthere, hagreed⟩ =>
        ⟨hlog, hheld, hkeeps, id, rfl, hthere, hagreed⟩
    · obtain ⟨st, rfl, hkeeps, -⟩ := h
      exact ⟨hheld, rfl, rfl, rfl, hkeeps⟩
    · rintro s₁ ⟨st, rfl, hkeeps, hthere⟩
      exact ⟨rfl, rfl, hkeeps, hthere, rfl⟩

/-- The conflict log first, then the held ledger, then the agreement; any of them may fail. -/
theorem triple_record (eng : ConvergenceEngine) (localM remoteM : RootManifest) (plan : ActionPlan)
    (held : List HeldPath) (landed : List CompPath) :
    Triple s.Unrecorded (eng.record localM remoteM plan held landed) (fun r => eng.Records localM remoteM r s)
      (fun _ => s.Failed) := by
  refine .of_each fun s₁ h => ?_
  unfold ConvergenceEngine.record
  dsimp only
  generalize hconflicts : plan.conflicts.map (conflictEntry eng.now localM.folderId plan _) = conflicts
  have hlogged : ∀ s₂ s₃ : Replica, s₂.conflictLog = s₁.conflictLog ++ conflicts → s₂.heldLedger = s₁.heldLedger →
      s₂.agreements = s₁.agreements → s₁.store.Keeps s₂.store → s₂.Unrecorded s₃ → s.Failed s₃ := by
    intro s₂ s₃ hlog hheld hagree hkeeps hun
    refine ⟨?_, (hun.held.trans hheld).trans h.held, (hun.agreements.trans hagree).trans h.agreements,
      (h.store.trans hkeeps).trans hun.store⟩
    rw [hun.log, hlog, h.log]
    exact prefix_append _ _
  refine (triple_failAt (P := (· = s₁)) (fun _ _ heq => heq ▸ h.failed) _ _).bind fun _ => ?_
  refine (Triple.modify (Q := fun _ => (· = { s₁ with conflictLog := s₁.conflictLog ++ conflicts }))
    fun _ heq => by rw [heq]).bind fun _ => ?_
  refine ((triple_recordHeld _ _ _ _ _).fails fun _ _ hun =>
    hlogged { s₁ with conflictLog := s₁.conflictLog ++ conflicts } _ rfl rfl rfl
      (fun _ _ hok => hok) hun).bind fun _ => ?_
  refine .of_each fun s₂ ⟨hlog, hagree, hkeeps, hnone, hheld⟩ => ?_
  refine ((triple_recordAgreement _ _ _ _ _ _ _).fails fun _ _ ⟨hnil, hun⟩ =>
    hlogged s₂ _ hlog (hnone hnil) hagree hkeeps hun).bind fun agreed => ?_
  refine Triple.pure fun s₃ ⟨hlog', hheld', hkeeps', hagreed⟩ => ?_
  refine ⟨?_, fun peer e he => ?_, ?_, (h.store.trans hkeeps).trans hkeeps'⟩
  · rw [hlog', hlog, h.log]
  · rw [hheld'] at he
    refine (hheld peer e he).imp (fun he => h.held ▸ he) ?_
    rintro ⟨id, hid, hok⟩
    exact ⟨id, hid, hkeeps' _ _ hok⟩
  · have hsettled : ∀ dests, ConvergenceResult.Settled
        ⟨dests, conflicts, plan.send, held, agreed, plan.hasLocalWins⟩ ↔
          (plan.conflicts.isEmpty && held.isEmpty && plan.send.isEmpty && !plan.hasLocalWins) = true := by
      simp [ConvergenceResult.Settled, ← hconflicts, and_assoc]
    unfold Replica.recordAgreed at hagreed ⊢
    rw [← h.agreements, ← hagree]
    split at hagreed
    · exact .inr ⟨(hsettled _).2 ‹_›, hagreed⟩
    · exact .inl ⟨mt (hsettled _).1 ‹_›, hagreed⟩

/-- What a run records, and what it leaves alone if it fails. -/
theorem converge_spec (eng : ConvergenceEngine) (localM remoteM : RootManifest) (base : Option RootManifest)
    (s : Replica) :
    Triple (· = s) (eng.converge localM remoteM base) (fun r => eng.Records localM remoteM r s)
      (fun _ => s.Failed) := by
  have hbefore : ∀ (e : ConvergenceError) s', s.Unrecorded s' → s.Failed s' := fun _ _ h => h.failed
  have hstart : ∀ {st}, s.store.Keeps st → s.Unrecorded { s with store := st } :=
    fun hst => ⟨rfl, rfl, rfl, hst⟩
  unfold ConvergenceEngine.converge
  refine Triple.get_bind fun s₀ hs₀ => ?_
  subst s₀
  refine ((triple_liftConv (P := (· = s)) _).fails
    fun e s' h => hbefore e s' (h ▸ hstart fun _ _ hok => hok)).bind fun planned => .of_fact fun hplan => ?_
  obtain ⟨plan, st⟩ := planned
  refine (Triple.modify (Q := fun _ => s.Unrecorded) fun s₁ heq => ?_).bind fun _ => ?_
  · subst s₁
    cases hrec : reconcile s.store eng.fuel localM remoteM base with
    | error =>
      rw [hrec] at hplan
      cases hplan
    | ok =>
      rw [hrec] at hplan
      cases hplan
      exact hstart (reconcile_keeps hrec)
  refine ((triple_liftConv _).weaken (fun _ h => h) (fun _ _ h => h.1) hbefore).bind fun gated => ?_
  obtain ⟨plan, held⟩ := gated
  refine ((triple_liftCopies eng.root eng.fetcher plan).fails hbefore).bind fun landed => ?_
  exact ((triple_apply eng localM plan).fails hbefore).bind fun _ => triple_record eng localM remoteM plan held landed

/-- Whatever the ledgers name is in the store. -/
structure Replica.Sound (s : Replica) : Prop where
  agreed : ∀ folder peer a, s.agreements folder peer = some a → s.store.present .manifest a.manifestId
  held : ∀ peer, ∀ e ∈ s.heldLedger peer,
    ∃ id, e.remoteManifestId = hex id.val ∧ s.store.present .manifest id

theorem Replica.Sound.failed {s' : Replica} (h : s.Sound) (hs : s.Failed s') : s'.Sound := by
  refine ⟨fun folder peer a ha => ?_, fun peer e he => ?_⟩
  · rw [hs.agreements] at ha
    exact hs.store _ _ (h.agreed folder peer a ha)
  · rw [hs.held] at he
    obtain ⟨id, hid, hok⟩ := h.held peer e he
    exact ⟨id, hid, hs.store _ _ hok⟩

theorem Replica.Sound.records {eng : ConvergenceEngine} {localM remoteM : RootManifest}
    {r : ConvergenceResult} {s' : Replica} (h : s.Sound) (hs : eng.Records localM remoteM r s s') : s'.Sound := by
  refine ⟨fun folder peer a ha => ?_, fun peer e he => ?_⟩
  · rcases hs.agreed with ⟨-, -, hsame⟩ | ⟨-, id, -, hok, hagreed⟩
    · rw [hsame] at ha
      exact hs.store _ _ (h.agreed folder peer a ha)
    rw [hagreed] at ha
    dsimp only [Replica.recordAgreed] at ha
    split at ha
    · cases ha
      exact hok
    · exact hs.store _ _ (h.agreed folder peer a ha)
  · rcases hs.held peer e he with he | hnew
    · obtain ⟨id, hid, hok⟩ := h.held peer e he
      exact ⟨id, hid, hs.store _ _ hok⟩
    · exact hnew

/-- The states of a device over any number of runs. In between its folder may change, and so may its pin
and its store as long as what is there stays. -/
inductive Replica.Reached : Replica → Prop
  | fresh (disk : Disk) (store : Store) (pin : Option PinRecord) :
    Reached ⟨disk, store, pin, [], fun _ => [], fun _ _ => none⟩
  | other {s s' : Replica} (h : Reached s) (hs : s.Unrecorded s') : Reached s'
  | returned {s s' : Replica} {eng : ConvergenceEngine} {localM remoteM : RootManifest}
      {base : Option RootManifest} {r : ConvergenceResult} (h : Reached s)
      (hrun : eng.converge localM remoteM base s = .ok r s') : Reached s'
  | failed {s s' : Replica} {eng : ConvergenceEngine} {localM remoteM : RootManifest}
      {base : Option RootManifest} {e : ConvergenceError} (h : Reached s)
      (hrun : eng.converge localM remoteM base s = .error e s') : Reached s'

end

namespace Sample

/-- A run with a peer that has the same tree. -/
def sameTree : EStateM.Result ConvergenceError Replica ConvergenceResult :=
  ConvergenceEngine.converge ⟨[], (0, 0), .auto, none, 2, none⟩ (childOf 1 rootDir) (childOf 2 rootDir) none
    ⟨Disk.empty, fileDirStore, none, [], fun _ => [], fun _ _ => none⟩

def Agreed : EStateM.Result ConvergenceError Replica ConvergenceResult → Bool
  | .ok r _ => r.agreedManifestId.isSome
  | .error .. => false

end Sample

end Ferry
