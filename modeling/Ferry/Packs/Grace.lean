import Ferry.Packs.Collect
import Ferry.Packs.Readable
import Ferry.Store.DiffSpec

/-! # Collections one after the other

A pack is deleted when it has been unreferenced for as long as the grace period,
which spans several runs of the collector. What a run finds out goes to the
ledger only at its end, so here the calls of a run may fail, and the run leaves
a list of what it found even then.
-/

namespace Ferry

open Lib List

/-! ## Runs that may fail -/

/-- The calls to the file system that fail in a run. -/
structure GcFaults where
  mark : Bool
  loadLedger : Bool
  listPacks : Bool
  readPack : PackId → Bool
  blobList : PackId → Bool
  removePack : PackId → Bool
  saveLedger : Bool

def GcFaults.none : GcFaults :=
  ⟨false, false, false, fun _ => false, fun _ => false, fun _ => false, false⟩

/-- What a run finds out about a pack, and what it does with it. -/
inductive GcEvent where
  | corrupt (pack : PackId)
  | live (pack : PackId)
  | recorded (pack : PackId)
  | deleted (pack : PackId) (entries : List FooterEntry)
  deriving DecidableEq

def GcEvent.pack : GcEvent → PackId
  | .corrupt pack => pack
  | .live pack => pack
  | .recorded pack => pack
  | .deleted pack _ => pack

def GcEvent.deletes (pack : PackId) : GcEvent → Bool
  | .deleted p _ => p = pack
  | _ => false

structure GcState where
  store : PackStore
  events : List GcEvent

abbrev GcM := EStateM BlobError GcState

def onStore {α : Type} (m : BlobM α) : GcM α := fun g =>
  match m g.store with
  | .ok a s => .ok a { g with store := s }
  | .error e s => .error e { g with store := s }

def note (e : GcEvent) : GcM Unit := modify fun g => { g with events := g.events ++ [e] }

def noteIf (c : Bool) (e : GcEvent) : GcM Unit := if c then note e else pure ()

/-- `?` on a call to the file system. -/
def failsIf (c : Bool) : GcM Unit := if c then throw (.pack .io) else pure ()

section
variable [PackEnv]

/-- `pack_blob_list`, whose error is taken for a corrupt pack. -/
def packBlobListIo (faults : GcFaults) (pack : PackId) :
    GcM (Except PackError (Nat × List FooterEntry)) :=
  if faults.blobList pack then return .error .io else onStore (packBlobList pack)

/-- The end of a round for a pack that is unreferenced since `first`. -/
def expirePack (faults : GcFaults) (grace : Nat) (now first : Int) (entries : List FooterEntry) (sw : Sweep)
    (pack : PackId) : GcM Sweep :=
  if grace ≤ (now - first).toNat then do
    failsIf (faults.removePack pack)
    onStore (deletePack pack)
    note (.deleted pack entries)
    return sw.deleted pack
  else return sw

def sweepPackIo (faults : GcFaults) (reachable : List (BlobKind × BlobId)) (grace : Nat) (now : Int)
    (sw : Sweep) (pack : PackId) : GcM Sweep := do
  let sw := { sw with report := { sw.report with scanned := sw.report.scanned + 1 } }
  failsIf (faults.readPack pack)
  match ← packBlobListIo faults pack with
  | .error _ => do
    note (.corrupt pack)
    return { sw with report := { sw.report with
      skippedCorrupt := sw.report.skippedCorrupt ++ [hex pack.val] } }
  | .ok (_, entries) =>
    if packIsLive reachable entries then do
      note (.live pack)
      return { sw with
        ledger := sw.ledger.erase pack, dirty := sw.dirty || (sw.ledger.lookup pack).isSome }
    else do
      noteIf (sw.ledger.lookup pack).isNone (.recorded pack)
      expirePack faults grace now (sw.firstUnref now pack).1 entries (sw.firstUnref now pack).2 pack

def saveLedgerIo (faults : GcFaults) (sw : Sweep) : GcM Unit :=
  if sw.dirty ∨ sw.report.deleted ≠ [] then do
    failsIf faults.saveLedger
    modify fun g => { g with store := { g.store with disk := { g.store.disk with
      ledger := saveLedger sw.ledger } } }
  else return ()

def collectGarbageIo (faults : GcFaults) (fuel : Nat) (liveManifestIds : List BlobId) (grace : Nat)
    (now : Int) : GcM GcReport := do
  failsIf faults.mark
  let reachable ← onStore (collectReferenced fuel liveManifestIds)
  failsIf faults.loadLedger
  failsIf faults.listPacks
  let g ← get
  let sw ← (sortPacks g.store.disk.packs.keys).foldlM (sweepPackIo faults reachable grace now)
    ⟨loadLedger g.store.disk.ledger, false, ⟨0, [], 0, []⟩⟩
  saveLedgerIo faults sw
  return sw.report

/-! ## What one run finds -/

/-- A run with the ledger it started from and what its marking found. -/
structure Sweeping where
  fmk : ByteArr 32
  start : Ledger
  reachable : List (BlobKind × BlobId)
  grace : Nat
  now : Int

variable {w : Sweeping}

/-- The pack was in the ledger with the time `t`, or the run has put it there. -/
def Sweeping.Since (w : Sweeping) (events : List GcEvent) (pack : PackId) (t : Int) : Prop :=
  w.start.lookup pack = some t ∨ (t = w.now ∧ .recorded pack ∈ events)

/-- A pack is deleted for a reason: it has been in the ledger for long enough, it is not live, and
nothing that it lists is reachable. -/
def Sweeping.Justified (w : Sweeping) (events : List GcEvent) : Prop :=
  ∀ pack entries, .deleted pack entries ∈ events → .live pack ∉ events ∧
    (∃ t, w.Since events pack t ∧ w.grace ≤ (w.now - t).toNat) ∧
    packIsLive w.reachable entries = false ∧
    ∃ bytes ctx, openPack bytes pack w.fmk = .ok ctx ∧ ctx.entries = entries

/-- What the loop over the packs keeps, after the packs in `done`. -/
structure Sweeping.Inv (w : Sweeping) (file : AList (fun _ : PackId => Nat)) (done : List PackId)
    (ledger : Ledger) (dirty : Bool) (g : GcState) : Prop where
  genuine : g.store.Genuine w.fmk
  file : g.store.disk.ledger = file
  seen : ∀ e ∈ g.events, e.pack ∈ done
  justified : w.Justified g.events
  entry : ∀ p t, ledger.lookup p = some t → .live p ∉ g.events ∧ w.Since g.events p t
  unchanged : dirty = false → ∀ p, ledger.lookup p = w.start.lookup p

variable {r : GcRun} {runs : List GcRun} {entries : List FooterEntry} {s₀ : PackStore}
  {log : List ((BlobKind × BlobId) × Bytes)} {reachable : List (BlobKind × BlobId)}

namespace Sweeping

omit [PackEnv] in
theorem Since.append {events : List GcEvent} {pack : PackId} {t : Int} (h : w.Since events pack t)
    (more : List GcEvent) : w.Since (events ++ more) pack t := by
  rcases h with h | ⟨ht, h⟩
  · exact .inl h
  · exact .inr ⟨ht, mem_append_left _ h⟩

theorem Justified.append {events : List GcEvent} (h : w.Justified events) {e : GcEvent}
    (hlive : ∀ pack entries, .deleted pack entries ∈ events → e ≠ .live pack)
    (hdeleted : ∀ pack entries, e ≠ .deleted pack entries) : w.Justified (events ++ [e]) := by
  intro pack entries hmem
  rcases mem_append.1 hmem with hmem | hmem
  · obtain ⟨hnot, ⟨t, hsince, hgrace⟩, hrest⟩ := h pack entries hmem
    refine ⟨fun hl => ?_, ⟨t, hsince.append _, hgrace⟩, hrest⟩
    rcases mem_append.1 hl with hl | hl
    · exact hnot hl
    · exact hlive pack entries hmem (mem_singleton.1 hl).symm
  · exact absurd (mem_singleton.1 hmem).symm (hdeleted pack entries)

namespace Inv

variable {file : AList (fun _ : PackId => Nat)} {done : List PackId} {ledger : Ledger} {dirty : Bool}
  {g : GcState} {pack : PackId}

section
variable (h : w.Inv file done ledger dirty g)
include h

theorem seen_append {e : GcEvent} (he : e.pack = pack) :
    ∀ e' ∈ g.events ++ [e], e'.pack ∈ done ++ [pack] := by
  intro e' he'
  rcases mem_append.1 he' with he' | he'
  · exact mem_append_left _ (h.seen e' he')
  · rw [mem_singleton.1 he', he]
    simp

theorem corrupt :
    w.Inv file (done ++ [pack]) ledger dirty { g with events := g.events ++ [.corrupt pack] } where
  genuine := h.genuine
  file := h.file
  seen := h.seen_append rfl
  justified := h.justified.append (by simp) (by simp)
  entry := by
    intro p t hp
    obtain ⟨hlive, hsince⟩ := h.entry p t hp
    exact ⟨by simpa using hlive, hsince.append _⟩
  unchanged := h.unchanged

/-- A live pack loses its record. -/
theorem live (hnew : pack ∉ done) :
    w.Inv file (done ++ [pack]) (ledger.erase pack) (dirty || (ledger.lookup pack).isSome)
      { g with events := g.events ++ [.live pack] } where
  genuine := h.genuine
  file := h.file
  seen := h.seen_append rfl
  justified := by
    refine h.justified.append (fun p entries hmem heq => hnew ?_) (by simp)
    cases heq
    exact h.seen _ hmem
  entry := by
    intro p t hp
    by_cases hpack : p = pack
    · rw [hpack, AList.lookup_erase] at hp
      cases hp
    · rw [AList.lookup_erase_ne hpack] at hp
      obtain ⟨hlive, hsince⟩ := h.entry p t hp
      exact ⟨by simpa [hpack] using hlive, hsince.append _⟩
  unchanged := by
    intro hclean p
    rw [Bool.or_eq_false_iff, Option.isSome_eq_false_iff, Option.isNone_iff_eq_none] at hclean
    by_cases hpack : p = pack
    · rw [hpack, AList.lookup_erase, ← h.unchanged hclean.1, hclean.2]
    · rw [AList.lookup_erase_ne hpack, h.unchanged hclean.1]

theorem recorded (hnew : pack ∉ done) :
    w.Inv file (done ++ [pack]) (ledger.insert pack w.now) true
      { g with events := g.events ++ [.recorded pack] } where
  genuine := h.genuine
  file := h.file
  seen := h.seen_append rfl
  justified := h.justified.append (by simp) (by simp)
  entry := by
    intro p t hp
    by_cases hpack : p = pack
    · rw [hpack, AList.lookup_insert] at hp
      cases hp
      rw [hpack]
      refine ⟨fun hmem => hnew ?_, .inr ⟨rfl, by simp⟩⟩
      exact h.seen (.live pack) (by simpa using hmem)
    · rw [AList.lookup_insert_ne hpack] at hp
      obtain ⟨hlive, hsince⟩ := h.entry p t hp
      exact ⟨by simpa using hlive, hsince.append _⟩
  unchanged := by simp

theorem kept : w.Inv file (done ++ [pack]) ledger dirty g :=
  { h with seen := fun e he => mem_append_left _ (h.seen e he) }

end

/-- A pack goes only if it was on record for the grace period and nothing leads to it. -/
theorem deleted (h : w.Inv file (done ++ [pack]) ledger dirty g) {t : Int}
    (ht : ledger.lookup pack = some t) (hgrace : w.grace ≤ (w.now - t).toNat)
    (hdead : packIsLive w.reachable entries = false)
    (hlists : ∃ bytes ctx, openPack bytes pack w.fmk = .ok ctx ∧ ctx.entries = entries) :
    w.Inv file (done ++ [pack]) (ledger.erase pack) true
      ⟨{ g.store with
          disk := { g.store.disk with packs := g.store.disk.packs.erase pack },
          cache := PackCache.remove g.store.cache pack },
        g.events ++ [.deleted pack entries]⟩ where
  genuine := ⟨h.genuine.1, fun vp hvp => h.genuine.2 vp (mem_of_mem_filter hvp)⟩
  file := h.file
  seen := by
    intro e he
    rcases mem_append.1 he with he | he
    · exact h.seen e he
    · rw [mem_singleton.1 he]
      simp [GcEvent.pack]
  justified := by
    intro p entries' hmem
    rcases mem_append.1 hmem with hmem | hmem
    · obtain ⟨hnot, ⟨t, hsince, hgrace⟩, hrest⟩ := h.justified p entries' hmem
      exact ⟨by simpa using hnot, ⟨t, hsince.append _, hgrace⟩, hrest⟩
    · cases mem_singleton.1 hmem
      obtain ⟨hnot, hsince⟩ := h.entry pack t ht
      exact ⟨by simpa using hnot, ⟨t, hsince.append _, hgrace⟩, hdead, hlists⟩
  entry := by
    intro p t hp
    by_cases hpack : p = pack
    · rw [hpack, AList.lookup_erase] at hp
      cases hp
    · rw [AList.lookup_erase_ne hpack] at hp
      obtain ⟨hlive, hsince⟩ := h.entry p t hp
      exact ⟨by simpa using hlive, hsince.append _⟩
  unchanged := by simp

end Inv

/-- Where a run stops with an error: its findings hold, and the ledger is as it was. -/
def Stopped (w : Sweeping) (file : AList (fun _ : PackId => Nat)) (g : GcState) : Prop :=
  g.store.disk.ledger = file ∧ w.Justified g.events

section
variable {file : AList (fun _ : PackId => Nat)} {done : List PackId} {ledger : Ledger} {dirty : Bool}

theorem Inv.stopped {g : GcState} (h : w.Inv file done ledger dirty g) : w.Stopped file g :=
  ⟨h.file, h.justified⟩

variable {X : BlobError → GcState → Prop}

omit [PackEnv] in
theorem triple_failsIf {I : GcState → Prop} (c : Bool)
    (h : ∀ e g, I g → X e g) : Triple I (failsIf c) (fun _ => I) X := by
  cases c with
  | false => exact Triple.pure fun g hg => hg
  | true => exact Triple.throw fun g hg => h _ g hg

/-- Listing the blobs of a pack opens its file, or the run stops. -/
theorem triple_packBlobListIo (faults : GcFaults) (pack : PackId) :
    Triple (w.Inv file done ledger dirty) (packBlobListIo faults pack)
      (fun r g => w.Inv file done ledger dirty g ∧ ∀ len entries, r = .ok (len, entries) →
        ∃ bytes ctx, openPack bytes pack w.fmk = .ok ctx ∧ ctx.entries = entries)
      (fun _ => w.Stopped file) := by
  unfold packBlobListIo
  split
  · exact Triple.pure fun g hg => ⟨hg, fun _ _ heq => by cases heq⟩
  intro g hg
  unfold onStore packBlobList
  rw [run_bind_ok (run_get _)]
  cases hc : g.store.cache.find pack with
  | some vp =>
    have hid : vp.packId = pack := by simpa using find?_some hc
    have hopen := hg.genuine.2 vp (mem_of_find?_eq_some hc)
    refine ⟨{ hg with genuine := hg.genuine.promote hopen }, fun len entries heq => ?_⟩
    cases heq
    exact ⟨vp.bytes, vp.ctx, hid ▸ hopen, rfl⟩
  | none =>
    cases hl : g.store.disk.packs.lookup pack with
    | none => exact ⟨hg, fun _ _ heq => by cases heq⟩
    | some bytes =>
      refine ⟨hg, fun len entries heq => ?_⟩
      rw [hg.genuine.1] at heq
      obtain ⟨ctx, hopen, heq⟩ := bind_eq_ok.1 heq
      cases heq
      exact ⟨bytes, ctx, hopen, rfl⟩

omit [PackEnv] in
theorem lookup_firstUnref (sw : Sweep) (now : Int) (pack : PackId) :
    (sw.firstUnref now pack).2.ledger.lookup pack = some (sw.firstUnref now pack).1 := by
  unfold Sweep.firstUnref
  cases h : sw.ledger.lookup pack with
  | some => exact h
  | none => exact AList.lookup_insert _

theorem triple_noteRecorded (sw : Sweep) {pack : PackId} (hnew : pack ∉ done) :
    Triple (w.Inv file done sw.ledger sw.dirty) (noteIf (sw.ledger.lookup pack).isNone (.recorded pack))
      (fun _ => w.Inv file (done ++ [pack]) (sw.firstUnref w.now pack).2.ledger
        (sw.firstUnref w.now pack).2.dirty) X := by
  unfold Sweep.firstUnref
  cases sw.ledger.lookup pack with
  | some => exact Triple.pure fun g hg => hg.kept
  | none => exact Triple.modify fun g hg => hg.recorded hnew

theorem triple_expirePack (faults : GcFaults) {first : Int} {sw : Sweep}
    {pack : PackId} (hfirst : sw.ledger.lookup pack = some first)
    (hdead : packIsLive w.reachable entries = false)
    (hlists : ∃ bytes ctx, openPack bytes pack w.fmk = .ok ctx ∧ ctx.entries = entries) :
    Triple (w.Inv file (done ++ [pack]) sw.ledger sw.dirty)
      (expirePack faults w.grace w.now first entries sw pack)
      (fun sw' => w.Inv file (done ++ [pack]) sw'.ledger sw'.dirty) (fun _ => w.Stopped file) := by
  unfold expirePack
  split
  · rename_i hgrace
    refine (triple_failsIf _ fun _ _ hg => hg.stopped).bind fun _ => ?_
    intro g hg
    exact hg.deleted hfirst hgrace hdead hlists
  · exact Triple.pure fun g hg => hg

theorem triple_sweepPackIo (faults : GcFaults) {sw : Sweep} {pack : PackId} (hnew : pack ∉ done) :
    Triple (w.Inv file done sw.ledger sw.dirty) (sweepPackIo faults w.reachable w.grace w.now sw pack)
      (fun sw' => w.Inv file (done ++ [pack]) sw'.ledger sw'.dirty) (fun _ => w.Stopped file) := by
  refine (triple_failsIf _ fun _ _ hg => hg.stopped).bind fun _ => ?_
  refine (triple_packBlobListIo faults pack).bind fun listed => .of_fact fun hlists => ?_
  cases listed with
  | error => exact (Triple.modify fun g hg => hg.corrupt).bind fun _ => Triple.pure fun g hg => hg
  | ok found =>
    obtain ⟨len, entries⟩ := found
    dsimp only
    by_cases hlive : packIsLive w.reachable entries
    · rw [if_pos hlive]
      exact (Triple.modify fun g hg => hg.live hnew).bind fun _ => Triple.pure fun g hg => hg
    rw [if_neg hlive]
    refine (triple_noteRecorded
      { sw with report := { sw.report with scanned := sw.report.scanned + 1 } } hnew).bind fun _ => ?_
    exact triple_expirePack faults (lookup_firstUnref _ w.now pack) (Bool.eq_false_iff.2 hlive)
      (hlists len entries rfl)

end

end Sweeping

/-! ## The ledger on disk -/

omit [PackEnv] in
theorem lookup_loadLedger (file : AList (fun _ : PackId => Nat)) (p : PackId) :
    (loadLedger file).lookup p = (file.lookup p).map fun n => ((n % 2 ^ 64 : Nat) : Int) := by
  rw [loadLedger, AList.lookup_to_alist]
  exact dlookup_map₂ (f := fun _ (n : Nat) => ((n % 2 ^ 64 : Nat) : Int)) p

omit [PackEnv] in
theorem lookup_saveLedger (ledger : Ledger) (p : PackId) :
    (saveLedger ledger).lookup p = (ledger.lookup p).map Int.toNat := by
  rw [saveLedger, AList.lookup_to_alist]
  exact dlookup_map₂ (f := fun _ => Int.toNat) p

/-! ## Marking in any store -/

/-- The store after some reads: only its cache and the list of missing packs may have changed. -/
def PackStore.Warmed (s₀ s : PackStore) : Prop :=
  s.Genuine s₀.fmk ∧ ∃ cache dangling, s = { s₀ with cache := cache, dangling := dangling }

theorem PackStore.Warmed.disk {s : PackStore} (h : s₀.Warmed s) : s.disk = s₀.disk := by
  obtain ⟨-, cache, dangling, rfl⟩ := h
  rfl

theorem PackStore.Warmed.opened {s : PackStore} (h : s₀.Warmed s) (pack : PackId) :
    s₀.Warmed (s.opened pack) := by
  refine ⟨h.1.opened pack, ?_⟩
  obtain ⟨-, cache, dangling, rfl⟩ := h
  unfold PackStore.opened
  split
  · exact ⟨_, dangling, rfl⟩
  · exact ⟨_, dangling, rfl⟩
  · exact ⟨cache, dangling, rfl⟩

theorem PackStore.Warmed.noted {s s' : PackStore} (h : s₀.Warmed s) (hn : s.Noted s') : s₀.Warmed s' := by
  obtain ⟨⟨d, rfl⟩, -⟩ := hn
  obtain ⟨hgenuine, cache, dangling, rfl⟩ := h
  exact ⟨hgenuine, cache, d, rfl⟩

def PackStore.Answered (s₀ : PackStore) (kind : BlobKind) (id : BlobId) (b : Bytes) : Prop :=
  ∃ s s', s₀.Warmed s ∧ getBlob kind id s = .ok b s'

/-- The set holds the roots, and all that they lead to by what the store has answered. -/
def PackStore.Marked (s₀ : PackStore) (roots : List BlobId) (reachable : List (BlobKind × BlobId)) : Prop :=
  (∀ m ∈ roots, (.manifest, m) ∈ reachable) ∧ ∃ log, Marking.Walked s₀.Answered log ⟨reachable, []⟩

theorem collectReferenced_marked (s₀ : PackStore) (fuel : Nat) (roots : List BlobId) :
    Triple s₀.Warmed (collectReferenced fuel roots) (fun set s => s₀.Warmed s ∧ s₀.Marked roots set)
      (fun _ => s₀.Warmed) := by
  refine collectReferenced_walked (fun kind id s hs => ?_) fuel roots
  have hkeep : Keeps s₀.Warmed (getBlob kind id) :=
    keeps_getBlob (fun _ pack h => h.opened pack) (fun _ _ hn h => h.noted hn) kind id
  have hrun := hkeep s hs
  cases hget : getBlob kind id s with
  | ok b s' =>
    rw [hget] at hrun
    exact ⟨hrun, s, s', hs, hget⟩
  | error =>
    rw [hget] at hrun
    exact hrun

/-- A reading of the blobs by what the store has answered; it has the bytes of all manifests and trees
that the roots lead to. -/
structure PackStore.ReadsAs (s₀ : PackStore) (roots : List BlobId) (read : BlobKind → BlobId → Option Bytes) :
    Prop where
  answered : ∀ kind id b, read kind id = some b → s₀.Answered kind id b ∧ Env.blake3 b = id
  complete : ∀ m ∈ roots, ∀ r, LeadsTo read m r → r.1 = .manifest ∨ r.1 = .treeNode → (read r.1 r.2).isSome

omit [PackEnv] in
theorem packIsLive_eq_false_iff :
    packIsLive reachable entries = false ↔
      ∀ e ∈ entries, e.kind ≠ .polynomial ∧ (e.kind, e.id) ∉ reachable := by
  simp [packIsLive, not_or]

def readLog (log : List ((BlobKind × BlobId) × Bytes)) (kind : BlobKind) (id : BlobId) : Option Bytes :=
  (log.find? fun x => x.1 = (kind, id)).map Prod.snd

omit [PackEnv] in
theorem mem_of_readLog {kind : BlobKind} {id : BlobId} {b : Bytes}
    (h : readLog log kind id = some b) : ((kind, id), b) ∈ log := by
  obtain ⟨x, hx, rfl⟩ := Option.map_eq_some_iff.1 h
  have hkey : x.1 = (kind, id) := by simpa using find?_some hx
  have hmem := mem_of_find?_eq_some hx
  rwa [← hkey]

omit [PackEnv] in
theorem isSome_readLog {r : BlobKind × BlobId} {b : Bytes}
    (h : (r, b) ∈ log) : (readLog log r.1 r.2).isSome := by
  rw [readLog, Option.isSome_map, find?_isSome]
  exact ⟨(r, b), h, by simp⟩

theorem PackStore.Marked.readsAs {roots : List BlobId} (h : s₀.Marked roots reachable) :
    ∃ read, s₀.ReadsAs roots read ∧ ∀ m ∈ roots, ∀ r, LeadsTo read m r → r ∈ reachable := by
  obtain ⟨hroots, log, hwalked⟩ := h
  have hmarked : ∀ m ∈ roots, ∀ r, LeadsTo (readLog log) m r → r ∈ reachable := fun m hm r hleads =>
    hwalked.leadsTo (fun _ _ _ _ hread => mem_of_readLog hread) (hroots m hm) hleads
  refine ⟨readLog log, ⟨fun kind id b hb => ?_, fun m hm r hleads hkind => ?_⟩, hmarked⟩
  · obtain ⟨s, s', hs, hget⟩ := hwalked.answers _ (mem_of_readLog hb)
    exact ⟨⟨s, s', hs, hget⟩, getBlob_hash hget⟩
  · obtain ⟨b, hb⟩ := hwalked.read r (hmarked m hm r hleads) hkind
    exact isSome_readLog hb

/-! ## One run -/

/-- A call of the collector, with the store as it is before. -/
structure GcRun where
  faults : GcFaults
  store : PackStore
  fuel : Nat
  roots : List BlobId
  grace : Nat
  now : Int
  genuine : store.Genuine store.fmk

namespace GcRun

def exec (r : GcRun) : EStateM.Result BlobError GcState GcReport :=
  collectGarbageIo r.faults r.fuel r.roots r.grace r.now ⟨r.store, []⟩

def final (r : GcRun) : GcState :=
  match r.exec with
  | .ok _ g => g
  | .error _ g => g

def Failed (r : GcRun) : Prop := ∃ e g, r.exec = .error e g

def ledgerBefore (r : GcRun) : AList (fun _ : PackId => Nat) := r.store.disk.ledger

def ledgerAfter (r : GcRun) : AList (fun _ : PackId => Nat) := r.final.store.disk.ledger

def FindsLive (r : GcRun) (pack : PackId) : Prop := .live pack ∈ r.final.events

def Records (r : GcRun) (pack : PackId) : Prop := .recorded pack ∈ r.final.events

def Deletes (r : GcRun) (pack : PackId) : Prop := ∃ entries, .deleted pack entries ∈ r.final.events

instance (r : GcRun) (pack : PackId) : Decidable (r.FindsLive pack) :=
  inferInstanceAs (Decidable (_ ∈ _))

instance (r : GcRun) (pack : PackId) : Decidable (r.Records pack) :=
  inferInstanceAs (Decidable (_ ∈ _))

instance (r : GcRun) (pack : PackId) : Decidable (r.Deletes pack) :=
  decidable_of_iff (∃ e ∈ r.final.events, e.deletes pack) (by
    constructor
    · rintro ⟨e, he, hp⟩
      cases e with
      | deleted p entries =>
        obtain rfl : p = pack := by simpa [GcEvent.deletes] using hp
        exact ⟨entries, he⟩
      | corrupt | live | recorded => cases hp
    · rintro ⟨entries, he⟩
      exact ⟨_, he, by simp [GcEvent.deletes]⟩)

def sweeping (r : GcRun) (reachable : List (BlobKind × BlobId)) : Sweeping :=
  ⟨r.store.fmk, loadLedger r.ledgerBefore, reachable, r.grace, r.now⟩

/-- The findings of a run that came as far as the packs. -/
def Found (r : GcRun) (events : List GcEvent) : Prop :=
  events = [] ∨ ∃ reachable, r.store.Marked r.roots reachable ∧ (r.sweeping reachable).Justified events

def OnRecord (r : GcRun) (g : GcState) : Prop :=
  ∀ p n, g.store.disk.ledger.lookup p = some n → .live p ∉ g.events ∧
    (r.ledgerBefore.lookup p = some n ∨ (n = r.now.toNat ∧ .recorded p ∈ g.events))

end GcRun

omit [PackEnv] in
theorem triple_onStore {α : Type} {P : PackStore → Prop} {m : BlobM α} {Q : α → PackStore → Prop}
    {X : BlobError → PackStore → Prop} (h : Triple P m Q X) (events : List GcEvent) :
    Triple (fun g => P g.store ∧ g.events = events) (onStore m)
      (fun a g => Q a g.store ∧ g.events = events) (fun e g => X e g.store ∧ g.events = events) := by
  intro g hg
  have hm := h g.store hg.1
  unfold onStore
  cases hrun : m g.store with
  | ok | error =>
    rw [hrun] at hm
    exact ⟨hm, hg.2⟩

omit [PackEnv] in
theorem nodup_sortPacks (packs : AList (fun _ : PackId => Bytes)) : (sortPacks packs.keys).Nodup :=
  (perm_insertionSort _ _).nodup_iff.2 packs.keys_nodup

/-- What the run has noted is on record once the ledger is saved. -/
theorem triple_saveLedgerIo (r : GcRun) (hbound : ∀ p n, r.ledgerBefore.lookup p = some n → n < 2 ^ 64)
    (reachable : List (BlobKind × BlobId)) (done : List PackId) (sw : Sweep) :
    Triple ((r.sweeping reachable).Inv r.ledgerBefore done sw.ledger sw.dirty) (saveLedgerIo r.faults sw)
      (fun _ g => (r.sweeping reachable).Justified g.events ∧ r.OnRecord g)
      (fun _ => (r.sweeping reachable).Stopped r.ledgerBefore) := by
  have hstart : ∀ p n, r.ledgerBefore.lookup p = some n →
      (r.sweeping reachable).start.lookup p = some (n : Int) := by
    intro p n hn
    change (loadLedger _).lookup p = _
    rw [lookup_loadLedger, hn, Option.map_some, Nat.mod_eq_of_lt (hbound p n hn)]
  unfold saveLedgerIo
  split
  · refine (Sweeping.triple_failsIf _ fun _ _ hg => hg.stopped).bind fun _ => ?_
    refine Triple.modify fun g hg => ⟨hg.justified, fun p n hp => ?_⟩
    rw [lookup_saveLedger, Option.map_eq_some_iff] at hp
    obtain ⟨t, ht, rfl⟩ := hp
    obtain ⟨hlive, hsince | ⟨rfl, hrecorded⟩⟩ := hg.entry p t ht
    · refine ⟨hlive, .inl ?_⟩
      change (loadLedger _).lookup p = _ at hsince
      rw [lookup_loadLedger, Option.map_eq_some_iff] at hsince
      obtain ⟨n, hn, rfl⟩ := hsince
      rw [Nat.mod_eq_of_lt (hbound p n hn)]
      exact hn
    · exact ⟨hlive, .inr ⟨rfl, hrecorded⟩⟩
  · rename_i hclean
    refine Triple.pure fun g hg => ⟨hg.justified, fun p n hp => ?_⟩
    have hdirty : sw.dirty = false := by
      by_contra hd
      exact hclean (.inl (by simpa using hd))
    rw [hg.file] at hp
    exact ⟨(hg.entry p n ((hg.unchanged hdirty p).trans (hstart p n hp))).1, .inl hp⟩

def GcRun.Unswept (r : GcRun) (g : GcState) : Prop := r.store.Warmed g.store ∧ g.events = []

theorem GcRun.unswept (r : GcRun) : r.Unswept ⟨r.store, []⟩ :=
  ⟨⟨r.genuine, r.store.cache, r.store.dangling, rfl⟩, rfl⟩

/-- Where a run ends with an error: the ledger is as it was. -/
def GcRun.Broken (r : GcRun) (g : GcState) : Prop :=
  r.Found g.events ∧ g.store.disk.ledger = r.ledgerBefore

theorem GcRun.Unswept.broken {g : GcState} (h : r.Unswept g) : r.Broken g :=
  ⟨.inl h.2, by rw [h.1.disk]; rfl⟩

theorem GcRun.Unswept.inv {g : GcState} (h : r.Unswept g) (reachable : List (BlobKind × BlobId)) :
    (r.sweeping reachable).Inv r.ledgerBefore [] (loadLedger g.store.disk.ledger) false g where
  genuine := h.1.1
  file := by rw [h.1.disk]; rfl
  seen := by simp [h.2]
  justified := by
    intro pack entries hmem
    rw [h.2] at hmem
    cases hmem
  entry := by
    intro p t hp
    rw [h.1.disk] at hp
    exact ⟨by simp [h.2], .inl hp⟩
  unchanged := by
    intro _ p
    rw [h.1.disk]
    rfl

/-- A run that succeeds leaves a ledger it can account for; one that fails leaves the old one. In both
cases the packs it deleted were deleted for a reason. -/
theorem GcRun.triple (r : GcRun) (hbound : ∀ p n, r.ledgerBefore.lookup p = some n → n < 2 ^ 64) :
    Triple r.Unswept (collectGarbageIo r.faults r.fuel r.roots r.grace r.now)
      (fun _ g => r.Found g.events ∧ r.OnRecord g) (fun _ => r.Broken) := by
  have hmark : Triple r.Unswept (onStore (collectReferenced r.fuel r.roots))
      (fun set g => r.Unswept g ∧ r.store.Marked r.roots set) (fun _ => r.Broken) :=
    (triple_onStore (collectReferenced_marked r.store r.fuel r.roots) []).weaken (fun _ hg => hg)
      (fun _ _ hg => ⟨⟨hg.1.1, hg.2⟩, hg.1.2⟩) (fun _ _ hg => GcRun.Unswept.broken hg)
  refine (Sweeping.triple_failsIf _ fun _ _ hg => hg.broken).bind fun _ => ?_
  refine hmark.bind fun reachable => .of_fact fun hmarked => ?_
  refine (Sweeping.triple_failsIf _ fun _ _ hg => hg.broken).bind fun _ => ?_
  refine (Sweeping.triple_failsIf _ fun _ _ hg => hg.broken).bind fun _ => ?_
  have hstopped : ∀ (_ : BlobError) g, (r.sweeping reachable).Stopped r.ledgerBefore g → r.Broken g :=
    fun _ g hg => ⟨.inr ⟨reachable, hmarked, hg.2⟩, hg.1⟩
  refine Triple.get_bind fun g hg => ?_
  have hloop := Triple.foldlM (X := fun _ => (r.sweeping reachable).Stopped r.ledgerBefore)
    (I := fun done sw => (r.sweeping reachable).Inv r.ledgerBefore done sw.ledger sw.dirty)
    (f := sweepPackIo r.faults reachable r.grace r.now) (sortPacks g.store.disk.packs.keys)
    (fun done pack rest sw hl => Sweeping.triple_sweepPackIo r.faults (w := r.sweeping reachable) ?_)
    ⟨loadLedger g.store.disk.ledger, false, ⟨0, [], 0, []⟩⟩
  · refine Triple.bind (hloop.weaken ?_ (fun _ _ h => h) hstopped) fun sw => ?_
    · rintro _ rfl
      exact hg.inv reachable
    · refine ((triple_saveLedgerIo r hbound reachable _ sw).weaken (fun _ h => h) (fun _ _ h => h)
        hstopped).bind fun _ => Triple.pure fun g hg => ?_
      exact ⟨.inr ⟨reachable, hmarked, hg.1⟩, hg.2⟩
  · have hnodup := nodup_sortPacks g.store.disk.packs
    rw [hl] at hnodup
    exact fun hmem => (nodup_append.1 hnodup).2.2 pack hmem pack (by simp) rfl

/-! ## Runs that fail before the packs -/

/-- The calls that can fail once the packs are being looked at do not. -/
def GcFaults.SpareSweep (faults : GcFaults) : Prop :=
  (∀ p, faults.readPack p = false ∧ faults.removePack p = false) ∧ faults.saveLedger = false

def Completes {α : Type} (x : GcM α) : Prop := Triple (fun _ => True) x (fun _ _ => True) (fun _ _ => False)

/-- A sweep step whose file operations are spared goes through. -/
theorem sweepPackIo_completes {faults : GcFaults} (h : faults.SpareSweep) (reachable : List (BlobKind × BlobId))
    (grace : Nat) (now : Int) (sw : Sweep) (pack : PackId) :
    Completes (sweepPackIo faults reachable grace now sw pack) := by
  have hnote : ∀ (c : Bool) (e : GcEvent), Completes (noteIf c e) := by
    intro c e
    cases c with
    | false => exact Triple.pure fun _ _ => trivial
    | true => exact Triple.modify fun _ _ => trivial
  have hlist : Completes (packBlobListIo faults pack) := by
    unfold packBlobListIo
    split
    · exact Triple.pure fun _ _ => trivial
    intro g _
    unfold onStore packBlobList
    rw [run_bind_ok (run_get _)]
    cases g.store.cache.find pack with
    | some => trivial
    | none =>
      cases g.store.disk.packs.lookup pack <;> trivial
  unfold sweepPackIo
  rw [(h.1 pack).1]
  refine Triple.bind (Q := fun _ _ => True) (Triple.pure fun _ _ => trivial) fun _ => hlist.bind fun listed => ?_
  cases listed with
  | error => exact fun _ _ => trivial
  | ok =>
    dsimp only
    split
    · exact fun _ _ => trivial
    refine (hnote _ _).bind fun _ => ?_
    unfold expirePack
    rw [(h.1 pack).2]
    split
    · exact fun _ _ => trivial
    · exact fun _ _ => trivial

/-- A run that fails although its sweep was spared has failed before it. -/
theorem GcRun.events_of_failed (h : r.faults.SpareSweep) (hfailed : r.Failed) :
    r.final.events = [] := by
  have hrun : Triple r.Unswept (collectGarbageIo r.faults r.fuel r.roots r.grace r.now)
      (fun _ _ => True) (fun _ g => g.events = []) := by
    have hmark := (triple_onStore (collectReferenced_marked r.store r.fuel r.roots) []).weaken
      (fun _ hg => hg) (fun _ _ hg => (⟨hg.1.1, hg.2⟩ : r.Unswept _)) (fun _ _ hg => hg.2)
    refine (Sweeping.triple_failsIf _ fun _ _ hg => hg.2).bind fun _ => hmark.bind fun reachable => ?_
    refine (Sweeping.triple_failsIf _ fun _ _ hg => hg.2).bind fun _ => ?_
    refine (Sweeping.triple_failsIf _ fun _ _ hg => hg.2).bind fun _ => Triple.get_bind fun g _ => ?_
    have hloop := Triple.foldlM (X := fun _ _ => False) (I := fun _ _ _ => True)
      (f := sweepPackIo r.faults reachable r.grace r.now) (sortPacks g.store.disk.packs.keys)
      (fun _ pack _ sw _ => sweepPackIo_completes h reachable r.grace r.now sw pack)
      ⟨loadLedger g.store.disk.ledger, false, ⟨0, [], 0, []⟩⟩
    refine (hloop.weaken (fun _ _ => trivial) (fun _ _ h => h) (fun _ _ h => h.elim)).bind fun sw => ?_
    unfold saveLedgerIo
    rw [h.2]
    split
    · exact fun _ _ => trivial
    · exact fun _ _ => trivial
  obtain ⟨e, g, hexec⟩ := hfailed
  have hg := hrun.of_error r.unswept hexec
  rw [GcRun.final, hexec]
  exact hg

/-! ## Runs one after the other -/

/-- Each run starts with the ledger that the one before it left; what else happens to the store
between the runs is free. -/
def Follows (file : AList (fun _ : PackId => Nat)) : List GcRun → Prop
  | [] => True
  | r :: rs => r.ledgerBefore = file ∧ Follows r.ledgerAfter rs

/-- The run `q` is one of these, it has recorded the pack, and no run from then on has found it live. -/
def RecordedSince (runs : List GcRun) (p : PackId) (q : GcRun) : Prop :=
  ∃ pre mid, runs = pre ++ q :: mid ∧ q.Records p ∧ ∀ k ∈ q :: mid, ¬ k.FindsLive p

/-- A pack with this id holds no polynomial, and nothing that the roots of the run lead to. -/
def GcRun.Unreached (r : GcRun) (p : PackId) : Prop :=
  ∃ bytes ctx read, openPack bytes p r.store.fmk = .ok ctx ∧ r.store.ReadsAs r.roots read ∧
    ∀ e ∈ ctx.entries, e.kind ≠ .polynomial ∧ ∀ m ∈ r.roots, ¬ LeadsTo read m (e.kind, e.id)

/-- Every deletion in these runs is of a pack that the roots do not reach, and that has been on record
for as long as the grace period. -/
def GraceRespected (runs : List GcRun) : Prop :=
  ∀ before r later, runs = before ++ r :: later → ∀ p, r.Deletes p →
    r.Unreached p ∧ ∃ q, RecordedSince (before ++ [r]) p q ∧ r.grace ≤ (r.now - q.now).toNat

/-- The clock can be written to the ledger, and no call fails after the run has found a pack live that
the ledger has on record. -/
def GcRun.Steady (r : GcRun) : Prop :=
  r.now < 2 ^ 64 ∧ (r.faults.SpareSweep ∨ r.ledgerBefore = ∅)

/-- What the ledger has on record after these runs. -/
def Accounted (runs : List GcRun) (file : AList (fun _ : PackId => Nat)) : Prop :=
  ∀ p n, file.lookup p = some n → n < 2 ^ 64 ∧ ∃ q, RecordedSince runs p q ∧ q.now ≤ n

theorem RecordedSince.append {p : PackId} {q : GcRun} (h : RecordedSince runs p q)
    (hr : ¬ r.FindsLive p) : RecordedSince (runs ++ [r]) p q := by
  obtain ⟨pre, mid, rfl, hrec, hlive⟩ := h
  refine ⟨pre, mid ++ [r], by simp, hrec, fun k hk => ?_⟩
  rw [← cons_append, mem_append, mem_singleton] at hk
  rcases hk with hk | rfl
  · exact hlive k hk
  · exact hr

theorem RecordedSince.last {p : PackId} (hrec : r.Records p)
    (hr : ¬ r.FindsLive p) : RecordedSince (runs ++ [r]) p r :=
  ⟨runs, [], rfl, hrec, by simpa using hr⟩

theorem RecordedSince.of_live (before after : List GcRun) {k : GcRun} {p : PackId} {q : GcRun}
    (h : RecordedSince (before ++ k :: after) p q) (hk : k.FindsLive p) : RecordedSince after p q := by
  obtain ⟨pre, mid, hsplit, hrec, hlive⟩ := h
  have hnot : k ∉ q :: mid := fun hmem => hlive k hmem hk
  rcases append_eq_append_iff.1 hsplit with ⟨mid', rfl, htail⟩ | ⟨mid', rfl, htail⟩
  · cases mid' with
    | nil =>
      rw [nil_append] at htail
      rw [← htail] at hnot
      simp at hnot
    | cons k' mid' =>
      cases htail
      exact ⟨mid', mid, rfl, hrec, hlive⟩
  · rw [htail] at hnot
    simp at hnot

theorem GcRun.outcome (r : GcRun) (h : Accounted runs r.ledgerBefore) :
    r.Found r.final.events ∧ (r.OnRecord r.final ∨ (r.Failed ∧ r.ledgerAfter = r.ledgerBefore)) := by
  have hrun := r.triple fun p n hn => (h p n hn).1
  unfold GcRun.ledgerAfter GcRun.final GcRun.Failed
  cases hexec : r.exec with
  | ok =>
    obtain ⟨hfound, honrecord⟩ := hrun.of_ok r.unswept hexec
    exact ⟨hfound, .inl honrecord⟩
  | error e g =>
    obtain ⟨hfound, hledger⟩ := hrun.of_error r.unswept hexec
    exact ⟨hfound, .inr ⟨⟨e, g, rfl⟩, hledger⟩⟩

theorem Accounted.step (h : Accounted runs r.ledgerBefore) (hr : r.Steady) :
    Accounted (runs ++ [r]) r.ledgerAfter := by
  intro p n hn
  obtain ⟨-, honrecord | ⟨hfailed, hsame⟩⟩ := r.outcome h
  · obtain ⟨hlive, hold | ⟨rfl, hrec⟩⟩ := honrecord p n hn
    · obtain ⟨hbound, q, hq, hle⟩ := h p n hold
      exact ⟨hbound, q, hq.append hlive, hle⟩
    · have := hr.1
      exact ⟨by omega, r, .last hrec hlive, by omega⟩
  · rw [hsame] at hn
    obtain ⟨hbound, q, hq, hle⟩ := h p n hn
    refine ⟨hbound, q, hq.append ?_, hle⟩
    rcases hr.2 with hspare | hempty
    · rw [GcRun.FindsLive, GcRun.events_of_failed hspare hfailed]
      exact not_mem_nil
    · rw [hempty] at hn
      cases hn

theorem Accounted.run {before : List GcRun} {later : List GcRun} : ∀ {file} {runs : List GcRun},
    Accounted runs file → Follows file (before ++ r :: later) → (∀ k ∈ before, k.Steady) →
    Accounted (runs ++ before) r.ledgerBefore := by
  induction before with
  | nil =>
    intro file runs h hfollows _
    rw [hfollows.1, append_nil]
    exact h
  | cons k before ih =>
    intro file runs h hfollows hsteady
    rw [← hfollows.1] at h
    have hstep := ih (h.step (hsteady k (by simp))) hfollows.2 fun k' hk' => hsteady k' (by simp [hk'])
    rwa [append_assoc] at hstep

/-- Runs of the collector on a new ledger respect the time of grace, if none of them fails after it
has begun to look at packs on record. -/
theorem graceRespected_of_steady {runs : List GcRun} (hfollows : Follows ∅ runs)
    (hsteady : ∀ r ∈ runs, r.Steady) : GraceRespected runs := by
  rintro before r later rfl p ⟨entries, hdel⟩
  have hstart : Accounted [] ∅ := by
    intro p n hn
    cases hn
  have hacc : Accounted before r.ledgerBefore :=
    hstart.run hfollows fun k hk => hsteady k (mem_append_left _ hk)
  obtain ⟨hnone | ⟨reachable, hmarked, hjust⟩, -⟩ := r.outcome hacc
  · rw [hnone] at hdel
    cases hdel
  · obtain ⟨hlive, ⟨t, hsince, hgrace⟩, hdead, bytes, ctx, hopen, rfl⟩ := hjust p entries hdel
    refine ⟨?_, ?_⟩
    · obtain ⟨read, hreads, hall⟩ := hmarked.readsAs
      refine ⟨bytes, ctx, read, hopen, hreads, fun e he => ?_⟩
      obtain ⟨hkind, hnot⟩ := packIsLive_eq_false_iff.1 hdead e he
      exact ⟨hkind, fun m hm hleads => hnot (hall m hm _ hleads)⟩
    · rcases hsince with hold | ⟨rfl, hrec⟩
      · change (loadLedger _).lookup p = _ at hold
        rw [lookup_loadLedger, Option.map_eq_some_iff] at hold
        obtain ⟨n, hn, rfl⟩ := hold
        obtain ⟨hbound, q, hq, hle⟩ := hacc p n hn
        rw [Nat.mod_eq_of_lt hbound] at hgrace
        change r.grace ≤ (r.now - n).toNat at hgrace
        exact ⟨q, hq.append hlive, by omega⟩
      · exact ⟨r, .last hrec hlive, hgrace⟩

end

namespace Sample

def bareManifest : Bytes := serializeManifest (manifestOf ⟨[]⟩)

def bareStore : PackStore :=
  StoreOp.flush.after ((StoreOp.putBlob .manifest bareManifest).after
    ((StoreOp.putBlob .treeNode ((serializeTreeNode ⟨[]⟩).toOption.getD [])).after freshStore))

/-- A run on the disk of that store, opened anew, with this ledger. -/
def bareRun (faults : GcFaults) (ledger : AList (fun _ : PackId => Nat)) (roots : List BlobId) (now : Int) :
    GcRun where
  faults := faults
  store := .fresh { bareStore.disk with ledger := ledger } bareStore.fmk 0 bareStore.locations
  fuel := 10
  roots := roots
  grace := 10
  now := now
  genuine := ⟨rfl, by simp [PackStore.fresh]⟩

def unusedRun : GcRun := bareRun .none ∅ [] 0

/-- The pack is in use, and the ledger cannot be written. -/
def brokenRun : GcRun := bareRun { GcFaults.none with saveLedger := true } unusedRun.ledgerAfter
  [Env.blake3 bareManifest] 5

def lateRun (ledger : AList (fun _ : PackId => Nat)) : GcRun := bareRun .none ledger [] 10

def barePack : PackId := (bareStore.disk.packs.keys).headD zeroId

theorem ledgerBefore_bareRun (faults : GcFaults) (ledger : AList (fun _ : PackId => Nat)) (roots : List BlobId)
    (now : Int) : (bareRun faults ledger roots now).ledgerBefore = ledger := rfl

/-- A pack that no run found live is deleted after the time of grace. -/
theorem graceRespected_unused : (lateRun unusedRun.ledgerAfter).Deletes barePack ∧
    GraceRespected [unusedRun, lateRun unusedRun.ledgerAfter] := by
  refine ⟨by decide +kernel, graceRespected_of_steady ?_ ?_⟩
  · exact ⟨ledgerBefore_bareRun _ _ _ _, ledgerBefore_bareRun _ _ _ _, trivial⟩
  · have hspare : GcFaults.none.SpareSweep := ⟨fun _ => ⟨rfl, rfl⟩, rfl⟩
    intro r hr
    rcases mem_pair.1 hr with rfl | rfl
    · exact ⟨by decide, .inl hspare⟩
    · exact ⟨by decide, .inl hspare⟩

/-- The second run finds the pack live and cannot write that down, so the third run deletes it by the
record of the first one. -/
theorem not_graceRespected_broken : Follows ∅ [unusedRun, brokenRun, lateRun brokenRun.ledgerAfter] ∧
    ¬ GraceRespected [unusedRun, brokenRun, lateRun brokenRun.ledgerAfter] := by
  have hlive : brokenRun.FindsLive barePack := by decide +kernel
  have hdel : (lateRun brokenRun.ledgerAfter).Deletes barePack := by decide +kernel
  have hrec : ¬ (lateRun brokenRun.ledgerAfter).Records barePack := by decide +kernel
  refine ⟨⟨ledgerBefore_bareRun _ _ _ _, ledgerBefore_bareRun _ _ _ _, ledgerBefore_bareRun _ _ _ _,
    trivial⟩, fun h => ?_⟩
  obtain ⟨-, q, hq, -⟩ := h [unusedRun, brokenRun] _ [] rfl barePack hdel
  obtain ⟨pre, mid, hsplit, hqrec, -⟩ :=
    RecordedSince.of_live [unusedRun] [lateRun brokenRun.ledgerAfter] hq hlive
  have hqlast : q ∈ [lateRun brokenRun.ledgerAfter] := by
    rw [hsplit]
    simp
  rw [mem_singleton.1 hqlast] at hqrec
  exact hrec hqrec

end Sample

end Ferry
