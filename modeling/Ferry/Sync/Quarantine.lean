import Ferry.Disk.Growth
import Ferry.Lib.Rely
import Ferry.Sync.ChunkLists

/-! # Conflict copies while others write

The part of `converge` that fetches what is missing and writes the losers of
conflicts beside the winners, step by step: names are chosen first and live
content is verified, and only then copies are put in place. Others may create
entries in the folder before any of these steps.

A copy is built under a temporary name and linked to its place, and then the
temporary name is removed, whatever stands under it. That name has no entropy if
the loser's name is longer than 180 bytes, so it can be somebody else's.
-/

namespace Ferry

open Lib List

/-- A copy that has been put in place, with the disk right before and right after. -/
structure Landing where
  op : QuarantineOp
  tmp : CompPath
  dest : CompPath
  before : Disk
  after : Disk

section
variable [SyncEnv]

structure Shared where
  disk : Disk
  store : Store
  landed : List Landing
  /-- The files and links not its own that a step has found under its temporary name. -/
  found : List Inode

structure Others (s s' : Shared) : Prop where
  disk : s.disk.Grows s'.disk
  store : s'.store = s.store
  landed : s'.landed = s.landed
  found : s'.found = s.found

theorem Others.refl (s : Shared) : Others s s := ⟨.refl s.disk, rfl, rfl, rfl⟩

abbrev CopyM := Steps Shared ConvergenceError

/-! ## The steps -/

/-- `unique_conflict_dest`, one look at a time. -/
def probeDest (at_ dir : CompPath) (candidateBase : String) : Nat → Nat → CopyM CompPath
  | 0, _ => .fail (.io at_ .alreadyExists)
  | fuel + 1, counter => do
    let abs := dir ++ [numbered candidateBase counter]
    match ← Steps.look fun s => .ok (s.disk.symlinkMetadata abs) with
    | .error .notFound => return abs
    | .error e => .fail (.io at_ e)
    | .ok _ => probeDest at_ dir candidateBase fuel (counter + 1)

def readLoser (root : CompPath) (op : QuarantineOp) : CopyM (Option Bytes) :=
  match op.content with
  | .liveLocal expectedChunks => do
    let live ← Steps.look fun s => .ok (resolveLive s.disk root op.path)
    let bytes ← Steps.look fun s => readLiveVerified s.disk live op.path expectedChunks
    return some bytes
  | _ => return none

def buildCopy (root : CompPath) (op : QuarantineOp) (tmp : CompPath) (liveBytes : Option Bytes) :
    CopyM (Except ConvergenceError Unit) :=
  .act
    (fun s => { s with
      disk := (buildTmp s.store s.disk root op tmp liveBytes).toOption.getD s.disk
      found := s.found ++ s.disk.strays tmp })
    fun s => .ret ((buildTmp s.store s.disk root op tmp liveBytes).map fun _ => ())

/-- `hard_link` of the built entry, on record if it lands. -/
def linkCopy (op : QuarantineOp) (tmp dest : CompPath) : CopyM (Except Errno Unit) :=
  .act
    (fun s => match s.disk.hardLink tmp dest with
      | .ok d => { s with disk := d, landed := s.landed ++ [⟨op, tmp, dest, s.disk, d⟩] }
      | .error _ => s)
    fun s => .ret ((s.disk.hardLink tmp dest).map fun _ => ())

/-- `let _ = remove_file(tmp)`; it is on record what goes if nothing has been built. -/
def unlinkTmp (tmp : CompPath) (built : Bool) : CopyM Unit :=
  .act
    (fun s => { s with
      disk := (s.disk.removeFile tmp).toOption.getD s.disk
      found := s.found ++ if built then [] else s.disk.strays tmp })
    fun _ => .ret ()

/-- The loop of `write_loser_copy`, with `rename_exclusive` as a link and a removal. -/
def landAttempts (root : CompPath) (op : QuarantineOp) (destDir : CompPath) (candidateBase : String)
    (liveBytes : Option Bytes) : Nat → Nat → CopyM CompPath
  | 0, _ => .fail (.landingExhausted (destDir ++ [candidateBase]))
  | left + 1, attempt => do
    let dest := destDir ++ [numbered candidateBase attempt]
    let display := joinPath op.path
    let tmp := destDir ++ [tempNameFor display (Env.freshEntropy display attempt)]
    match ← buildCopy root op tmp liveBytes with
    | .error e => do
      unlinkTmp tmp false
      .fail e
    | .ok () =>
      match ← linkCopy op tmp dest with
      | .ok () => do
        unlinkTmp tmp true
        return dest
      | .error .alreadyExists => do
        unlinkTmp tmp true
        landAttempts root op destDir candidateBase liveBytes left (attempt + 1)
      | .error e => do
        unlinkTmp tmp true
        .fail (.io dest e)

def makeDestDir (destDir : CompPath) : CopyM Unit :=
  .act
    (fun s => match Disk.createDirAll (destDir.length + 1) s.disk destDir with
      | .ok d => { s with disk := d }
      | .error _ => s)
    fun s => match Disk.createDirAll (destDir.length + 1) s.disk destDir with
      | .ok _ => .ret ()
      | .error e => .fail (.io destDir e)

def landCopyAt (root : CompPath) (op : QuarantineOp) (dest : CompPath) (liveBytes : Option Bytes) :
    CopyM CompPath := do
  makeDestDir dest.dropLast
  landAttempts root op dest.dropLast (dest.getLastD "") liveBytes maxLandingAttempts 1

/-- What fetching the missing chunks makes of a store. -/
def fetchOutcome (fetcher : Option (Chunks → Store → Except String Store)) (want : Chunks) (st : Store) :
    Except ConvergenceError Unit × Store :=
  let missing := missingChunks st want
  if missing = [] then (.ok (), st)
  else
    match fetcher with
    | none => (.error (.missingBlobs missing.length), st)
    | some fetch =>
      match fetch missing st with
      | .error reason => (.error (.fetch reason), st)
      | .ok st' =>
        let leftover := missingChunks st' missing
        (if leftover = [] then .ok () else .error (.missingBlobs leftover.length), st')

def fetchFirst (fetcher : Option (Chunks → Store → Except String Store)) (want : Chunks) : CopyM Unit :=
  .act (fun s => { s with store := (fetchOutcome fetcher want s.store).2 })
    fun s => match (fetchOutcome fetcher want s.store).1 with
      | .ok () => .ret ()
      | .error e => .fail e

def chooseCopy (root : CompPath) (fuel : Disk → Nat) (op : QuarantineOp) :
    CopyM (CompPath × Option Bytes) := do
  let candidate := conflictDisplayName (op.path.getLastD "") op.loserDevice op.loserMtimeSec
  let bound ← Steps.look fun s => .ok (fuel s.disk)
  let abs ← probeDest (root ++ [candidate]) (root ++ op.path.dropLast) candidate bound 1
  let bytes ← readLoser root op
  return (abs, bytes)

/-- There are fewer taken names than entries on the disk. -/
def nameBound (d : Disk) : Nat := d.inodes.keys.length + 1

/-- Fetches, chooses and verifies, and then lands; `fuel` bounds the search for a free name. -/
def quarantineLosers (root : CompPath) (fuel : Disk → Nat)
    (fetcher : Option (Chunks → Store → Except String Store)) (plan : ActionPlan) :
    CopyM (List CompPath) := do
  fetchFirst fetcher plan.fetch
  let copies ← plan.quarantine.mapM (chooseCopy root fuel)
  (plan.quarantine.zip copies).mapM fun (op, dest, bytes) => landCopyAt root op dest bytes

/-! ## What a copy holds -/

/-- The bytes are those of the chunks, one after the other. -/
inductive Spells : Chunks → Bytes → Prop
  | nil : Spells [] []
  | cons {id : BlobId} {len : Nat} {chunks : Chunks} {piece rest : Bytes} :
      piece.length = len → Env.blake3 piece = id → Spells chunks rest →
      Spells ((id, len) :: chunks) (piece ++ rest)

/-- The entry has the loser's bytes, or leads to where the loser led. -/
def QuarantineOp.Holds (op : QuarantineOp) (i : Inode) : Prop :=
  match op.content with
  | .liveLocalSymlink target => ∃ mtime, i = .symlink target mtime
  | .liveLocal chunks => ∃ bytes mtime, i = .file bytes op.exec mtime ∧ Spells chunks bytes
  | .fromStore kind _ _ _ chunks target =>
    if kind = .symlink then ∃ mtime, i = .symlink (target.getD "") mtime
    else ∃ bytes mtime, i = .file bytes op.exec mtime ∧ Spells chunks bytes

/-- The bytes that were read for a live loser. -/
def QuarantineOp.Verified (op : QuarantineOp) (liveBytes : Option Bytes) : Prop :=
  ∀ chunks, op.content = .liveLocal chunks → ∃ bytes, liveBytes = some bytes ∧ Spells chunks bytes

variable {op : QuarantineOp} {e : ConvergenceError} {tmp : CompPath} {liveBytes : Option Bytes}
  {d d' : Disk} {chunks : Chunks} {bytes : Bytes} {i : Inode} {x : Except ConvergenceError Disk}

theorem verifyLive_spells {rel : CompPath} {total : Nat} {out : Bytes}
    (h : verifyLive rel total bytes chunks = .ok out) : Spells chunks out := by
  induction chunks generalizing bytes out with
  | nil =>
    unfold verifyLive at h
    split at h
    · cases h
    · cases h
      exact .nil
  | cons c chunks ih =>
    unfold verifyLive at h
    split at h
    · cases h
    rename_i hlen
    split at h
    · cases h
    · rename_i hhash
      obtain ⟨tail, htail, h⟩ := bind_eq_ok.1 h
      cases h
      exact .cons (length_take_of_le (Nat.not_lt.1 hlen)) (not_not.1 hhash) (ih htail)

theorem readLiveVerified_spells {abs rel : CompPath}
    (h : readLiveVerified d abs rel chunks = .ok bytes) : Spells chunks bytes := by
  unfold readLiveVerified at h
  split at h
  · exact verifyLive_spells h
  · cases h
  · split at h
    · cases h
    · cases h
  · cases h

theorem storedLoser_spells {st : Store} {display : String} {out : Bytes}
    (h : storedLoser st display chunks = .ok out) : Spells chunks out := by
  induction chunks generalizing out with
  | nil =>
    cases h
    exact .nil
  | cons c chunks ih =>
    unfold storedLoser at h
    split at h
    · cases h
    rename_i piece hget
    split at h
    · cases h
    · rename_i hlen
      obtain ⟨tail, htail, h⟩ := bind_eq_ok.1 h
      cases h
      exact .cons (not_not.1 hlen) (st.get_hash _ _ _ hget) (ih htail)

omit [SyncEnv] in
theorem ok_of_check {c : Prop} [Decidable c] (h : (if c then .error e else x) = .ok d) : x = .ok d := by
  by_cases hc : c
  · rw [if_pos hc] at h
    cases h
  · rwa [if_neg hc] at h

omit [SyncEnv] in
theorem ioAt_eq_ok {α : Type} {at_ : CompPath} {x : Except Errno α} {a : α} (h : ioAt at_ x = .ok a) : x = .ok a := by
  cases x with
  | ok => exact congrArg Except.ok (Except.ok.inj h)
  | error => cases h

/-- A new entry has been made under a name that was free. -/
def Disk.Made (d : Disk) (tmp : CompPath) (i : Inode) (d' : Disk) : Prop :=
  ∃ t, d.locate tmp = .ok t ∧ d.get t = none ∧ i ≠ .dir ∧ d'.get = Function.update d.get t (some i)

omit [SyncEnv] in
theorem makeSymlinkAt_made {target : String}
    (h : makeSymlinkAt d target tmp = .ok d') : d.Made tmp (.symlink target d.clock) d' := by
  obtain ⟨_, -, h⟩ := bind_eq_ok.1 h
  obtain ⟨t, ht, hnew, hget, -⟩ := Disk.linkNew_ok (ioAt_eq_ok h)
  exact ⟨t, ht, hnew, by simp, hget⟩

omit [SyncEnv] in
theorem writeBytesWithMeta_made (hfree : d.strays tmp = []) {exec : Bool} {sec : Int} {nsec : Nat}
    (h : writeBytesWithMeta d tmp bytes exec sec nsec = .ok d') :
    d.Made tmp (.file bytes exec (joinUnix sec nsec)) d' := by
  obtain ⟨file, hfile, h⟩ := bind_eq_ok.1 h
  have hput := ioAt_eq_ok h
  obtain ⟨hloc, hdir⟩ := Disk.createPlace_of_strays hfree (ioAt_eq_ok hfile)
  obtain ⟨hnot, hget⟩ := Disk.putFile_ok hput
  exact ⟨file, hloc, hdir.resolve_right hnot, by simp, hget⟩

/-- What is built under a free temporary name holds the loser. -/
theorem buildTmp_made {st : Store} {root : CompPath} (hlive : op.Verified liveBytes) (hfree : d.strays tmp = [])
    (h : buildTmp st d root op tmp liveBytes = .ok d') : ∃ i, op.Holds i ∧ d.Made tmp i d' := by
  unfold buildTmp at h
  unfold QuarantineOp.Holds
  cases hcontent : op.content with
  | liveLocalSymlink =>
    rw [hcontent] at h
    exact ⟨_, ⟨_, rfl⟩, makeSymlinkAt_made (ok_of_check h)⟩
  | liveLocal chunks =>
    obtain ⟨bytes, rfl, hspells⟩ := hlive chunks hcontent
    rw [hcontent] at h
    exact ⟨_, ⟨bytes, _, rfl, hspells⟩, writeBytesWithMeta_made hfree h⟩
  | fromStore =>
    rw [hcontent] at h
    dsimp only at h ⊢
    split at h
    · rename_i hkind
      simp only [if_pos hkind]
      exact ⟨_, ⟨_, rfl⟩, makeSymlinkAt_made h⟩
    rename_i hkind
    simp only [if_neg hkind]
    obtain ⟨bytes, hbytes, h⟩ := bind_eq_ok.1 h
    exact ⟨_, ⟨bytes, _, rfl, storedLoser_spells hbytes⟩, writeBytesWithMeta_made hfree h⟩

/-! ## Errors -/

/-- The live file of a loser is not what was expected; a link that leads elsewhere is another matter. -/
def ConvergenceError.LiveMismatch (e : ConvergenceError) : Prop :=
  ∃ rel reason, e = diverged rel reason ∧ ∀ expected found, reason ≠ .targetMismatch expected found

/-- An error that can come up while a copy is put in place. -/
structure LateError (st : Store) (op : QuarantineOp) (e : ConvergenceError) : Prop where
  notMissing : ∀ n, e ≠ .missingBlobs n
  notMismatch : ¬ e.LiveMismatch
  store : (∀ c ∈ op.content.storeChunks, (st.get .dataChunk c.1).isOk) → ∀ e', e ≠ .store e'

theorem lateError_io (st : Store) (op : QuarantineOp) (path : CompPath) (e : Errno) :
    LateError st op (.io path e) where
  notMissing n := by simp
  notMismatch := by
    rintro ⟨rel, reason, heq, -⟩
    cases heq
  store _ e' := by simp

theorem storedLoser_error {st : Store} {display : String} (h : storedLoser st display chunks = .error e) :
    (∃ e', e = .store e' ∧ ∃ c ∈ chunks, ¬ (st.get .dataChunk c.1).isOk) ∨
      ∃ index expected found, e = .materialize (.chunkCorrupt display index expected found) := by
  induction chunks with
  | nil => cases h
  | cons c chunks ih =>
    obtain ⟨id, len⟩ := c
    unfold storedLoser at h
    cases hget : st.get .dataChunk id with
    | error e' =>
      rw [hget] at h
      cases h
      exact .inl ⟨e', rfl, (id, len), by simp, by simp [hget, Except.toBool]⟩
    | ok =>
      rw [hget] at h
      dsimp only at h
      split at h
      · cases h
        exact .inr ⟨_, _, _, rfl⟩
      cases htail : storedLoser st display chunks with
      | ok =>
        rw [htail] at h
        cases h
      | error e' =>
        rw [htail] at h
        cases h
        refine (ih htail).imp_left ?_
        rintro ⟨e', he', c, hc, hnot⟩
        exact ⟨e', he', c, by simp [hc], hnot⟩

omit [SyncEnv] in
theorem error_of_check {c : Prop} [Decidable c] {e' : ConvergenceError}
    (h : (if c then .error e' else x) = .error e) : e = e' ∨ x = .error e := by
  by_cases hc : c
  · rw [if_pos hc] at h
    cases h
    exact .inl rfl
  · rw [if_neg hc] at h
    exact .inr h

theorem ioAt_late {α : Type} {st : Store} {path : CompPath} {x : Except Errno α}
    (h : ioAt path x = .error e) : LateError st op e := by
  cases x with
  | ok => cases h
  | error errno =>
    cases h
    exact lateError_io st op path errno

theorem makeSymlinkAt_late {st : Store} {target : String}
    (h : makeSymlinkAt d target tmp = .error e) : LateError st op e := by
  unfold makeSymlinkAt at h
  rcases bind_eq_error.1 h with hcheck | ⟨_, -, hlink⟩
  · exact ioAt_late hcheck
  · exact ioAt_late hlink

theorem writeBytesWithMeta_late {st : Store} {exec : Bool} {sec : Int} {nsec : Nat}
    (h : writeBytesWithMeta d tmp bytes exec sec nsec = .error e) : LateError st op e := by
  unfold writeBytesWithMeta at h
  rcases bind_eq_error.1 h with hplace | ⟨_, -, hput⟩
  · exact ioAt_late hplace
  · exact ioAt_late hput

theorem lateError_materialize {st : Store} {e : MaterializeError}
    (h : ¬ (ConvergenceError.materialize e).LiveMismatch) : LateError st op (.materialize e) where
  notMissing n := by simp
  notMismatch := h
  store _ e' := by simp

/-- Building a copy reports neither missing blobs nor a live loser that is not as expected. -/
theorem buildTmp_late {st : Store} {root : CompPath}
    (h : buildTmp st d root op tmp liveBytes = .error e) : LateError st op e := by
  unfold buildTmp at h
  cases hcontent : op.content with
  | liveLocalSymlink =>
    rw [hcontent] at h
    rcases error_of_check h with rfl | h
    · refine lateError_materialize ?_
      rintro ⟨rel, reason, heq, hnot⟩
      cases heq
      exact hnot _ _ rfl
    · exact makeSymlinkAt_late h
  | liveLocal =>
    rw [hcontent] at h
    cases liveBytes with
    | none =>
      cases h
      refine lateError_materialize ?_
      rintro ⟨rel, reason, heq, -⟩
      cases heq
    | some => exact writeBytesWithMeta_late h
  | fromStore kind exec sec nsec chunks =>
    rw [hcontent] at h
    dsimp only at h
    split at h
    · exact makeSymlinkAt_late h
    cases hloser : storedLoser st (joinPath op.path) chunks with
    | ok =>
      rw [hloser] at h
      exact writeBytesWithMeta_late h
    | error e' =>
      rw [hloser] at h
      cases h
      rcases storedLoser_error hloser with ⟨e', rfl, c, hc, hnot⟩ | ⟨index, expected, found, rfl⟩
      · refine ⟨by simp, ?_, fun hall => absurd (hall c ?_) hnot⟩
        · rintro ⟨rel, reason, heq, -⟩
          cases heq
        · unfold LoserContent.storeChunks
          rwa [hcontent]
      · refine lateError_materialize ?_
        rintro ⟨rel, reason, heq, -⟩
        cases heq

/-! ## What holds among others -/

/-- The name was free when the copy came to it, and the copy is what it should be. -/
def Landing.Lands (l : Landing) : Prop :=
  ∃ q i, l.before.locate l.dest = .ok q ∧ l.before.get q = none ∧
    l.after.get = Function.update l.before.get q (some i) ∧ l.op.Holds i

/-- What was there when the copy had landed, its temporary entry apart. -/
def Landing.Stays (l : Landing) (p : CompPath) (i : Inode) : Prop :=
  l.after.get p = some i ∧ l.before.locate l.tmp ≠ .ok p

/-- The name leads to the copy, by entries that stay. -/
def Landing.Leads (l : Landing) : Prop :=
  ∃ b : Disk, ∃ q i, b.locate l.dest = .ok q ∧ l.Stays q i ∧ ∀ p j, b.get p = some j → l.Stays p j

/-- All that was there is there still, and so are the copies, each under a name of its own; `out` is the
temporary entry. -/
structure Shared.Safe (d₀ : Disk) (ops : List QuarantineOp) (out : Option CompPath) (s : Shared) : Prop where
  grown : s.disk.Has out fun p i => d₀.get p = some i
  landed : ∀ l ∈ s.landed, l.op ∈ ops ∧ l.Lands ∧ l.Leads ∧ s.disk.Has out l.Stays
  distinct : s.landed.Pairwise fun l l' => l.dest ≠ l'.dest

namespace Shared

variable {st : Store} {d₀ : Disk} {ops : List QuarantineOp} {s s' : Shared} {out out' : Option CompPath}

/-- A step that lands nothing keeps what the disk keeps. -/
theorem Safe.withDisk (h : s.Safe d₀ ops out) (hland : s'.landed = s.landed)
    (hd : ∀ K, s.disk.Has out K → s'.disk.Has out' K) : s'.Safe d₀ ops out' where
  grown := hd _ h.grown
  landed l hl := by
    rw [hland] at hl
    obtain ⟨hop, hlands, hleads, hstays⟩ := h.landed l hl
    exact ⟨hop, hlands, hleads, hd _ hstays⟩
  distinct := hland ▸ h.distinct

/-- The step lemma for a copy that lands. -/
theorem Safe.land (h : s.Safe d₀ ops out) {l : Landing} (hbefore : l.before = s.disk)
    (hland : s'.landed = s.landed ++ [l]) (hop : l.op ∈ ops) (hlands : l.Lands) (hleads : l.Leads)
    (hstays : s'.disk.Has out l.Stays) (hgrows : s.disk.Grows s'.disk) : s'.Safe d₀ ops out := by
  refine ⟨h.grown.grows hgrows, fun l' hl' => ?_, ?_⟩
  · rw [hland] at hl'
    rcases mem_append.1 hl' with hl' | hl'
    · obtain ⟨hop', hlands', hleads', hstays'⟩ := h.landed l' hl'
      exact ⟨hop', hlands', hleads', hstays'.grows hgrows⟩
    · rw [mem_singleton.1 hl']
      exact ⟨hop, hlands, hleads, hstays⟩
  · rw [hland, pairwise_append]
    refine ⟨h.distinct, pairwise_singleton _ _, fun l₁ hl₁ l₂ hl₂ heq => ?_⟩
    rw [mem_singleton.1 hl₂] at heq
    -- the old name leads to the old copy still, and the new copy came to a free place
    obtain ⟨-, -, ⟨b, q, i, hloc, hq, hb⟩, hstays₁⟩ := h.landed l₁ hl₁
    obtain ⟨q', _, hloc', hfree, -⟩ := hlands
    have hsame : s.disk.locate l₁.dest = .ok q :=
      Disk.Grows.locate (fun p j hp => (hstays₁ p j (hb p j hp)).1) hloc
    rw [hbefore, ← heq, hsame] at hloc'
    cases hloc'
    rw [hbefore, (hstays₁ q i hq).1] at hfree
    cases hfree

/-- The store is `st` and the copies are `old`; and nothing is lost, unless a step has found what is not its
own. -/
def After (st : Store) (d₀ : Disk) (ops : List QuarantineOp) (old : List Landing) (s : Shared) : Prop :=
  s.store = st ∧ s.landed = old ∧ (s.found = [] → s.Safe d₀ ops none)

theorem After.others {old : List Landing} (h : s.After st d₀ ops old) (hothers : Others s s') :
    s'.After st d₀ ops old :=
  ⟨hothers.store.trans h.1, hothers.landed.trans h.2.1, fun hfound =>
    (h.2.2 (hothers.found ▸ hfound)).withDisk hothers.landed fun _ hK => hK.grows hothers.disk⟩

end Shared

/-! ## Choosing -/

section
variable {st : Store} {d₀ : Disk} {ops : List QuarantineOp}

theorem ensures_look {α : Type} {I : Shared → Prop} (hI : ∀ s s', I s → Others s s' → I s')
    (f : Shared → Except ConvergenceError α) :
    Steps.Ensures Others I (Steps.look f) (fun a s => I s ∧ f s = .ok a) (fun _ => I) :=
  .look (fun s s₁ _ hs hothers hf => ⟨hI s s₁ hs hothers, hf⟩) (fun s s₁ _ hs hothers _ => hI s s₁ hs hothers)

theorem probeDest_choosing (at_ dir : CompPath) (candidateBase : String) (fuel counter : Nat) :
    Steps.Ensures Others (Shared.After st d₀ ops []) (probeDest at_ dir candidateBase fuel counter)
      (fun _ => Shared.After st d₀ ops []) (fun _ => Shared.After st d₀ ops []) := by
  induction fuel generalizing counter with
  | zero => exact .fail fun _ hs => hs
  | succ fuel ih =>
    refine (ensures_look (fun _ _ hs => hs.others) _).bind fun found => ?_
    split
    · exact .ret fun _ hs => hs.1
    · exact .fail fun _ hs => hs.1
    · exact (ih (counter + 1)).weaken (fun _ hs => hs.1) (fun _ _ hs => hs) (fun _ _ hs => hs)

theorem readLoser_choosing (root : CompPath) (op : QuarantineOp) :
    Steps.Ensures Others (Shared.After st d₀ ops []) (readLoser root op)
      (fun bytes s => s.After st d₀ ops [] ∧ op.Verified bytes) (fun _ => Shared.After st d₀ ops []) := by
  unfold readLoser
  cases hcontent : op.content with
  | liveLocal =>
    refine (ensures_look (fun _ _ hs => hs.others) _).bind fun live => ?_
    refine (ensures_look (fun _ _ hs => hs.others) _).weaken (fun _ hs => hs.1) (fun _ _ hs => hs)
      (fun _ _ hs => hs) |>.bind fun bytes => .ret fun s hs => ⟨hs.1, fun chunks' heq => ?_⟩
    rw [hcontent] at heq
    cases heq
    exact ⟨bytes, rfl, readLiveVerified_spells hs.2⟩
  | liveLocalSymlink | fromStore =>
    refine .ret fun s hs => ⟨hs, fun chunks' heq => ?_⟩
    rw [hcontent] at heq
    cases heq

theorem chooseCopy_choosing (root : CompPath) (fuel : Disk → Nat) (op : QuarantineOp) :
    Steps.Ensures Others (Shared.After st d₀ ops []) (chooseCopy root fuel op)
      (fun copy s => s.After st d₀ ops [] ∧ op.Verified copy.2) (fun _ => Shared.After st d₀ ops []) := by
  refine (ensures_look (fun _ _ hs => hs.others) _).bind fun bound => ?_
  refine (probeDest_choosing _ _ _ bound 1).weaken (fun _ hs => hs.1) (fun _ _ hs => hs)
    (fun _ _ hs => hs) |>.bind fun abs => ?_
  exact (readLoser_choosing root op).bind fun bytes => .ret fun s hs => hs

/-! ## Landing -/

/-- The temporary entry is out: it holds the loser, and `b` was there before it. -/
structure Shared.Out (st : Store) (d₀ : Disk) (ops : List QuarantineOp) (old : List Landing) (op : QuarantineOp)
    (tmp : CompPath) (s : Shared) : Prop where
  store : s.store = st
  landed : s.landed = old
  safe : s.found = [] → ∃ t i, s.disk.locate tmp = .ok t ∧ s.disk.get t = some i ∧ i ≠ .dir ∧ op.Holds i ∧
    s.Safe d₀ ops (some t) ∧ ∃ b : Disk, b.locate tmp = .ok t ∧ s.disk.Has (some t) fun p j => b.get p = some j

theorem Shared.Out.others {old : List Landing} {s s' : Shared} (h : s.Out st d₀ ops old op tmp)
    (hothers : Others s s') : s'.Out st d₀ ops old op tmp := by
  refine ⟨hothers.store.trans h.store, hothers.landed.trans h.landed, fun hfound => ?_⟩
  obtain ⟨t, i, ht, hi, hdir, hholds, hsafe, b, hb, hhas⟩ := h.safe (hothers.found ▸ hfound)
  exact ⟨t, i, hothers.disk.locate ht, hothers.disk _ _ hi, hdir, hholds,
    hsafe.withDisk hothers.landed fun _ hK => hK.grows hothers.disk, b, hb, hhas.grows hothers.disk⟩

theorem buildCopy_out (root : CompPath) (hlive : op.Verified liveBytes) (tmp : CompPath) (old : List Landing) :
    Steps.Ensures Others (Shared.After st d₀ ops old) (buildCopy root op tmp liveBytes)
      (fun built s => match built with
        | .ok () => s.Out st d₀ ops old op tmp
        | .error e => s.After st d₀ ops old ∧ LateError st op e)
      (fun _ _ => False) := by
  refine .act fun s s₁ hs hothers => .ret ?_
  rintro _ rfl
  have hs₁ := hs.others hothers
  cases hbuild : buildTmp s₁.store s₁.disk root op tmp liveBytes with
  | error e =>
    refine ⟨⟨hs₁.1, hs₁.2.1, fun hfound => ?_⟩, buildTmp_late (hs₁.1 ▸ hbuild)⟩
    exact (hs₁.2.2 (append_eq_nil_iff.1 hfound).1).withDisk rfl fun _ hK => hK
  | ok d =>
    refine ⟨hs₁.1, hs₁.2.1, fun hfound => ?_⟩
    obtain ⟨hnone, hfree⟩ := append_eq_nil_iff.1 hfound
    obtain ⟨i, hholds, t, ht, hnew, hdir, hget⟩ := buildTmp_made hlive hfree hbuild
    have hmade : ∀ K, s₁.disk.Has none K → d.Has (some t) K := fun K hK => hK.made hnew hget
    have hi : d.get t = some i := by simp [hget]
    exact ⟨t, i, (Disk.grows_of_update hnew hget).locate ht, hi, hdir, hholds,
      (hs₁.2.2 hnone).withDisk rfl hmade, s₁.disk, ht, hmade _ fun _ _ h => ⟨h, by simp⟩⟩

/-- What was built goes, or there was nothing to go. -/
theorem unlinkTmp_after (tmp : CompPath) (op : QuarantineOp) (old : List Landing) (built : Bool)
    {X : ConvergenceError → Shared → Prop} :
    Steps.Ensures Others (fun s => if built then s.Out st d₀ ops old op tmp else s.After st d₀ ops old)
      (unlinkTmp tmp built) (fun _ => Shared.After st d₀ ops old) X := by
  refine .act fun s s₁ hs hothers => .ret ?_
  rintro _ rfl
  cases built with
  | true =>
    have hs₁ := Shared.Out.others hs hothers
    refine ⟨hs₁.store, hs₁.landed, fun hfound => ?_⟩
    obtain ⟨t, i, ht, hi, hdir, -, hsafe, -⟩ := hs₁.safe (append_eq_nil_iff.1 hfound).1
    refine hsafe.withDisk rfl fun K hK => ?_
    rw [Disk.removeFile_eq ht hi hdir]
    exact hK.removed hi hdir
  | false =>
    have hs₁ := Shared.After.others hs hothers
    refine ⟨hs₁.1, hs₁.2.1, fun hfound => ?_⟩
    obtain ⟨hnone, hfree⟩ := append_eq_nil_iff.1 hfound
    refine (hs₁.2.2 hnone).withDisk rfl fun K hK => ?_
    rwa [Disk.removeFile_of_strays hfree]

/-- A link lands at a free name, or the name is taken and nothing has changed. -/
theorem linkCopy_lands (hop : op ∈ ops) (destDir : CompPath) (c name : String) (old : List Landing) :
    Steps.Ensures Others (Shared.Out st d₀ ops old op (destDir ++ [c]))
      (linkCopy op (destDir ++ [c]) (destDir ++ [name]))
      (fun linked s => match linked with
        | .ok () => ∃ before after,
          s.Out st d₀ ops (old ++ [⟨op, destDir ++ [c], destDir ++ [name], before, after⟩]) op (destDir ++ [c])
        | .error _ => s.Out st d₀ ops old op (destDir ++ [c]))
      (fun _ _ => False) := by
  refine .act fun s s₁ hs hothers => .ret ?_
  rintro _ rfl
  have hs₁ := hs.others hothers
  cases hlink : s₁.disk.hardLink (destDir ++ [c]) (destDir ++ [name]) with
  | error => exact hs₁
  | ok d =>
    refine ⟨s₁.disk, d, hs₁.store, by rw [hs₁.landed], fun hfound => ?_⟩
    obtain ⟨t, i, ht, hi, hdir, hholds, hsafe, b, hb, hhas⟩ := hs₁.safe hfound
    obtain ⟨q, hloc, hnew, hget, hgrows⟩ := Disk.linkNew_ok ((Disk.hardLink_eq ht hi hdir).symm.trans hlink)
    have hne : q ≠ t := by
      rintro rfl
      rw [hnew] at hi
      cases hi
    have hstays : ∀ p j, d.get p = some j → p ≠ t →
        Landing.Stays ⟨op, destDir ++ [c], destDir ++ [name], s₁.disk, d⟩ p j :=
      fun p j hp hpt => ⟨hp, fun h => hpt (Except.ok.inj (ht.symm.trans h)).symm⟩
    have hleads : Landing.Leads ⟨op, destDir ++ [c], destDir ++ [name], s₁.disk, d⟩ := by
      obtain ⟨q', hq'⟩ := Disk.locate_beside_ok name hb
      have hsame : q' = q :=
        Except.ok.inj ((Disk.Grows.locate (fun p j hp => (hhas p j hp).1) hq').symm.trans hloc)
      refine ⟨b, q, i, hsame ▸ hq', hstays q i (by simp [hget]) hne, fun p j hp => ?_⟩
      exact hstays p j (hgrows p j (hhas p j hp).1) fun h => (hhas p j hp).2 (congrArg some h.symm)
    have hkept : d.Has (some t) (Landing.Stays ⟨op, destDir ++ [c], destDir ++ [name], s₁.disk, d⟩) :=
      fun p j hp => ⟨hp.1, fun h => hp.2 (ht.trans (congrArg Except.ok (Option.some.inj h)))⟩
    exact ⟨t, i, hgrows.locate ht, hgrows t i hi, hdir, hholds,
      hsafe.land rfl rfl hop ⟨q, i, hloc, hnew, hget, hholds⟩ hleads hkept hgrows, b, hb, hhas.grows hgrows⟩

/-- By induction on the attempts that are left. -/
theorem landAttempts_lands (root destDir : CompPath) (hop : op ∈ ops)
    (candidateBase : String) (hlive : op.Verified liveBytes) (old : List Landing)
    (left attempt : Nat) :
    Steps.Ensures Others (Shared.After st d₀ ops old)
      (landAttempts root op destDir candidateBase liveBytes left attempt)
      (fun dest s => ∃ tmp before after, s.After st d₀ ops (old ++ [⟨op, tmp, dest, before, after⟩]))
      (fun e s => (s.store = st ∧ (s.found = [] → s.Safe d₀ ops none)) ∧ LateError st op e) := by
  induction left generalizing attempt with
  | zero =>
    refine .fail fun s hs => ⟨⟨hs.1, hs.2.2⟩, by simp, ?_, by simp⟩
    rintro ⟨rel, reason, heq, -⟩
    cases heq
  | succ left ih =>
    let tmp := destDir ++ [tempNameFor (joinPath op.path) (Env.freshEntropy (joinPath op.path) attempt)]
    refine (buildCopy_out root hlive _ old).weaken (fun _ hs => hs) (fun _ _ hs => hs)
      (fun _ _ hs => hs.elim) |>.bind fun built => ?_
    cases built with
    | error e =>
      refine .of_fact fun hlate => ?_
      exact (unlinkTmp_after _ op old false).bind fun _ => .fail fun s hs => ⟨⟨hs.1, hs.2.2⟩, hlate⟩
    | ok =>
      refine (linkCopy_lands hop destDir _ _ old).weaken (fun _ hs => hs) (fun _ _ hs => hs)
        (fun _ _ hs => hs.elim) |>.bind fun linked => ?_
      cases linked with
      | ok =>
        refine .of_each fun s ⟨before, after, hs⟩ => ?_
        refine (unlinkTmp_after _ op _ true).weaken (fun s₁ heq => ?_) (fun _ _ hs => hs) (fun _ _ hs => hs)
          |>.bind fun _ => .ret fun s hs => ⟨tmp, before, after, hs⟩
        rw [heq]
        exact hs
      | error e =>
        cases e with
        | alreadyExists => exact (unlinkTmp_after _ op old true).bind fun _ => ih (attempt + 1)
        | _ =>
          exact (unlinkTmp_after _ op old true).bind fun _ => .fail fun s hs => ⟨⟨hs.1, hs.2.2⟩, lateError_io _ _ _ _⟩

theorem makeDestDir_after (destDir : CompPath) (op : QuarantineOp) (old : List Landing) :
    Steps.Ensures Others (Shared.After st d₀ ops old) (makeDestDir destDir)
      (fun _ => Shared.After st d₀ ops old)
      (fun e s => (s.store = st ∧ (s.found = [] → s.Safe d₀ ops none)) ∧ LateError st op e) := by
  refine .act fun s s₁ hs hothers => ?_
  have hs₁ := hs.others hothers
  cases hmade : Disk.createDirAll (destDir.length + 1) s₁.disk destDir with
  | ok =>
    refine .ret fun _ heq => ?_
    rw [heq]
    exact ⟨hs₁.1, hs₁.2.1, fun hfound => (hs₁.2.2 hfound).withDisk rfl fun _ hK =>
      hK.grows (Disk.createDirAll_grows hmade)⟩
  | error =>
    refine .fail fun _ heq => ?_
    rw [heq]
    exact ⟨⟨hs₁.1, hs₁.2.2⟩, lateError_io _ _ _ _⟩

theorem landCopyAt_lands (root : CompPath) (hop : op ∈ ops) (dest : CompPath)
    (hlive : op.Verified liveBytes) (old : List Landing) :
    Steps.Ensures Others (Shared.After st d₀ ops old) (landCopyAt root op dest liveBytes)
      (fun dest s => ∃ tmp before after, s.After st d₀ ops (old ++ [⟨op, tmp, dest, before, after⟩]))
      (fun e s => (s.store = st ∧ (s.found = [] → s.Safe d₀ ops none)) ∧ LateError st op e) :=
  (makeDestDir_after _ op old).bind fun _ => landAttempts_lands root _ hop _ hlive old _ _

end

/-! ## The whole run -/

variable {root : CompPath} {fuel : Disk → Nat} {fetcher : Option (Chunks → Store → Except String Store)}
  {plan : ActionPlan}

/-- Fetching comes first, before any copy. -/
theorem fetchFirst_choosing {s₀ : Shared} (hs₀ : s₀.landed = []) (ops : List QuarantineOp) :
    Steps.Ensures Others (· = s₀) (fetchFirst fetcher plan.fetch)
      (fun _ s => s.After (fetchOutcome fetcher plan.fetch s₀.store).2 s₀.disk ops [] ∧
        (fetchOutcome fetcher plan.fetch s₀.store).1 = .ok ())
      (fun _ s => s.After (fetchOutcome fetcher plan.fetch s₀.store).2 s₀.disk ops []) := by
  refine .act fun s s₁ hs hothers => ?_
  subst hs
  have hland : s₁.landed = [] := hothers.landed.trans hs₀
  have hs₁ : Shared.After (fetchOutcome fetcher plan.fetch s.store).2 s.disk ops []
      { s₁ with store := (fetchOutcome fetcher plan.fetch s₁.store).2 } := by
    refine ⟨?_, hland, fun _ => ⟨fun p i hp => ⟨hothers.disk p i hp, by simp⟩, fun l hl => ?_, ?_⟩⟩
    · dsimp only
      rw [hothers.store]
    · dsimp only at hl
      rw [hland] at hl
      cases hl
    · dsimp only
      rw [hland]
      exact .nil
  cases hfetch : (fetchOutcome fetcher plan.fetch s₁.store).1 with
  | ok =>
    rw [hothers.store] at hfetch
    exact .ret fun _ heq => ⟨heq ▸ hs₁, hfetch⟩
  | error => exact .fail fun _ heq => heq ▸ hs₁

theorem chooseCopies_choosing {st : Store} {d₀ : Disk} {ops : List QuarantineOp} (l : List QuarantineOp) :
    Steps.Ensures Others (Shared.After st d₀ ops []) (l.mapM (chooseCopy root fuel))
      (fun copies s => s.After st d₀ ops [] ∧ List.Forall₂ (fun op copy => op.Verified copy.2) l copies)
      (fun _ => Shared.After st d₀ ops []) := by
  refine Steps.Ensures.weaken (Steps.Ensures.mapM (X := fun _ => Shared.After st d₀ ops [])
    (I := fun done copies s => s.After st d₀ ops [] ∧
      List.Forall₂ (fun op copy => op.Verified copy.2) done copies) l ?_)
    (fun s hs => ⟨hs, .nil⟩) (fun _ _ hs => hs) (fun _ _ hs => hs)
  intro done op rest copies _
  refine .of_fact fun hdone => ?_
  refine (chooseCopy_choosing root fuel op).weaken (fun _ hs => hs) (fun copy s hs => ?_) (fun _ _ hs => hs)
  exact ⟨hs.1, rel_append hdone (.cons hs.2 .nil)⟩

/-- The run lemma, by induction on the operations. -/
theorem landCopies_lands {st : Store} {d₀ : Disk} {ops : List QuarantineOp}
    (l : List (QuarantineOp × CompPath × Option Bytes)) (hl : ∀ x ∈ l, x.1 ∈ ops ∧ x.1.Verified x.2.2) :
    Steps.Ensures Others (Shared.After st d₀ ops []) (l.mapM fun x => landCopyAt root x.1 x.2.1 x.2.2)
      (fun dests s => (s.store = st ∧ (s.found = [] → s.Safe d₀ ops none)) ∧ s.landed.map (·.op) = l.map (·.1) ∧
        s.landed.map (·.dest) = dests)
      (fun e s => (s.store = st ∧ (s.found = [] → s.Safe d₀ ops none)) ∧ ∃ op ∈ ops, LateError st op e) := by
  refine Steps.Ensures.weaken (Steps.Ensures.mapM
    (X := fun e s => (s.store = st ∧ (s.found = [] → s.Safe d₀ ops none)) ∧ ∃ op ∈ ops, LateError st op e)
    (I := fun done dests s => (s.store = st ∧ (s.found = [] → s.Safe d₀ ops none)) ∧
      s.landed.map (·.op) = done.map (·.1) ∧ s.landed.map (·.dest) = dests) l ?_)
    (fun s hs => ⟨⟨hs.1, hs.2.2⟩, by simp [hs.2.1]⟩) (fun _ _ hs => hs) (fun _ _ hs => hs)
  intro done x rest dests hdone
  refine .of_each fun s ⟨⟨hstore, hsafe⟩, hops, hdests⟩ => ?_
  obtain ⟨hop, hlive⟩ := hl x (by simp [hdone])
  refine (landCopyAt_lands root hop x.2.1 hlive s.landed).weaken (fun s₁ heq => ?_)
    (fun dest s' hs' => ?_) (fun e s' hs' => ⟨hs'.1, x.1, hop, hs'.2⟩)
  · rw [heq]
    exact ⟨hstore, rfl, hsafe⟩
  obtain ⟨tmp, before, after, hstore', hlanded, hsafe'⟩ := hs'
  refine ⟨⟨hstore', hsafe'⟩, ?_, ?_⟩
  · rw [hlanded, map_append, hops]
    simp
  · rw [hlanded, map_append, hdests]
    simp

theorem quarantineLosers_ensures {s₀ : Shared} (hs₀ : s₀.landed = []) {st : Store}
    (hst : (fetchOutcome fetcher plan.fetch s₀.store).2 = st) :
    Steps.Ensures Others (· = s₀) (quarantineLosers root fuel fetcher plan)
      (fun dests s => (s.store = st ∧ (s.found = [] → s.Safe s₀.disk plan.quarantine none)) ∧
        s.landed.map (·.op) = plan.quarantine ∧ s.landed.map (·.dest) = dests)
      (fun e s => (s.store = st ∧ (s.found = [] → s.Safe s₀.disk plan.quarantine none)) ∧ (s.landed = [] ∨
        ((fetchOutcome fetcher plan.fetch s₀.store).1 = .ok () ∧ ∃ op ∈ plan.quarantine, LateError st op e))) := by
  subst hst
  refine (fetchFirst_choosing hs₀ plan.quarantine).weaken (fun _ hs => hs) (fun _ _ hs => hs)
    (fun _ _ hs => ⟨⟨hs.1, hs.2.2⟩, .inl hs.2.1⟩) |>.bind fun _ => .of_fact fun hfetch => ?_
  refine (chooseCopies_choosing plan.quarantine).weaken (fun _ hs => hs) (fun _ _ hs => hs)
    (fun _ _ hs => ⟨⟨hs.1, hs.2.2⟩, .inl hs.2.1⟩) |>.bind fun copies => .of_fact fun hverified => ?_
  obtain ⟨hlength, hverified⟩ := List.forall₂_iff_zip.1 hverified
  refine (landCopies_lands (plan.quarantine.zip copies) fun x hx => ⟨(of_mem_zip hx).1, hverified hx⟩).weaken
    (fun _ hs => hs) (fun dests s hs => ?_) (fun e s hs => ⟨hs.1, .inr ⟨hfetch, hs.2⟩⟩)
  rwa [map_fst_zip (Nat.le_of_eq hlength)] at hs

def KeepsBlobs (fetcher : Option (Chunks → Store → Except String Store)) : Prop :=
  ∀ fetch, fetcher = some fetch → ∀ want st st', fetch want st = .ok st' →
    ∀ id, (st.get .dataChunk id).isOk → (st'.get .dataChunk id).isOk

/-- A fetch that succeeds has every blob that was wanted. -/
theorem fetchOutcome_ok (hkeeps : KeepsBlobs fetcher) {want : Chunks} {st : Store}
    (h : (fetchOutcome fetcher want st).1 = .ok ()) (id : BlobId)
    (hid : id ∈ want.map (·.1) ∨ (st.get .dataChunk id).isOk) :
    ((fetchOutcome fetcher want st).2.get .dataChunk id).isOk := by
  have hsplit : (st.get .dataChunk id).isOk ∨ id ∈ (missingChunks st want).map (·.1) := by
    rcases hid with hid | hid
    · obtain ⟨c, hc, rfl⟩ := mem_map.1 hid
      by_cases hok : (st.get .dataChunk c.1).isOk
      · exact .inl hok
      · exact .inr (mem_map_of_mem (mem_filter.2 ⟨hc, by simpa using hok⟩))
    · exact .inl hid
  unfold fetchOutcome at h ⊢
  by_cases hnone : missingChunks st want = []
  · rw [if_pos hnone]
    rw [hnone] at hsplit
    exact hsplit.resolve_right (by simp)
  rw [if_neg hnone] at h ⊢
  cases fetcher with
  | none => cases h
  | some fetch =>
    dsimp only at h ⊢
    cases hrun : fetch (missingChunks st want) st with
    | error =>
      rw [hrun] at h
      cases h
    | ok st' =>
      rw [hrun] at h
      dsimp only at h ⊢
      split at h
      · rename_i hleft
        rcases hsplit with hok | hmissing
        · exact hkeeps fetch rfl _ _ _ hrun id hok
        obtain ⟨c, hc, rfl⟩ := mem_map.1 hmissing
        by_contra hnot
        have hin : c ∈ missingChunks st' (missingChunks st want) :=
          mem_filter.2 ⟨hc, by simpa using hnot⟩
        rw [hleft] at hin
        cases hin
      · cases h

theorem quarantineLosers_store {s s' : Shared} (hs : s.landed = []) {r : Except ConvergenceError (List CompPath)}
    (hrun : Steps.Runs Others (quarantineLosers root fuel fetcher plan) s r s') :
    s'.store = (fetchOutcome fetcher plan.fetch s.store).2 := by
  have hend := quarantineLosers_ensures hs rfl s r s' rfl hrun
  cases r with
  | ok | error => exact hend.1.1

theorem Shared.Safe.grows {d₀ : Disk} {ops : List QuarantineOp} {out : Option CompPath} {s : Shared}
    (h : s.Safe d₀ ops out) : d₀.Grows s.disk := fun p i hp => (h.grown p i hp).1

/-- Conflict copies never overwrite anything, whatever others create meanwhile, as long as no temporary name is
taken. What was there before is there afterwards. Each copy came to a name that was free when it landed, holds
the loser's bytes or link target and has a name of its own; what was there when it landed stays, its temporary
entry apart. A run that returns has landed one copy for each operation. A run that fails for missing blobs, or
because a live loser is not what was expected, has written no copy. -/
theorem quarantine_never_overwrites {s s' : Shared} (hs : s.landed = [])
    {r : Except ConvergenceError (List CompPath)}
    (hrun : Steps.Runs Others (quarantineLosers root fuel fetcher plan) s r s') (hfound : s'.found = []) :
    s.disk.Grows s'.disk ∧
    (∀ l ∈ s'.landed, l.op ∈ plan.quarantine ∧ l.Lands ∧ ∀ p i, l.Stays p i → s'.disk.get p = some i) ∧
    (s'.landed.Pairwise fun l l' => l.dest ≠ l'.dest) ∧
    (∀ dests, r = .ok dests → s'.landed.map (·.op) = plan.quarantine ∧ s'.landed.map (·.dest) = dests) ∧
    (∀ n, r = .error (.missingBlobs n) → s'.landed = []) ∧
    (∀ e, r = .error e → e.LiveMismatch → s'.landed = []) ∧
    (KeepsBlobs fetcher → (∀ op ∈ plan.quarantine, ∀ c ∈ op.content.storeChunks,
        c.1 ∈ plan.fetch.map (·.1) ∨ (s.store.get .dataChunk c.1).isOk) →
      ∀ e, r = .error (.store e) → s'.landed = []) := by
  have hend := quarantineLosers_ensures hs rfl s r s' rfl hrun
  have hlanded : s'.Safe s.disk plan.quarantine none →
      ∀ l ∈ s'.landed, l.op ∈ plan.quarantine ∧ l.Lands ∧ ∀ p i, l.Stays p i → s'.disk.get p = some i := by
    intro hsafe l hl
    obtain ⟨hop, hlands, -, hstays⟩ := hsafe.landed l hl
    exact ⟨hop, hlands, fun p i hp => (hstays p i hp).1⟩
  cases r with
  | ok =>
    obtain ⟨⟨-, hsafe⟩, hops, hdests⟩ := hend
    refine ⟨(hsafe hfound).grows, hlanded (hsafe hfound), (hsafe hfound).distinct, fun dests' heq => ?_, ?_, ?_, ?_⟩
    · cases heq
      exact ⟨hops, hdests⟩
    · intro n heq
      cases heq
    · intro e heq
      cases heq
    · intro _ _ e heq
      cases heq
  | error e =>
    obtain ⟨⟨-, hsafe⟩, hlate⟩ := hend
    refine ⟨(hsafe hfound).grows, hlanded (hsafe hfound), (hsafe hfound).distinct, fun dests heq => ?_, ?_, ?_, ?_⟩
    · cases heq
    · rintro n heq
      cases heq
      exact hlate.resolve_right fun ⟨_, op, _, h⟩ => h.notMissing n rfl
    · rintro e heq hmismatch
      cases heq
      exact hlate.resolve_right fun ⟨_, op, _, h⟩ => h.notMismatch hmismatch
    · rintro hkeeps hstored e heq
      cases heq
      refine hlate.resolve_right fun ⟨hfetch, op, hop, h⟩ => h.store (fun c hc => ?_) e rfl
      exact fetchOutcome_ok hkeeps hfetch c.1 (hstored op hop c hc)

end

namespace Sample

/-- Two losers of one path and one time: both copies start from the same name. -/
def twoLinks : ActionPlan where
  materialize := []
  quarantine := ["x", "y"].map fun target =>
    ⟨["a"], ⟨List.replicate 32 1, by decide⟩, 0, 0, false, .fromStore .symlink false 0 0 [] (some target)⟩
  send := []
  fetch := []
  conflicts := []
  hasLocalWins := false

def idle : Shared := ⟨Disk.empty, Store.empty, [], []⟩

/-- The run returns, and has found nothing under its temporary names. -/
def Unclashed : EStateM.Result ConvergenceError Shared (List CompPath) → Bool
  | .ok _ s => s.found = []
  | .error .. => false

end Sample

open Sample in
/-- The second copy finds the name it has chosen taken by the first one. -/
theorem quarantine_never_overwrites_twoLinks : ∃ dests s',
    Steps.Runs Others (quarantineLosers [] nameBound none twoLinks) idle (.ok dests) s' ∧
      s'.landed.map (·.op) = twoLinks.quarantine ∧ s'.landed.Pairwise (fun l l' => l.dest ≠ l'.dest) ∧
      ∀ l ∈ s'.landed, l.Lands := by
  have hok : Unclashed ((quarantineLosers [] nameBound none twoLinks).alone idle) = true := by decide +kernel
  have hrun := Steps.runs_alone Others.refl (quarantineLosers [] nameBound none twoLinks) idle
  cases halone : (quarantineLosers [] nameBound none twoLinks).alone idle with
  | error =>
    rw [halone] at hok
    cases hok
  | ok dests s' =>
    rw [halone] at hrun hok
    obtain ⟨-, hlanded, hdistinct, hreturned, -⟩ := quarantine_never_overwrites rfl hrun (of_decide_eq_true hok)
    exact ⟨dests, s', hrun, (hreturned dests rfl).1, hdistinct, fun l hl => (hlanded l hl).2.1⟩

namespace Clash

/-- A name of 181 bytes: with `.ferry.`, `.tmp.` and the entropy it would be longer than 200. -/
def longName : String := String.ofList (List.replicate 181 'n')

/-- All hashes are one, so that the temporary name is soon known. -/
scoped instance clashEnv : SyncEnv := { Sample.sampleSyncEnv with blake3 := fun _ => zeroId }

/-- A link under a long name has lost. -/
def longLoser : ActionPlan :=
  { Sample.twoLinks with quarantine :=
      [⟨[longName], zeroId, 0, 0, false, .fromStore .symlink false 0 0 [] (some "x")⟩] }

/-- Somebody's file stands under the hashed temporary name. -/
def clashing : Shared :=
  ⟨Disk.empty.withEntry [hashedTempFileName longName] (.file [1] false 0), Store.empty, [], []⟩

/-- The run has ended without the file. -/
def Lost : EStateM.Result ConvergenceError Shared (List CompPath) → Bool
  | .ok _ s | .error _ s => s.disk.get [hashedTempFileName longName] = none

theorem exists_runs_of_lost {p : CopyM (List CompPath)} (h : Lost (p.alone clashing) = true) :
    ∃ r s', Steps.Runs Others p clashing r s' ∧ s'.disk.get [hashedTempFileName longName] = none := by
  have hrun := Steps.runs_alone Others.refl p clashing
  cases halone : p.alone clashing with
  | error e s' | ok e s' =>
    rw [halone] at hrun h
    exact ⟨_, s', hrun, of_decide_eq_true h⟩

end Clash

open Clash in
/-- The link cannot be made under the temporary name, and what stands there is deleted. -/
theorem quarantine_deletes_foreign_file : ∃ r s',
    Steps.Runs Others (quarantineLosers [] nameBound none longLoser) clashing r s' ∧
      ¬ clashing.disk.Grows s'.disk := by
  obtain ⟨r, s', hrun, hlost⟩ := exists_runs_of_lost (p := quarantineLosers [] nameBound none longLoser)
    (by decide +kernel)
  have hthere : clashing.disk.get [hashedTempFileName longName] = some (.file [1] false 0) := by decide +kernel
  refine ⟨r, s', hrun, fun hgrows => ?_⟩
  have hgone := hgrows _ _ hthere
  rw [hlost] at hgone
  cases hgone

end Ferry
