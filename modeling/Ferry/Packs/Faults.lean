import Ferry.Packs.Durable

/-! # Calls whose writes fail

`put_blob` and `flush` take packs out of the pools before they are written. A
write that fails ends the call: the pack that was being sealed and those behind
it are gone from memory. A pack whose file was written but whose rows were not is
known to this store and to no other. A write that fails leaves no file: that
`sync_dir` fails behind the rename, when the file is there, is not one of the
faults.
-/

namespace Ferry

open Lib List

/-- The write that fails while a pack is being sealed: its file, the index file with its rows, or the
table that a compaction writes. -/
inductive SealFault where
  | pack
  | index
  | compaction
  deriving DecidableEq

/-- The fault of a call: which of its packs is concerned, and which write. -/
abbrev CallFault := Option (Nat × SealFault)

def CallFault.now : CallFault → Option SealFault
  | some (0, fault) => some fault
  | _ => none

/-- The fault as those behind the next pack see it. -/
def CallFault.later : CallFault → CallFault
  | some (n + 1, fault) => some (n, fault)
  | _ => none

variable {now : Option SealFault}

section
variable [PackEnv]

/-! ## The calls -/

/-- `?` on a write. -/
def unlessFails (fails : Bool) : BlobM Unit := if fails then throw (.pack .io) else pure ()

def writeIndexFileIo (fails : Bool) (entries : List IndexEntry) : BlobM Nat := do
  let salt ← drawSalt
  let file ← liftAs (fun e => .index (.crypto e)) (sealIndexContainer (← get).fmk salt entries)
  let n ← allocIndexNumber
  unlessFails fails
  modify fun s => { s with disk := { s.disk with index := s.disk.index.insert n file } }
  return n

def compactIndexIo (fails : Bool) : BlobM Unit := do
  let s ← get
  let n ← writeIndexFileIo fails (LocationTable.iterSorted s.locations)
  modify fun t => { t with disk := t.disk.dropIndex (s.disk.index.keys.filter (· ≠ n)) }

def appendIndexFileIo (fault : Option SealFault) (entries : List IndexEntry) : BlobM Unit := do
  let _ ← writeIndexFileIo (fault = some .index) entries
  if indexCompactionThreshold ≤ (← get).disk.index.keys.length then
    compactIndexIo (fault = some .compaction)

def sealToDiskIo (fault : Option SealFault) (sp : StagingPack) : BlobM Unit := do
  let file ← liftAs (fun e => .pack (.footerCrypto e))
    (sealPackBytes sp.kind (← get).fmk sp.salt sp.body sp.entries)
  unlessFails (fault = some .pack)
  let name := packNameOf file
  modify fun s => { s with disk := { s.disk with packs := s.disk.packs.insert name file } }
  notePackWritten name
  let entries := sp.entries.map (FooterEntry.located name)
  modify fun s => { s with locations := s.locations.merge entries }
  appendIndexFileIo fault entries

/-- The packs that a call has taken out of the pools, one after the other. -/
def sealAllIo : CallFault → List StagingPack → BlobM Unit
  | _, [] => return ()
  | fault, sp :: rest => do
    sealToDiskIo fault.now sp
    sealAllIo fault.later rest

def putBlobIo (fault : CallFault) (kind : BlobKind) (bytes : Bytes) : BlobM BlobId := do
  if bytes = [] then throw .emptyBlob
  else do
    let id := Env.blake3 bytes
    if ← anyExists ((← get).locations.candidates kind id) then return id
    else if (← get).staging.contains kind id then return id
    else do
      let full ← offerBlob kind id bytes
      sealAllIo fault full
      return id

def flushIo (fault : CallFault) : BlobM Unit := do
  let s ← get
  modify fun s => { s with staging := .new }
  sealAllIo fault s.staging.drainAll

/-! ## Without a fault -/

theorem sealToDiskIo_none : sealToDiskIo none = sealToDisk := by
  rfl

theorem sealAllIo_none (packs : List StagingPack) : sealAllIo none packs = packs.forM sealToDisk := by
  induction packs with
  | nil => rfl
  | cons sp packs ih =>
    rw [sealAllIo, show CallFault.now none = none from rfl, show CallFault.later none = none from rfl, ih,
      sealToDiskIo_none, Lib.forM_cons]

theorem flushIo_none : flushIo none = flush := by
  simp only [flushIo, sealAllIo_none]
  rfl

/-! ## What becomes of a pack -/

/-- Lost; known to this store alone; in an index file; in the table of a compaction. -/
inductive Fate where
  | dropped
  | stranded
  | indexed
  | compacted
  deriving DecidableEq

/-- The fate of a pack that is sealed in a directory with `count` index files. -/
def fateOf (count : Nat) : Option SealFault → Fate
  | some .pack => .dropped
  | some .index => .stranded
  | some .compaction => .indexed
  | none => if count + 1 < indexCompactionThreshold then .indexed else .compacted

/-- The call ends with an error at this pack. -/
def stops (count : Nat) : Option SealFault → Bool
  | none => false
  | some .compaction => indexCompactionThreshold ≤ count + 1
  | some _ => true

omit [PackEnv] in
theorem fateOf_eq_dropped {count : Nat} :
    fateOf count now = .dropped ↔ now = some .pack := by
  rcases now with _ | (_ | _ | _)
  · by_cases hfull : count + 1 < indexCompactionThreshold <;> simp [fateOf, hfull]
  all_goals simp [fateOf]

omit [PackEnv] in
theorem fateOf_of_not_stops {count : Nat} (h : stops count now = false) :
    fateOf count now = .indexed ∨ fateOf count now = .compacted := by
  rcases now with _ | (_ | _ | _)
  · by_cases hfull : count + 1 < indexCompactionThreshold <;> simp [fateOf, hfull]
  · cases h
  · cases h
  · exact .inl rfl

omit [PackEnv] in
theorem fateOf_of_lt {count : Nat} (hpack : now ≠ some .pack)
    (hindex : now ≠ some .index) (hfull : count + 1 < indexCompactionThreshold) :
    stops count now = false ∧ fateOf count now = .indexed := by
  rcases now with _ | (_ | _ | _)
  · exact ⟨rfl, if_pos hfull⟩
  · exact absurd rfl hpack
  · exact absurd rfl hindex
  · exact ⟨decide_eq_false (Nat.not_le.2 hfull), rfl⟩

/-- The index files that there are once a pack was sealed. -/
def countAfter (count : Nat) : Nat := if count + 1 < indexCompactionThreshold then count + 1 else 1

def fates (count : Nat) (fault : CallFault) : List StagingPack → List (StagingPack × Fate)
  | [] => []
  | sp :: rest => (sp, fateOf count fault.now) ::
      if stops count fault.now then rest.map fun sp => (sp, .dropped)
      else fates (countAfter count) fault.later rest

omit [PackEnv] in
theorem map_fst_fates (packs : List StagingPack) : ∀ (count : Nat) (fault : CallFault),
    (fates count fault packs).map Prod.fst = packs := by
  induction packs with
  | nil => exact fun _ _ => rfl
  | cons sp rest ih =>
    intro count fault
    rw [fates, map_cons]
    congr 1
    split
    · simp [Function.comp_def]
    · exact ih _ _

end

/-! ## Stores that know what they have -/

section
variable [PackEnv]

/-- What holds of a store between its calls, as far as packs and tables are concerned: the first location
of each blob that it knows can be read, and the index files say the truth and nothing that it does not
know. -/
structure PackStore.Tracked (B F : Set Bytes) (s : PackStore) : Prop where
  backs : s.disk.Backs s.fmk B s.locations
  intact : s.disk.Intact s.fmk B
  listed : ∀ kind id, s.disk.Indexed s.fmk kind id → s.locations.Has kind id
  numbered : s.nextIndex = 0 ∨ ∀ n ∈ s.disk.index, n < s.nextIndex
  files : s.disk.FilesIn F
  present : ∀ e ∈ s.locations, s.present e.pack

/-- `already_present` of `put_blob`. -/
def PackStore.alreadyPresent (s : PackStore) (kind : BlobKind) (id : BlobId) : Bool :=
  (s.locations.candidates kind id).any (fun e => s.present e.pack) || s.staging.contains kind id

omit [PackEnv] in
theorem PackStore.alreadyPresent_iff {s : PackStore} (h : ∀ e ∈ s.locations, s.present e.pack) {kind : BlobKind}
    {id : BlobId} : s.alreadyPresent kind id ↔ s.locations.Has kind id ∨ s.staging.contains kind id := by
  have hany : (s.locations.candidates kind id).any (fun e => s.present e.pack) ↔ s.locations.Has kind id := by
    rw [any_eq_true]
    constructor
    · rintro ⟨e, he, -⟩
      obtain ⟨hin, hkey⟩ := mem_filter.1 he
      exact ⟨e, hin, by simpa using hkey⟩
    · rintro ⟨e, hin, hkey⟩
      exact ⟨e, mem_filter.2 ⟨hin, by simpa using hkey⟩, h e hin⟩
  rw [alreadyPresent, Bool.or_eq_true, hany]

def leaves {α : Type} (m : BlobM α) (s : PackStore) : PackStore :=
  match m s with
  | .ok _ s' => s'
  | .error _ s' => s'

/-- How the blobs that are known and the blobs that are listed change when packs meet their fates. -/
structure PackStore.Outcome (l : List (StagingPack × Fate)) (s s' : PackStore) : Prop where
  staging : s'.staging = s.staging
  fmk : s'.fmk = s.fmk
  target : s'.sealTarget = s.sealTarget
  located : ∀ kind id, s'.locations.Has kind id ↔
    s.locations.Has kind id ∨ ∃ p ∈ l, p.2 ≠ .dropped ∧ p.1.Has kind id
  indexed : ∀ kind id, s'.disk.Indexed s'.fmk kind id ↔ s.disk.Indexed s.fmk kind id ∨
    (∃ p ∈ l, (p.2 = .indexed ∨ p.2 = .compacted) ∧ p.1.Has kind id) ∨
    ((∃ p ∈ l, p.2 = .compacted) ∧ s.locations.Has kind id)

namespace PackStore

variable {B F : Set Bytes} {s s' : PackStore} {l : List (StagingPack × Fate)}

theorem outcome_nil (s : PackStore) : Outcome [] s s where
  staging := rfl
  fmk := rfl
  target := rfl
  located kind id := by simp
  indexed kind id := by simp

theorem outcome_dropped (packs : List StagingPack) (s : PackStore) :
    Outcome (packs.map fun sp => (sp, .dropped)) s s where
  staging := rfl
  fmk := rfl
  target := rfl
  located kind id := by simp
  indexed kind id := by simp

theorem Outcome.cons {s₁ : PackStore} {sp : StagingPack} {fate : Fate} (h : Outcome [(sp, fate)] s s₁)
    (hfate : fate = .indexed ∨ fate = .compacted) (h' : Outcome l s₁ s') : Outcome ((sp, fate) :: l) s s' where
  staging := h'.staging.trans h.staging
  fmk := h'.fmk.trans h.fmk
  target := h'.target.trans h.target
  located kind id := by
    rw [h'.located, h.located]
    simp [or_assoc]
  indexed kind id := by
    rw [h'.indexed, h.indexed, h.located]
    simp only [exists_mem_cons_iff]
    grind

theorem Outcome.stopped {sp : StagingPack} {fate : Fate} (h : Outcome [(sp, fate)] s s')
    (rest : List StagingPack) : Outcome ((sp, fate) :: rest.map fun sp => (sp, .dropped)) s s' where
  staging := h.staging
  fmk := h.fmk
  target := h.target
  located kind id := by
    rw [h.located]
    simp
  indexed kind id := by
    rw [h.indexed]
    simp

end PackStore

/-! ## Writing an index file -/

def PackStore.nextNumber (s : PackStore) : Nat :=
  if s.nextIndex = 0 then nextIndexNumber s.disk.index else s.nextIndex

omit [PackEnv] in
theorem lt_nextNumber {s : PackStore} (h : s.nextIndex = 0 ∨ ∀ n ∈ s.disk.index, n < s.nextIndex) {n : Nat}
    (hn : n ∈ s.disk.index) : n < s.nextNumber := by
  have hmax : ∀ (l : List Nat) (a : Nat), a ≤ l.foldl max a ∧ ∀ m ∈ l, m ≤ l.foldl max a := by
    intro l
    induction l with
    | nil => simp
    | cons m l ih =>
      intro a
      obtain ⟨hle, hall⟩ := ih (max a m)
      refine ⟨(le_max_left a m).trans hle, forall_mem_cons.2 ⟨(le_max_right a m).trans hle, hall⟩⟩
  unfold PackStore.nextNumber
  split
  · exact Nat.lt_succ_of_le ((hmax _ 0).2 n (AList.mem_keys.1 hn))
  · rename_i hne
    exact h.resolve_left hne n hn

variable {entries : List IndexEntry}

theorem run_writeIndexFileIo {s : PackStore} {file : Bytes}
    (hseal : sealIndexContainer s.fmk (PackEnv.salt s.draw) entries = .ok file) (fails : Bool) :
    writeIndexFileIo fails entries s =
      if fails then .error (.pack .io) { s with draw := s.draw + 1, nextIndex := s.nextNumber + 1 }
      else .ok s.nextNumber { s with draw := s.draw + 1, nextIndex := s.nextNumber + 1
                                     disk := s.disk.withIndex s.nextNumber file } := by
  unfold writeIndexFileIo
  rw [run_bind_ok (show drawSalt s = .ok (PackEnv.salt s.draw) { s with draw := s.draw + 1 } from rfl),
    run_bind_ok (run_get _), hseal]
  cases fails <;> rfl

theorem sealIndexContainer_ok (hseals : CipherSeals)
    (hsize : sealedTableLen entries < 2 ^ 32) (fmk : ByteArr 32) (salt : ByteArr 16) :
    ∃ file, sealIndexContainer fmk salt entries = .ok file := by
  have hlen : (tablePlain entries).length < 2 ^ 32 := by
    have := length_tablePlain entries
    omega
  obtain ⟨ct, hct⟩ := hseals (deriveIndexKey fmk salt) footerNonce (footerAad (writeHeader .index) .index) _ hlen
  exact ⟨_, bind_eq_ok.2 ⟨ct, hct, rfl⟩⟩

omit [PackEnv] in
theorem sealedTableLen_iterSorted {t : LocationTable} (h : 81 * t.length + 20 < 2 ^ 32) :
    sealedTableLen t.iterSorted < 2 ^ 32 := by
  have hrows : (tableRows t.iterSorted).length ≤ t.length := by
    refine (destutter_sublist _ _).length_le.trans ?_
    rw [sortEntries, length_insertionSort]
    refine (destutter_sublist _ _).length_le.trans ?_
    rw [sortEntries, length_insertionSort]
  unfold sealedTableLen
  omega

namespace PackStore

variable {B F : Set Bytes} {s : PackStore} (h : s.Tracked B F)
include h

theorem Tracked.skipped (draw : Nat) :
    Tracked B F { s with draw := draw, nextIndex := s.nextNumber + 1 } where
  backs := h.backs
  intact := h.intact
  listed := h.listed
  numbered := .inr fun _ hn => Nat.lt_succ_of_lt (lt_nextNumber h.numbered hn)
  files := h.files
  present := h.present

theorem Tracked.not_mem_index : s.nextNumber ∉ s.disk.index := fun hmem =>
  absurd (lt_nextNumber h.numbered hmem) (Nat.lt_irrefl _)

theorem Tracked.written (laws : CipherLaws)
    (hbacks : s.disk.Backs s.fmk B entries) (hsize : sealedTableLen entries < 2 ^ 32)
    (hknown : ∀ kind id, LocationTable.Has entries kind id → s.locations.Has kind id)
    {salt : ByteArr 16} {file : Bytes} (hseal : sealIndexContainer s.fmk salt entries = .ok file) (draw : Nat) :
    Tracked B F { s with
      draw := draw, nextIndex := s.nextNumber + 1, disk := s.disk.withIndex s.nextNumber file } := by
  obtain ⟨hintact, hindexed⟩ := h.intact.withIndex laws hbacks hsize hseal h.not_mem_index
  refine ⟨⟨h.backs.typed, h.backs.holds⟩, hintact, fun kind id hin => ?_, .inr fun n hn => ?_, h.files, h.present⟩
  · exact ((hindexed kind id).1 hin).elim (h.listed kind id) (hknown kind id)
  · rcases (AList.mem_insert _).1 hn with rfl | hn
    · exact Nat.lt_succ_self _
    · exact Nat.lt_succ_of_lt (lt_nextNumber h.numbered hn)

theorem Tracked.compacted (laws : CipherLaws) (hsize : 81 * s.locations.length + 20 < 2 ^ 32)
    {salt : ByteArr 16} {file : Bytes} (hseal : sealIndexContainer s.fmk salt s.locations.iterSorted = .ok file)
    (draw : Nat) :
    let s' := { s with
      draw := draw, nextIndex := s.nextNumber + 1
      disk := (s.disk.withIndex s.nextNumber file).dropIndex (s.disk.index.keys.filter (· ≠ s.nextNumber)) }
    s'.Tracked B F ∧ s'.disk.index.keys.length = 1 ∧
      ∀ kind id, s'.disk.Indexed s.fmk kind id ↔ s.locations.Has kind id := by
  intro s'
  have hentries : s'.disk.index.entries = [⟨s.nextNumber, file⟩] := entries_dropIndex s.disk s.nextNumber file
  have hkeys : s'.disk.index.keys = [s.nextNumber] := by rw [AList.keys, hentries]; rfl
  have hbacks : s'.disk.Backs s.fmk B s.locations.iterSorted := ⟨h.backs.iterSorted.typed, h.backs.iterSorted.holds⟩
  obtain ⟨hintact, hindexed⟩ := PackDisk.intact_of_single laws hbacks (sealedTableLen_iterSorted hsize) hseal hentries
  have hhas : ∀ kind id, s'.disk.Indexed s.fmk kind id ↔ s.locations.Has kind id := fun kind id =>
    (hindexed kind id).trans LocationTable.has_iterSorted
  refine ⟨⟨⟨h.backs.typed, h.backs.holds⟩, hintact, fun kind id => (hhas kind id).1, .inr fun n hn => ?_,
    h.files, h.present⟩, by rw [hkeys]; rfl, hhas⟩
  rw [AList.mem_keys, hkeys, mem_singleton] at hn
  rw [hn]
  exact Nat.lt_succ_self _

end PackStore

omit [PackEnv] in
theorem length_keys_withIndex {d : PackDisk} {n : Nat} (hnew : n ∉ d.index) (file : Bytes) :
    (d.withIndex n file).index.keys.length = d.index.keys.length + 1 := by
  rw [PackDisk.withIndex, AList.keys, AList.entries_insert_of_notMem hnew]
  rfl

/-- Writing the rows of a pack, with the compaction it may set off, and any of the writes failing. -/
theorem appendIndexFileIo_spec {B F : Set Bytes} {s : PackStore} (h : s.Tracked B F) (laws : CipherLaws)
    (hseals : CipherSeals) (hbacks : s.disk.Backs s.fmk B entries)
    (hentries : sealedTableLen entries < 2 ^ 32)
    (hknown : ∀ kind id, LocationTable.Has entries kind id → s.locations.Has kind id)
    (hsize : 81 * s.locations.length + 20 < 2 ^ 32) (hnow : now ≠ some .pack) :
    ∃ s', (if stops s.disk.index.keys.length now then ∃ e, appendIndexFileIo now entries s = .error e s'
        else appendIndexFileIo now entries s = .ok () s' ∧
          s'.disk.index.keys.length = countAfter s.disk.index.keys.length) ∧
      s.Reindexed s' ∧ s'.Tracked B F ∧ ∀ kind id, s'.disk.Indexed s.fmk kind id ↔
        s.disk.Indexed s.fmk kind id ∨
          (fateOf s.disk.index.keys.length now ≠ .stranded ∧ LocationTable.Has entries kind id) ∨
          (fateOf s.disk.index.keys.length now = .compacted ∧ s.locations.Has kind id) := by
  obtain ⟨file, hfile⟩ := sealIndexContainer_ok hseals hentries s.fmk (PackEnv.salt s.draw)
  have hwrite := run_writeIndexFileIo hfile
  unfold appendIndexFileIo
  by_cases hindex : now = some .index
  · subst hindex
    rw [decide_eq_true (rfl : some SealFault.index = some .index), run_bind_error (hwrite true)]
    exact ⟨_, ⟨_, rfl⟩, ⟨_, _, _, rfl⟩, h.skipped _, by simp [fateOf]⟩
  have hwritten := h.written laws hbacks hentries hknown hfile (s.draw + 1)
  have hindexed := (h.intact.withIndex laws hbacks hentries hfile h.not_mem_index).2
  have hcount := length_keys_withIndex h.not_mem_index file
  have hfalse : decide (now = some .index) = false := decide_eq_false hindex
  rw [hfalse, run_bind_ok (hwrite false), run_bind_ok (run_get _)]
  by_cases hfull : s.disk.index.keys.length + 1 < indexCompactionThreshold
  · rw [if_neg (by dsimp only; omega)]
    obtain ⟨hstops, hfate⟩ := fateOf_of_lt hnow hindex hfull
    refine ⟨_, ?_, ⟨_, _, _, rfl⟩, hwritten, fun kind id => (hindexed kind id).trans (by simp [hfate])⟩
    rw [hstops]
    exact ⟨rfl, by rw [countAfter, if_pos hfull]; exact hcount⟩
  rw [if_pos (by dsimp only; omega)]
  have hsealed := sealIndexContainer_ok hseals (sealedTableLen_iterSorted hsize) s.fmk
    (PackEnv.salt (s.draw + 1))
  obtain ⟨table, htable⟩ := hsealed
  unfold compactIndexIo
  rw [run_bind_ok (run_get _)]
  by_cases hcompaction : now = some .compaction
  · subst hcompaction
    have hstops : stops s.disk.index.keys.length (some .compaction) = true :=
      decide_eq_true (Nat.le_of_not_lt hfull)
    rw [decide_eq_true (rfl : some SealFault.compaction = some .compaction),
      run_bind_error (run_writeIndexFileIo htable true)]
    refine ⟨_, ?_, ⟨_, _, _, rfl⟩, hwritten.skipped (s.draw + 1 + 1), fun kind id =>
      (hindexed kind id).trans (by simp [fateOf])⟩
    rw [if_pos hstops]
    exact ⟨_, rfl⟩
  · obtain rfl : now = none := by
      rcases now with _ | (_ | _ | _)
      · rfl
      · exact absurd rfl hnow
      · exact absurd rfl hindex
      · exact absurd rfl hcompaction
    obtain ⟨htracked, hone, hhas⟩ := hwritten.compacted laws hsize htable (s.draw + 1 + 1)
    rw [show decide (none = some SealFault.compaction) = false from rfl,
      run_bind_ok (run_writeIndexFileIo htable false)]
    refine ⟨_, ⟨rfl, ?_⟩, ⟨_, _, _, rfl⟩, htracked, fun kind id => (hhas kind id).trans ?_⟩
    · rw [countAfter, if_neg hfull]
      exact hone
    · rw [fateOf, if_neg hfull]
      have hlisted := h.listed kind id
      simp only [ne_eq]
      tauto

/-! ## Sealing packs -/

theorem keeps_reindexed_writeIndexFileIo {s₀ : PackStore} (fails : Bool) (entries : List IndexEntry) :
    Keeps s₀.Reindexed (writeIndexFileIo fails entries) := by
  refine .bind ?_ fun salt => .get_bind fun s => .bind (keeps_liftAs _ _) fun file => .bind ?_ fun n =>
    .bind ?_ fun _ => .bind (keeps_reindexed_modify fun s => ⟨_, _, _, rfl⟩) fun _ => .pure n
  · exact .get_bind fun s => .bind (keeps_reindexed_modify fun s => ⟨_, _, _, rfl⟩) fun _ => .pure _
  · exact .get_bind fun s => .bind (keeps_reindexed_modify fun s => ⟨_, _, _, rfl⟩) fun _ => .pure _
  · cases fails with
    | false => exact Keeps.pure ()
    | true => exact Keeps.throw _

theorem keeps_reindexed_appendIndexFileIo {s₀ : PackStore} (fault : Option SealFault) (entries : List IndexEntry) :
    Keeps s₀.Reindexed (appendIndexFileIo fault entries) := by
  refine .bind (keeps_reindexed_writeIndexFileIo _ entries) fun _ => .get_bind fun s => ?_
  split
  · exact .get_bind fun _ => .bind (keeps_reindexed_writeIndexFileIo _ _) fun _ =>
      keeps_reindexed_modify fun s => ⟨_, _, _, rfl⟩
  · exact .pure _

section
variable {s : PackStore} {sp : StagingPack} {file : Bytes}
    (hseal : sealPackBytes sp.kind s.fmk sp.salt sp.body sp.entries = .ok file)
include hseal

theorem run_sealToDiskIo (hnow : now ≠ some .pack) : sealToDiskIo now sp s =
      appendIndexFileIo now (sp.entries.map (FooterEntry.located (packNameOf file))) (s.withPack sp file) := by
  unfold sealToDiskIo
  rw [run_bind_ok (run_get s), hseal, decide_eq_false hnow]
  rfl

theorem run_sealToDiskIo_pack : sealToDiskIo (some .pack) sp s = .error (.pack .io) s := by
  unfold sealToDiskIo
  rw [run_bind_ok (run_get s), hseal]
  rfl

theorem locations_leaves_sealToDiskIo (hnow : now ≠ some .pack) :
    (leaves (sealToDiskIo now sp) s).locations = (s.withPack sp file).locations := by
  have hkeeps : Keeps (s.withPack sp file).Reindexed
      (appendIndexFileIo now (sp.entries.map (FooterEntry.located (packNameOf file)))) :=
    keeps_reindexed_appendIndexFileIo now _
  rw [leaves, run_sealToDiskIo hseal hnow]
  generalize s.withPack sp file = t at *
  generalize appendIndexFileIo now (sp.entries.map (FooterEntry.located (packNameOf file))) = m at *
  cases hrun : m t with
  | ok =>
    obtain ⟨_, _, _, rfl⟩ := hkeeps.of_ok ⟨_, _, _, rfl⟩ hrun
    rfl
  | error =>
    obtain ⟨_, _, _, rfl⟩ := hkeeps.of_error ⟨_, _, _, rfl⟩ hrun
    rfl

end

namespace PackStore

variable {B F : Set Bytes} {s : PackStore} {sp : StagingPack} {m : Bool} {file : Bytes}

theorem Tracked.withPack (h : s.Tracked B F) (laws : CipherLaws) (hsp : sp.Ready B m)
    (hseal : sealPackBytes sp.kind s.fmk sp.salt sp.body sp.entries = .ok file) (hF : F.InjOn packNameOf)
    (hfile : file ∈ F) : (s.withPack sp file).Tracked B F where
  backs := (h.backs.withPack h.files hF hfile).merge (hsp.backs_located laws hseal s.disk)
  intact := h.intact.withPack h.files hF hfile
  listed kind id hin := LocationTable.has_merge.2 (.inl (h.listed kind id hin))
  numbered := h.numbered
  files := h.files.withPack hfile
  present e he := by
    rcases LocationTable.mem_merge.1 he with he | he
    · exact present_withPack (h.present e he)
    · obtain ⟨f, -, rfl⟩ := mem_map.1 he
      exact present_withPack_self

/-- The step lemma: one pack meets its fate, and the store stays tracked. -/
theorem Tracked.after_sealToDiskIo (h : s.Tracked B F) (laws : CipherLaws) (hseals : CipherSeals)
    (hsp : sp.Ready B m) (hF : F.InjOn packNameOf) (hfiles : sealedFiles s.fmk [sp] ⊆ F) (now : Option SealFault)
    (hsize : 81 * (leaves (sealToDiskIo now sp) s).locations.length + 20 < 2 ^ 32) :
    ∃ s', (if stops s.disk.index.keys.length now then ∃ e, sealToDiskIo now sp s = .error e s'
        else sealToDiskIo now sp s = .ok () s' ∧
          s'.disk.index.keys.length = countAfter s.disk.index.keys.length) ∧
      s'.Tracked B F ∧ Outcome [(sp, fateOf s.disk.index.keys.length now)] s s' := by
  obtain ⟨file, hseal⟩ := hsp.sealPackBytes_ok hseals s.fmk
  have hfile : file ∈ F := hfiles ⟨sp, by simp, hseal⟩
  by_cases hpack : now = some .pack
  · subst hpack
    refine ⟨s, ?_, h, outcome_dropped [sp] s⟩
    exact ⟨_, run_sealToDiskIo_pack hseal⟩
  have hrun := run_sealToDiskIo hseal hpack
  have hwith := h.withPack laws hsp hseal hF hfile
  have hlocated := locations_leaves_sealToDiskIo hseal hpack
  rw [hlocated] at hsize
  have hknown : ∀ kind id, LocationTable.Has (sp.entries.map (FooterEntry.located (packNameOf file))) kind id →
      (s.withPack sp file).locations.Has kind id := fun kind id hhas => LocationTable.has_merge.2 (.inr hhas)
  obtain ⟨s', hresult, hreindexed, htracked, hindexed⟩ := appendIndexFileIo_spec hwith laws hseals
    (hsp.backs_located laws hseal s.disk) (hsp.sealedTableLen_lt _) hknown hsize hpack
  rw [← hrun] at hresult
  refine ⟨s', hresult, htracked, ?_⟩
  have hcount : (s.withPack sp file).disk.index = s.disk.index := rfl
  have hdisk : ∀ kind id, (s.withPack sp file).disk.Indexed s.fmk kind id ↔ s.disk.Indexed s.fmk kind id :=
    fun _ _ => Iff.rfl
  have hfmk : (s.withPack sp file).fmk = s.fmk := rfl
  have hlocations : ∀ kind id, (s.withPack sp file).locations.Has kind id ↔
      s.locations.Has kind id ∨ sp.Has kind id := fun kind id =>
    LocationTable.has_merge.trans (or_congr_right (StagingPack.Ready.has_located _))
  rw [hcount, hfmk] at hindexed
  have hne : fateOf s.disk.index.keys.length now ≠ .dropped := fun heq => hpack (fateOf_eq_dropped.1 heq)
  obtain ⟨index, n, draw, rfl⟩ := hreindexed
  refine ⟨rfl, rfl, rfl, fun kind id => ?_, fun kind id => ?_⟩
  · exact (hlocations kind id).trans (by simp [hne])
  · refine (hindexed kind id).trans ?_
    rw [hdisk, hlocations, StagingPack.Ready.has_located]
    simp only [exists_mem_cons_iff, not_mem_nil, false_and, exists_false, or_false]
    cases hfate : fateOf s.disk.index.keys.length now with
    | dropped => exact absurd hfate hne
    | stranded | indexed => simp
    | compacted =>
      tauto

omit [PackEnv] in
theorem length_le_merge (t incoming : LocationTable) : t.length ≤ (t.merge incoming).length := by
  unfold LocationTable.merge
  induction incoming generalizing t with
  | nil => exact le_rfl
  | cons e incoming ih =>
    refine le_trans ?_ (ih (t.add e))
    unfold LocationTable.add
    split
    · exact le_rfl
    · simp

theorem keeps_length_sealAllIo (n : Nat) (fault : CallFault) (packs : List StagingPack) :
    Keeps (fun s => n ≤ s.locations.length) (sealAllIo fault packs) := by
  induction packs generalizing fault with
  | nil => exact .pure _
  | cons sp packs ih =>
    refine .bind (.get_bind fun s => .bind (keeps_liftAs _ _) fun file => .bind ?_ fun _ =>
      .bind (Triple.modify fun _ hn => hn) fun _ => .bind (Triple.modify fun _ hn => hn) fun _ =>
      .bind (Triple.modify fun _ hn => hn.trans (length_le_merge _ _)) fun _ => ?_) fun _ => ih fault.later
    · unfold unlessFails
      split
      · exact .throw _
      · exact .pure _
    refine Triple.of_each fun s hs => (keeps_reindexed_appendIndexFileIo fault.now _).weaken
      (fun _ heq => heq ▸ ⟨_, _, _, rfl⟩) (fun _ s' hr => ?_) (fun _ s' hr => ?_) (P := s.Reindexed)
    · obtain ⟨_, _, _, rfl⟩ := hr
      exact hs
    · obtain ⟨_, _, _, rfl⟩ := hr
      exact hs

theorem length_le_leaves (fault : CallFault) (packs : List StagingPack) (s : PackStore) :
    s.locations.length ≤ (leaves (sealAllIo fault packs) s).locations.length := by
  unfold leaves
  cases hrun : sealAllIo fault packs s with
  | ok => exact (keeps_length_sealAllIo s.locations.length fault packs).of_ok le_rfl hrun
  | error => exact (keeps_length_sealAllIo s.locations.length fault packs).of_error le_rfl hrun

/-- The run lemma, by induction on the packs: those behind the one that fails are dropped. -/
theorem Tracked.after_sealAllIo (laws : CipherLaws) (hseals : CipherSeals) (hF : F.InjOn packNameOf)
    {packs : List StagingPack} (hpacks : ∀ sp ∈ packs, ∃ m, sp.Ready B m) : ∀ {fault : CallFault} {s : PackStore},
    s.Tracked B F → sealedFiles s.fmk packs ⊆ F →
    81 * (leaves (sealAllIo fault packs) s).locations.length + 20 < 2 ^ 32 →
    Tracked B F (leaves (sealAllIo fault packs) s) ∧
      Outcome (fates s.disk.index.keys.length fault packs) s (leaves (sealAllIo fault packs) s) ∧
      (fault = none → ∃ s', sealAllIo fault packs s = .ok () s') := by
  induction packs with
  | nil => exact fun h _ _ => ⟨h, outcome_nil _, fun _ => ⟨_, rfl⟩⟩
  | cons sp rest ih =>
    intro fault s h hfiles hsize
    obtain ⟨m, hsp⟩ := hpacks sp (by simp)
    have hfirst : sealedFiles s.fmk [sp] ⊆ F := by
      rintro file ⟨_, hmem, hseal⟩
      cases mem_singleton.1 hmem
      exact hfiles ⟨sp, by simp, hseal⟩
    have hleaves : (leaves (sealToDiskIo fault.now sp) s).locations.length ≤
        (leaves (sealAllIo fault (sp :: rest)) s).locations.length := by
      rw [leaves, leaves, sealAllIo]
      cases hrun : sealToDiskIo fault.now sp s with
      | error => rw [run_bind_error hrun]
      | ok a s' =>
        rw [run_bind_ok hrun]
        exact length_le_leaves fault.later rest s'
    obtain ⟨s', hresult, htracked, houtcome⟩ :=
      h.after_sealToDiskIo laws hseals hsp hF hfirst fault.now (by omega)
    cases hstops : stops s.disk.index.keys.length fault.now with
    | true =>
      rw [hstops] at hresult
      obtain ⟨e, hrun⟩ := hresult
      have hall : sealAllIo fault (sp :: rest) s = .error e s' := by
        rw [sealAllIo, run_bind_error hrun]
      rw [fates, hstops, leaves, hall]
      refine ⟨htracked, houtcome.stopped rest, fun hnone => ?_⟩
      rw [hnone] at hstops
      cases hstops
    | false =>
      rw [hstops] at hresult
      obtain ⟨hrun, hcount⟩ := hresult
      have hall : sealAllIo fault (sp :: rest) s = sealAllIo fault.later rest s' := by
        rw [sealAllIo, run_bind_ok hrun]
      have hleaves : leaves (sealAllIo fault (sp :: rest)) s =
          leaves (sealAllIo fault.later rest) s' := by rw [leaves, hall, leaves]
      have hrest : sealedFiles s'.fmk rest ⊆ F := by
        rintro file ⟨sp', hmem, hseal⟩
        rw [houtcome.fmk] at hseal
        exact hfiles ⟨sp', mem_cons_of_mem _ hmem, hseal⟩
      rw [hleaves] at hsize
      obtain ⟨htracked', houtcome', hok⟩ := ih (fun sp' hmem => hpacks sp' (by simp [hmem])) htracked hrest hsize
      rw [hleaves, fates, hstops, ← hcount]
      refine ⟨htracked', houtcome.cons (fateOf_of_not_stops hstops) houtcome', fun hnone => ?_⟩
      rw [hall]
      exact hok (by rw [hnone]; rfl)

end PackStore

end

end Ferry
