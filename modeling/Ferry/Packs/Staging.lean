import Ferry.Packs.Index

/-! # Staging

Blobs wait in open packs, one pool for chunks and one for metadata, until a pack
is full or the store is flushed. The index of the pools says in which open pack
a waiting blob lies, and where.
-/

namespace Ferry

open List Function

structure StagingPack where
  kind : ContainerKind
  salt : ByteArr 16
  body : Bytes
  entries : List FooterEntry
  deriving DecidableEq

namespace StagingPack

def fresh (kind : ContainerKind) (salt : ByteArr 16) : StagingPack := ⟨kind, salt, [], []⟩

def push (sp : StagingPack) (kind : BlobKind) (id : BlobId) (bytes : Bytes) : StagingPack :=
  { sp with
    body := sp.body ++ bytes
    entries := sp.entries ++ [⟨kind, id, sp.body.length, bytes.length⟩] }

end StagingPack

def containerFor (kind : BlobKind) : ContainerKind := if kind.isMeta then .packMeta else .packData

/-- Where a staged blob lies: the open pack of its pool, offset and length. -/
structure StagedAt where
  pack : Nat
  plainOff : Nat
  plainLen : Nat
  deriving DecidableEq

abbrev StagingIndex := BlobKind × BlobId → Option StagedAt

structure StagingPools where
  data : List StagingPack
  meta_ : List StagingPack
  index : StagingIndex

variable {m : Bool} {key : BlobKind × BlobId}

namespace StagingPools

def new : StagingPools := ⟨[], [], fun _ => none⟩

def pool (p : StagingPools) (isMeta : Bool) : List StagingPack := if isMeta then p.meta_ else p.data

def setPool (p : StagingPools) (isMeta : Bool) (l : List StagingPack) : StagingPools :=
  if isMeta then { p with meta_ := l } else { p with data := l }

@[simp] theorem pool_setPool_self (p : StagingPools) (m : Bool) (l : List StagingPack) :
    (p.setPool m l).pool m = l := by
  cases m <;> rfl

theorem pool_setPool_ne (p : StagingPools) {m' : Bool} (h : m' ≠ m) (l : List StagingPack) :
    (p.setPool m l).pool m' = p.pool m' := by
  cases m <;> cases m' <;> first | exact absurd rfl h | rfl

@[simp] theorem index_setPool (p : StagingPools) (m : Bool) (l : List StagingPack) :
    (p.setPool m l).index = p.index := by
  cases m <;> rfl

/-- The locations of the blobs in the packs of `l`, the first of which has the number `i`. -/
def rows : Nat → List StagingPack → List ((BlobKind × BlobId) × StagedAt)
  | _, [] => []
  | i, sp :: l => sp.entries.map (fun e => ((e.kind, e.id), ⟨i, e.plainOff, e.plainLen⟩)) ++ rows (i + 1) l

/-- `index.insert` for each row. -/
def insertRows (ix : StagingIndex) (l : List ((BlobKind × BlobId) × StagedAt)) : StagingIndex :=
  l.foldl (fun ix r => update ix r.1 (some r.2)) ix

/-- `index.remove` for each entry of a pack that leaves its pool. -/
def dropEntries (ix : StagingIndex) (entries : List FooterEntry) : StagingIndex := fun key =>
  if key ∈ entries.map (fun e => (e.kind, e.id)) then none else ix key

/-- The pack at `idx` leaves its pool; those behind it move up and are indexed anew. -/
def takePack (p : StagingPools) (isMeta : Bool) (idx : Nat) (sp : StagingPack) : StagingPools :=
  let rest := (p.pool isMeta).eraseIdx idx
  { p.setPool isMeta rest with
    index := insertRows (dropEntries p.index sp.entries) (rows idx (rest.drop idx)) }

def stage (p : StagingPools) (idx : Nat) (sp : StagingPack) (kind : BlobKind) (id : BlobId)
    (bytes : Bytes) : StagingPools :=
  { p.setPool kind.isMeta ((p.pool kind.isMeta).set idx (sp.push kind id bytes)) with
    index := update p.index (kind, id) (some ⟨idx, sp.body.length, bytes.length⟩) }

/-- An open pack with something in it that the blob would make too long. -/
def overflows (sp : StagingPack) (bytes : Bytes) (target : Nat) : Bool :=
  sp.entries ≠ [] ∧ target < sp.body.length + bytes.length

section
variable [PackEnv]

/-- The loop of `offer`: `fuel` bounds its rounds and `draw` counts what was drawn. -/
def offerLoop (kind : BlobKind) (id : BlobId) (bytes : Bytes) (target : Nat) :
    Nat → Nat → StagingPools → List StagingPack → StagingPools × List StagingPack × Nat
  | 0, draw, p, out => (p, out, draw)
  | fuel + 1, draw, p, out =>
    let (p, draw) :=
      if p.pool kind.isMeta = [] then
        (p.setPool kind.isMeta [.fresh (containerFor kind) (PackEnv.salt draw)], draw + 1)
      else (p, draw)
    let idx := PackEnv.pick draw % (p.pool kind.isMeta).length
    match (p.pool kind.isMeta)[idx]? with
    | none => (p, out, draw + 1)
    | some sp =>
      if overflows sp bytes target then
        offerLoop kind id bytes target fuel (draw + 1) (p.takePack kind.isMeta idx sp) (out ++ [sp])
      else (p.stage idx sp kind id bytes, out, draw + 1)

/-- `offer`: the pools with the blob, the packs that are now full, and the draws made. -/
def offer (p : StagingPools) (draw : Nat) (kind : BlobKind) (id : BlobId) (bytes : Bytes)
    (target : Nat) : StagingPools × List StagingPack × Nat :=
  offerLoop kind id bytes target ((p.pool kind.isMeta).length + 1) draw p []

end

/-- `drain_all`: what has something in it, data before metadata. -/
def drainAll (p : StagingPools) : List StagingPack := (p.data ++ p.meta_).filter (·.entries ≠ [])

def contains (p : StagingPools) (kind : BlobKind) (id : BlobId) : Bool := (p.index (kind, id)).isSome

def stagedBytes (p : StagingPools) (kind : BlobKind) (id : BlobId) : Option Bytes :=
  match p.index (kind, id) with
  | none => none
  | some loc =>
    match (p.pool kind.isMeta)[loc.pack]? with
    | none => none
    | some sp =>
      if loc.plainOff + loc.plainLen ≤ sp.body.length then
        some ((sp.body.drop loc.plainOff).take loc.plainLen)
      else none

/-! ## The index tells where blobs lie -/

theorem mem_rows {i : Nat} {l : List StagingPack} {loc : StagedAt} :
    (key, loc) ∈ rows i l ↔ ∃ j sp, l[j]? = some sp ∧ loc.pack = i + j ∧
      ⟨key.1, key.2, loc.plainOff, loc.plainLen⟩ ∈ sp.entries := by
  induction l generalizing i with
  | nil => simp [rows]
  | cons sp l ih =>
    rw [rows, mem_append, ih]
    constructor
    · rintro (h | ⟨j, sp', hj, hpack, hmem⟩)
      · obtain ⟨e, he, heq⟩ := mem_map.1 h
        cases heq
        exact ⟨0, sp, rfl, rfl, he⟩
      · exact ⟨j + 1, sp', hj, by omega, hmem⟩
    · rintro ⟨j, sp', hj, hpack, hmem⟩
      cases j with
      | zero =>
        cases hj
        refine .inl (mem_map.2 ⟨_, hmem, ?_⟩)
        cases hpack
        rfl
      | succ j => exact .inr ⟨j, sp', hj, by omega, hmem⟩

/-- Rows that agree with one another hide what was there under their keys. -/
theorem insertRows_eq_some {ix : StagingIndex} {l : List ((BlobKind × BlobId) × StagedAt)}
    (hfun : ∀ key loc loc', (key, loc) ∈ l → (key, loc') ∈ l → loc = loc')
    {loc : StagedAt} : insertRows ix l key = some loc ↔
      (key, loc) ∈ l ∨ ((∀ loc', (key, loc') ∉ l) ∧ ix key = some loc) := by
  unfold insertRows
  induction l generalizing ix with
  | nil => simp
  | cons r l ih =>
    have hfun' : ∀ key loc loc', (key, loc) ∈ l → (key, loc') ∈ l → loc = loc' :=
      fun key loc loc' h h' => hfun key loc loc' (by simp [h]) (by simp [h'])
    obtain ⟨k, v⟩ := r
    rw [foldl_cons, ih hfun']
    by_cases hk : key = k
    · subst hk
      rw [update_self]
      constructor
      · rintro (h | ⟨-, h⟩)
        · exact .inl (by simp [h])
        · cases h
          exact .inl (by simp)
      · rintro (h | ⟨h, -⟩)
        · obtain rfl := hfun key loc v h (by simp)
          by_cases hl : ∃ loc', (key, loc') ∈ l
          · obtain ⟨loc', hl⟩ := hl
            obtain rfl := hfun key loc' loc (by simp [hl]) (by simp)
            exact .inl hl
          · exact .inr ⟨fun loc' hmem => hl ⟨loc', hmem⟩, rfl⟩
        · exact absurd (mem_cons_self ..) (h v)
    · rw [update_of_ne hk]
      simp [hk]

end StagingPools

section
variable [Env]

/-- The entries of an open pack say the truth: each lies in the body and hashes to its id. -/
structure StagingPack.Wf (isMeta : Bool) (sp : StagingPack) : Prop where
  kinds : ∀ e ∈ sp.entries, e.kind.isMeta = isMeta
  holds : ∀ e ∈ sp.entries, e.plainOff + e.plainLen ≤ sp.body.length ∧
    Env.blake3 ((sp.body.drop e.plainOff).take e.plainLen) = e.id

variable {sp : StagingPack}

theorem StagingPack.Wf.push {isMeta : Bool} (h : sp.Wf isMeta) {kind : BlobKind}
    (hkind : kind.isMeta = isMeta) (bytes : Bytes) : (sp.push kind (Env.blake3 bytes) bytes).Wf isMeta where
  kinds e he := by
    rcases mem_append.1 he with he | he
    · exact h.kinds e he
    · rw [mem_singleton.1 he]
      exact hkind
  holds e he := by
    show e.plainOff + e.plainLen ≤ (sp.body ++ bytes).length ∧
      Env.blake3 (((sp.body ++ bytes).drop e.plainOff).take e.plainLen) = e.id
    rcases mem_append.1 he with he | he
    · obtain ⟨hlen, hhash⟩ := h.holds e he
      refine ⟨by rw [length_append]; omega, ?_⟩
      rw [drop_append_of_le_length (by omega), take_append_of_le_length (by simp; omega), hhash]
    · rw [mem_singleton.1 he]
      simp

namespace StagingPools

variable {p : StagingPools} {kind : BlobKind} {id : BlobId}

/-- Open packs say the truth, and the index says what they hold. -/
structure Wf (p : StagingPools) : Prop where
  packs : ∀ m, ∀ sp ∈ p.pool m, sp.Wf m
  index : ∀ kind id loc, p.index (kind, id) = some loc ↔ ∃ sp,
    (p.pool kind.isMeta)[loc.pack]? = some sp ∧ ⟨kind, id, loc.plainOff, loc.plainLen⟩ ∈ sp.entries

theorem wf_new : Wf new where
  packs m sp hsp := by cases m <;> cases hsp
  index kind id loc := by
    refine ⟨fun h => (nomatch h), ?_⟩
    rintro ⟨sp, hsp, -⟩
    cases hm : kind.isMeta <;> simp [new, pool] at hsp

theorem Wf.stagedBytes (h : p.Wf) (hc : p.contains kind id) :
    ∃ b, p.stagedBytes kind id = some b ∧ Env.blake3 b = id := by
  obtain ⟨loc, hloc⟩ := Option.isSome_iff_exists.1 hc
  obtain ⟨sp, hsp, he⟩ := (h.index kind id loc).1 hloc
  obtain ⟨hlen, hhash⟩ := (h.packs _ sp (mem_of_getElem? hsp)).holds _ he
  refine ⟨_, ?_, hhash⟩
  unfold StagingPools.stagedBytes
  rw [hloc]
  dsimp only
  rw [hsp]
  exact if_pos hlen

omit [Env] in
theorem stagedBytes_of_not_contains (h : ¬ p.contains kind id) : p.stagedBytes kind id = none := by
  unfold StagingPools.stagedBytes
  rw [Option.not_isSome_iff_eq_none.1 h]

/-- A fresh pack joins an empty pool. -/
theorem Wf.withFresh (h : p.Wf) (hnil : p.pool m = []) (c : ContainerKind)
    (salt : ByteArr 16) : (p.setPool m [.fresh c salt]).Wf where
  packs m' sp hsp := by
    by_cases hm : m' = m
    · subst hm
      rw [pool_setPool_self, mem_singleton] at hsp
      subst hsp
      exact ⟨fun e he => (nomatch he), fun e he => (nomatch he)⟩
    · rw [pool_setPool_ne p hm] at hsp
      exact h.packs m' sp hsp
  index kind id loc := by
    rw [index_setPool, h.index]
    by_cases hm : kind.isMeta = m
    · subst hm
      rw [pool_setPool_self, hnil]
      constructor
      · rintro ⟨sp, hsp, -⟩
        simp at hsp
      · rintro ⟨sp, hsp, he⟩
        obtain rfl := mem_singleton.1 (mem_of_getElem? hsp)
        cases he
    · rw [pool_setPool_ne p hm]

variable {idx : Nat} {bytes : Bytes}

omit [Env] in
theorem pool_stage_self : (p.stage idx sp kind id bytes).pool kind.isMeta =
      (p.pool kind.isMeta).set idx (sp.push kind id bytes) :=
  pool_setPool_self p kind.isMeta _

omit [Env] in
theorem pool_stage_ne (h : m ≠ kind.isMeta) : (p.stage idx sp kind id bytes).pool m = p.pool m :=
  pool_setPool_ne p h _

omit [Env] in
theorem mem_set_push {l : List StagingPack} {j : Nat} {e : FooterEntry} (hsp : l[idx]? = some sp) :
    (∃ sp', (l.set idx (sp.push kind id bytes))[j]? = some sp' ∧ e ∈ sp'.entries) ↔
      (∃ sp', l[j]? = some sp' ∧ e ∈ sp'.entries) ∨
        (j = idx ∧ e = ⟨kind, id, sp.body.length, bytes.length⟩) := by
  by_cases hj : j = idx
  · subst hj
    rw [List.getElem?_set_self (List.getElem?_eq_some_iff.1 hsp).1, hsp]
    simp [StagingPack.push]
  · rw [getElem?_set_ne (Ne.symm hj)]
    simp [hj]

omit [Env] in
theorem stagedBytes_stage (hsp : (p.pool kind.isMeta)[idx]? = some sp) :
    (p.stage idx sp kind id bytes).stagedBytes kind id = some bytes := by
  have hidx : (p.stage idx sp kind id bytes).index (kind, id) =
      some ⟨idx, sp.body.length, bytes.length⟩ := update_self _ _ _
  unfold StagingPools.stagedBytes
  rw [hidx]
  dsimp only
  rw [pool_stage_self, List.getElem?_set_self (List.getElem?_eq_some_iff.1 hsp).1]
  simp [StagingPack.push]

/-- A staged blob is found where it was put, and no other has moved. -/
theorem Wf.stage (h : p.Wf)
    (hsp : (p.pool kind.isMeta)[idx]? = some sp) (hnew : ¬ p.contains kind (Env.blake3 bytes)) :
    (p.stage idx sp kind (Env.blake3 bytes) bytes).Wf where
  packs m sp' hsp' := by
    by_cases hm : m = kind.isMeta
    · subst hm
      rw [pool_stage_self] at hsp'
      rcases mem_or_eq_of_mem_set hsp' with hold | rfl
      · exact h.packs _ sp' hold
      · exact (h.packs _ sp (mem_of_getElem? hsp)).push rfl bytes
    · rw [pool_stage_ne hm] at hsp'
      exact h.packs m sp' hsp'
  index k i loc := by
    have hnone : p.index (kind, Env.blake3 bytes) = none := Option.not_isSome_iff_eq_none.1 hnew
    by_cases hm : k.isMeta = kind.isMeta
    · rw [hm, pool_stage_self, mem_set_push hsp, ← hm, ← h.index]
      by_cases hkey : (k, i) = (kind, Env.blake3 bytes)
      · cases hkey
        have hidx : (p.stage idx sp kind (Env.blake3 bytes) bytes).index (kind, Env.blake3 bytes) =
            some ⟨idx, sp.body.length, bytes.length⟩ := update_self _ _ _
        obtain ⟨pack, off, len⟩ := loc
        rw [hidx, hnone]
        simp [eq_comm]
      · have hidx : (p.stage idx sp kind (Env.blake3 bytes) bytes).index (k, i) = p.index (k, i) :=
          update_of_ne hkey _ _
        rw [hidx]
        refine ⟨.inl, fun hor => hor.resolve_right ?_⟩
        rintro ⟨-, he⟩
        obtain ⟨rfl, rfl, -⟩ := FooterEntry.mk.inj he
        exact hkey rfl
    · have hkey : (k, i) ≠ (kind, Env.blake3 bytes) := fun heq => hm (by cases heq; rfl)
      rw [pool_stage_ne hm, ← h.index]
      exact iff_of_eq (congrArg (· = some loc) (update_of_ne hkey _ _))

omit [Env] in
theorem pool_takePack_self : (p.takePack m idx sp).pool m = (p.pool m).eraseIdx idx :=
  pool_setPool_self p m _

omit [Env] in
theorem pool_takePack_ne {m' : Bool} (h : m' ≠ m) : (p.takePack m idx sp).pool m' = p.pool m' :=
  pool_setPool_ne p h _

variable (h : p.Wf)
include h

theorem Wf.mem_rows_takePack {loc : StagedAt} :
    (key, loc) ∈ rows idx (((p.pool m).eraseIdx idx).drop idx) ↔ key.1.isMeta = m ∧ idx ≤ loc.pack ∧
      p.index key = some { loc with pack := loc.pack + 1 } := by
  obtain ⟨k, i⟩ := key
  have hget : ∀ j, (((p.pool m).eraseIdx idx).drop idx)[j]? = (p.pool m)[idx + j + 1]? := by
    intro j
    rw [getElem?_drop, getElem?_eraseIdx, if_neg (by omega)]
  rw [mem_rows]
  constructor
  · rintro ⟨j, sp, hj, hpack, he⟩
    rw [hget] at hj
    have hm : k.isMeta = m := (h.packs m sp (mem_of_getElem? hj)).kinds _ he
    refine ⟨hm, by omega, (h.index k i _).2 ⟨sp, ?_, he⟩⟩
    rw [hm, hpack, hj]
  · rintro ⟨rfl, hle, hidx⟩
    obtain ⟨sp, hj, he⟩ := (h.index k i _).1 hidx
    refine ⟨loc.pack - idx, sp, ?_, by omega, he⟩
    rw [hget, show idx + (loc.pack - idx) + 1 = loc.pack + 1 by omega]
    exact hj

theorem Wf.mem_entries (hsp : (p.pool m)[idx]? = some sp) :
    (kind, id) ∈ sp.entries.map (fun e => (e.kind, e.id)) ↔
      kind.isMeta = m ∧ ∃ loc, p.index (kind, id) = some loc ∧ loc.pack = idx := by
  rw [mem_map]
  constructor
  · rintro ⟨e, he, heq⟩
    cases heq
    have hm := (h.packs m sp (mem_of_getElem? hsp)).kinds e he
    exact ⟨hm, ⟨idx, e.plainOff, e.plainLen⟩, (h.index _ _ _).2 ⟨sp, by rw [hm]; exact hsp, he⟩, rfl⟩
  · rintro ⟨rfl, loc, hloc, rfl⟩
    obtain ⟨sp', hsp', he⟩ := (h.index kind id loc).1 hloc
    cases hsp.symm.trans hsp'
    exact ⟨_, he, rfl⟩

/-- When a pack is taken out, the rows behind it move up. -/
theorem Wf.takePack (hsp : (p.pool m)[idx]? = some sp) : (p.takePack m idx sp).Wf where
  packs m' sp' hsp' := by
    by_cases hm : m' = m
    · subst hm
      rw [pool_takePack_self] at hsp'
      exact h.packs _ sp' (mem_of_mem_eraseIdx hsp')
    · rw [pool_takePack_ne hm] at hsp'
      exact h.packs m' sp' hsp'
  index k i loc := by
    have hfun : ∀ key loc loc', (key, loc) ∈ rows idx (((p.pool m).eraseIdx idx).drop idx) →
        (key, loc') ∈ rows idx (((p.pool m).eraseIdx idx).drop idx) → loc = loc' := by
      intro key loc loc' hl hl'
      have heq := (h.mem_rows_takePack.1 hl).2.2.symm.trans (h.mem_rows_takePack.1 hl').2.2
      obtain ⟨pack, off, len⟩ := loc
      obtain ⟨pack', off', len'⟩ := loc'
      simpa using heq
    have hidx : (p.takePack m idx sp).index (k, i) =
        insertRows (dropEntries p.index sp.entries) (rows idx (((p.pool m).eraseIdx idx).drop idx)) (k, i) :=
      rfl
    have hdrop : dropEntries p.index sp.entries (k, i) = some loc ↔
        ¬ (k.isMeta = m ∧ ∃ loc, p.index (k, i) = some loc ∧ loc.pack = idx) ∧ p.index (k, i) = some loc := by
      unfold dropEntries
      rw [← h.mem_entries hsp]
      split <;> simp [*]
    rw [hidx, insertRows_eq_some hfun, hdrop]
    simp only [h.mem_rows_takePack]
    by_cases hm : k.isMeta = m
    · subst hm
      rw [pool_takePack_self, getElem?_eraseIdx]
      by_cases hlt : loc.pack < idx
      · -- in front of the pack that leaves nothing moves
        rw [if_pos hlt, ← h.index]
        constructor
        · rintro (⟨-, hle, -⟩ | ⟨-, -, hloc⟩)
          · omega
          · exact hloc
        · intro hloc
          refine .inr ⟨?_, ?_, hloc⟩
          · rintro loc' ⟨-, hle, hloc'⟩
            have heq := congrArg StagedAt.pack (Option.some.inj (hloc.symm.trans hloc'))
            dsimp only at heq
            omega
          · rintro ⟨-, loc', hloc', hpack⟩
            cases hloc.symm.trans hloc'
            omega
      · -- behind it every number is one less
        rw [if_neg hlt]
        have hright := h.index k i { loc with pack := loc.pack + 1 }
        rw [← hright]
        constructor
        · rintro (⟨-, -, hloc⟩ | ⟨hno, hnot, hloc⟩)
          · exact hloc
          have hne : loc.pack ≠ idx := fun heq => hnot ⟨rfl, loc, hloc, heq⟩
          obtain ⟨n, hn⟩ : ∃ n, loc.pack = n + 1 := ⟨loc.pack - 1, by omega⟩
          refine absurd ⟨rfl, ?_, ?_⟩ (hno ⟨n, loc.plainOff, loc.plainLen⟩)
          · show idx ≤ n
            omega
          · rw [hloc, ← hn]
        · intro hloc
          exact .inl ⟨rfl, by omega, hloc⟩
    · rw [pool_takePack_ne hm, ← h.index]
      simp [hm]

theorem Wf.contains_iff : p.contains kind id ↔
    ∃ sp ∈ p.pool kind.isMeta, ∃ e ∈ sp.entries, e.kind = kind ∧ e.id = id := by
  unfold contains
  rw [Option.isSome_iff_exists]
  constructor
  · rintro ⟨loc, hloc⟩
    obtain ⟨sp, hsp, he⟩ := (h.index kind id loc).1 hloc
    exact ⟨sp, mem_of_getElem? hsp, _, he, rfl, rfl⟩
  · rintro ⟨sp, hsp, ⟨k, i, off, len⟩, he, rfl, rfl⟩
    obtain ⟨j, hj⟩ := mem_iff_getElem?.1 hsp
    exact ⟨⟨j, off, len⟩, (h.index _ _ _).2 ⟨sp, hj, he⟩⟩

theorem Wf.not_contains_takePack (hsp : (p.pool m)[idx]? = some sp) (hnew : ¬ p.contains kind id) :
    ¬ (p.takePack m idx sp).contains kind id := by
  rw [(h.takePack hsp).contains_iff]
  rw [h.contains_iff] at hnew
  rintro ⟨sp', hsp', he⟩
  refine hnew ⟨sp', ?_, he⟩
  by_cases hm : kind.isMeta = m
  · subst hm
    rw [pool_takePack_self] at hsp'
    exact mem_of_mem_eraseIdx hsp'
  · rwa [pool_takePack_ne hm] at hsp'

end StagingPools

end

namespace StagingPools

variable [PackEnv] {kind : BlobKind} {bytes : Bytes} {target : Nat}

/-- The loop of `offer` keeps what a fresh pack in an empty pool keeps, and what the packs that it
takes out keep, and ends with the blob staged: its rounds are no more than the open packs. -/
theorem offerLoop_rule {id : BlobId} {I : StagingPools → List StagingPack → Prop}
    (hfresh : ∀ p out salt, p.pool kind.isMeta = [] → I p out →
      I (p.setPool kind.isMeta [.fresh (containerFor kind) salt]) out)
    (htake : ∀ p out idx sp, I p out → (p.pool kind.isMeta)[idx]? = some sp →
      overflows sp bytes target → I (p.takePack kind.isMeta idx sp) (out ++ [sp]))
    {fuel draw : Nat} {p : StagingPools} {out : List StagingPack} (hI : I p out)
    (hfuel : (p.pool kind.isMeta).length < fuel) {p' : StagingPools} {out' : List StagingPack} {draw' : Nat}
    (hrun : offerLoop kind id bytes target fuel draw p out = (p', out', draw')) :
    ∃ q idx sp, I q out' ∧ (q.pool kind.isMeta)[idx]? = some sp ∧ ¬ overflows sp bytes target ∧
      p' = q.stage idx sp kind id bytes := by
  induction fuel generalizing draw p out with
  | zero => omega
  | succ fuel ih =>
    -- a pool that was empty holds a fresh pack, which the blob joins
    obtain ⟨q, draw₁, hq, hI', hne, hlen⟩ : ∃ q draw₁, (if p.pool kind.isMeta = [] then
          (p.setPool kind.isMeta [.fresh (containerFor kind) (PackEnv.salt draw)], draw + 1)
        else (p, draw)) = (q, draw₁) ∧ I q out ∧ q.pool kind.isMeta ≠ [] ∧
        ((∃ sp ∈ q.pool kind.isMeta, sp.entries ≠ []) → (q.pool kind.isMeta).length < fuel + 1) := by
      by_cases hnil : p.pool kind.isMeta = []
      · refine ⟨_, _, if_pos hnil, hfresh p out _ hnil hI, by simp, ?_⟩
        rintro ⟨sp, hsp, he⟩
        rw [pool_setPool_self, mem_singleton] at hsp
        subst hsp
        exact absurd rfl he
      · exact ⟨p, draw, if_neg hnil, hI, hnil, fun _ => hfuel⟩
    rw [offerLoop, hq] at hrun
    dsimp only at hrun
    have hlt : PackEnv.pick draw₁ % (q.pool kind.isMeta).length < (q.pool kind.isMeta).length :=
      Nat.mod_lt _ (length_pos_iff.2 hne)
    have hsp := getElem?_eq_getElem hlt
    rw [hsp] at hrun
    dsimp only at hrun
    split at hrun
    · rename_i hover
      have hsome : ∃ sp ∈ q.pool kind.isMeta, sp.entries ≠ [] :=
        ⟨_, getElem_mem hlt, (of_decide_eq_true hover).1⟩
      refine ih (htake q out _ _ hI' hsp hover) ?_ hrun
      rw [pool_takePack_self, length_eraseIdx_of_lt hlt]
      have := hlen hsome
      omega
    · rename_i hover
      cases hrun
      exact ⟨q, _, _, hI', hsp, hover, rfl⟩

/-- `offer` stages a blob that is not staged yet, and gives out packs that say the truth. -/
theorem Wf.offer {p : StagingPools} (h : p.Wf) (hnew : ¬ p.contains kind (Env.blake3 bytes))
    {draw draw' : Nat} {p' : StagingPools} {out : List StagingPack}
    (hrun : p.offer draw kind (Env.blake3 bytes) bytes target = (p', out, draw')) :
    p'.Wf ∧ p'.stagedBytes kind (Env.blake3 bytes) = some bytes ∧ ∀ sp ∈ out, sp.Wf kind.isMeta := by
  have hrule := offerLoop_rule
    (I := fun p out => p.Wf ∧ ¬ p.contains kind (Env.blake3 bytes) ∧ ∀ sp ∈ out, sp.Wf kind.isMeta)
    ?_ ?_ ⟨h, hnew, by simp⟩ (Nat.lt_succ_self _) hrun
  · obtain ⟨q, idx, sp, ⟨hwf, hnew', hout⟩, hsp, -, rfl⟩ := hrule
    exact ⟨hwf.stage hsp hnew', stagedBytes_stage hsp, hout⟩
  · rintro p out salt hnil ⟨hwf, hnew, hout⟩
    refine ⟨hwf.withFresh hnil _ _, ?_, hout⟩
    rw [contains, index_setPool]
    exact hnew
  · rintro p out idx sp ⟨hwf, hnew, hout⟩ hsp -
    refine ⟨hwf.takePack hsp, hwf.not_contains_takePack hsp hnew, fun sp' hmem => ?_⟩
    rcases mem_append.1 hmem with hmem | hmem
    · exact hout sp' hmem
    · rw [mem_singleton.1 hmem]
      exact hwf.packs _ _ (mem_of_getElem? hsp)

end StagingPools

end Ferry
