import Ferry.Packs.History
import Ferry.Packs.Pools

/-! # What is in which pack

Runs of the pools: blobs are offered, with any target size and any draws, and now
and then everything is drained. Each blob that was offered is in one pack, open or
given out, and the index tells of those in open packs. But as a pool never has a
second open pack, the draws have no choice: the packs are the same in every run.
-/

namespace Ferry

open List

structure Blob where
  kind : BlobKind
  id : BlobId
  bytes : Bytes
  deriving DecidableEq

def Blob.key (b : Blob) : BlobKind × BlobId := (b.kind, b.id)

/-- Entries that lie end to end, from the start of a body to its end. -/
inductive TilesBody : List FooterEntry → Nat → Prop
  | nil : TilesBody [] 0
  | snoc {entries : List FooterEntry} {len : Nat} {e : FooterEntry} : TilesBody entries len →
    e.plainOff = len → TilesBody (entries ++ [e]) (len + e.plainLen)

theorem TilesBody.inside {entries : List FooterEntry} {len : Nat} (h : TilesBody entries len) :
    ∀ e ∈ entries, e.plainOff + e.plainLen ≤ len := by
  induction h with
  | nil => simp
  | snoc _ hoff ih =>
    intro e he
    rcases mem_append.1 he with he | he
    · exact (ih e he).trans (Nat.le_add_right ..)
    · rw [mem_singleton.1 he, hoff]

namespace StagingPack

variable {sp : StagingPack}

def blobs (sp : StagingPack) : List Blob :=
  sp.entries.map fun e => ⟨e.kind, e.id, (sp.body.drop e.plainOff).take e.plainLen⟩

def Tiled (sp : StagingPack) : Prop := TilesBody sp.entries sp.body.length

theorem Tiled.push (h : sp.Tiled) (kind : BlobKind) (id : BlobId) (bytes : Bytes) :
    (sp.push kind id bytes).Tiled := by
  show TilesBody (sp.entries ++ [_]) (sp.body ++ bytes).length
  rw [length_append]
  exact .snoc h rfl

theorem Tiled.blobs_push (h : sp.Tiled) (kind : BlobKind) (id : BlobId) (bytes : Bytes) :
    (sp.push kind id bytes).blobs = sp.blobs ++ [⟨kind, id, bytes⟩] := by
  show (sp.entries ++ [_]).map _ = _
  rw [map_append]
  refine congrArg₂ _ (map_congr_left fun e he => ?_) (by simp [StagingPack.push])
  have hin := h.inside e he
  show Blob.mk _ _ (((sp.body ++ bytes).drop _).take _) = _
  rw [drop_append_of_le_length (by omega), take_append_of_le_length (by simp; omega)]

end StagingPack

/-! ## Runs -/

inductive PoolCall where
  | offer (b : Blob) (target : Nat)
  | drainAll

def offered (calls : List PoolCall) : List Blob :=
  calls.filterMap fun
    | .offer b _ => some b
    | .drainAll => none

/-- The pools, with the packs that `offer` returned or that were drained so far. -/
structure PoolRun where
  pools : StagingPools
  gone : List StagingPack
  draw : Nat

namespace PoolRun

def start : PoolRun := ⟨.new, [], 0⟩

def openPacks (r : PoolRun) : List StagingPack := r.pools.pool false ++ r.pools.pool true

def packs (r : PoolRun) : List StagingPack := r.openPacks ++ r.gone

section
variable [PackEnv]

def step (r : PoolRun) : PoolCall → PoolRun
  | .offer b target =>
    let (pools, out, draw) := r.pools.offer r.draw b.kind b.id b.bytes target
    ⟨pools, r.gone ++ out, draw⟩
  | .drainAll => ⟨.new, r.gone ++ r.pools.drainAll, r.draw⟩

def run (calls : List PoolCall) : PoolRun := calls.foldl step start

end

/-- What is known of a run that was offered the blobs `all`. -/
structure Staged (all : List Blob) (r : PoolRun) : Prop where
  told : r.pools.Told
  kinds : ∀ sp ∈ r.packs, ∃ m, ∀ kind id, sp.Has kind id → kind.isMeta = m
  tiled : ∀ sp ∈ r.packs, sp.Tiled
  blobs : (r.packs.flatMap (·.blobs)).Perm all

theorem mem_packs {r : PoolRun} {sp : StagingPack} : sp ∈ r.packs ↔ (∃ m, sp ∈ r.pools.pool m) ∨ sp ∈ r.gone := by
  simp [packs, openPacks, or_assoc]

theorem staged_start : Staged [] start := by
  refine ⟨StagingPools.told_new, ?_, ?_, .refl _⟩ <;> intro sp hsp <;> cases hsp

theorem blobs_opens {p : StagingPools} {kind : BlobKind} {bytes : Bytes} {target : Nat} {cur : StagingPack}
    {out : List StagingPack} (h : p.Opens kind bytes target cur out) :
    (p.pool kind.isMeta).flatMap (·.blobs) = cur.blobs ++ out.flatMap (·.blobs) := by
  rcases h with ⟨hpool, rfl, -⟩ | ⟨hpool, -, salt, rfl⟩
  · simp [hpool]
  · simp [hpool, StagingPack.fresh, StagingPack.blobs]

theorem perm_packs (r : PoolRun) (m : Bool) : (r.packs.flatMap (·.blobs)).Perm
    ((r.pools.pool m).flatMap (·.blobs) ++ ((r.pools.pool !m).flatMap (·.blobs) ++ r.gone.flatMap (·.blobs))) := by
  rw [packs, openPacks, flatMap_append, flatMap_append, append_assoc]
  cases m with
  | false => exact .refl _
  | true => exact perm_append_comm_assoc ..

/-- The step lemma for an offer. -/
theorem Staged.offer [PackEnv] {all : List Blob} {r : PoolRun} (h : Staged all r) (b : Blob) (target : Nat) :
    Staged (all ++ [b]) (r.step (.offer b target)) := by
  obtain ⟨kind, id, bytes⟩ := b
  obtain ⟨cur, out, draw', hoffer, hopens⟩ :=
    StagingPools.offer_single (h.told.single kind.isMeta) r.draw id bytes target
  obtain ⟨r', hr', hpools, hgone⟩ : ∃ r', r.step (.offer ⟨kind, id, bytes⟩ target) = r' ∧
      r'.pools = r.pools.settle cur out kind id bytes ∧ r'.gone = r.gone ++ out := by
    simp [step, hoffer]
  have hself : r'.pools.pool kind.isMeta = [cur.push kind id bytes] := by
    rw [hpools, StagingPools.pool_settle_self]
  have hother : ∀ m, m ≠ kind.isMeta → r'.pools.pool m = r.pools.pool m := by
    intro m hm
    rw [hpools, StagingPools.pool_settle_ne hm]
  have htold : r'.pools.Told := hpools ▸ h.told.settle hopens
  have hcur : cur.Tiled := by
    rcases hopens.mem_or_fresh with hmem | ⟨salt, rfl⟩
    · exact h.tiled cur (mem_packs.2 (.inl ⟨_, hmem⟩))
    · exact .nil
  -- a pack is the one that took the blob, or was there before
  have hmem : ∀ sp ∈ r'.packs, sp = cur.push kind id bytes ∨ sp ∈ r.packs := by
    intro sp hsp
    rw [mem_packs, hgone, mem_append] at hsp
    rw [mem_packs]
    rcases hsp with ⟨m, hsp⟩ | hsp | hsp
    · by_cases hm : m = kind.isMeta
      · rw [hm, hself] at hsp
        exact .inl (mem_singleton.1 hsp)
      · exact .inr (.inl ⟨m, hother m hm ▸ hsp⟩)
    · exact .inr (.inr hsp)
    · exact .inr (.inl ⟨_, hopens.subset hsp⟩)
  rw [hr']
  refine ⟨htold, fun sp hsp => ?_, fun sp hsp => ?_, ?_⟩
  · rcases hmem sp hsp with rfl | hold
    · exact ⟨_, htold.kinds kind.isMeta _ (by simp [hself])⟩
    · exact h.kinds sp hold
  · rcases hmem sp hsp with rfl | hold
    · exact hcur.push ..
    · exact h.tiled sp hold
  · refine (perm_packs r' kind.isMeta).trans (perm_iff_count.2 fun x => ?_)
    have hold := ((perm_packs r kind.isMeta).symm.trans h.blobs).count_eq x
    rw [blobs_opens hopens] at hold
    rw [hself, hother _ (by simp), hgone, flatMap_singleton, hcur.blobs_push, flatMap_append]
    simp only [count_append] at hold ⊢
    omega

/-- Draining hands out every pack that is open. -/
theorem Staged.drainAll [PackEnv] {all : List Blob} {r : PoolRun} (h : Staged all r) :
    Staged all (r.step .drainAll) := by
  have hmem : ∀ sp ∈ (r.step .drainAll).packs, sp ∈ r.packs := by
    intro sp hsp
    rcases mem_append.1 hsp with hsp | hsp
    · cases hsp
    · rcases mem_append.1 hsp with hsp | hsp
      · exact mem_append_right _ hsp
      · exact mem_append_left _ (mem_filter.1 hsp).1
  refine ⟨StagingPools.told_new, fun sp hsp => h.kinds sp (hmem sp hsp), fun sp hsp => h.tiled sp (hmem sp hsp), ?_⟩
  have hfilter : ∀ l : List StagingPack, (l.filter (·.entries ≠ [])).flatMap (·.blobs) = l.flatMap (·.blobs) := by
    intro l
    induction l with
    | nil => rfl
    | cons sp l ih =>
      by_cases hsp : sp.entries = []
      · rw [filter_cons_of_neg (by simpa using hsp), ih, flatMap_cons, StagingPack.blobs, hsp]
        rfl
      · rw [filter_cons_of_pos (by simpa using hsp), flatMap_cons, ih, flatMap_cons]
  refine List.Perm.trans ?_ h.blobs
  show ((r.gone ++ (r.openPacks).filter _).flatMap _).Perm _
  rw [packs, flatMap_append, flatMap_append, hfilter]
  exact perm_append_comm

/-- The run lemma: what was offered is in the packs handed out and those still open, each blob once. -/
theorem staged_run [PackEnv] (calls : List PoolCall) : Staged (offered calls) (run calls) := by
  suffices hrun : ∀ (all : List Blob) (r : PoolRun), Staged all r →
      Staged (all ++ offered calls) (calls.foldl step r) from by
    exact hrun [] start staged_start
  induction calls with
  | nil => simp [offered]
  | cons call calls ih =>
    intro all r h
    cases call with
    | offer b target => simpa [offered] using ih _ _ (h.offer b target)
    | drainAll => exact ih _ _ h.drainAll

/-- Staging knows its blobs: the index, the bytes, the kinds, the one pack of each blob, the tiling. -/
theorem staging_knows [PackEnv] {calls : List PoolCall} (hdistinct : ((offered calls).map Blob.key).Nodup) :
    (∀ kind id, (run calls).pools.contains kind id ↔ Packed (run calls).openPacks kind id) ∧
      (∀ b ∈ offered calls, (run calls).pools.contains b.kind b.id →
        (run calls).pools.stagedBytes b.kind b.id = some b.bytes) ∧
      (∀ sp ∈ (run calls).packs, ∀ e ∈ sp.entries, ∀ e' ∈ sp.entries, e.kind.isMeta = e'.kind.isMeta) ∧
      (∀ b ∈ offered calls, ∃! i : Nat, ∃ sp : StagingPack, (run calls).packs[i]? = some sp ∧ b ∈ sp.blobs) ∧
      ∀ sp ∈ (run calls).packs, TilesBody sp.entries sp.body.length := by
  have h := staged_run calls
  refine ⟨fun kind id => ?_, fun b hb hc => ?_, fun sp hsp e he e' he' => ?_, fun b hb => ?_, h.tiled⟩
  · rw [h.told.contains_iff]
    constructor
    · rintro ⟨sp, hsp, hhas⟩
      refine ⟨sp, ?_, hhas⟩
      cases hm : kind.isMeta <;> rw [hm] at hsp <;> simp [openPacks, hsp]
    · rintro ⟨sp, hsp, hhas⟩
      rcases mem_append.1 hsp with hsp | hsp
      · exact ⟨sp, by rwa [h.told.kinds _ sp hsp kind id hhas], hhas⟩
      · exact ⟨sp, by rwa [h.told.kinds _ sp hsp kind id hhas], hhas⟩
  · obtain ⟨loc, hloc⟩ := Option.isSome_iff_exists.1 hc
    obtain ⟨sp, hsp, he⟩ := h.told.located b.kind b.id loc hloc
    have hpack : sp ∈ (run calls).packs := mem_packs.2 (.inl ⟨_, mem_of_getElem? hsp⟩)
    have hblob : ⟨b.kind, b.id, (sp.body.drop loc.plainOff).take loc.plainLen⟩ ∈ offered calls :=
      h.blobs.subset (mem_flatMap.2 ⟨sp, hpack, mem_map.2 ⟨_, he, rfl⟩⟩)
    have hbytes := congrArg Blob.bytes (inj_on_of_nodup_map hdistinct hblob hb rfl)
    unfold StagingPools.stagedBytes
    rw [hloc]
    dsimp only at hbytes ⊢
    rw [hsp, ← hbytes]
    exact if_pos ((h.tiled sp hpack).inside _ he)
  · obtain ⟨m, hm⟩ := h.kinds sp hsp
    exact (hm _ _ ⟨e, he, rfl, rfl⟩).trans (hm _ _ ⟨e', he', rfl, rfl⟩).symm
  · obtain ⟨sp, hsp, hin⟩ := mem_flatMap.1 (h.blobs.symm.subset hb)
    obtain ⟨i, hi⟩ := mem_iff_getElem?.1 hsp
    have hapart := (nodup_flatMap.1 (h.blobs.nodup_iff.2 (List.Nodup.of_map _ hdistinct))).2
    -- two packs with the blob would have it in common
    have hlt : ∀ (i j : Nat) (sp sp' : StagingPack), (run calls).packs[i]? = some sp →
        (run calls).packs[j]? = some sp' → b ∈ sp.blobs → b ∈ sp'.blobs → ¬ i < j := by
      intro i j sp sp' hi hj hin hin' hlt
      obtain ⟨hi', rfl⟩ := List.getElem?_eq_some_iff.1 hi
      obtain ⟨hj', rfl⟩ := List.getElem?_eq_some_iff.1 hj
      exact pairwise_iff_getElem.1 hapart i j hi' hj' hlt hin hin'
    refine ⟨i, ⟨sp, hi, hin⟩, ?_⟩
    rintro j ⟨sp', hj, hin'⟩
    have h₁ := hlt i j sp sp' hi hj hin hin'
    have h₂ := hlt j i sp' sp hj hi hin' hin
    omega

end PoolRun

section
open scoped Sample

def threeOffers : List PoolCall :=
  [.offer ⟨.dataChunk, zeroId, [1, 2]⟩ 3, .offer ⟨.dataChunk, ByteArr.fill 32 1, [3, 4]⟩ 3, .drainAll,
    .offer ⟨.treeNode, zeroId, [5]⟩ 3]

theorem staging_knows_threeOffers : ((offered threeOffers).map Blob.key).Nodup ∧
    (PoolRun.run threeOffers).gone.length = 2 ∧
    (PoolRun.run threeOffers).pools.stagedBytes .treeNode zeroId = some [5] := by
  have hdistinct : ((offered threeOffers).map Blob.key).Nodup := by decide +kernel
  exact ⟨hdistinct, by decide +kernel, (PoolRun.staging_knows hdistinct).2.1 ⟨.treeNode, zeroId, [5]⟩
    (by decide +kernel) (by decide +kernel)⟩

end

/-! ## The draws have no choice -/

namespace StagingPack

def keys (sp : StagingPack) : List (BlobKind × BlobId) := sp.entries.map fun e => (e.kind, e.id)

def content (sp : StagingPack) : ContainerKind × Bytes × List FooterEntry := (sp.kind, sp.body, sp.entries)

theorem content_eq_iff {sp sp' : StagingPack} : sp.content = sp'.content ↔
    sp.kind = sp'.kind ∧ sp.body = sp'.body ∧ sp.entries = sp'.entries := by
  simp [content]

end StagingPack

namespace PoolRun

def grouping (r : PoolRun) : List (List (BlobKind × BlobId)) := r.packs.map (·.keys)

/-- The packs of the two runs differ in their salts only. -/
structure Same (r r' : PoolRun) : Prop where
  pools : ∀ m, (r.pools.pool m).map (·.content) = (r'.pools.pool m).map (·.content)
  gone : r.gone.map (·.content) = r'.gone.map (·.content)

theorem Same.opens {p p' : StagingPools} {kind : BlobKind} {bytes : Bytes} {target : Nat}
    {cur cur' : StagingPack} {out out' : List StagingPack}
    (h : (p.pool kind.isMeta).map (·.content) = (p'.pool kind.isMeta).map (·.content))
    (hopens : p.Opens kind bytes target cur out) (hopens' : p'.Opens kind bytes target cur' out') :
    cur.content = cur'.content ∧ out.map (·.content) = out'.map (·.content) := by
  -- a pack that has room is not one that leaves
  have hroom : ∀ {cur : StagingPack} {out : List StagingPack}, [cur.content] = out.map (·.content) →
      ¬ StagingPools.overflows cur bytes target → ¬ ∀ sp ∈ out, StagingPools.overflows sp bytes target := by
    intro cur out heq hroom hover
    obtain ⟨sp, rfl, hsp⟩ := map_eq_singleton_iff.1 heq.symm
    obtain ⟨-, hbody, hentries⟩ := StagingPack.content_eq_iff.1 hsp
    have := hover sp (mem_singleton.2 rfl)
    rw [StagingPools.overflows, hbody, hentries] at this
    exact hroom this
  rcases hopens with ⟨hpool, rfl, hfits⟩ | ⟨hpool, hover, salt, rfl⟩ <;>
    rcases hopens' with ⟨hpool', rfl, hfits'⟩ | ⟨hpool', hover', salt', rfl⟩ <;> rw [hpool, hpool'] at h
  · exact ⟨by simpa using h, rfl⟩
  · exact absurd hover' (hroom h hfits)
  · exact absurd hover (hroom h.symm hfits')
  · exact ⟨rfl, h⟩

/-- Two runs with different draws stay alike, since a pool has one open pack at most. -/
theorem Same.step {r r' : PoolRun} (h : Same r r') (htold : r.pools.Told) (htold' : r'.pools.Told)
    (env env' : PackEnv) (call : PoolCall) : Same (@step env r call) (@step env' r' call) := by
  cases call with
  | drainAll =>
    refine ⟨fun m => rfl, ?_⟩
    have hfilter : ∀ l : List StagingPack, (l.filter (·.entries ≠ [])).map (·.content) =
        (l.map (·.content)).filter (·.2.2 ≠ []) := by
      intro l
      rw [filter_map]
      rfl
    have hopen : (r.pools.data ++ r.pools.meta_).map (·.content) =
        (r'.pools.data ++ r'.pools.meta_).map (·.content) := by
      rw [map_append, map_append]
      exact congrArg₂ _ (h.pools false) (h.pools true)
    show (r.gone ++ r.pools.drainAll).map _ = (r'.gone ++ r'.pools.drainAll).map _
    rw [map_append, map_append, h.gone, StagingPools.drainAll, StagingPools.drainAll, hfilter,
      hfilter, hopen]
  | offer b target =>
    obtain ⟨kind, id, bytes⟩ := b
    obtain ⟨cur, out, d, hoffer, hopens⟩ :=
      @StagingPools.offer_single r.pools kind env (htold.single _) r.draw id bytes target
    obtain ⟨cur', out', d', hoffer', hopens'⟩ :=
      @StagingPools.offer_single r'.pools kind env' (htold'.single _) r'.draw id bytes target
    obtain ⟨hcur, hout⟩ := Same.opens (h.pools _) hopens hopens'
    refine ⟨fun m => ?_, ?_⟩
    · simp only [PoolRun.step, hoffer, hoffer']
      by_cases hm : m = kind.isMeta
      · obtain ⟨hkind, hbody, hentries⟩ := StagingPack.content_eq_iff.1 hcur
        subst hm
        rw [StagingPools.pool_settle_self, StagingPools.pool_settle_self]
        simp [StagingPack.content, StagingPack.push, hkind, hbody, hentries]
      · rw [StagingPools.pool_settle_ne hm, StagingPools.pool_settle_ne hm]
        exact h.pools m
    · simp only [PoolRun.step, hoffer, hoffer', map_append, h.gone, hout]

theorem grouping_run (env env' : PackEnv) (calls : List PoolCall) :
    (@run env calls).grouping = (@run env' calls).grouping := by
  have hsame : Same (@run env calls) (@run env' calls) := by
    induction calls using List.reverseRecOn with
    | nil => exact ⟨fun _ => rfl, rfl⟩
    | append_singleton calls call ih =>
      have hsnoc : ∀ env : PackEnv, @run env (calls ++ [call]) = @step env (@run env calls) call := by
        intro env
        exact foldl_concat ..
      rw [hsnoc, hsnoc]
      exact ih.step (@staged_run env calls).told (@staged_run env' calls).told env env' call
  have hkeys : ∀ r : PoolRun,
      r.grouping = (r.packs.map (·.content)).map fun c => c.2.2.map fun e => (e.kind, e.id) := by
    intro r
    rw [map_map]
    rfl
  rw [hkeys, hkeys, packs, packs, openPacks, openPacks]
  simp only [map_append, hsame.pools, hsame.gone]

end PoolRun

namespace StagingPools

/-- The blobs in the pack of a staged blob. -/
def beside (p : StagingPools) (kind : BlobKind) (id : BlobId) : Option (List (BlobKind × BlobId)) := do
  let loc ← p.index (kind, id)
  let sp ← (p.pool kind.isMeta)[loc.pack]?
  return sp.keys

variable {p : StagingPools} {kind : BlobKind} {id : BlobId} {bytes : Bytes} {idx : Nat} {sp : StagingPack}

theorem beside_stage (hsp : (p.pool kind.isMeta)[idx]? = some sp) :
    (p.stage idx sp kind id bytes).beside kind id = some (sp.keys ++ [(kind, id)]) := by
  have hindex : (p.stage idx sp kind id bytes).index (kind, id) = some ⟨idx, sp.body.length, bytes.length⟩ :=
    Function.update_self ..
  unfold beside
  rw [hindex, pool_stage_self]
  simp [List.getElem?_set_self (List.getElem?_eq_some_iff.1 hsp).1, StagingPack.keys, StagingPack.push]

/-- The blobs that an offered one is packed with: those of an open pack with room, or none. -/
theorem beside_offer [PackEnv] (p : StagingPools) (draw : Nat) (kind : BlobKind) (id : BlobId) (bytes : Bytes)
    (target : Nat) : ∃ group, (p.offer draw kind id bytes target).1.beside kind id = some (group ++ [(kind, id)]) ∧
      ((∃ sp ∈ p.pool kind.isMeta, ¬ overflows sp bytes target ∧ sp.keys = group) ∨
        (group = [] ∧ ∀ sp ∈ p.pool kind.isMeta, overflows sp bytes target)) := by
  have hrun : offerLoop kind id bytes target ((p.pool kind.isMeta).length + 1) draw p [] =
      ((p.offer draw kind id bytes target).1, (p.offer draw kind id bytes target).2) := rfl
  have hrule := offerLoop_rule
    (I := fun q _ => (∀ sp ∈ p.pool kind.isMeta, ¬ overflows sp bytes target → sp ∈ q.pool kind.isMeta) ∧
      ∀ sp ∈ q.pool kind.isMeta, sp ∈ p.pool kind.isMeta ∨
        (sp.keys = [] ∧ ∀ sp ∈ p.pool kind.isMeta, overflows sp bytes target))
    ?_ ?_ ⟨fun _ hsp _ => hsp, fun _ hsp => .inl hsp⟩ (Nat.lt_succ_self _) hrun
  · obtain ⟨q, idx, sp, ⟨-, hfrom⟩, hsp, hroom, hq⟩ := hrule
    refine ⟨sp.keys, by rw [hq, beside_stage hsp], ?_⟩
    exact (hfrom sp (mem_of_getElem? hsp)).imp_left fun hin => ⟨sp, hin, hroom, rfl⟩
  · rintro q out salt hnil ⟨hkeep, -⟩
    rw [hnil] at hkeep
    rw [pool_setPool_self]
    have hover : ∀ sp ∈ p.pool kind.isMeta, overflows sp bytes target := fun sp hsp =>
      not_not.1 fun hroom => not_mem_nil (hkeep sp hsp hroom)
    exact ⟨fun sp hsp hroom => absurd (hover sp hsp) hroom,
      fun sp hsp => .inr ⟨by rw [mem_singleton.1 hsp]; rfl, hover⟩⟩
  · rintro q out idx sp ⟨hkeep, hfrom⟩ hsp hover
    rw [pool_takePack_self]
    refine ⟨fun sp' hsp' hroom => ?_, fun sp' hsp' => hfrom sp' (mem_of_mem_eraseIdx hsp')⟩
    obtain ⟨j, hj⟩ := mem_iff_getElem?.1 (hkeep sp' hsp' hroom)
    refine mem_eraseIdx_iff_getElem?.2 ⟨j, ?_, hj⟩
    rintro rfl
    cases hsp.symm.trans hj
    exact hroom hover

/-- Draws decide beside which blobs a blob is put just when two open packs with different blobs have
room for it. -/
theorem beside_offer_iff (p : StagingPools) (kind : BlobKind) (id : BlobId) (bytes : Bytes) (target : Nat) :
    (∃ (env env' : PackEnv) (draw draw' : Nat), (@offer env p draw kind id bytes target).1.beside kind id ≠
      (@offer env' p draw' kind id bytes target).1.beside kind id) ↔
      ∃ sp ∈ p.pool kind.isMeta, ∃ sp' ∈ p.pool kind.isMeta, ¬ overflows sp bytes target ∧
        ¬ overflows sp' bytes target ∧ sp.keys ≠ sp'.keys := by
  constructor
  · rintro ⟨env, env', draw, draw', hne⟩
    obtain ⟨group, hgroup, hcases⟩ := @beside_offer env p draw kind id bytes target
    obtain ⟨group', hgroup', hcases'⟩ := @beside_offer env' p draw' kind id bytes target
    rw [hgroup, hgroup'] at hne
    rcases hcases with ⟨sp, hsp, hroom, rfl⟩ | ⟨rfl, hover⟩ <;>
      rcases hcases' with ⟨sp', hsp', hroom', rfl⟩ | ⟨rfl, hover'⟩
    · exact ⟨sp, hsp, sp', hsp', hroom, hroom', fun heq => hne (by rw [heq])⟩
    · exact absurd (hover' sp hsp) hroom
    · exact absurd (hover sp' hsp') hroom'
    · exact absurd rfl hne
  · rintro ⟨sp, hsp, sp', hsp', hroom, hroom', hne⟩
    have hpick : ∀ (i : Nat) sp, (p.pool kind.isMeta)[i]? = some sp → ¬ overflows sp bytes target →
        (@offer Sample.samplePackEnv p i kind id bytes target).1.beside kind id =
          some (sp.keys ++ [(kind, id)]) := by
      intro i sp hi hroom
      have hlt := (List.getElem?_eq_some_iff.1 hi).1
      have hpool : p.pool kind.isMeta ≠ [] := List.ne_nil_of_length_pos (by omega)
      have hidx : @PackEnv.pick Sample.samplePackEnv i % (p.pool kind.isMeta).length = i := Nat.mod_eq_of_lt hlt
      unfold offer
      simp only [offerLoop, if_neg hpool, hidx, hi, if_neg hroom]
      exact beside_stage hi
    obtain ⟨i, hi⟩ := mem_iff_getElem?.1 hsp
    obtain ⟨j, hj⟩ := mem_iff_getElem?.1 hsp'
    refine ⟨Sample.samplePackEnv, Sample.samplePackEnv, i, j, ?_⟩
    rw [hpick i sp hi hroom, hpick j sp' hj hroom']
    simpa using hne

end StagingPools

/-- Whatever the target size, no draws group blobs of one kind differently. -/
theorem offers_grouped_alike (target : Nat) : ¬ ∃ (kind : BlobKind) (blobs : List Blob) (env env' : PackEnv),
    (∀ b ∈ blobs, b.kind = kind) ∧ (@PoolRun.run env (blobs.map (.offer · target))).grouping ≠
        (@PoolRun.run env' (blobs.map (.offer · target))).grouping := by
  rintro ⟨kind, blobs, env, env', -, hne⟩
  exact hne (PoolRun.grouping_run env env' _)

theorem offers_not_spread : ¬ ∀ target, ∃ (kind : BlobKind) (blobs : List Blob) (env env' : PackEnv),
    (∀ b ∈ blobs, b.kind = kind) ∧ (@PoolRun.run env (blobs.map (.offer · target))).grouping ≠
        (@PoolRun.run env' (blobs.map (.offer · target))).grouping := by
  intro hspread
  obtain ⟨kind, blobs, env, env', -, hne⟩ := hspread sealTargetBytes
  exact hne (PoolRun.grouping_run env env' _)

end Ferry
