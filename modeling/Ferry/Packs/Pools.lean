import Ferry.Packs.Sound

/-! # Pools with one open pack each

`offer` opens a pack only when its pool has none, so a pool never has more than
one. Several threads that put the same blob may each find it missing before any
of them has staged it, and then stage it more than once; the index tells of the
last copy. So here the index tells where a blob lies without being the only
place where it does, and that suffices to say what goes to disk and when.
-/

namespace Ferry

open Lib List Function

def StagingPack.Has (sp : StagingPack) (kind : BlobKind) (id : BlobId) : Prop :=
  ∃ e ∈ sp.entries, e.kind = kind ∧ e.id = id

def StagingPack.Apart (sp sp' : StagingPack) : Prop := ∀ kind id, sp.Has kind id → ¬ sp'.Has kind id

theorem packed_iff {packs : List StagingPack} {kind : BlobKind} {id : BlobId} :
    Packed packs kind id ↔ ∃ sp ∈ packs, sp.Has kind id := Iff.rfl

def StagingPack.Within (B : Set Bytes) (sp : StagingPack) : Prop :=
  ∀ e ∈ sp.entries, (sp.body.drop e.plainOff).take e.plainLen ∈ B

variable {bytes : Bytes}

theorem StagingPack.has_push {sp : StagingPack} {kind kind' : BlobKind} {id id' : BlobId} :
    (sp.push kind id bytes).Has kind' id' ↔ sp.Has kind' id' ∨ (kind = kind' ∧ id = id') := by
  simp [StagingPack.Has, StagingPack.push]

/-! ## What `offer` does -/

namespace StagingPools

/-- The blob is the last one in `cur`, the open pack of its pool; the packs in `out` have left it. -/
def settle (p : StagingPools) (cur : StagingPack) (out : List StagingPack) (kind : BlobKind) (id : BlobId)
    (bytes : Bytes) : StagingPools :=
  { p.setPool kind.isMeta [cur.push kind id bytes] with
    index := update (dropEntries p.index (out.flatMap (·.entries))) (kind, id)
      (some ⟨0, cur.body.length, bytes.length⟩) }

variable {p : StagingPools} {kind : BlobKind} {id : BlobId} {target : Nat} {sp : StagingPack}

theorem stage_eq_settle (hpool : p.pool kind.isMeta = [sp]) :
    p.stage 0 sp kind id bytes = p.settle sp [] kind id bytes := by
  unfold stage settle
  rw [hpool]
  rfl

theorem not_overflows_fresh (c : ContainerKind) (salt : ByteArr 16) :
    ¬ overflows (.fresh c salt) bytes target := by
  simp [overflows, StagingPack.fresh]

theorem offerLoop_nil [PackEnv] (hpool : p.pool kind.isMeta = []) (fuel draw : Nat) (out : List StagingPack) :
    offerLoop kind id bytes target (fuel + 1) draw p out =
      (p.settle (.fresh (containerFor kind) (PackEnv.salt draw)) [] kind id bytes, out, draw + 2) := by
  have hsettle : (p.setPool kind.isMeta [.fresh (containerFor kind) (PackEnv.salt draw)]).settle
      (.fresh (containerFor kind) (PackEnv.salt draw)) [] kind id bytes =
      p.settle (.fresh (containerFor kind) (PackEnv.salt draw)) [] kind id bytes := by
    unfold settle
    cases kind.isMeta <;> rfl
  simp [offerLoop, hpool, not_overflows_fresh, Nat.mod_one, stage_eq_settle, hsettle]

/-- The one open pack has room, or what is open leaves and a fresh one is opened. -/
def Opens (p : StagingPools) (kind : BlobKind) (bytes : Bytes) (target : Nat) (cur : StagingPack)
    (out : List StagingPack) : Prop :=
  (p.pool kind.isMeta = [cur] ∧ out = [] ∧ ¬ overflows cur bytes target) ∨
    (p.pool kind.isMeta = out ∧ (∀ sp ∈ out, overflows sp bytes target) ∧
      ∃ salt, cur = .fresh (containerFor kind) salt)

/-- With one open pack at most the draw makes no difference. -/
theorem offer_single [PackEnv] (hone : (p.pool kind.isMeta).length ≤ 1) (draw : Nat) (id : BlobId)
    (bytes : Bytes) (target : Nat) :
    ∃ cur out draw', p.offer draw kind id bytes target = (p.settle cur out kind id bytes, out, draw') ∧
      p.Opens kind bytes target cur out := by
  unfold offer Opens
  cases hpool : p.pool kind.isMeta with
  | nil => exact ⟨_, [], _, offerLoop_nil hpool 0 draw [], .inr ⟨rfl, by simp, _, rfl⟩⟩
  | cons sp rest =>
    rw [hpool, length_cons] at hone
    obtain rfl : rest = [] := length_eq_zero_iff.1 (by omega)
    by_cases hover : overflows sp bytes target
    · have htake : p.takePack kind.isMeta 0 sp =
          { p.setPool kind.isMeta [] with index := dropEntries p.index sp.entries } := by
        unfold takePack
        rw [hpool]
        rfl
      have hnil : (p.takePack kind.isMeta 0 sp).pool kind.isMeta = [] := by
        rw [pool_takePack_self, hpool]
        rfl
      have hsettle : ∀ cur, (p.takePack kind.isMeta 0 sp).settle cur [] kind id bytes =
          p.settle cur [sp] kind id bytes := by
        intro cur
        rw [htake]
        unfold settle
        rw [flatMap_singleton]
        cases kind.isMeta <;> rfl
      have hround : offerLoop kind id bytes target ([sp].length + 1) draw p [] =
          offerLoop kind id bytes target 1 (draw + 1) (p.takePack kind.isMeta 0 sp) [sp] := by
        rw [offerLoop]
        simp [hpool, Nat.mod_one, hover]
      exact ⟨_, [sp], _, hround.trans ((offerLoop_nil hnil 0 (draw + 1) [sp]).trans (by rw [hsettle])),
        .inr ⟨rfl, by simpa using hover, _, rfl⟩⟩
    · refine ⟨sp, [], draw + 1, ?_, .inl ⟨rfl, rfl, hover⟩⟩
      simp [offerLoop, hpool, Nat.mod_one, hover, stage_eq_settle]

theorem pool_settle_self {cur : StagingPack} {out : List StagingPack} :
    (p.settle cur out kind id bytes).pool kind.isMeta = [cur.push kind id bytes] :=
  pool_setPool_self ..

theorem pool_settle_ne {cur : StagingPack} {out : List StagingPack} {m : Bool} (h : m ≠ kind.isMeta) :
    (p.settle cur out kind id bytes).pool m = p.pool m :=
  pool_setPool_ne p h _

theorem contains_settle {cur : StagingPack} {out : List StagingPack} {kind' : BlobKind} {id' : BlobId} :
    (p.settle cur out kind id bytes).contains kind' id' ↔
      (p.contains kind' id' ∧ ¬ Packed out kind' id') ∨ (kind = kind' ∧ id = id') := by
  have hout : (kind', id') ∈ (out.flatMap (·.entries)).map (fun e => (e.kind, e.id)) ↔ Packed out kind' id' := by
    simp [Packed]
    grind
  unfold contains settle
  dsimp only
  by_cases hkey : (kind', id') = (kind, id)
  · cases hkey
    simp
  have hother : ¬ (kind = kind' ∧ id = id') := by
    rintro ⟨rfl, rfl⟩
    exact hkey rfl
  rw [update_of_ne hkey, dropEntries, or_iff_left hother]
  split
  · rename_i hin
    exact iff_of_false (by simp) fun h => h.2 (hout.1 hin)
  · rename_i hin
    exact (and_iff_left fun h => hin (hout.2 h)).symm

/-- Pools with at most one open pack each, and an index that tells of each blob in them. -/
structure Told (p : StagingPools) : Prop where
  single : ∀ m, (p.pool m).length ≤ 1
  kinds : ∀ m, ∀ sp ∈ p.pool m, ∀ kind id, sp.Has kind id → kind.isMeta = m
  contains_iff : ∀ kind id, p.contains kind id ↔ Packed (p.pool kind.isMeta) kind id
  located : ∀ kind id loc, p.index (kind, id) = some loc → ∃ sp,
    (p.pool kind.isMeta)[loc.pack]? = some sp ∧ ⟨kind, id, loc.plainOff, loc.plainLen⟩ ∈ sp.entries

theorem told_new : new.Told where
  single m := by cases m <;> exact Nat.zero_le 1
  kinds m sp hsp := by cases m <;> cases hsp
  contains_iff kind id := by
    refine iff_of_false (fun h => (nomatch h)) ?_
    rintro ⟨sp, hsp, -⟩
    cases hm : kind.isMeta <;> rw [hm] at hsp <;> cases hsp
  located kind id loc h := nomatch h

section
variable {cur : StagingPack} {out : List StagingPack} (hopens : p.Opens kind bytes target cur out)
include hopens

theorem Opens.subset : out ⊆ p.pool kind.isMeta := by
  rcases hopens with ⟨-, rfl, -⟩ | ⟨rfl, -⟩
  · exact nil_subset _
  · exact List.Subset.refl _

theorem Opens.mem_or_fresh : cur ∈ p.pool kind.isMeta ∨ ∃ salt, cur = .fresh (containerFor kind) salt := by
  rcases hopens with ⟨hpool, -, -⟩ | ⟨-, -, hfresh⟩
  · exact .inl (by simp [hpool])
  · exact .inr hfresh

/-- Settling an offer keeps the index of staged blobs in step with the pools. -/
theorem Told.settle (h : p.Told) : (p.settle cur out kind id bytes).Told := by
  have hfresh : ∀ c salt k i, ¬ (StagingPack.fresh c salt).Has k i := by
    simp [StagingPack.Has, StagingPack.fresh]
  refine ⟨fun m => ?_, fun m sp hsp k i hhas => ?_, fun k i => ?_, fun k i loc hloc => ?_⟩
  · by_cases hm : m = kind.isMeta
    · rw [hm, pool_settle_self]
      rfl
    · rw [pool_settle_ne hm]
      exact h.single m
  · by_cases hm : m = kind.isMeta
    · rw [hm, pool_settle_self, mem_singleton] at hsp
      rw [hsp, StagingPack.has_push] at hhas
      rcases hhas with hhas | ⟨rfl, -⟩
      · rcases hopens.mem_or_fresh with hcur | ⟨salt, rfl⟩
        · exact hm ▸ h.kinds _ cur hcur k i hhas
        · exact (hfresh _ _ _ _ hhas).elim
      · exact hm.symm
    · rw [pool_settle_ne hm] at hsp
      exact h.kinds m sp hsp k i hhas
  · rw [contains_settle, h.contains_iff]
    by_cases hm : k.isMeta = kind.isMeta
    · rw [hm, pool_settle_self]
      rcases hopens with ⟨hpool, rfl, -⟩ | ⟨hpool, -, salt, rfl⟩
      · simp [hpool, packed_iff, StagingPack.has_push]
      · simp [hpool, packed_iff, StagingPack.has_push, hfresh]
    have hkeep : ¬ Packed out k i := by
      rintro ⟨sp, hsp, hhas⟩
      exact hm (h.kinds _ sp (hopens.subset hsp) k i hhas)
    rw [pool_settle_ne hm, and_iff_left hkeep]
    exact or_iff_left fun hkey => hm (by rw [hkey.1])
  · by_cases hkey : (k, i) = (kind, id)
    · cases hkey
      have hnew : (p.settle cur out kind id bytes).index (kind, id) =
          some ⟨0, cur.body.length, bytes.length⟩ := update_self ..
      cases hnew.symm.trans hloc
      exact ⟨_, by rw [pool_settle_self]; rfl, by simp [StagingPack.push]⟩
    have hloc' : dropEntries p.index (out.flatMap (·.entries)) (k, i) = some loc :=
      (update_of_ne hkey _ _).symm.trans hloc
    rw [dropEntries] at hloc'
    split at hloc'
    · cases hloc'
    rename_i hkeep
    obtain ⟨sp, hsp, he⟩ := h.located k i loc hloc'
    by_cases hm : k.isMeta = kind.isMeta
    · rw [hm] at hsp ⊢
      rcases hopens with ⟨hpool, -, -⟩ | ⟨rfl, -⟩
      · rw [hpool] at hsp
        obtain ⟨hzero, rfl⟩ : loc.pack = 0 ∧ cur = sp := by simpa using List.getElem?_eq_some_iff.1 hsp
        exact ⟨_, by rw [pool_settle_self, hzero]; rfl, List.mem_append_left _ he⟩
      · exact absurd (mem_map.2 ⟨_, mem_flatMap.2 ⟨sp, mem_of_getElem? hsp, he⟩, rfl⟩) hkeep
    · exact ⟨sp, by rwa [pool_settle_ne hm], he⟩

end

end StagingPools

/-! ## Pools that say the truth -/

section
variable [Env]

/-- An open pack whose entries say the truth, with blobs from `B`, as `offer` fills it. -/
structure StagingPack.Ready (B : Set Bytes) (isMeta : Bool) (sp : StagingPack) : Prop where
  wf : sp.Wf isMeta
  neat : sp.Neat isMeta
  within : sp.Within B

variable {B : Set Bytes}

theorem StagingPack.ready_fresh (kind : BlobKind) (salt : ByteArr 16) :
    (StagingPack.fresh (containerFor kind) salt).Ready B kind.isMeta where
  wf := ⟨fun _ he => (nomatch he), fun _ he => (nomatch he)⟩
  neat := StagingPack.neat_fresh kind salt
  within _ he := nomatch he

variable {sp : StagingPack} {m : Bool}

theorem StagingPack.Within.push (h : sp.Within B) (hwf : sp.Wf m)
    (kind : BlobKind) (id : BlobId) (hbytes : bytes ∈ B) : (sp.push kind id bytes).Within B := by
  intro e he
  show ((sp.body ++ bytes).drop e.plainOff).take e.plainLen ∈ B
  rcases mem_append.1 he with he | he
  · have hlen := (hwf.holds e he).1
    rw [drop_append_of_le_length (by omega), take_append_of_le_length (by simp; omega)]
    exact h e he
  · rw [mem_singleton.1 he]
    simpa using hbytes

theorem StagingPack.Ready.push {kind : BlobKind} (h : sp.Ready B kind.isMeta)
    (hne : bytes ≠ []) (hbytes : bytes ∈ B) (hrange : segmentCount bytes.length ≤ 2 ^ 31)
    (hopen : ¬ StagingPools.overflows sp bytes sealTargetBytes) :
    (sp.push kind (Env.blake3 bytes) bytes).Ready B kind.isMeta where
  wf := h.wf.push rfl bytes
  neat := h.neat.push _ hne hrange hopen
  within := h.within.push h.wf kind _ hbytes

theorem StagingPack.Ready.isMeta_eq (h : sp.Ready B m) {kind : BlobKind}
    {id : BlobId} (hhas : sp.Has kind id) : kind.isMeta = m := by
  obtain ⟨e, he, rfl, -⟩ := hhas
  exact h.wf.kinds e he

/-- Pools with at most one open pack each, and an index that tells of each blob in them. -/
structure StagingPools.Slim (B : Set Bytes) (p : StagingPools) : Prop where
  single : ∀ m, (p.pool m).length ≤ 1
  ready : ∀ m, ∀ sp ∈ p.pool m, sp.Ready B m
  contains_iff : ∀ kind id, p.contains kind id ↔ Packed (p.pool kind.isMeta) kind id
  located : ∀ kind id loc, p.index (kind, id) = some loc → ∃ sp,
    (p.pool kind.isMeta)[loc.pack]? = some sp ∧ ⟨kind, id, loc.plainOff, loc.plainLen⟩ ∈ sp.entries

namespace StagingPools

variable {p : StagingPools} {kind : BlobKind} {id : BlobId}

theorem slim_new : new.Slim B where
  __ := told_new
  ready m sp hsp := by cases m <;> cases hsp

theorem Slim.told (h : p.Slim B) : p.Told :=
  { h with kinds := fun m sp hsp _ _ hhas => (h.ready m sp hsp).isMeta_eq hhas }

namespace Slim

variable (h : p.Slim B)
include h

theorem stagedBytes (hc : p.contains kind id) :
    ∃ b ∈ B, p.stagedBytes kind id = some b ∧ Env.blake3 b = id := by
  obtain ⟨loc, hloc⟩ := Option.isSome_iff_exists.1 hc
  obtain ⟨sp, hsp, he⟩ := h.located kind id loc hloc
  have hready := h.ready _ sp (mem_of_getElem? hsp)
  obtain ⟨hlen, hhash⟩ := hready.wf.holds _ he
  refine ⟨_, hready.within _ he, ?_, hhash⟩
  unfold StagingPools.stagedBytes
  rw [hloc]
  dsimp only
  rw [hsp]
  exact if_pos hlen

theorem of_stagedBytes {b : Bytes} (hstaged : p.stagedBytes kind id = some b) : b ∈ B ∧ Env.blake3 b = id := by
  have hcontains : p.contains kind id := by
    unfold StagingPools.stagedBytes at hstaged
    unfold StagingPools.contains
    cases hix : p.index (kind, id) with
    | none =>
      rw [hix] at hstaged
      cases hstaged
    | some => rfl
  obtain ⟨b', hb', hstaged', hhash⟩ := h.stagedBytes hcontains
  rw [hstaged] at hstaged'
  cases hstaged'
  exact ⟨hb', hhash⟩

/-! ## What leaves the pools -/

theorem packed_drainAll : Packed p.drainAll kind id ↔ p.contains kind id := by
  rw [h.contains_iff]
  constructor
  · rintro ⟨sp, hsp, hhas⟩
    obtain ⟨hin, -⟩ := mem_filter.1 hsp
    rcases mem_append.1 hin with hin | hin
    · exact ⟨sp, by rwa [(h.ready false sp hin).isMeta_eq hhas], hhas⟩
    · exact ⟨sp, by rwa [(h.ready true sp hin).isMeta_eq hhas], hhas⟩
  · rintro ⟨sp, hsp, e, he, hkey⟩
    refine ⟨sp, mem_filter.2 ⟨mem_append.2 ?_, by simpa using ne_nil_of_mem he⟩, e, he, hkey⟩
    cases hm : kind.isMeta with
    | false =>
      rw [hm] at hsp
      exact .inl hsp
    | true =>
      rw [hm] at hsp
      exact .inr hsp

theorem ready_drainAll (hsp : sp ∈ p.drainAll) : ∃ m, sp.Ready B m := by
  rcases mem_append.1 (mem_filter.1 hsp).1 with hin | hin
  · exact ⟨false, h.ready false sp hin⟩
  · exact ⟨true, h.ready true sp hin⟩

theorem apart_drainAll : p.drainAll.Pairwise StagingPack.Apart := by
  have hpool : ∀ m, (p.pool m).Pairwise StagingPack.Apart := by
    intro m
    have hsingle := h.single m
    rcases hl : p.pool m with _ | ⟨sp, _ | ⟨sp', rest⟩⟩
    · exact .nil
    · exact pairwise_singleton ..
    · simp [hl] at hsingle
  refine List.Pairwise.filter _ (pairwise_append.2 ⟨hpool false, hpool true, ?_⟩)
  intro sp hsp sp' hsp' kind id hhas hhas'
  have hdata := (h.ready false sp hsp).isMeta_eq hhas
  rw [(h.ready true sp' hsp').isMeta_eq hhas'] at hdata
  cases hdata

end Slim

end StagingPools

end

/-- What `offer` does to the pools: the blob is staged, and at most one pack leaves. -/
theorem StagingPools.Slim.offer [PackEnv] {B : Set Bytes} {p : StagingPools} (h : p.Slim B) {kind : BlobKind}
    (hne : bytes ≠ []) (hbytes : bytes ∈ B) (hrange : segmentCount bytes.length ≤ 2 ^ 31)
    {draw draw' : Nat} {p' : StagingPools} {out : List StagingPack}
    (hrun : p.offer draw kind (Env.blake3 bytes) bytes sealTargetBytes = (p', out, draw')) :
    p'.Slim B ∧ out.length ≤ 1 ∧ (∀ sp ∈ out, sp.Ready B kind.isMeta) ∧
      (∀ k i, Packed out k i → p.contains k i) ∧
      ∀ k i, p'.contains k i ↔ (p.contains k i ∧ ¬ Packed out k i) ∨ (kind = k ∧ Env.blake3 bytes = i) := by
  obtain ⟨cur, out', draw'', hoffer, hopens⟩ := offer_single (h.single kind.isMeta) draw
    (Env.blake3 bytes) bytes sealTargetBytes
  rw [hoffer] at hrun
  cases hrun
  have hcur : cur.Ready B kind.isMeta ∧ ¬ overflows cur bytes sealTargetBytes := by
    rcases hopens with ⟨hpool, -, hroom⟩ | ⟨-, -, salt, rfl⟩
    · exact ⟨h.ready _ cur (by simp [hpool]), hroom⟩
    · exact ⟨StagingPack.ready_fresh kind salt, not_overflows_fresh _ _⟩
  have hout : ∀ sp ∈ out, sp.Ready B kind.isMeta := fun sp hsp => h.ready _ sp (hopens.subset hsp)
  refine ⟨{ h.told.settle hopens with ready := fun m sp hsp => ?_ }, ?_, hout, fun k i hpacked => ?_,
    fun k i => contains_settle⟩
  · by_cases hm : m = kind.isMeta
    · rw [hm, pool_settle_self, mem_singleton] at hsp
      rw [hm, hsp]
      exact hcur.1.push hne hbytes hrange hcur.2
    · rw [pool_settle_ne hm] at hsp
      exact h.ready m sp hsp
  · rcases hopens with ⟨-, rfl, -⟩ | ⟨rfl, -⟩
    · exact Nat.zero_le 1
    · exact h.single _
  · obtain ⟨sp, hsp, hhas⟩ := hpacked
    rw [h.contains_iff, (hout sp hsp).isMeta_eq hhas]
    exact ⟨sp, hopens.subset hsp, hhas⟩

end Ferry
