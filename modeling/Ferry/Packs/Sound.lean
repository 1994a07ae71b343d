import Mathlib.Data.Set.Function
import Ferry.Packs.Readable

/-! # Stores that keep what they are given

A blob that is put waits in an open pack and goes to disk with it. In a store
whose locations can be read, every blob that the store knows stays readable
through all of this: the packs that `offer` fills can be sealed, and what was
sealed can be read.
-/

namespace Ferry

open Lib List

/-! ## Open packs that can be sealed -/

/-- An open pack as `offer` fills it: it is within the target, or holds a single blob. -/
structure StagingPack.Neat (isMeta : Bool) (sp : StagingPack) : Prop where
  kind : sp.kind = if isMeta then .packMeta else .packData
  start : sp.entries = [] → sp.body = []
  full : ∀ e ∈ sp.entries, 0 < e.plainLen
  counted : sp.entries.length ≤ sp.body.length
  small : sp.entries.length ≤ 1 ∨ sp.body.length ≤ sealTargetBytes
  range : segmentCount sp.body.length ≤ 2 ^ 31

theorem StagingPack.neat_fresh (kind : BlobKind) (salt : ByteArr 16) :
    (StagingPack.fresh (containerFor kind) salt).Neat kind.isMeta where
  kind := rfl
  start _ := rfl
  full e he := by cases he
  counted := le_rfl
  small := .inl (Nat.zero_le 1)
  range := by
    change segmentCount 0 ≤ 2 ^ 31
    decide

theorem segmentCount_mono {m n : Nat} (h : m ≤ n) : segmentCount m ≤ segmentCount n := by
  unfold segmentCount segmentPlainLen
  omega

variable {kind : BlobKind} {id : BlobId} {bytes : Bytes}

/-- A blob that fits keeps its pack within the limits of the format. -/
theorem StagingPack.Neat.push {sp : StagingPack} (h : sp.Neat kind.isMeta) (id : BlobId)
    (hne : bytes ≠ []) (hrange : segmentCount bytes.length ≤ 2 ^ 31)
    (hopen : ¬ StagingPools.overflows sp bytes sealTargetBytes) :
    (sp.push kind id bytes).Neat kind.isMeta := by
  have hpos := length_pos_iff.2 hne
  have hbody : (sp.push kind id bytes).body.length = sp.body.length + bytes.length :=
    length_append
  have hentries : (sp.push kind id bytes).entries.length = sp.entries.length + 1 := by
    simp [StagingPack.push]
  have hcounted := h.counted
  have hfits : sp.entries = [] ∨ sp.body.length + bytes.length ≤ sealTargetBytes := by
    by_cases hnil : sp.entries = []
    · exact .inl hnil
    · refine .inr (Nat.not_lt.1 fun hlt => hopen ?_)
      exact decide_eq_true ⟨hnil, hlt⟩
  refine ⟨h.kind, fun hnil => ?_, fun e he => ?_, by omega, ?_, ?_⟩
  · simp [StagingPack.push] at hnil
  · rcases mem_append.1 he with he | he
    · exact h.full e he
    · rw [mem_singleton.1 he]
      exact hpos
  · rcases hfits with hnil | hle
    · exact .inl (by rw [hentries, hnil]; rfl)
    · exact .inr (by omega)
  · rcases hfits with hnil | hle
    · rwa [hbody, h.start hnil, length_nil, Nat.zero_add]
    · exact (segmentCount_mono (hbody ▸ hle)).trans (by decide)

theorem StagingPack.Neat.footer_lt {isMeta : Bool} {sp : StagingPack} (h : sp.Neat isMeta) :
    49 * sp.entries.length + 32 < 2 ^ 32 := by
  have hcounted := h.counted
  have hsmall := h.small
  unfold sealTargetBytes at hsmall
  omega

def StagingPools.Neat (p : StagingPools) : Prop := ∀ m, ∀ sp ∈ p.pool m, sp.Neat m

section
variable [Env]

/-- A pack that has left its pool and goes to disk. -/
structure StagingPack.Sealable (isMeta : Bool) (sp : StagingPack) : Prop where
  wf : sp.Wf isMeta
  neat : sp.Neat isMeta
  unique : ∀ e ∈ sp.entries, ∀ e' ∈ sp.entries, e.kind = e'.kind → e.id = e'.id → e = e'

def Packed (packs : List StagingPack) (kind : BlobKind) (id : BlobId) : Prop :=
  ∃ sp ∈ packs, ∃ e ∈ sp.entries, e.kind = kind ∧ e.id = id

namespace StagingPools

variable {p : StagingPools} {m : Bool} {idx : Nat} {sp : StagingPack}

theorem Wf.unique (h : p.Wf) (hsp : (p.pool m)[idx]? = some sp) :
    ∀ e ∈ sp.entries, ∀ e' ∈ sp.entries, e.kind = e'.kind → e.id = e'.id → e = e' := by
  rintro ⟨k, i, off, len⟩ he ⟨k', i', off', len'⟩ he' rfl rfl
  have hm := (h.packs m sp (mem_of_getElem? hsp)).kinds _ he
  have hloc : ∀ off len, ⟨k, i, off, len⟩ ∈ sp.entries → p.index (k, i) = some ⟨idx, off, len⟩ :=
    fun off len hmem => (h.index k i ⟨idx, off, len⟩).2 ⟨sp, by rw [hm]; exact hsp, hmem⟩
  have heq := (hloc off len he).symm.trans (hloc off' len' he')
  obtain ⟨-, rfl, rfl⟩ := StagedAt.mk.inj (Option.some.inj heq)
  rfl

theorem Wf.sealable (h : p.Wf) (hneat : p.Neat) (hsp : (p.pool m)[idx]? = some sp) : sp.Sealable m :=
  ⟨h.packs m sp (mem_of_getElem? hsp), hneat m sp (mem_of_getElem? hsp), h.unique hsp⟩

theorem Wf.contains_takePack (h : p.Wf) (hsp : (p.pool m)[idx]? = some sp)
    (hc : p.contains kind id) : (p.takePack m idx sp).contains kind id ∨ Packed [sp] kind id := by
  obtain ⟨sp', hsp', e, he, hkind, hid⟩ := h.contains_iff.1 hc
  rw [(h.takePack hsp).contains_iff]
  by_cases hm : kind.isMeta = m
  · subst hm
    obtain ⟨j, hj⟩ := mem_iff_getElem?.1 hsp'
    by_cases hji : j = idx
    · subst hji
      cases hsp.symm.trans hj
      exact .inr ⟨sp, by simp, e, he, hkind, hid⟩
    · refine .inl ⟨sp', ?_, e, he, hkind, hid⟩
      rw [pool_takePack_self]
      exact mem_eraseIdx_iff_getElem?.2 ⟨j, hji, hj⟩
  · refine .inl ⟨sp', ?_, e, he, hkind, hid⟩
    rwa [pool_takePack_ne hm]

omit [Env] in
theorem contains_stage {kind' : BlobKind} {id' : BlobId}
    (hc : p.contains kind' id') : (p.stage idx sp kind id bytes).contains kind' id' := by
  unfold contains stage
  dsimp only
  by_cases hkey : (kind', id') = (kind, id)
  · rw [hkey, Function.update_self]
    rfl
  · rw [Function.update_of_ne hkey]
    exact hc

end StagingPools

end

section
variable [PackEnv]

/-- The packs that an offer hands out can be sealed. -/
theorem StagingPools.offer_sealable {p : StagingPools} (hwf : p.Wf) (hneat : p.Neat)
    (hne : bytes ≠ []) (hrange : segmentCount bytes.length ≤ 2 ^ 31)
    {draw draw' : Nat} {p' : StagingPools} {out : List StagingPack}
    (hrun : p.offer draw kind (Env.blake3 bytes) bytes sealTargetBytes = (p', out, draw')) :
    p'.Neat ∧ (∀ sp ∈ out, sp.Sealable kind.isMeta) ∧
      ∀ k i, p.contains k i → p'.contains k i ∨ Packed out k i := by
  have hrule := offerLoop_rule
    (I := fun q out => q.Wf ∧ q.Neat ∧ (∀ sp ∈ out, sp.Sealable kind.isMeta) ∧
      ∀ k i, p.contains k i → q.contains k i ∨ Packed out k i)
    ?_ ?_ ⟨hwf, hneat, by simp, fun _ _ h => .inl h⟩ (Nat.lt_succ_self _) hrun
  · obtain ⟨q, idx, sp, ⟨hwf, hneat, hout, hkeep⟩, hsp, hopen, rfl⟩ := hrule
    refine ⟨fun m sp' hsp' => ?_, hout, fun k i hc => (hkeep k i hc).imp_left contains_stage⟩
    by_cases hm : m = kind.isMeta
    · subst hm
      rw [pool_stage_self] at hsp'
      rcases mem_or_eq_of_mem_set hsp' with hold | rfl
      · exact hneat _ sp' hold
      · exact (hneat _ sp (mem_of_getElem? hsp)).push _ hne hrange hopen
    · rw [pool_stage_ne hm] at hsp'
      exact hneat m sp' hsp'
  · rintro q out salt hnil ⟨hwf, hneat, hout, hkeep⟩
    refine ⟨hwf.withFresh hnil _ _, fun m sp hsp => ?_, hout, fun k i hc => (hkeep k i hc).imp_left ?_⟩
    · by_cases hm : m = kind.isMeta
      · subst hm
        rw [pool_setPool_self, mem_singleton] at hsp
        rw [hsp]
        exact StagingPack.neat_fresh kind salt
      · rw [pool_setPool_ne q hm] at hsp
        exact hneat m sp hsp
    · intro h
      rwa [contains, index_setPool]
  · rintro q out idx sp ⟨hwf, hneat, hout, hkeep⟩ hsp -
    refine ⟨hwf.takePack hsp, fun m sp' hsp' => ?_, fun sp' hmem => ?_, fun k i hc => ?_⟩
    · by_cases hm : m = kind.isMeta
      · subst hm
        rw [pool_takePack_self] at hsp'
        exact hneat _ sp' (mem_of_mem_eraseIdx hsp')
      · rw [pool_takePack_ne hm] at hsp'
        exact hneat m sp' hsp'
    · rcases mem_append.1 hmem with hmem | hmem
      · exact hout sp' hmem
      · rw [mem_singleton.1 hmem]
        exact hwf.sealable hneat hsp
    · rcases hkeep k i hc with hc | ⟨sp', hsp', he⟩
      · refine (hwf.contains_takePack hsp hc).imp_right ?_
        rintro ⟨sp', hsp', he⟩
        exact ⟨sp', mem_append_right _ hsp', he⟩
      · exact .inr ⟨sp', mem_append_left _ hsp', he⟩

/-! ## Sealed packs -/

def PackDisk.withPack (d : PackDisk) (file : Bytes) : PackDisk :=
  { d with packs := d.packs.insert (packNameOf file) file }

theorem PackDisk.lookup_withPack (d : PackDisk) (file : Bytes) (pack : PackId) :
    (d.withPack file).packs.lookup pack =
      if pack = packNameOf file then some file else d.packs.lookup pack := by
  split
  · rename_i heq
    rw [heq]
    exact AList.lookup_insert _
  · rename_i hne
    exact AList.lookup_insert_ne hne

namespace PackStore

def withPack (s : PackStore) (sp : StagingPack) (file : Bytes) : PackStore :=
  { s with
    disk := { s.disk with packs := s.disk.packs.insert (packNameOf file) file }
    dangling := s.dangling.filter (· ≠ packNameOf file)
    locations := s.locations.merge (sp.entries.map (FooterEntry.located (packNameOf file))) }

def files (s : PackStore) : Set Bytes :=
  {f | (∃ name, s.disk.packs.lookup name = some f) ∨ ∃ vp ∈ s.cache, vp.bytes = f}

/-- What a store keeps to on its own: its open packs are as `offer` leaves them, and its cache
holds packs that were opened under their names. -/
structure Orderly (s : PackStore) : Prop where
  wf : s.staging.Wf
  neat : s.staging.Neat
  target : s.sealTarget = sealTargetBytes
  genuine : s.Genuine s.fmk

/-- A store that can be relied on: its locations can be read as well. -/
structure Sound (s : PackStore) : Prop extends s.Orderly where
  readable : s.LocationsReadable

def Knows (s : PackStore) (kind : BlobKind) (id : BlobId) : Prop :=
  s.staging.contains kind id ∨ s.locations.candidates kind id ≠ []

end PackStore

/-- The pack has been sealed and noted; nothing else has happened but to index files. -/
def PackStore.Sealed (sp : StagingPack) (s s' : PackStore) : Prop :=
  ∃ file, sealPackBytes sp.kind s.fmk sp.salt sp.body sp.entries = .ok file ∧
    (s.withPack sp file).Reindexed s'

theorem sealToDisk_sealed (sp : StagingPack) (s : PackStore) :
    Triple (· = s) (sealToDisk sp) (fun _ => s.Sealed sp) (fun _ s' => s' = s ∨ s.Sealed sp s') := by
  rintro s rfl
  rw [sealToDisk]
  rw [run_bind_ok (run_get s)]
  cases hseal : sealPackBytes sp.kind s.fmk sp.salt sp.body sp.entries with
  | error =>
    exact .inl rfl
  | ok file =>
    have happend : Triple (s.withPack sp file).Reindexed
        (appendIndexFile (sp.entries.map (FooterEntry.located (packNameOf file))))
        (fun _ => s.Sealed sp) (fun _ s' => s' = s ∨ s.Sealed sp s') :=
      (keeps_reindexed_appendIndexFile _).weaken (fun _ h => h) (fun _ _ h => ⟨file, hseal, h⟩)
        (fun _ _ h => .inr ⟨file, hseal, h⟩)
    exact happend (s.withPack sp file) ⟨_, _, _, rfl⟩

variable {fmk : ByteArr 32}

/-- A sealed pack opens, and gives back each blob that was staged in it. -/
theorem StagingPack.Wf.reads {m : Bool} {sp : StagingPack} (h : sp.Wf m) (hneat : sp.Neat m)
    (laws : CipherLaws) {file : Bytes}
    (hseal : sealPackBytes sp.kind fmk sp.salt sp.body sp.entries = .ok file) :
    ∃ ctx, openPack file (packNameOf file) fmk = .ok ctx ∧ ∀ e ∈ sp.entries,
      sp.entries.find? (fun e' => e'.kind = e.kind ∧ e'.id = e.id) = some e →
        readBlobFromCtx file ctx e.kind e.id (e.plainOff, e.plainLen) =
          .ok ((sp.body.drop e.plainOff).take e.plainLen) := by
  obtain ⟨segments, footer, hparts, rfl⟩ := sealPackBytes_parts hseal
  have hkind : sp.kind = .packData ∨ sp.kind = .packMeta := by
    rw [hneat.kind]
    cases m
    · exact .inl rfl
    · exact .inr rfl
  have hlength := le_segmentCount_mul sp.body.length
  have htyped : ∀ e ∈ sp.entries, e.Typed := by
    intro e he
    have hin := (h.holds e he).1
    have hrange := hneat.range
    unfold segmentPlainLen at hlength
    unfold FooterEntry.Typed
    omega
  refine ⟨_, openPack_ok_iff.2 (hparts.opened laws hkind hneat.range htyped hneat.footer_lt), ?_⟩
  intro e he hfind
  obtain ⟨hin, hid⟩ := h.holds e he
  have hfull := hneat.full e he
  have hpart : ((sp.body.drop e.plainOff).take e.plainLen).length = e.plainLen := by
    rw [length_take, length_drop]
    omega
  have hne : (sp.body.drop e.plainOff).take e.plainLen ≠ [] := by
    intro hnil
    rw [hnil, length_nil] at hpart
    omega
  have hread := hparts.readEntry_eq laws hneat.range hne hpart.symm hin rfl hid.symm
  refine Eq.trans ?_ hread
  unfold readBlobFromCtx
  simp only [sealedContext, hfind, ne_eq, not_true_eq_false, if_false]

theorem StagingPack.Sealable.reads {m : Bool} {sp : StagingPack} (h : sp.Sealable m) (laws : CipherLaws)
    {file : Bytes}
    (hseal : sealPackBytes sp.kind fmk sp.salt sp.body sp.entries = .ok file) :
    ∃ ctx, openPack file (packNameOf file) fmk = .ok ctx ∧ ∀ e ∈ sp.entries,
      ∃ b, readBlobFromCtx file ctx e.kind e.id (e.plainOff, e.plainLen) = .ok b := by
  obtain ⟨ctx, hopen, hreads⟩ := h.wf.reads h.neat laws hseal
  refine ⟨ctx, hopen, fun e he => ⟨_, hreads e he ?_⟩⟩
  cases hf : sp.entries.find? (fun e' => e'.kind = e.kind ∧ e'.id = e.id) with
  | none => simpa using find?_eq_none.1 hf e he
  | some e' =>
    have hsame : e'.kind = e.kind ∧ e'.id = e.id := by simpa using find?_some hf
    rw [h.unique e' (mem_of_find?_eq_some hf) e he hsame.1 hsame.2]

namespace PackStore

variable {s : PackStore} {sp : StagingPack} {file : Bytes} {m : Bool}

theorem verified_eq {ctx : PackContext} (hgenuine : s.Genuine s.fmk)
    (hfile : s.disk.packs.lookup (packNameOf file) = some file)
    (hopen : openPack file (packNameOf file) s.fmk = .ok ctx)
    (hinj : ∀ f ∈ s.files, packNameOf f = packNameOf file → f = file) :
    s.verified (packNameOf file) = .ok ⟨packNameOf file, file, ctx⟩ := by
  unfold verified
  cases hfind : s.cache.find (packNameOf file) with
  | none =>
    rw [hfile]
    dsimp only
    rw [hopen]
    rfl
  | some vp =>
    obtain ⟨name, bytes, ctx'⟩ := vp
    have hmem : ⟨name, bytes, ctx'⟩ ∈ s.cache := mem_of_find?_eq_some hfind
    obtain rfl : name = packNameOf file := by simpa using find?_some hfind
    have hvp : openPack bytes (packNameOf file) s.fmk = .ok ctx' := hgenuine.2 _ hmem
    obtain rfl := hinj bytes (.inr ⟨_, hmem, rfl⟩) (openPack_ok_iff.1 hvp).name
    rw [hopen] at hvp
    cases hvp
    rfl

theorem lookup_withPack (s : PackStore) (sp : StagingPack) (file : Bytes) (pack : PackId) :
    (s.withPack sp file).disk.packs.lookup pack =
      if pack = packNameOf file then some file else s.disk.packs.lookup pack :=
  s.disk.lookup_withPack file pack

theorem files_withPack {f : Bytes} (h : f ∈ (s.withPack sp file).files) : f = file ∨ f ∈ s.files := by
  rcases h with ⟨name, hname⟩ | hcache
  · rw [lookup_withPack] at hname
    split at hname
    · cases hname
      exact .inl rfl
    · exact .inr (.inl ⟨name, hname⟩)
  · exact .inr (.inr hcache)

/-- A new pack file hides none of the others. -/
theorem verified_withPack {pack : PackId} {vp : VerifiedPack} (h : s.verified pack = .ok vp)
    (hinj : ∀ f ∈ s.files, packNameOf f = packNameOf file → f = file) :
    (s.withPack sp file).verified pack = .ok vp := by
  have hcache : (s.withPack sp file).cache = s.cache := rfl
  unfold verified at h ⊢
  rw [lookup_withPack, hcache]
  cases hfind : s.cache.find pack with
  | some =>
    rw [hfind] at h
    exact h
  | none =>
    rw [hfind] at h
    by_cases heq : pack = packNameOf file
    · subst heq
      rw [if_pos rfl]
      cases hf : s.disk.packs.lookup (packNameOf file) with
      | none =>
        rw [hf] at h
        cases h
      | some f =>
        rw [hf] at h
        cases hopen : openPack f (packNameOf file) s.fmk with
        | error =>
          dsimp only at h
          rw [hopen] at h
          cases h
        | ok =>
          obtain rfl := hinj f (.inl ⟨_, hf⟩) (openPack_ok_iff.1 hopen).name
          exact h
    · rw [if_neg heq]
      exact h

theorem present_withPack {pack : PackId} (h : s.present pack) : (s.withPack sp file).present pack := by
  have hthere : pack ∉ s.dangling ∧ (s.disk.packs.lookup pack).isSome := by simpa [present] using h
  unfold present
  rw [lookup_withPack]
  refine decide_eq_true ⟨fun hin => hthere.1 (mem_of_mem_filter hin), ?_⟩
  split
  · rfl
  · exact hthere.2

theorem present_withPack_self : (s.withPack sp file).present (packNameOf file) := by
  unfold present
  simp [PackStore.withPack]

theorem ReadableAt.withPack {e : IndexEntry} (h : s.ReadableAt e)
    (hinj : ∀ f ∈ s.files, packNameOf f = packNameOf file → f = file) :
    (s.withPack sp file).ReadableAt e := by
  obtain ⟨hpresent, b, hread, hid⟩ := h
  obtain ⟨vp, hvp, hblob⟩ := bind_eq_ok.1 hread
  exact ⟨present_withPack hpresent, b, bind_eq_ok.2 ⟨vp, verified_withPack hvp hinj, hblob⟩, hid⟩

/-- The step lemma for a pack that is written and merged. -/
theorem Sound.withPack (h : s.Sound) (laws : CipherLaws) (hsp : sp.Sealable m)
    (hseal : sealPackBytes sp.kind s.fmk sp.salt sp.body sp.entries = .ok file)
    (hinj : ∀ f ∈ s.files, packNameOf f = packNameOf file → f = file) : (s.withPack sp file).Sound where
  toOrderly := ⟨h.wf, h.neat, h.target, h.genuine⟩
  readable := by
    intro e he
    rcases LocationTable.mem_merge.1 he with he | he
    · exact (h.readable e he).withPack hinj
    obtain ⟨f, hf, rfl⟩ := mem_map.1 he
    obtain ⟨ctx, hopen, hreads⟩ := hsp.reads laws hseal
    obtain ⟨b, hb⟩ := hreads f hf
    have hfile : (s.withPack sp file).disk.packs.lookup (packNameOf file) = some file := by
      rw [lookup_withPack, if_pos rfl]
    have hinj' : ∀ f ∈ (s.withPack sp file).files, packNameOf f = packNameOf file → f = file := by
      intro f hf hname
      rcases files_withPack hf with rfl | hf
      · rfl
      · exact hinj f hf hname
    rw [readableAt_iff]
    refine ⟨present_withPack_self, b, ?_⟩
    have hverified := verified_eq (s := s.withPack sp file) h.genuine hfile hopen hinj'
    change ((s.withPack sp file).verified (packNameOf file)).bind _ = _
    rw [hverified]
    exact hb

variable {s' : PackStore}

theorem Reindexed.sound (hr : s.Reindexed s') (h : s.Sound) : s'.Sound := by
  have hreadable : s'.LocationsReadable := by
    intro e he
    obtain ⟨index, n, draw, rfl⟩ := hr
    exact h.readable e he
  obtain ⟨index, n, draw, rfl⟩ := hr
  exact ⟨⟨h.wf, h.neat, h.target, h.genuine⟩, hreadable⟩

theorem Noted.sound (hn : s.Noted s') (h : s.Sound) : s'.Sound := by
  obtain ⟨⟨d, rfl⟩, hp⟩ := hn
  refine ⟨⟨h.wf, h.neat, h.target, h.genuine⟩, fun e he => ?_⟩
  obtain ⟨hpresent, hread⟩ := h.readable e he
  exact ⟨by rw [hp]; exact hpresent, hread⟩

omit [PackEnv] in
theorem Reindexed.files_eq (hr : s.Reindexed s') : s'.files = s.files := by
  obtain ⟨index, n, draw, rfl⟩ := hr
  rfl

def sealedFiles (fmk : ByteArr 32) (packs : List StagingPack) : Set Bytes :=
  {file | ∃ sp ∈ packs, sealPackBytes sp.kind fmk sp.salt sp.body sp.entries = .ok file}

theorem Sealed.sound {F : Set Bytes} (hsealed : s.Sealed sp s') (h : s.Sound)
    (laws : CipherLaws) (hsp : sp.Sealable m) (hF : F.InjOn packNameOf) (hfiles : s.files ⊆ F)
    (hpack : sealedFiles s.fmk [sp] ⊆ F) : s'.Sound ∧ s'.files ⊆ F := by
  obtain ⟨file, hseal, hr⟩ := hsealed
  have hfile : file ∈ F := hpack ⟨sp, mem_singleton_self sp, hseal⟩
  refine ⟨hr.sound (h.withPack laws hsp hseal fun f hf => hF (hfiles hf) hfile), ?_⟩
  rw [hr.files_eq]
  intro f hf
  rcases files_withPack hf with rfl | hf
  · exact hfile
  · exact hfiles hf

omit [PackEnv] in
theorem candidates_ne_nil :
    s.locations.candidates kind id ≠ [] ↔ ∃ e ∈ s.locations, e.kind = kind ∧ e.id = id := by
  simp [LocationTable.candidates, filter_eq_nil_iff]

theorem Sealed.located (h : s.Sealed sp s')
    (hin : s.locations.candidates kind id ≠ [] ∨ Packed [sp] kind id) :
    s'.locations.candidates kind id ≠ [] := by
  obtain ⟨file, -, index, n, draw, rfl⟩ := h
  rw [candidates_ne_nil] at hin ⊢
  rcases hin with ⟨e, he, hkey⟩ | ⟨_, hsp, e, he, hkind, hid⟩
  · exact ⟨e, LocationTable.mem_merge.2 (.inl he), hkey⟩
  · cases mem_singleton.1 hsp
    exact ⟨e.located (packNameOf file), LocationTable.mem_merge.2 (.inr (mem_map_of_mem he)), hkind, hid⟩

/-- The run lemma, by induction on the packs. -/
theorem Sound.forM_sealToDisk (h : s.Sound) (laws : CipherLaws) {packs : List StagingPack}
    (hpacks : ∀ sp ∈ packs, sp.Sealable m) {F : Set Bytes} (hF : F.InjOn packNameOf)
    (hfiles : s.files ⊆ F) (hsealed : sealedFiles s.fmk packs ⊆ F) :
    Triple (· = s) (packs.forM sealToDisk)
      (fun _ s' => s'.Sound ∧ s'.staging = s.staging ∧ ∀ kind id,
        s.locations.candidates kind id ≠ [] ∨ Packed packs kind id → s'.locations.candidates kind id ≠ [])
      (fun _ s' => s'.Sound) := by
  let I := fun (done : List StagingPack) (s' : PackStore) =>
    s'.Sound ∧ s'.fmk = s.fmk ∧ s'.staging = s.staging ∧ s'.files ⊆ F ∧ ∀ kind id,
      s.locations.candidates kind id ≠ [] ∨ Packed done kind id → s'.locations.candidates kind id ≠ []
  have hloop : Triple (I []) (packs.forM sealToDisk) (fun _ => I packs) (fun _ s' => s'.Sound) := by
    refine Triple.forM packs fun done sp rest hl => Triple.of_each fun s₁ hs₁ => ?_
    obtain ⟨hsound, hfmk, hstaging, hin, hfound⟩ := hs₁
    have hmem : sp ∈ packs := by simp [hl]
    have hafter {s₂ : PackStore} (hs₂ : s₁.Sealed sp s₂) : s₂.Sound ∧ s₂.files ⊆ F := by
      refine hs₂.sound hsound laws (hpacks sp hmem) hF hin ?_
      rintro file ⟨_, hsp, hseal⟩
      cases mem_singleton.1 hsp
      exact hsealed ⟨sp, hmem, hfmk ▸ hseal⟩
    refine (sealToDisk_sealed sp s₁).weaken (fun _ h => h) (fun _ s₂ hs₂ => ?_) (fun _ s₂ hs₂ => ?_)
    · refine ⟨(hafter hs₂).1, ?_, ?_, (hafter hs₂).2, fun kind id hin => hs₂.located ?_⟩
      · obtain ⟨file, -, index, n, draw, rfl⟩ := hs₂
        exact hfmk
      · obtain ⟨file, -, index, n, draw, rfl⟩ := hs₂
        exact hstaging
      · rcases hin with hin | ⟨sp', hsp', he⟩
        · exact .inl (hfound kind id (.inl hin))
        · rcases mem_append.1 hsp' with hsp' | hsp'
          · exact .inl (hfound kind id (.inr ⟨sp', hsp', he⟩))
          · exact .inr ⟨sp', hsp', he⟩
    · rcases hs₂ with rfl | hs₂
      · exact hsound
      · exact (hafter hs₂).1
  refine hloop.weaken ?_ (fun _ s' hs' => ⟨hs'.1, hs'.2.2.1, hs'.2.2.2.2⟩) (fun _ _ hs' => hs')
  rintro _ rfl
  refine ⟨h, rfl, rfl, hfiles, fun kind id hin => ?_⟩
  rcases hin with hin | ⟨sp, hsp, -⟩
  · exact hin
  · cases hsp

/-! ## Putting a blob -/

/-- What the packs are sealed to that a put of these bytes drives out of the pools. -/
def sealedBy (s : PackStore) (kind : BlobKind) (bytes : Bytes) : Set Bytes :=
  sealedFiles s.fmk (s.staging.offer s.draw kind (Env.blake3 bytes) bytes s.sealTarget).2.1

omit [PackEnv] in
theorem Noted.knows_iff (hn : s.Noted s') :
    s'.Knows kind id ↔ s.Knows kind id := by
  obtain ⟨⟨d, rfl⟩, -⟩ := hn
  exact Iff.rfl

/-- An offer and the packs it fills: the blob is known afterwards. -/
theorem Sound.offerBlob (h : s.Sound) (laws : CipherLaws)
    (hne : bytes ≠ []) (hnew : ¬ s.staging.contains kind (Env.blake3 bytes))
    (hrange : segmentCount bytes.length ≤ 2 ^ 31)
    (hinj : (s.files ∪ s.sealedBy kind bytes).InjOn packNameOf) :
    Triple (· = s) (offerBlob kind (Env.blake3 bytes) bytes >>= fun full => full.forM sealToDisk)
      (fun _ s' => s'.Sound ∧ s'.Knows kind (Env.blake3 bytes) ∧
        ∀ kind' id', s.Knows kind' id' → s'.Knows kind' id')
      (fun _ s' => s'.Sound) := by
  cases hoffer : s.staging.offer s.draw kind (Env.blake3 bytes) bytes s.sealTarget with
  | mk p rest =>
    obtain ⟨full, draw⟩ := rest
    have hrun : Ferry.offerBlob kind (Env.blake3 bytes) bytes s =
        .ok full { s with staging := p, draw := draw } := by
      unfold Ferry.offerBlob
      rw [run_bind_ok (run_get s), hoffer]
      rfl
    have hsealed : s.sealedBy kind bytes = sealedFiles s.fmk full := by
      unfold sealedBy
      rw [hoffer]
    rw [h.target] at hoffer
    obtain ⟨hwf, hstaged, -⟩ := h.wf.offer hnew hoffer
    obtain ⟨hneat, hpacks, hkeep⟩ := StagingPools.offer_sealable h.wf h.neat hne hrange hoffer
    have hs₁ : PackStore.Sound { s with staging := p, draw := draw } :=
      ⟨⟨hwf, hneat, h.target, h.genuine⟩, h.readable⟩
    have hcontains : p.contains kind (Env.blake3 bytes) := by
      by_contra hnot
      rw [StagingPools.stagedBytes_of_not_contains hnot] at hstaged
      cases hstaged
    have hpacked := hs₁.forM_sealToDisk laws hpacks hinj Set.subset_union_left
      (hsealed ▸ Set.subset_union_right)
    rintro _ rfl
    rw [run_bind_ok hrun]
    refine hpacked.weaken (fun _ h => h) (fun _ s' hs' => ?_) (fun _ _ h => h) _ rfl
    obtain ⟨hsound, hstaging, hfound⟩ := hs'
    refine ⟨hsound, .inl (hstaging ▸ hcontains), fun kind' id' hknows => ?_⟩
    rcases hknows with hin | hin
    · rcases hkeep kind' id' hin with hin | hin
      · exact .inl (hstaging ▸ hin)
      · exact .inr (hfound kind' id' (.inr hin))
    · exact .inr (hfound kind' id' (.inl hin))

/-- A put makes its blob known and loses none. -/
theorem Sound.putBlob (h : s.Sound) (laws : CipherLaws) (hrange : segmentCount bytes.length ≤ 2 ^ 31)
    (hinj : (s.files ∪ s.sealedBy kind bytes).InjOn packNameOf) :
    Triple (· = s) (putBlob kind bytes)
      (fun id s' => s'.Sound ∧ id = Env.blake3 bytes ∧ s'.Knows kind id ∧
        ∀ kind' id', s.Knows kind' id' → s'.Knows kind' id')
      (fun _ s' => s'.Sound) := by
  unfold Ferry.putBlob
  split
  · exact Triple.throw fun _ heq => heq ▸ h
  rename_i hne
  refine Triple.get_bind fun s₀ hs₀ => ?_
  cases hs₀
  refine Triple.bind (Q := fun there s₁ => s.Noted s₁ ∧ there =
    (s.locations.candidates kind (Env.blake3 bytes)).any fun e => s.present e.pack) ?_ fun there => ?_
  · obtain ⟨s₁, hany, hnoted⟩ := run_anyExists (s.locations.candidates kind (Env.blake3 bytes)) s
    rintro _ rfl
    rw [hany]
    exact ⟨hnoted, rfl⟩
  split
  · rename_i hthere
    refine Triple.pure fun s₁ hs₁ => ?_
    obtain ⟨hnoted, hany⟩ := hs₁
    refine ⟨hnoted.sound h, rfl, hnoted.knows_iff.2 (.inr fun hnil => ?_),
      fun _ _ hknows => hnoted.knows_iff.2 hknows⟩
    rw [hnil, hthere] at hany
    cases hany
  · refine Triple.get_bind fun s₁ hs₁ => ?_
    obtain ⟨hnoted, -⟩ := hs₁
    have hmono : ∀ kind' id', s.Knows kind' id' → s₁.Knows kind' id' :=
      fun _ _ hknows => hnoted.knows_iff.2 hknows
    split
    · rename_i hin
      refine Triple.pure fun _ heq => ?_
      rw [heq]
      exact ⟨hnoted.sound h, rfl, .inl hin, hmono⟩
    rename_i hnew
    have hinj₁ : (s₁.files ∪ s₁.sealedBy kind bytes).InjOn packNameOf := by
      obtain ⟨⟨d, rfl⟩, -⟩ := hnoted
      exact hinj
    have hoffer := (hnoted.sound h).offerBlob laws hne hnew hrange hinj₁
    refine hoffer.bind fun _ => Triple.pure fun s' hs' => ?_
    exact ⟨hs'.1, rfl, hs'.2.1, fun kind' id' hknows => hs'.2.2 kind' id' (hmono kind' id' hknows)⟩

theorem Sound.gives (h : s.Sound) (hknows : s.Knows kind id) :
    ∃ b, s.Gives kind id b := by
  unfold Gives
  by_cases hin : s.staging.contains kind id
  · obtain ⟨b, hb, hid⟩ := h.wf.stagedBytes hin
    rw [hb]
    exact ⟨b, rfl, hid⟩
  rw [StagingPools.stagedBytes_of_not_contains hin]
  have hall : s.presentAt kind id = s.locations.candidates kind id :=
    filter_eq_self.2 fun e he => (h.readable e (mem_of_mem_filter he)).1
  rw [hall]
  cases hcand : s.locations.candidates kind id with
  | nil => exact absurd hcand (hknows.resolve_left hin)
  | cons e =>
    have he : e ∈ s.locations.candidates kind id := by simp [hcand]
    obtain ⟨hloc, hkey⟩ := mem_filter.1 he
    obtain ⟨-, b, hread, -⟩ := h.readable e hloc
    obtain ⟨rfl, rfl⟩ : e.kind = kind ∧ e.id = id := by simpa using hkey
    exact ⟨b, .here hread⟩

theorem Sound.getBlob (h : s.Sound) (hknows : s.Knows kind id) :
    ∃ b s', getBlob kind id s = .ok b s' ∧ Env.blake3 b = id := by
  obtain ⟨b, hgives⟩ := h.gives hknows
  obtain ⟨s', hrun⟩ := (run_getBlob_iff s).2 hgives
  exact ⟨b, s', hrun, getBlob_hash hrun⟩

/-! ## The store as its clients see it -/

theorem Gives.knows {b : Bytes} (h : s.Gives kind id b) : s.staging.contains kind id ∨ s.presentAt kind id ≠ [] := by
  unfold Gives at h
  by_cases hin : s.staging.contains kind id
  · exact .inl hin
  rw [StagingPools.stagedBytes_of_not_contains hin] at h
  refine .inr fun hnil => ?_
  rw [hnil] at h
  cases h

/-- What `get` answers, and what `put_blob` asks before it stores anything. -/
def view (s : PackStore) : Store where
  get kind id := match getBlob kind id s with
    | .ok b _ => .ok b
    | .error _ _ => .error (.notFound kind id)
  present kind id := s.staging.contains kind id || !(s.presentAt kind id).isEmpty
  get_hash kind id b h := by
    split at h
    · cases h
      exact getBlob_hash ‹_›
    · cases h
  present_of_get kind id b h := by
    split at h
    · rename_i s' hrun
      simpa using Gives.knows ((run_getBlob_iff s).1 ⟨s', hrun⟩)
    · cases h

theorem view_get_isOk_iff : (s.view.get kind id).isOk ↔ ∃ b, s.Gives kind id b := by
  simp only [← run_getBlob_iff]
  cases hrun : getBlob kind id s with
  | ok b s' => simp [view, hrun, Except.isOk, Except.toBool]
  | error => simp [view, hrun, Except.isOk, Except.toBool]

/-- On a store that can be relied on, `put_blob` is the one that its clients see: whatever they can read
afterwards, the store can read. -/
theorem Sound.putBlob_view (h : s.Sound) (laws : CipherLaws) (hne : bytes ≠ [])
    (hrange : segmentCount bytes.length ≤ 2 ^ 31) (hinj : (s.files ∪ s.sealedBy kind bytes).InjOn packNameOf) :
    Triple (· = s) (Ferry.putBlob kind bytes)
      (fun id s' => s'.Sound ∧ ∃ st, s.view.putBlob kind bytes = .ok (id, st) ∧
        ∀ kind' id', (st.get kind' id').isOk → (s'.view.get kind' id').isOk)
      (fun _ s' => s'.Sound) := by
  refine (h.putBlob laws hrange hinj).weaken (fun _ h => h) ?_ fun _ _ h => h
  rintro id s' ⟨hs', rfl, hknows, hkeeps⟩
  have hold : ∀ kind' id', (s.view.get kind' id').isOk → (s'.view.get kind' id').isOk := by
    intro kind' id' hok
    obtain ⟨b, hgives⟩ := view_get_isOk_iff.1 hok
    refine view_get_isOk_iff.2 (hs'.gives (hkeeps kind' id' (hgives.knows.imp_right fun hat hnone => hat ?_)))
    exact filter_eq_nil_iff.2 fun e he => by rw [hnone] at he; cases he
  refine ⟨hs', ?_⟩
  rcases s.view.putBlob_cases kind hne with ⟨-, hput⟩ | ⟨-, hput⟩
  · exact ⟨_, hput, hold⟩
  · refine ⟨_, hput, fun kind' id' hok => ?_⟩
    by_cases heq : kind' = kind ∧ id' = Env.blake3 bytes
    · obtain ⟨rfl, rfl⟩ := heq
      exact view_get_isOk_iff.2 (hs'.gives hknows)
    · simp only [Store.withBlob, if_neg heq] at hok
      exact hold kind' id' hok

/-! ## What a store keeps to -/

theorem orderly_openStore {disk : PackDisk} {draw : Nat}
    (h : openStore disk fmk draw = .ok s) : s.Orderly := by
  unfold openStore at h
  cases hload : loadLocations fmk (sortIndexFiles disk.index) with
  | error =>
    rw [hload] at h
    cases h
  | ok =>
    rw [hload] at h
    cases h
    refine ⟨StagingPools.wf_new, fun m sp hsp => ?_, rfl, rfl, fun vp hvp => ?_⟩
    · cases m <;> cases hsp
    · cases hvp

theorem indifferent_orderly : Indifferent Orderly where
  tables _ _ _ _ _ h := ⟨h.wf, h.neat, h.target, h.genuine⟩
  cache _ hcache h := ⟨h.wf, h.neat, h.target, (indifferent_genuine _).cache _ hcache h.genuine⟩

theorem keeps_orderly_flush : Keeps Orderly flush := by
  refine .get_bind fun s => .bind (Triple.modify fun s hs => ?_) fun _ =>
    .forM fun sp _ => indifferent_orderly.keeps_sealToDisk sp
  refine ⟨StagingPools.wf_new, fun m sp hsp => ?_, hs.target, hs.genuine⟩
  cases m <;> cases hsp

theorem keeps_orderly_putBlob (kind : BlobKind)
    (hrange : segmentCount bytes.length ≤ 2 ^ 31) : Keeps Orderly (putBlob kind bytes) := by
  unfold Ferry.putBlob
  split
  · exact .throw _
  rename_i hne
  refine .get_bind fun s => .bind (indifferent_orderly.keeps_anyExists _) fun there => ?_
  split
  · exact .pure _
  refine Triple.get_bind fun s hs => ?_
  split
  · exact Triple.pure fun _ heq => heq ▸ hs
  rename_i hnew
  refine Triple.bind (Q := fun _ => Orderly) (Triple.get_bind fun s₀ hs₀ => ?_) fun full =>
    Keeps.bind (.forM fun sp _ => indifferent_orderly.keeps_sealToDisk sp) fun _ => .pure _
  cases hs₀
  cases hoffer : s.staging.offer s.draw kind (Env.blake3 bytes) bytes s.sealTarget with
  | mk =>
    rw [hs.target] at hoffer
    obtain ⟨hwf, -, -⟩ := hs.wf.offer hnew hoffer
    obtain ⟨hneat, -, -⟩ := StagingPools.offer_sealable hs.wf hs.neat hne hrange hoffer
    rintro _ rfl
    exact ⟨hwf, hneat, hs.target, hs.genuine⟩

end PackStore

/-- An operation as programs use it: no blob is too long for a pack, and only tests call
`set_seal_target`. -/
def StoreOp.InUse : StoreOp → Prop
  | .putBlob _ bytes => segmentCount bytes.length ≤ 2 ^ 31
  | .setSealTarget _ => False
  | _ => True

theorem StoreOp.InUse.keeps_orderly {op : StoreOp} (h : op.InUse) : Keeps PackStore.Orderly op.run := by
  have hI := PackStore.indifferent_orderly
  cases op with
  | putBlob kind => exact .bind (PackStore.keeps_orderly_putBlob kind h) fun _ => .pure _
  | get kind id => exact .bind (hI.keeps_getBlob kind id) fun _ => .pure _
  | flush => exact PackStore.keeps_orderly_flush
  | adoptPack claimed bytes => exact hI.keeps_adoptPack claimed bytes
  | writeIndexSnapshot => exact hI.keeps_writeIndexSnapshot
  | compactIndex => exact hI.keeps_compactIndex
  | rebuildIndex => exact hI.keeps_rebuildIndex
  | collectGarbage fuel roots grace now =>
    exact .bind (hI.keeps_collectGarbage fuel roots grace now) fun _ => .pure _
  | setSealTarget => exact h.elim

/-- The states of a store in use: opened on some files and worked with, while the files may change at
any time in any way. -/
inductive PackStore.InUse : PackStore → Prop
  | opened {disk : PackDisk} {fmk : ByteArr 32} {draw : Nat} {s : PackStore} :
      openStore disk fmk draw = .ok s → InUse s
  | op {s : PackStore} {op : StoreOp} : op.InUse → InUse s → InUse (op.after s)
  | files {s : PackStore} (disk : PackDisk) : InUse s → InUse { s with disk := disk }

theorem PackStore.InUse.orderly {s : PackStore} (h : s.InUse) : s.Orderly := by
  induction h with
  | opened hopen => exact orderly_openStore hopen
  | op hop _ ih => exact StoreOp.after_of_triple hop.keeps_orderly ih
  | files _ _ ih => exact ⟨ih.wf, ih.neat, ih.target, ih.genuine⟩

end

end Ferry
