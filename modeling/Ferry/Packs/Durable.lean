import Mathlib.Data.Set.Function
import Ferry.Packs.Compaction
import Ferry.Packs.Pools

/-! # What the directory keeps

A store that is opened later finds the files of a store and nothing else: it
knows the blobs that some index file lists, and reads them from the packs. So
whatever happened to the directory, a blob can be read afterwards exactly if an
index file lists it, as long as the index files say the truth.
-/

namespace Ferry

open Lib List

section
variable [PackEnv]

variable {file : Bytes} {rows : List IndexEntry}

namespace PackDisk

variable {d : PackDisk} {fmk : ByteArr 32} {B F : Set Bytes} {e : IndexEntry}

/-- The location can be read, and what it gives is one of the blobs in `B`. -/
def Holds (d : PackDisk) (fmk : ByteArr 32) (B : Set Bytes) (e : IndexEntry) : Prop :=
  ∃ b ∈ B, d.Serves fmk e.kind e.id b e

def Lists (d : PackDisk) (fmk : ByteArr 32) (e : IndexEntry) : Prop :=
  ∃ n file rows, d.index.lookup n = some file ∧ openIndexContainer file fmk = .ok rows ∧ e ∈ rows

def Indexed (d : PackDisk) (fmk : ByteArr 32) (kind : BlobKind) (id : BlobId) : Prop :=
  ∃ e, d.Lists fmk e ∧ e.kind = kind ∧ e.id = id

/-- The index files can be opened, and what they list can be read. -/
structure Intact (d : PackDisk) (fmk : ByteArr 32) (B : Set Bytes) : Prop where
  opens : ∀ n file, d.index.lookup n = some file → ∃ rows, openIndexContainer file fmk = .ok rows
  holds : ∀ e, d.Lists fmk e → d.Holds fmk B e

def Readable (d : PackDisk) (fmk : ByteArr 32) (draw : Nat) (kind : BlobKind) (b : Bytes) : Prop :=
  ∃ t t', openStore d fmk draw = .ok t ∧ getBlob kind (Env.blake3 b) t = .ok b t'

/-! ## Opening the directory -/

theorem typed_of_openIndexContainer
    (h : openIndexContainer file fmk = .ok rows) (he : e ∈ rows) : e.Typed := by
  unfold openIndexContainer at h
  obtain ⟨-, h⟩ := guard_eq_ok.1 h
  obtain ⟨kind, -, h⟩ := bind_eq_ok.1 h
  obtain ⟨-, h⟩ := guard_eq_ok.1 h
  obtain ⟨-, h⟩ := guard_eq_ok.1 h
  obtain ⟨-, h⟩ := guard_eq_ok.1 h
  obtain ⟨plain, -, h⟩ := bind_eq_ok.1 h
  exact (tableParse_ok_iff.1 h).2.2.1 e he

theorem loadLocations_ok {files : List (Σ _ : Nat, Bytes)}
    (h : ∀ f ∈ files, ∃ rows, openIndexContainer f.2 fmk = .ok rows) :
    ∃ t, loadLocations fmk files = .ok t ∧ ∀ e, e ∈ t ↔
      ∃ f ∈ files, ∃ rows, openIndexContainer f.2 fmk = .ok rows ∧ e ∈ rows := by
  suffices hfold : ∀ t₀ : LocationTable, ∃ t,
      files.foldlM (fun t f => do return LocationTable.merge t (← openIndexContainer f.2 fmk)) t₀ =
        Except.ok t ∧ ∀ e, e ∈ t ↔ e ∈ t₀ ∨
          ∃ f ∈ files, ∃ rows, openIndexContainer f.2 fmk = .ok rows ∧ e ∈ rows by
    obtain ⟨t, hload, hmem⟩ := hfold []
    exact ⟨t, hload, fun e => by simpa using hmem e⟩
  induction files with
  | nil => exact fun t₀ => ⟨t₀, rfl, by simp⟩
  | cons f files ih =>
    intro t₀
    obtain ⟨rows, hrows⟩ := h f (by simp)
    obtain ⟨t, hload, hmem⟩ := ih (fun f' hf' => h f' (by simp [hf'])) (t₀.merge rows)
    refine ⟨t, ?_, fun e => ?_⟩
    · rw [foldlM_cons, hrows]
      exact hload
    · rw [hmem, LocationTable.mem_merge]
      simp [hrows, or_assoc]

omit [PackEnv] in
theorem mem_sortIndexFiles {files : AList (fun _ : Nat => Bytes)} {f : Σ _ : Nat, Bytes} :
    f ∈ sortIndexFiles files ↔ files.lookup f.1 = some f.2 := by
  rw [sortIndexFiles, (perm_insertionSort _ _).mem_iff]
  exact AList.mem_lookup_iff.symm

theorem Intact.openStore_ok (h : d.Intact fmk B) (draw : Nat) :
    ∃ t, openStore d fmk draw = .ok (.fresh d fmk draw t) ∧ ∀ e, e ∈ t ↔ d.Lists fmk e := by
  have hopens : ∀ f ∈ sortIndexFiles d.index, ∃ rows, openIndexContainer f.2 fmk = .ok rows :=
    fun f hf => h.opens f.1 f.2 (mem_sortIndexFiles.1 hf)
  obtain ⟨t, hload, hmem⟩ := loadLocations_ok hopens
  refine ⟨t, by rw [openStore, hload]; rfl, fun e => (hmem e).trans ?_⟩
  constructor
  · rintro ⟨f, hf, rows, hrows, he⟩
    exact ⟨f.1, f.2, rows, mem_sortIndexFiles.1 hf, hrows, he⟩
  · rintro ⟨n, file, rows, hfile, hrows, he⟩
    exact ⟨⟨n, file⟩, mem_sortIndexFiles.2 hfile, rows, hrows, he⟩

/-- In an intact directory a blob can be read exactly if an index file lists it. -/
theorem Intact.readable_iff (h : d.Intact fmk B) (hB : B.InjOn Env.blake3) (draw : Nat) (kind : BlobKind)
    {b : Bytes} (hb : b ∈ B) : d.Readable fmk draw kind b ↔ d.Indexed fmk kind (Env.blake3 b) := by
  obtain ⟨t, hopen, hmem⟩ := h.openStore_ok draw
  have hholds : ∀ e ∈ LocationTable.candidates t kind (Env.blake3 b),
      d.Lists fmk e ∧ (e.kind = kind ∧ e.id = Env.blake3 b) ∧ d.Serves fmk kind (Env.blake3 b) b e := by
    intro e he
    obtain ⟨hin, hkey⟩ := mem_filter.1 he
    have hlisted := (hmem e).1 hin
    obtain ⟨rfl, hid⟩ : e.kind = kind ∧ e.id = Env.blake3 b := by simpa using hkey
    obtain ⟨b', hb', hserves⟩ := h.holds e hlisted
    rw [hid] at hserves
    obtain ⟨bytes, ctx, -, -, hread⟩ := id hserves
    obtain rfl := hB hb' hb (readBlobFromCtx_hash hread)
    exact ⟨hlisted, ⟨rfl, hid⟩, hserves⟩
  have hgives : d.Readable fmk draw kind b ↔ (PackStore.fresh d fmk draw t).Gives kind (Env.blake3 b) b := by
    rw [← run_getBlob_iff]
    constructor
    · rintro ⟨t₁, t', ht₁, hget⟩
      rw [hopen] at ht₁
      cases ht₁
      exact ⟨t', hget⟩
    · rintro ⟨t', hget⟩
      exact ⟨_, t', hopen, hget⟩
  have hpresent : (PackStore.fresh d fmk draw t).presentAt kind (Env.blake3 b) =
      LocationTable.candidates t kind (Env.blake3 b) := by
    refine filter_eq_self.2 fun e he => ?_
    obtain ⟨-, -, bytes, ctx, hfile, -⟩ := hholds e he
    simp [PackStore.present, PackStore.fresh, hfile]
  rw [hgives]
  change PackStore.Answers _ _ _ _ _ ↔ _
  rw [hpresent]
  cases hcand : LocationTable.candidates t kind (Env.blake3 b) with
  | nil =>
    refine iff_of_false answers_nil ?_
    rintro ⟨e, hlisted, hkind, hid⟩
    have he : e ∈ LocationTable.candidates t kind (Env.blake3 b) :=
      mem_filter.2 ⟨(hmem e).2 hlisted, by simp [hkind, hid]⟩
    rw [hcand] at he
    cases he
  | cons e =>
    obtain ⟨hlisted, hkey, hserves⟩ := hholds e (by simp [hcand])
    exact iff_of_true (.here ((reads_iff_serves rfl).2 hserves)) ⟨e, hlisted, hkey⟩

/-! ## Writing packs -/

def FilesIn (d : PackDisk) (F : Set Bytes) : Prop := ∀ name f, d.packs.lookup name = some f → f ∈ F

theorem FilesIn.withPack (h : d.FilesIn F) (hfile : file ∈ F) : (d.withPack file).FilesIn F := by
  intro name f hf
  rw [lookup_withPack] at hf
  split at hf
  · cases hf
    exact hfile
  · exact h name f hf

theorem Serves.withPack {kind : BlobKind} {id : BlobId} {b : Bytes} (h : d.Serves fmk kind id b e)
    (hfiles : d.FilesIn F) (hF : F.InjOn packNameOf) (hfile : file ∈ F) :
    (d.withPack file).Serves fmk kind id b e := by
  obtain ⟨bytes, ctx, hlookup, hopen, hread⟩ := h
  refine ⟨bytes, ctx, ?_, hopen, hread⟩
  rw [lookup_withPack]
  split
  · rename_i heq
    have hname : packNameOf bytes = packNameOf file := (openPack_ok_iff.1 hopen).name.trans heq
    rw [hF (hfiles _ _ hlookup) hfile hname]
  · exact hlookup

theorem Holds.withPack (h : d.Holds fmk B e) (hfiles : d.FilesIn F) (hF : F.InjOn packNameOf)
    (hfile : file ∈ F) : (d.withPack file).Holds fmk B e := by
  obtain ⟨b, hb, hserves⟩ := h
  exact ⟨b, hb, hserves.withPack hfiles hF hfile⟩

theorem Intact.withPack (h : d.Intact fmk B) (hfiles : d.FilesIn F) (hF : F.InjOn packNameOf)
    (hfile : file ∈ F) : (d.withPack file).Intact fmk B :=
  ⟨h.opens, fun e he => (h.holds e he).withPack hfiles hF hfile⟩

end PackDisk

/-! ## Tables that say the truth -/

def LocationTable.Has (t : LocationTable) (kind : BlobKind) (id : BlobId) : Prop :=
  ∃ e ∈ t, e.kind = kind ∧ e.id = id

/-- The locations of a list are typed, and the first one of each blob can be read. -/
structure PackDisk.Backs (d : PackDisk) (fmk : ByteArr 32) (B : Set Bytes) (t : LocationTable) : Prop where
  typed : ∀ e ∈ t, e.Typed
  holds : ∀ kind id e, t.find? (fun e => e.kind = kind ∧ e.id = id) = some e → d.Holds fmk B e

namespace LocationTable

variable {t incoming : LocationTable} {kind : BlobKind} {id : BlobId}

omit [PackEnv] in
theorem has_iff : t.Has kind id ↔ ∃ e, t.find? (fun e => e.kind = kind ∧ e.id = id) = some e := by
  rw [← Option.isSome_iff_exists, find?_isSome]
  simp [Has]

omit [PackEnv] in
theorem has_merge : (t.merge incoming).Has kind id ↔ t.Has kind id ∨ Has incoming kind id := by
  simp only [Has, mem_merge, or_and_right, exists_or]

omit [PackEnv] in
theorem has_tableRows : Has (tableRows t) kind id ↔ t.Has kind id := by
  have hrows : Has (tableRows t) kind id ↔ candidates (tableRows t) kind id ≠ [] := by
    simp [Has, candidates, filter_eq_nil_iff]
  rw [hrows, candidates_rows, has_iff]
  cases t.find? _ <;> simp

omit [PackEnv] in
theorem has_iterSorted : Has t.iterSorted kind id ↔ t.Has kind id := by
  rw [has_iff, find?_iterSorted, ← has_iff]

omit [PackEnv] in
theorem find?_merge (q : IndexEntry → Bool) : (t.merge incoming).find? q = (t ++ incoming).find? q := by
  unfold merge
  induction incoming generalizing t with
  | nil => simp
  | cons e incoming ih =>
    rw [foldl_cons, ih]
    unfold add
    split
    · rename_i hin
      rw [find?_append, find?_append, find?_cons]
      cases hq : q e with
      | false => rfl
      | true =>
        have hsome : (t.find? q).isSome := find?_isSome.2 ⟨e, hin, hq⟩
        obtain ⟨e', he'⟩ := Option.isSome_iff_exists.1 hsome
        rw [he']
        rfl
    · rw [append_assoc, singleton_append]

end LocationTable

namespace PackDisk

variable {d : PackDisk} {fmk : ByteArr 32} {B F : Set Bytes} {t incoming : LocationTable}

namespace Backs

variable (h : d.Backs fmk B t)
include h

theorem withPack (hfiles : d.FilesIn F) (hF : F.InjOn packNameOf)
    (hfile : file ∈ F) : (d.withPack file).Backs fmk B t :=
  ⟨h.typed, fun kind id e he => (h.holds kind id e he).withPack hfiles hF hfile⟩

theorem merge (h' : d.Backs fmk B incoming) : d.Backs fmk B (t.merge incoming) where
  typed e he := (LocationTable.mem_merge.1 he).elim (h.typed e) (h'.typed e)
  holds kind id e he := by
    rw [LocationTable.find?_merge, find?_append] at he
    cases hf : t.find? (fun e => e.kind = kind ∧ e.id = id) with
    | some =>
      rw [hf] at he
      cases he
      exact h.holds kind id _ hf
    | none =>
      rw [hf] at he
      exact h'.holds kind id e he

theorem iterSorted : d.Backs fmk B t.iterSorted where
  typed e he := h.typed e (iterSorted_subset t he)
  holds kind id e he := h.holds kind id e (by rwa [find?_iterSorted] at he)

theorem row {e : IndexEntry} (he : e ∈ tableRows t) : d.Holds fmk B e := by
  have hcand : e ∈ LocationTable.candidates (tableRows t) e.kind e.id :=
    mem_filter.2 ⟨he, by simp⟩
  rw [candidates_rows, Option.mem_toList] at hcand
  exact h.holds _ _ e hcand

end Backs

/-! ## Writing index files -/

/-- A new index file adds its rows to what is listed. -/
theorem lists_withIndex {n : Nat} (hnew : n ∉ d.index) (hopen : openIndexContainer file fmk = .ok rows) :
    (d.withIndex n file).Lists fmk e ↔ d.Lists fmk e ∨ e ∈ rows := by
  constructor
  · rintro ⟨m, file', rows', hlookup, hopen', he⟩
    by_cases hm : m = n
    · subst hm
      rw [withIndex, AList.lookup_insert] at hlookup
      cases hlookup
      rw [hopen] at hopen'
      cases hopen'
      exact .inr he
    · rw [withIndex, AList.lookup_insert_ne hm] at hlookup
      exact .inl ⟨m, file', rows', hlookup, hopen', he⟩
  · rintro (⟨m, file', rows', hlookup, hopen', he⟩ | he)
    · refine ⟨m, file', rows', ?_, hopen', he⟩
      have hm : m ≠ n := by
        rintro rfl
        rw [AList.lookup_eq_none.2 hnew] at hlookup
        cases hlookup
      rw [withIndex, AList.lookup_insert_ne hm]
      exact hlookup
    · exact ⟨n, file, rows, AList.lookup_insert _, hopen, he⟩

theorem lists_of_single {n : Nat}
    (hentries : d.index.entries = [⟨n, file⟩]) (hopen : openIndexContainer file fmk = .ok rows) :
    d.Lists fmk e ↔ e ∈ rows := by
  have hlookup : ∀ m file', d.index.lookup m = some file' ↔ m = n ∧ file' = file := by
    intro m file'
    have hmem : (⟨m, file'⟩ : Σ _ : Nat, Bytes) ∈ d.index.entries ↔ m = n ∧ file' = file := by
      rw [hentries]
      simp
    exact AList.mem_lookup_iff.trans hmem
  constructor
  · rintro ⟨m, file', rows', hm, hopen', he⟩
    obtain ⟨rfl, rfl⟩ := (hlookup m file').1 hm
    rw [hopen] at hopen'
    cases hopen'
    exact he
  · exact fun he => ⟨n, file, rows, (hlookup n file).2 ⟨rfl, rfl⟩, hopen, he⟩

theorem Intact.withIndex (h : d.Intact fmk B) (laws : CipherLaws) (hbacks : d.Backs fmk B t)
    (hsize : sealedTableLen t < 2 ^ 32) {salt : ByteArr 16}
    (hseal : sealIndexContainer fmk salt t = .ok file) {n : Nat} (hnew : n ∉ d.index) :
    (d.withIndex n file).Intact fmk B ∧ ∀ kind id, (d.withIndex n file).Indexed fmk kind id ↔
      d.Indexed fmk kind id ∨ t.Has kind id := by
  have hopen := openIndexContainer_sealed laws hbacks.typed hsize hseal
  refine ⟨⟨fun m file' hlookup => ?_, fun e he => ?_⟩, fun kind id => ?_⟩
  · by_cases hm : m = n
    · subst hm
      rw [PackDisk.withIndex, AList.lookup_insert] at hlookup
      cases hlookup
      exact ⟨_, hopen⟩
    · rw [PackDisk.withIndex, AList.lookup_insert_ne hm] at hlookup
      exact h.opens m file' hlookup
  · rcases (lists_withIndex hnew hopen).1 he with he | he
    · exact h.holds e he
    · exact hbacks.row he
  · unfold Indexed
    simp only [lists_withIndex hnew hopen, or_and_right, exists_or]
    rw [← LocationTable.has_tableRows]
    rfl

theorem intact_of_single (laws : CipherLaws) (hbacks : d.Backs fmk B t)
    (hsize : sealedTableLen t < 2 ^ 32) {salt : ByteArr 16}
    (hseal : sealIndexContainer fmk salt t = .ok file) {n : Nat} (hentries : d.index.entries = [⟨n, file⟩]) :
    d.Intact fmk B ∧ ∀ kind id, d.Indexed fmk kind id ↔ t.Has kind id := by
  have hopen := openIndexContainer_sealed laws hbacks.typed hsize hseal
  refine ⟨⟨fun m file' hlookup => ?_, fun e he => ?_⟩, fun kind id => ?_⟩
  · have hmem : (⟨m, file'⟩ : Σ _ : Nat, Bytes) ∈ d.index.entries := AList.mem_lookup_iff.1 hlookup
    rw [hentries, mem_singleton] at hmem
    cases hmem
    exact ⟨_, hopen⟩
  · exact hbacks.row ((lists_of_single hentries hopen).1 he)
  · unfold Indexed
    simp only [lists_of_single hentries hopen]
    exact LocationTable.has_tableRows

end PackDisk

/-! ## What is sealed -/

/-- The cipher seals what is less than 4 GiB long. -/
def CipherSeals : Prop := ∀ key nonce aad plain, plain.length < 2 ^ 32 →
  ∃ ct, PackEnv.cipherSeal key nonce aad plain = .ok ct

namespace StagingPack.Ready

variable {B : Set Bytes} {m : Bool} {sp : StagingPack} (h : sp.Ready B m)
include h

theorem sealPackBytes_ok (hseals : CipherSeals) (fmk : ByteArr 32) :
    ∃ file, sealPackBytes sp.kind fmk sp.salt sp.body sp.entries = .ok file := by
  have hsegments : ∀ s ∈ List.range (segmentCount sp.body.length), ∃ ct,
      sealSegment (derivePackKey fmk sp.salt sp.kind) (bodyAad (writeHeader sp.kind) sp.kind) sp.body
        (segmentCount sp.body.length) s = .ok ct ∧ True := by
    intro s _
    have hlen : ((sp.body.drop (s * segmentPlainLen)).take segmentPlainLen).length ≤ segmentPlainLen :=
      length_take_le ..
    obtain ⟨ct, hct⟩ := hseals (derivePackKey fmk sp.salt sp.kind)
      (bodyNonce s (s + 1 == segmentCount sp.body.length)) (bodyAad (writeHeader sp.kind) sp.kind)
      ((sp.body.drop (s * segmentPlainLen)).take segmentPlainLen) (hlen.trans_lt (by decide))
    exact ⟨ct, hct, trivial⟩
  obtain ⟨segments, hrun, -⟩ := mapM_ok hsegments
  have hfooter : (footerPlain sp.entries sp.body.length).length < 2 ^ 32 := by
    have := h.neat.footer_lt
    rw [footerPlain_eq, length_footerBytes]
    omega
  obtain ⟨footer, hct⟩ := hseals (derivePackKey fmk sp.salt sp.kind) footerNonce
    (footerAad (writeHeader sp.kind) sp.kind) _ hfooter
  exact ⟨_, bind_eq_ok.2 ⟨segments, hrun, bind_eq_ok.2 ⟨footer, hct, rfl⟩⟩⟩

theorem sealedTableLen_lt (pack : PackId) :
    sealedTableLen (sp.entries.map (FooterEntry.located pack)) < 2 ^ 32 := by
  have hrows : (tableRows (sp.entries.map (FooterEntry.located pack))).length ≤ sp.entries.length := by
    refine (destutter_sublist _ _).length_le.trans ?_
    rw [sortEntries, length_insertionSort, length_map]
  have hcounted := h.neat.counted
  have hsmall := h.neat.small
  unfold sealTargetBytes at hsmall
  unfold sealedTableLen
  omega

/-- The locations of a pack that has just been written can be read. -/
theorem backs_located (laws : CipherLaws) {fmk : ByteArr 32}
    (hseal : sealPackBytes sp.kind fmk sp.salt sp.body sp.entries = .ok file) (d : PackDisk) :
    (d.withPack file).Backs fmk B (sp.entries.map (FooterEntry.located (packNameOf file))) where
  typed e he := by
    obtain ⟨f, hf, rfl⟩ := mem_map.1 he
    have hin := (h.wf.holds f hf).1
    have hrange := h.neat.range
    have hlength := le_segmentCount_mul sp.body.length
    unfold segmentPlainLen at hlength
    unfold IndexEntry.Typed FooterEntry.located
    dsimp only
    omega
  holds kind id e he := by
    rw [find?_map, Option.map_eq_some_iff] at he
    obtain ⟨f, hf, rfl⟩ := he
    have hmem := mem_of_find?_eq_some hf
    obtain ⟨rfl, rfl⟩ : f.kind = kind ∧ f.id = id := by
      have hkey := find?_some hf
      rwa [Function.comp_apply, decide_eq_true_eq] at hkey
    obtain ⟨ctx, hopen, hreads⟩ := h.wf.reads h.neat laws hseal
    refine ⟨_, h.within f hmem, file, ctx, ?_, hopen, hreads f hmem ?_⟩
    · rw [PackDisk.lookup_withPack]
      exact if_pos rfl
    · exact hf

omit [PackEnv] h in
theorem has_located (pack : PackId) {kind : BlobKind} {id : BlobId} :
    LocationTable.Has (sp.entries.map (FooterEntry.located pack)) kind id ↔ sp.Has kind id := by
  simp [LocationTable.Has, StagingPack.Has, FooterEntry.located]

end StagingPack.Ready

end

namespace Sample

theorem cipherSeals : CipherSeals := fun _ _ _ _ _ => ⟨_, rfl⟩

theorem emptyDisk_intact (B : Set Bytes) : emptyDisk.Intact zeroId B where
  opens n file h := by cases h
  holds e h := by
    obtain ⟨n, file, rows, hlookup, -⟩ := h
    cases hlookup

theorem emptyDisk_filesIn (F : Set Bytes) : emptyDisk.FilesIn F := fun _ _ h => nomatch h

end Sample

end Ferry
