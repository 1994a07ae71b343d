import Ferry.Lib.FirstOf
import Ferry.Packs.Roundtrip

/-! # Compacting the index

A table has one row for each blob, so a compaction keeps one location of each
blob, the first one that came in, and deletes the files that had the others. A
blob is still found afterwards if the pack at that location is there and gives it.
-/

namespace Ferry

open Lib List

/-! ## Tables -/

namespace IndexEntry

def bytes (e : IndexEntry) : Bytes :=
  [e.kind.toU8] ++ e.id.val ++ e.pack.val ++ leBytes 8 e.plainOff ++ leBytes 8 e.plainLen

def Typed (e : IndexEntry) : Prop := e.plainOff < 2 ^ 64 ∧ e.plainLen < 2 ^ 64

theorem length_bytes (e : IndexEntry) : e.bytes.length = 81 := by
  simp [bytes, e.id.property, e.pack.property]

theorem key_eq_iff {a b : IndexEntry} : a.key = b.key ↔ a.kind = b.kind ∧ a.id = b.id := by
  have hkind : a.kind.toU8.toNat = b.kind.toU8.toNat ↔ a.kind = b.kind := by
    cases a.kind <;> cases b.kind <;> decide
  rw [key, key, entryKey, entryKey, List.cons.injEq, hkind, ByteArr.key_injective.eq_iff]

end IndexEntry

theorem length_flatMap_bytes (rows : List IndexEntry) :
    (rows.flatMap IndexEntry.bytes).length = 81 * rows.length := by
  induction rows with
  | nil => rfl
  | cons e =>
    rw [flatMap_cons, length_append, e.length_bytes, length_cons]
    omega

theorem tablePlain_eq (entries : List IndexEntry) : tablePlain entries =
    leBytes 4 (tableRows entries).length ++ (tableRows entries).flatMap IndexEntry.bytes := by
  have hrows : ∀ (rows : List IndexEntry) out,
      rows.foldl putRow out = out ++ rows.flatMap IndexEntry.bytes := by
    intro rows
    induction rows with
    | nil => simp
    | cons e rows ih =>
      intro out
      rw [foldl_cons, ih]
      simp [putRow, putU64, putBytes, putU8, IndexEntry.bytes]
  rw [tablePlain, hrows]
  simp [putU32]

/-- Rows in the order of a table, after a row with the key `prev`. -/
def Increasing (prev : Option (List Nat)) (rows : List IndexEntry) : Prop :=
  (prev.toList ++ rows.map IndexEntry.key).Pairwise (· < ·)

theorem increasing_cons {prev : Option (List Nat)} {e : IndexEntry} {rows : List IndexEntry} :
    Increasing prev (e :: rows) ↔ ¬ prev.any (e.key ≤ ·) ∧ Increasing (some e.key) rows := by
  cases prev with
  | none => simp [Increasing]
  | some =>
    simp only [Increasing, Option.toList_some, map_cons, singleton_append, pairwise_cons,
      Option.any_some, decide_eq_true_eq, not_le, forall_mem_cons]
    constructor
    · rintro ⟨⟨hke, -⟩, hrest⟩
      exact ⟨hke, hrest⟩
    · rintro ⟨hke, hrest⟩
      exact ⟨⟨hke, fun x hx => hke.trans (hrest.1 x hx)⟩, hrest⟩

/-- The rows of a table are read back in increasing order, and in no other. -/
theorem readRows_decodes (count : Nat) : ∀ prev, Decodes (readRows count prev) fun rows w =>
    rows.length = count ∧ Increasing prev rows ∧ (∀ e ∈ rows, e.Typed) ∧
      w = rows.flatMap IndexEntry.bytes := by
  induction count with
  | zero =>
    intro prev
    refine (Decodes.pure []).congr fun rows w => ?_
    constructor
    · rintro ⟨rfl, rfl⟩
      cases prev <;> simp [Increasing]
    · rintro ⟨hlen, -, -, rfl⟩
      rw [length_eq_zero_iff] at hlen
      subst hlen
      exact ⟨rfl, rfl⟩
  | succ count ih =>
    intro prev
    apply Decodes.congr
    · apply BlobKind.decodes
      intro kind
      apply Decodes.field (Reader.array_decodes 32)
      intro id
      apply Decodes.field (Reader.array_decodes 32)
      intro pack
      apply Decodes.field Reader.u64_decodes
      intro plainOff
      apply Decodes.field Reader.u64_decodes
      intro plainLen
      apply Decodes.guard
      apply Decodes.bind (ih (some (entryKey kind.toU8 id)))
      intro rest
      exact .pure _
    intro rows u
    constructor
    · rintro ⟨kind, _, ⟨id, _, _, rfl, ⟨pack, _, _, rfl, ⟨off, _, _, ⟨hoff, rfl⟩, ⟨len, _, _, ⟨hlen, rfl⟩,
        ⟨hprev, rest, _, _, ⟨hcount, hinc, htyped, rfl⟩, ⟨rfl, rfl⟩, rfl⟩, rfl⟩, rfl⟩, rfl⟩, rfl⟩, rfl⟩
      refine ⟨by rw [length_cons, hcount], increasing_cons.2 ⟨hprev, hinc⟩,
        forall_mem_cons.2 ⟨⟨hoff, hlen⟩, htyped⟩, by simp [IndexEntry.bytes]⟩
    · rintro ⟨hcount, hinc, htyped, rfl⟩
      cases rows with
      | nil => cases hcount
      | cons e rest =>
        obtain ⟨⟨hoff, hlen⟩, hrest⟩ := forall_mem_cons.1 htyped
        obtain ⟨hprev, hinc⟩ := increasing_cons.1 hinc
        exact ⟨e.kind, _, ⟨e.id, _, _, rfl, ⟨e.pack, _, _, rfl, ⟨e.plainOff, _, _, ⟨hoff, rfl⟩,
          ⟨e.plainLen, _, _, ⟨hlen, rfl⟩, ⟨hprev, rest, _, _, ⟨Nat.succ.inj hcount, hinc, hrest, rfl⟩,
          ⟨rfl, rfl⟩, rfl⟩, rfl⟩, rfl⟩, rfl⟩, rfl⟩, by simp [IndexEntry.bytes]⟩

theorem readTable_decodes : DecodesAll readTable fun rows w => rows.length < 2 ^ 32 ∧
    Increasing none rows ∧ (∀ e ∈ rows, e.Typed) ∧
      w = leBytes 4 rows.length ++ rows.flatMap IndexEntry.bytes := by
  apply DecodesAll.congr
  · apply DecodesAll.field Reader.u32_decodes
    intro count
    apply DecodesAll.bind (readRows_decodes count none)
    intro rows
    exact Reader.ends_decodes _ _
  simp [and_assoc]

variable {kind : BlobKind} {id : BlobId} {b : Bytes}

theorem tableParse_ok_iff {rows : List IndexEntry} :
    tableParse b = .ok rows ↔ rows.length < 2 ^ 32 ∧ Increasing none rows ∧ (∀ e ∈ rows, e.Typed) ∧
      b = leBytes 4 rows.length ++ rows.flatMap IndexEntry.bytes :=
  readTable_decodes.run_new

/-! ## One row for each blob -/

theorem sortEntries_pairwise (entries : List IndexEntry) :
    (sortEntries entries).Pairwise (·.key ≤ ·.key) := by
  exact pairwise_insertionSort _ entries

theorem tableRows_pairwise (entries : List IndexEntry) : (tableRows entries).Pairwise (·.key < ·.key) :=
  pairwise_lt_destutter (fun _ _ => by rw [ne_eq, IndexEntry.key_eq_iff]) (sortEntries_pairwise entries)

theorem tableRows_subset (entries : List IndexEntry) : tableRows entries ⊆ entries := fun _ he =>
  (perm_insertionSort _ entries).subset ((destutter_sublist _ _).subset he)

theorem iterSorted_subset (t : LocationTable) : t.iterSorted ⊆ t := fun _ he =>
  (perm_insertionSort _ t).subset ((destutter_sublist _ _).subset he)

theorem candidates_rows (entries : List IndexEntry) (kind : BlobKind) (id : BlobId) :
    LocationTable.candidates (tableRows entries) kind id =
      (entries.find? fun e => e.kind = kind ∧ e.id = id).toList := by
  have hsame : ∀ a b : IndexEntry, decide (a.kind = kind ∧ a.id = id) → decide (b.kind = kind ∧ b.id = id) →
      a.key = b.key := by
    intro a b ha hb
    rw [decide_eq_true_eq] at ha hb
    exact IndexEntry.key_eq_iff.2 ⟨ha.1.trans hb.1.symm, ha.2.trans hb.2.symm⟩
  unfold LocationTable.candidates
  rw [filter_of_pairwise_lt hsame (tableRows_pairwise _), tableRows,
    find?_destutter, sortEntries, find?_insertionSort fun a b ha hb => (hsame a b ha hb).le]
  intro a b hab hb
  rw [decide_eq_true_eq] at hb ⊢
  obtain ⟨hkind, hid⟩ := not_not.1 hab
  exact ⟨hkind.trans hb.1, hid.trans hb.2⟩

theorem find?_iterSorted (t : LocationTable) (kind : BlobKind) (id : BlobId) :
    t.iterSorted.find? (fun e => e.kind = kind ∧ e.id = id) = t.find? fun e => e.kind = kind ∧ e.id = id := by
  rw [LocationTable.iterSorted, find?_destutter, sortEntries, find?_insertionSort]
  · intro a b ha hb
    rw [decide_eq_true_eq] at ha hb
    exact (IndexEntry.key_eq_iff.2 ⟨ha.1.trans hb.1.symm, ha.2.trans hb.2.symm⟩).le
  · intro a b hab hb
    rw [not_not.1 hab]
    exact hb

theorem candidates_tableRows (t : LocationTable) (kind : BlobKind) (id : BlobId) :
    LocationTable.candidates (tableRows t.iterSorted) kind id = (t.candidates kind id).head?.toList := by
  rw [candidates_rows, find?_iterSorted, LocationTable.candidates, head?_filter]

/-! ## Containers -/

section
variable [PackEnv] {fmk : ByteArr 32} {salt : ByteArr 16}

/-- The bytes of a sealed table; the field for their number is a `u32`. -/
def sealedTableLen (entries : List IndexEntry) : Nat := 81 * (tableRows entries).length + 20

omit [PackEnv] in
theorem length_tablePlain (entries : List IndexEntry) :
    (tablePlain entries).length + tagLen = sealedTableLen entries := by
  rw [tablePlain_eq, length_append, leBytes_length, length_flatMap_bytes]
  unfold sealedTableLen tagLen
  omega

/-- A sealed index file opens to the first location of each blob. -/
theorem openIndexContainer_sealed (laws : CipherLaws) {entries : List IndexEntry}
    (htyped : ∀ e ∈ entries, e.Typed) (hsize : sealedTableLen entries < 2 ^ 32) {file : Bytes}
    (hseal : sealIndexContainer fmk salt entries = .ok file) :
    openIndexContainer file fmk = .ok (tableRows entries) := by
  obtain ⟨ct, hct, h⟩ := bind_eq_ok.1 hseal
  obtain rfl : packFile .index salt [] ct = file := by
    cases h
    simp [packFile]
  have hctLen : ct.length = sealedTableLen entries := by
    rw [laws.length _ _ _ _ _ hct, length_tablePlain]
  have hlen := length_packFile .index salt [] ct
  have htail : footerLenOf (packFile .index salt [] ct) = ct.length := by
    rw [footerLenOf_packFile, Nat.mod_eq_of_lt (by omega)]
  have hstart : (packFile .index salt [] ct).length - 4 - ct.length = headerLen + saltLen := by
    rw [hlen, length_nil]
    omega
  unfold openIndexContainer
  refine guard_eq_ok.2 ⟨by omega, bind_eq_ok.2 ⟨.index, ?_, guard_eq_ok.2 ⟨not_not.2 rfl, ?_⟩⟩⟩
  · rw [parseHeader_packFile]
    rfl
  change (if _ < footerLenOf _ then _ else _) = _
  refine guard_eq_ok.2 ⟨by omega, ?_⟩
  change (if _ - footerLenOf _ < _ then _ else _) = _
  rw [htail, hstart]
  refine guard_eq_ok.2 ⟨Nat.lt_irrefl _, bind_eq_ok.2 ⟨tablePlain entries, mapError_eq_ok.2 ?_, ?_⟩⟩
  · rw [saltOf_packFile]
    change PackEnv.cipherOpen _ _ _ (((packFile .index salt [] ct).drop
      ((packFile .index salt [] ct).length - 4 - footerLenOf (packFile .index salt [] ct))).take
        (footerLenOf (packFile .index salt [] ct))) = _
    rw [htail, hstart, drop_prologue, nil_append, take_left]
    exact laws.opens _ _ _ _ _ hct
  · refine tableParse_ok_iff.2 ⟨?_, ?_, fun e he => htyped e (tableRows_subset entries he),
      tablePlain_eq entries⟩
    · unfold sealedTableLen at hsize
      omega
    · rw [Increasing, Option.toList_none, nil_append, pairwise_map]
      exact tableRows_pairwise entries

/-! ## The effect of a compaction -/

omit [PackEnv] in
theorem lookup_dropIndex (d : PackDisk) (numbers : List Nat) (n : Nat) :
    (d.dropIndex numbers).index.lookup n = if n ∈ numbers then none else d.index.lookup n := by
  unfold PackDisk.dropIndex
  dsimp only
  induction numbers generalizing d with
  | nil => rfl
  | cons m numbers ih =>
    have hrest := ih { d with index := d.index.erase m }
    dsimp only at hrest
    rw [foldl_cons, hrest]
    by_cases hn : n = m
    · subst hn
      simp [AList.lookup_erase]
    · simp [hn, AList.lookup_erase_ne hn]

omit [PackEnv] in
theorem entries_eq_singleton {files : AList (fun _ : Nat => Bytes)} {n : Nat} {file : Bytes}
    (h : ∀ m, files.lookup m = if m = n then some file else none) : files.entries = [⟨n, file⟩] := by
  have hmem : ∀ f, f ∈ files.entries ↔ f ∈ [(⟨n, file⟩ : Σ _ : Nat, Bytes)] := by
    rintro ⟨m, b⟩
    rw [← AList.mem_lookup_iff, h m, mem_singleton]
    by_cases hm : m = n
    · subst hm
      simp [eq_comm]
    · simp [hm]
  have hnodup : files.entries.Nodup := files.nodupKeys.nodup
  exact perm_singleton.1 ((perm_ext_iff_of_nodup hnodup (nodup_singleton _)).2 hmem)

/-- The directory with an index file under a number. -/
def PackDisk.withIndex (d : PackDisk) (n : Nat) (file : Bytes) : PackDisk :=
  { d with index := d.index.insert n file }

omit [PackEnv] in
theorem entries_dropIndex (d : PackDisk) (n : Nat) (file : Bytes) :
    ((d.withIndex n file).dropIndex (d.index.keys.filter (· ≠ n))).index.entries = [⟨n, file⟩] := by
  refine entries_eq_singleton fun m => ?_
  rw [lookup_dropIndex, PackDisk.withIndex]
  by_cases hm : m = n
  · subst hm
    simp [AList.lookup_insert]
  rw [AList.lookup_insert_ne hm, if_neg hm]
  split
  · rfl
  · rename_i hkeys
    rw [AList.lookup_eq_none, AList.mem_keys]
    exact fun hmem => hkeys (mem_filter.2 ⟨hmem, by simpa using hm⟩)

/-- The index is one table of the locations in memory; nothing else that a later store reads changes. -/
structure Compacted (s s' : PackStore) : Prop where
  packs : s'.disk.packs = s.disk.packs
  fmk : s'.fmk = s.fmk
  index : ∃ n salt file, sealIndexContainer s.fmk salt s.locations.iterSorted = .ok file ∧
    s'.disk.index.entries = [⟨n, file⟩]

variable {s s' : PackStore}

theorem run_writeIndexFile {entries : List IndexEntry} {n : Nat}
    (h : writeIndexFile entries s = .ok n s') : ∃ salt file,
      sealIndexContainer s.fmk salt entries = .ok file ∧ s'.disk.packs = s.disk.packs ∧ s'.fmk = s.fmk ∧
        s'.locations = s.locations ∧ s'.disk.index = s.disk.index.insert n file := by
  unfold writeIndexFile at h
  rw [run_bind_ok (show drawSalt s = .ok (PackEnv.salt s.draw) { s with draw := s.draw + 1 } from rfl),
    run_bind_ok (run_get _)] at h
  obtain ⟨file, s₁, hlift, h⟩ := run_bind_eq_ok.1 h
  cases hseal : sealIndexContainer s.fmk (PackEnv.salt s.draw) entries with
  | error =>
    simp only [hseal] at hlift
    cases hlift
  | ok =>
    simp only [hseal] at hlift
    cases hlift
    cases h
    exact ⟨_, _, hseal, rfl, rfl, rfl, rfl⟩

theorem compactIndex_compacted (h : compactIndex s = .ok () s') : Compacted s s' := by
  unfold compactIndex at h
  rw [run_bind_ok (run_get s)] at h
  obtain ⟨n, s₁, hwrite, hdrop⟩ := run_bind_eq_ok.1 h
  cases hdrop
  obtain ⟨salt, file, hseal, hpacks, hfmk, -, hindex⟩ := run_writeIndexFile hwrite
  refine ⟨hpacks, hfmk, n, salt, file, hseal, ?_⟩
  have hentries := entries_dropIndex s.disk n file
  rw [PackDisk.withIndex, ← hindex] at hentries
  exact hentries

/-! ## A store opened afterwards -/

omit [PackEnv] in
theorem merge_of_nodup {t incoming : LocationTable} (h : (t ++ incoming).Nodup) :
    t.merge incoming = t ++ incoming := by
  induction incoming generalizing t with
  | nil => rw [append_nil]; rfl
  | cons e incoming ih =>
    have hnew : e ∉ t := fun he => (disjoint_of_nodup_append h) he (by simp)
    have hrest : (t ++ [e] ++ incoming).Nodup := by simpa using h
    have hadd : t.add e = t ++ [e] := if_neg hnew
    change LocationTable.merge (t.add e) incoming = _
    rw [hadd, ih hrest, append_assoc, singleton_append]

/-- The location has the blob on disk: the pack is there, opens, and gives the bytes. -/
def PackDisk.Serves (d : PackDisk) (fmk : ByteArr 32) (kind : BlobKind) (id : BlobId) (b : Bytes)
    (e : IndexEntry) : Prop :=
  ∃ bytes ctx, d.packs.lookup e.pack = some bytes ∧ openPack bytes e.pack fmk = .ok ctx ∧
    readBlobFromCtx bytes ctx kind id (e.plainOff, e.plainLen) = .ok b

theorem answers_nil :
    ¬ PackStore.Answers kind id b s [] := by
  intro h
  cases h

theorem answers_singleton {e : IndexEntry} :
    PackStore.Answers kind id b s [e] ↔ s.reads kind id e = .ok b := by
  constructor
  · intro h
    cases h with
    | here hok => exact hok
    | later _ _ hrest => exact absurd hrest answers_nil
  · exact .here

theorem reads_iff_serves {e : IndexEntry} (hcache : s.cache.find e.pack = none) :
    s.reads kind id e = .ok b ↔ s.disk.Serves s.fmk kind id b e := by
  unfold PackDisk.Serves PackStore.reads PackStore.verified
  rw [hcache]
  cases hlookup : s.disk.packs.lookup e.pack with
  | none => simp [Except.bind]
  | some bytes =>
    cases hopen : openPack bytes e.pack s.fmk with
    | error | ok => simp [Except.map, Except.bind, hopen]

theorem gives_fresh_iff (d : PackDisk) (fmk : ByteArr 32) (draw : Nat) {t : LocationTable}
    (b : Bytes) {first : Option IndexEntry} (hfirst : t.candidates kind id = first.toList) :
    (PackStore.fresh d fmk draw t).Gives kind id b ↔ ∃ e, first = some e ∧ d.Serves fmk kind id b e := by
  have hat : (PackStore.fresh d fmk draw t).presentAt kind id =
      first.toList.filter fun e => (d.packs.lookup e.pack).isSome := by
    change (t.candidates kind id).filter _ = _
    rw [hfirst]
    simp [PackStore.present, PackStore.fresh]
  change PackStore.Answers kind id b _ _ ↔ _
  rw [hat]
  cases first with
  | none => simp [answers_nil]
  | some e =>
    cases hlookup : d.packs.lookup e.pack with
    | none =>
      simp [hlookup, answers_nil, PackDisk.Serves]
    | some =>
      have hreads : (PackStore.fresh d fmk draw t).reads kind id e = .ok b ↔ _ := reads_iff_serves rfl
      simp only [Option.toList_some, filter_cons, hlookup, Option.isSome_some, if_true,
        filter_nil, answers_singleton, hreads]
      simp [PackStore.fresh]

theorem Compacted.openStore_eq (h : Compacted s s') (laws : CipherLaws)
    (htyped : ∀ e ∈ s.locations, e.Typed) (hsize : sealedTableLen s.locations.iterSorted < 2 ^ 32) (draw : Nat) :
    openStore s'.disk s'.fmk draw = .ok (.fresh s'.disk s'.fmk draw (tableRows s.locations.iterSorted)) := by
  obtain ⟨n, salt, file, hseal, hentries⟩ := h.index
  have hopen := openIndexContainer_sealed laws (fun e he => htyped e (iterSorted_subset _ he)) hsize hseal
  have hnodup : (tableRows s.locations.iterSorted).Nodup :=
    (tableRows_pairwise _).imp fun hlt heq => hlt.ne (congrArg _ heq)
  have hload : loadLocations s'.fmk (sortIndexFiles s'.disk.index) =
      .ok (tableRows s.locations.iterSorted) := by
    rw [sortIndexFiles, hentries, h.fmk]
    change (openIndexContainer file s.fmk >>= fun es => pure (LocationTable.merge [] es)) >>= pure = _
    rw [hopen]
    change Except.ok (LocationTable.merge [] _) = _
    rw [merge_of_nodup hnodup, nil_append]
  rw [openStore, hload]
  rfl

/-- `compact_index`, or an index file written when there are too many of them. -/
inductive Compacts : PackStore → PackStore → Prop
  | direct {s s' : PackStore} : compactIndex s = .ok () s' → Compacts s s'
  | triggered {s s₁ s' : PackStore} {entries : List IndexEntry} {n : Nat} :
      writeIndexFile entries s = .ok n s₁ → indexCompactionThreshold ≤ s₁.disk.index.keys.length →
      appendIndexFile entries s = .ok () s' → Compacts s s'

theorem Compacts.compacted (h : Compacts s s') : Compacted s s' := by
  cases h with
  | direct hrun => exact compactIndex_compacted hrun
  | triggered hwrite hmany hrun =>
    unfold appendIndexFile at hrun
    rw [run_bind_ok hwrite, run_bind_ok (run_get _), if_pos hmany] at hrun
    obtain ⟨-, -, -, hpacks, hfmk, hlocations, -⟩ := run_writeIndexFile hwrite
    obtain ⟨hpacks', hfmk', hindex⟩ := compactIndex_compacted hrun
    rw [hfmk, hlocations] at hindex
    exact ⟨hpacks'.trans hpacks, hfmk'.trans hfmk, hindex⟩

/-- The first of the locations that the blob has serves it. -/
def PackStore.ServedFirst (s : PackStore) (kind : BlobKind) (id : BlobId) (b : Bytes) : Prop :=
  ∃ e, (s.locations.candidates kind id).head? = some e ∧ s.disk.Serves s.fmk kind id b e

theorem readable_after_iff (laws : CipherLaws) (h : Compacted s s')
    (htyped : ∀ e ∈ s.locations, e.Typed) (hsize : sealedTableLen s.locations.iterSorted < 2 ^ 32)
    (draw : Nat) (kind : BlobKind) (id : BlobId) (b : Bytes) :
    (∃ t t', openStore s'.disk s'.fmk draw = .ok t ∧ getBlob kind id t = .ok b t') ↔
      s.ServedFirst kind id b := by
  have hopen := h.openStore_eq laws htyped hsize draw
  have hgives := gives_fresh_iff s'.disk s'.fmk draw b (candidates_tableRows s.locations kind id)
  rw [← run_getBlob_iff] at hgives
  have hserves : (∃ e, (s.locations.candidates kind id).head? = some e ∧
      s'.disk.Serves s'.fmk kind id b e) ↔ s.ServedFirst kind id b := by
    unfold PackStore.ServedFirst PackDisk.Serves
    rw [h.packs, h.fmk]
  rw [← hserves, ← hgives]
  constructor
  · rintro ⟨t, t', ht, hget⟩
    rw [hopen] at ht
    cases ht
    exact ⟨t', hget⟩
  · rintro ⟨t', hget⟩
    exact ⟨_, t', hopen, hget⟩

/-- A compaction loses nothing that could be read if and only if everything that could be read is
served by the first of its locations. -/
theorem compaction_keeps_iff (laws : CipherLaws) {s s' : PackStore} (h : Compacts s s')
    (htyped : ∀ e ∈ s.locations, e.Typed) (hsize : sealedTableLen s.locations.iterSorted < 2 ^ 32)
    (draw : Nat) :
    (∀ kind id b, (∃ s₁, getBlob kind id s = .ok b s₁) →
      ∃ t t', openStore s'.disk s'.fmk draw = .ok t ∧ getBlob kind id t = .ok b t') ↔
      ∀ kind id b, (∃ s₁, getBlob kind id s = .ok b s₁) → s.ServedFirst kind id b := by
  constructor
  · intro hkeeps kind id b hget
    exact (readable_after_iff laws h.compacted htyped hsize draw kind id b).1 (hkeeps kind id b hget)
  · intro hserved kind id b hget
    exact (readable_after_iff laws h.compacted htyped hsize draw kind id b).2 (hserved kind id b hget)

end

/-! ## Samples -/

namespace Sample

/-- The chunk of `flushedStore`, as another device sealed it. -/
def twinPack : Bytes :=
  match sealPackBytes .packData zeroId (ByteArr.fill 16 9) [7] (layOut 0 oneBlob) with
  | .ok file => file
  | .error _ => []

/-- The chunk in two packs. Of the first one it has been noted that nothing refers to it. -/
def twoPacks : PackStore :=
  (StoreOp.adoptPack (packNameOf twinPack) twinPack).after
    ((StoreOp.collectGarbage 10 [] 10 0).after flushedStore)

/-- The same store after the time of grace: the first pack is deleted. -/
def onePackLeft : PackStore := (StoreOp.collectGarbage 10 [] 10 10).after twoPacks

theorem onePackLeft_reached : onePackLeft.Reached :=
  .op (.collectGarbage 10 [] 10 10) (.op (.adoptPack (packNameOf twinPack) twinPack)
    (.op (.collectGarbage 10 [] 10 0) flushedStore_reached))

theorem compactIndex_succeeds (s : PackStore) : ∃ s', compactIndex s = .ok () s' := ⟨_, rfl⟩

def flushedEntry : IndexEntry := ⟨.dataChunk, Env.blake3 [7],
  packNameOf (flushedStore.disk.packs.entries.headD ⟨zeroId, []⟩).2, 0, 1⟩

theorem flushedStore_locations : flushedStore.locations = [flushedEntry] := by decide +kernel

theorem flushedStore_served
    (h : ∃ s₁, getBlob kind id flushedStore = .ok b s₁) : flushedStore.ServedFirst kind id b := by
  have hgives : PackStore.Answers kind id b flushedStore (flushedStore.presentAt kind id) :=
    (run_getBlob_iff flushedStore).1 h
  by_cases hkey : flushedEntry.kind = kind ∧ flushedEntry.id = id
  · have hcandidates : flushedStore.locations.candidates kind id = [flushedEntry] := by
      rw [flushedStore_locations, LocationTable.candidates, filter_cons_of_pos (by simpa using hkey),
        filter_nil]
    have hpresent : flushedStore.present flushedEntry.pack := by decide +kernel
    have hat : flushedStore.presentAt kind id = [flushedEntry] := by
      simp [PackStore.presentAt, hcandidates, hpresent]
    rw [hat, answers_singleton, reads_iff_serves rfl] at hgives
    exact ⟨flushedEntry, by rw [hcandidates]; rfl, hgives⟩
  · have hcandidates : flushedStore.locations.candidates kind id = [] := by
      rw [flushedStore_locations, LocationTable.candidates, filter_cons_of_neg (by simpa using hkey),
        filter_nil]
    rw [PackStore.presentAt, hcandidates] at hgives
    exact absurd hgives answers_nil

theorem compaction_keeps_flushed : ∃ s', Compacts flushedStore s' ∧
    ∀ kind id b, (∃ s₁, getBlob kind id flushedStore = .ok b s₁) →
      ∃ t t', openStore s'.disk s'.fmk 0 = .ok t ∧ getBlob kind id t = .ok b t' := by
  obtain ⟨s', hs'⟩ := compactIndex_succeeds flushedStore
  refine ⟨s', .direct hs', (compaction_keeps_iff cipherLaws (.direct hs') ?_ (by decide +kernel) 0).2
    fun _ _ _ => flushedStore_served⟩
  rw [flushedStore_locations, forall_mem_singleton]
  exact ⟨by decide, by decide⟩

/-- The collector deletes the first of two packs with a chunk. The chunk is read from the second one
until a compaction writes a table in which only the first one stands. -/
theorem compaction_loses_chunk : ∃ s', onePackLeft.Reached ∧ Compacts onePackLeft s' ∧
    (∃ s₁, getBlob .dataChunk (Env.blake3 [7]) onePackLeft = .ok [7] s₁) ∧
    ¬ ∃ t t', openStore s'.disk s'.fmk 0 = .ok t ∧ getBlob .dataChunk (Env.blake3 [7]) t = .ok [7] t' := by
  obtain ⟨s', hs'⟩ := compactIndex_succeeds onePackLeft
  have htyped : ∀ e ∈ onePackLeft.locations, e.plainOff < 2 ^ 64 ∧ e.plainLen < 2 ^ 64 := by decide +kernel
  have hgone : ((onePackLeft.locations.candidates .dataChunk (Env.blake3 [7])).head?.bind fun e =>
      onePackLeft.disk.packs.lookup e.pack) = none := by decide +kernel
  refine ⟨s', onePackLeft_reached, .direct hs', run_of_resultOf (by decide +kernel), ?_⟩
  rw [readable_after_iff cipherLaws (compactIndex_compacted hs') htyped (by decide +kernel)]
  rintro ⟨e, hfirst, bytes, ctx, hlookup, -⟩
  rw [hfirst, Option.bind_some, hlookup] at hgone
  cases hgone

end Sample

end Ferry
