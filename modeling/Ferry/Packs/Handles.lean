import Ferry.Packs.Transit

/-! # Several handles on one index

Each handle numbers index files from a counter of its own and puts into a
compacted table what it knows itself. As long as a number that is used is greater
than those in the directory, and a handle that compacts knows what the files it
lists tell of, rows only ever move to files with greater numbers: a task that
removes a file removes nothing that is not listed further up.
-/

namespace Ferry

open Lib List

section
variable [PackEnv]

/-! ## Rows that move up -/

def FileLists (fmk : ByteArr 32) (file : Bytes) (kind : BlobKind) (id : BlobId) : Prop :=
  ∃ rows, openIndexContainer file fmk = .ok rows ∧ LocationTable.Has rows kind id

namespace PackDisk

variable {fmk : ByteArr 32} {B : Set Bytes} {d d' : PackDisk} {kind : BlobKind} {id : BlobId} {n : Nat}
  {file : Bytes}

/-- The index file with this number has a row for the blob. -/
def ListedAt (d : PackDisk) (fmk : ByteArr 32) (kind : BlobKind) (id : BlobId) (n : Nat) : Prop :=
  ∃ file, d.index.lookup n = some file ∧ FileLists fmk file kind id

theorem indexed_iff : d.Indexed fmk kind id ↔ ∃ n, d.ListedAt fmk kind id n := by
  constructor
  · rintro ⟨e, ⟨n, file, rows, hlookup, hopen, he⟩, hkey⟩
    exact ⟨n, file, hlookup, rows, hopen, e, he, hkey⟩
  · rintro ⟨n, file, hlookup, rows, hopen, e, he, hkey⟩
    exact ⟨e, ⟨n, file, rows, hlookup, hopen, he⟩, hkey⟩

/-- How the index changes while nothing gets lost: files come with numbers greater than all others, and a
row that goes is listed further up. -/
structure Upward (fmk : ByteArr 32) (d d' : PackDisk) : Prop where
  numbers : ∀ m ∈ d.index, ∃ m' ∈ d'.index, m ≤ m'
  fresh : ∀ m file, d'.index.lookup m = some file → d.index.lookup m = some file ∨ ∀ m' ∈ d.index, m' < m
  rows : ∀ kind id m, d.ListedAt fmk kind id m → ∃ m', m ≤ m' ∧ d'.ListedAt fmk kind id m'

theorem Upward.of_index (h : d'.index = d.index) : d.Upward fmk d' where
  numbers m hm := ⟨m, by rw [h]; exact hm, le_rfl⟩
  fresh m file hlookup := .inl (by rw [← h]; exact hlookup)
  rows kind id m hlisted := ⟨m, le_rfl, by unfold ListedAt; rw [h]; exact hlisted⟩

theorem Upward.indexed (h : d.Upward fmk d') (hin : d.Indexed fmk kind id) : d'.Indexed fmk kind id := by
  obtain ⟨m, hlisted⟩ := indexed_iff.1 hin
  obtain ⟨m', -, hlisted'⟩ := h.rows kind id m hlisted
  exact indexed_iff.2 ⟨m', hlisted'⟩

theorem Upward.listedAt_of_le (h : d.Upward fmk d') {m m' : Nat} (hm : m' ∈ d.index) (hle : m ≤ m')
    (hlisted : d'.ListedAt fmk kind id m) : d.ListedAt fmk kind id m := by
  obtain ⟨file, hlookup, hrows⟩ := hlisted
  rcases h.fresh m file hlookup with hold | hnew
  · exact ⟨file, hold, hrows⟩
  · exact absurd (hnew m' hm) (by omega)

theorem mem_index_of_listedAt (h : d.ListedAt fmk kind id n) : n ∈ d.index := by
  obtain ⟨file, hlookup, -⟩ := h
  exact AList.lookup_isSome.1 (by rw [hlookup]; rfl)

theorem upward_withIndex (hnew : ∀ m ∈ d.index, m < n) : d.Upward fmk (d.withIndex n file) where
  numbers m hm := ⟨m, AList.mem_insert _ |>.2 (.inr hm), le_rfl⟩
  fresh m file' hlookup := by
    rw [lookup_withIndex] at hlookup
    split at hlookup
    · rename_i hm
      rw [hm]
      exact .inr hnew
    · exact .inl hlookup
  rows kind id m hlisted := by
    have hm := hnew m (mem_index_of_listedAt hlisted)
    obtain ⟨file', hlookup, hrows⟩ := hlisted
    refine ⟨m, le_rfl, file', ?_, hrows⟩
    rw [lookup_withIndex, if_neg (by omega)]
    exact hlookup

theorem listedAt_withIndex_self (h : FileLists fmk file kind id) : (d.withIndex n file).ListedAt fmk kind id n :=
  ⟨file, by rw [lookup_withIndex, if_pos rfl], h⟩

theorem listedAt_withIndex_of_ne {m : Nat} (hm : m ≠ n) :
    (d.withIndex n file).ListedAt fmk kind id m ↔ d.ListedAt fmk kind id m := by
  unfold ListedAt
  rw [lookup_withIndex, if_neg hm]

theorem listedAt_dropIndex {old m : Nat} :
    (d.dropIndex [old]).ListedAt fmk kind id m ↔ m ≠ old ∧ d.ListedAt fmk kind id m := by
  unfold ListedAt
  rw [lookup_dropIndex]
  by_cases hm : m = old <;> simp [hm]

omit [PackEnv] in
theorem mem_dropIndex {old m : Nat} : m ∈ (d.dropIndex [old]).index ↔ m ≠ old ∧ m ∈ d.index := by
  rw [← AList.lookup_isSome, lookup_dropIndex, ← AList.lookup_isSome]
  by_cases hm : m = old <;> simp [hm]

end PackDisk

/-! ## Tasks that change the index -/

/-- What a task that compacts can rely on: the numbers that it has listed are not given again, and what the
files with these numbers tell of is in the table that it writes, or has written. -/
def IndexPoint.Safe (fmk : ByteArr 32) (d : PackDisk) (locations : LocationTable) : IndexPoint → Prop
  | .table olds => ∀ m ∈ olds, (∃ m' ∈ d.index, m ≤ m') ∧
      ∀ kind id, d.ListedAt fmk kind id m → locations.Has kind id
  | .realloc olds file | .rerename olds _ file => ∀ m ∈ olds, (∃ m' ∈ d.index, m ≤ m') ∧
      ∀ kind id, d.ListedAt fmk kind id m → FileLists fmk file kind id
  | .remove n olds => (∃ m' ∈ d.index, n ≤ m') ∧ ∀ m ∈ olds, m < n ∧
      ∀ kind id, d.ListedAt fmk kind id m → ∃ m', n ≤ m' ∧ d.ListedAt fmk kind id m'
  | _ => True

def StoreTask.Safe (fmk : ByteArr 32) (d : PackDisk) (locations : LocationTable) : StoreTask → Prop
  | .indexing point _ _ => point.Safe fmk d locations
  | _ => True

def StoreTask.Lists (fmk : ByteArr 32) (kind : BlobKind) (id : BlobId) : StoreTask → Prop
  | .indexing (.sealTable entries) _ _ => LocationTable.Has entries kind id
  | .indexing (.lock file) _ _ | .indexing (.alloc file) _ _ | .indexing (.rename _ file) _ _ =>
    FileLists fmk file kind id
  | _ => False

/-- The number of an index file that is written is greater than those in the directory, and a handle that
compacts knows all the blobs that the files in the directory tell of. -/
def StoreTask.Clear (fmk : ByteArr 32) (h : StoreHandle) : StoreTask → Prop
  | .indexing (.rename n _) _ _ | .indexing (.rerename _ n _) _ _ => ∀ m ∈ h.store.disk.index, m < n
  | .indexing .list _ _ => ∀ kind id, h.store.disk.Indexed fmk kind id → h.store.locations.Has kind id
  | _ => True

structure IndexEffect (fmk : ByteArr 32) (t : StoreTask) (h : StoreHandle) (t' : StoreTask) (h' : StoreHandle) :
    Prop where
  upward : h.store.disk.Upward fmk h'.store.disk
  safe : t'.Safe fmk h'.store.disk h'.store.locations
  lists : ∀ kind id, t.Lists fmk kind id → t'.Lists fmk kind id ∨ h'.store.disk.Indexed fmk kind id
  located : ∀ kind id, h'.store.locations.Has kind id → h.store.locations.Has kind id ∨ t'.Lists fmk kind id

section
variable {B F : Set Bytes} {fmk : ByteArr 32} {d d' : PackDisk} {t t' : StoreTask} {h h' : StoreHandle}
  {locations locations' : LocationTable}

/-- What a task relies on stays true while the index numbers and the known locations grow. -/
theorem PackDisk.Upward.safe (hd : d.Upward fmk d') (hgrow : ∀ kind id, locations.Has kind id → locations'.Has kind id)
    (ht : t.Safe fmk d locations) : t.Safe fmk d' locations' := by
  have hbound : ∀ {m : Nat}, (∃ m' ∈ d.index, m ≤ m') → ∃ m' ∈ d'.index, m ≤ m' := by
    rintro m ⟨m', hm', hle⟩
    obtain ⟨m'', hm'', hle'⟩ := hd.numbers m' hm'
    exact ⟨m'', hm'', hle.trans hle'⟩
  cases t with
  | indexing point =>
    cases point with
    | table =>
      intro m hm
      obtain ⟨⟨m', hm', hle⟩, hrows⟩ := ht m hm
      exact ⟨hbound ⟨m', hm', hle⟩, fun kind id hlisted =>
        hgrow kind id (hrows kind id (hd.listedAt_of_le hm' hle hlisted))⟩
    | realloc | rerename =>
      intro m hm
      obtain ⟨⟨m', hm', hle⟩, hrows⟩ := ht m hm
      exact ⟨hbound ⟨m', hm', hle⟩, fun kind id hlisted => hrows kind id (hd.listedAt_of_le hm' hle hlisted)⟩
    | remove =>
      obtain ⟨⟨m', hm', hle⟩, holds⟩ := ht
      refine ⟨hbound ⟨m', hm', hle⟩, fun m hm => ⟨(holds m hm).1, fun kind id hlisted => ?_⟩⟩
      obtain ⟨hlt, hrows⟩ := holds m hm
      obtain ⟨m₁, hm₁, hlisted₁⟩ := hrows kind id (hd.listedAt_of_le hm' (by omega) hlisted)
      obtain ⟨m₂, hm₂, hlisted₂⟩ := hd.rows kind id m₁ hlisted₁
      exact ⟨m₂, hm₁.trans hm₂, hlisted₂⟩
    | _ => trivial
  | _ => trivial

theorem IndexEffect.quiet (hindex : h'.store.disk.index = h.store.disk.index)
    (hlocations : h'.store.locations = h.store.locations)
    (hsafe : t'.Safe fmk h.store.disk h.store.locations)
    (hlists : ∀ kind id, t.Lists fmk kind id → t'.Lists fmk kind id) : IndexEffect fmk t h t' h' where
  upward := .of_index hindex
  safe := (PackDisk.Upward.of_index hindex).safe (fun _ _ hin => by rw [hlocations]; exact hin) hsafe
  lists kind id hin := .inl (hlists kind id hin)
  located kind id hin := .inl (by rw [← hlocations]; exact hin)

theorem fileLists_sealed (laws : CipherLaws) {entries : LocationTable} (htyped : ∀ e ∈ entries, e.Typed)
    (hsize : sealedTableLen entries < 2 ^ 32) {salt : ByteArr 16} {file : Bytes}
    (hseal : sealIndexContainer fmk salt entries = .ok file) {kind : BlobKind} {id : BlobId}
    (hin : entries.Has kind id) : FileLists fmk file kind id :=
  ⟨_, openIndexContainer_sealed laws htyped hsize hseal, LocationTable.has_tableRows.2 hin⟩

/-- The step lemma where index files are written: what is listed stays listed. -/
theorem IndexEffect.indexing (laws : CipherLaws) (hseals : CipherSeals) {point : IndexPoint}
    {packs : List StagingPack} {reply : Reply} (hhandle : HandleOk B F fmk h.store.disk h.store)
    (htask : StoreTask.Ok B F fmk h.store.disk (.indexing point packs reply))
    (hfits : StoreTask.Fits B F fmk h (.indexing point packs reply))
    (hsafe : StoreTask.Safe fmk h.store.disk h.store.locations (.indexing point packs reply))
    (hclear : StoreTask.Clear fmk h (.indexing point packs reply))
    (hstep : StoreTask.step (.indexing point packs reply) h = some (t', h')) :
    IndexEffect fmk (.indexing point packs reply) h t' h' := by
  obtain ⟨hpoint, -⟩ := htask
  rw [StoreTask.step] at hstep
  cases point with
  | sealTable =>
    obtain ⟨file, hseal⟩ := sealIndexContainer_ok hseals hpoint.size fmk (PackEnv.salt h.store.draw)
    rw [IndexPoint.step, hhandle.key, hseal] at hstep
    cases hstep
    exact .quiet rfl rfl trivial fun kind id hin => fileLists_sealed laws hpoint.backs.typed hpoint.size hseal hin
  | lock =>
    rw [IndexPoint.step] at hstep
    split at hstep
    · cases hstep
    · cases hstep
      exact .quiet rfl rfl trivial fun _ _ hin => hin
  | alloc =>
    cases hstep
    exact .quiet rfl rfl trivial fun _ _ hin => hin
  | rename n =>
    cases hstep
    exact
      { upward := PackDisk.upward_withIndex hclear
        safe := trivial
        lists := fun kind id hin => .inr (PackDisk.indexed_iff.2 ⟨n, PackDisk.listedAt_withIndex_self hin⟩)
        located := fun _ _ hin => .inl hin }
  | count =>
    cases hstep
    split
    · exact .quiet rfl rfl trivial fun _ _ hin => hin.elim
    · exact .quiet rfl rfl trivial fun _ _ hin => hin.elim
  | lockList =>
    rw [IndexPoint.step] at hstep
    split at hstep
    · cases hstep
    · cases hstep
      exact .quiet rfl rfl trivial fun _ _ hin => hin.elim
  | list =>
    cases hstep
    refine .quiet rfl rfl (fun m hm => ⟨⟨m, AList.mem_keys.2 hm, le_rfl⟩, fun kind id hlisted => ?_⟩)
      fun _ _ hin => hin.elim
    exact hclear kind id (PackDisk.indexed_iff.2 ⟨m, hlisted⟩)
  | table =>
    have hsize := sealedTableLen_iterSorted hfits
    obtain ⟨file, hseal⟩ := sealIndexContainer_ok hseals hsize fmk (PackEnv.salt h.store.draw)
    rw [IndexPoint.step, hhandle.key, hseal] at hstep
    cases hstep
    refine .quiet rfl rfl (fun m hm => ⟨(hsafe m hm).1, fun kind id hlisted => ?_⟩) fun _ _ hin => hin.elim
    exact fileLists_sealed laws hhandle.backs.iterSorted.typed hsize hseal
      (LocationTable.has_iterSorted.2 ((hsafe m hm).2 kind id hlisted))
  | realloc =>
    cases hstep
    exact .quiet rfl rfl hsafe fun _ _ hin => hin.elim
  | rerename olds n =>
    cases hstep
    refine
      { upward := PackDisk.upward_withIndex hclear
        safe := ⟨⟨n, (AList.mem_insert _).2 (.inl rfl), le_rfl⟩, fun m hm => ?_⟩
        lists := fun _ _ hin => hin.elim
        located := fun _ _ hin => .inl hin }
    obtain ⟨hold, hne⟩ := mem_filter.1 hm
    obtain ⟨⟨m', hm', hle⟩, hrows⟩ := hsafe m hold
    have hlt : m < n := hle.trans_lt (hclear m' hm')
    refine ⟨hlt, fun kind id hlisted => ⟨n, le_rfl, PackDisk.listedAt_withIndex_self ?_⟩⟩
    exact hrows kind id ((PackDisk.listedAt_withIndex_of_ne (by omega)).1 hlisted)
  | remove n olds =>
    cases olds with
    | nil =>
      cases hstep
      exact .quiet rfl rfl trivial fun _ _ hin => hin.elim
    | cons old =>
      cases hstep
      obtain ⟨⟨top, htop, hle⟩, holds⟩ := hsafe
      obtain ⟨hold, hup⟩ := holds old (by simp)
      have hmem : ∀ m, m ≠ old → m ∈ h.store.disk.index → m ∈ (h.store.disk.dropIndex [old]).index :=
        fun m hne hm => PackDisk.mem_dropIndex.2 ⟨hne, hm⟩
      -- what the removed file tells of is listed at or above `n`
      have hmoved : ∀ kind id, h.store.disk.ListedAt fmk kind id old →
          ∃ m', n ≤ m' ∧ (h.store.disk.dropIndex [old]).ListedAt fmk kind id m' := by
        intro kind id hlisted
        obtain ⟨m', hm', hlisted'⟩ := hup kind id hlisted
        exact ⟨m', hm', PackDisk.listedAt_dropIndex.2 ⟨by omega, hlisted'⟩⟩
      refine
        { upward :=
            { numbers := fun m hm => ?_
              fresh := fun m file hlookup => ?_
              rows := fun kind id m hlisted => ?_ }
          safe := ⟨⟨top, hmem top (by omega) htop, hle⟩, fun m hm => ?_⟩
          lists := fun _ _ hin => hin.elim
          located := fun _ _ hin => .inl hin }
      · by_cases hm' : m = old
        · exact ⟨top, hmem top (by omega) htop, by omega⟩
        · exact ⟨m, hmem m hm' hm, le_rfl⟩
      · rw [PackDisk.lookup_dropIndex] at hlookup
        split at hlookup
        · cases hlookup
        · exact .inl hlookup
      · by_cases hm' : m = old
        · subst hm'
          obtain ⟨m', hm', hlisted'⟩ := hmoved kind id hlisted
          exact ⟨m', by omega, hlisted'⟩
        · exact ⟨m, le_rfl, PackDisk.listedAt_dropIndex.2 ⟨hm', hlisted⟩⟩
      · obtain ⟨hlt, hrows⟩ := holds m (by simp [hm])
        refine ⟨hlt, fun kind id hlisted => ?_⟩
        obtain ⟨m', hm', hlisted'⟩ := hrows kind id (PackDisk.listedAt_dropIndex.1 hlisted).2
        exact ⟨m', hm', PackDisk.listedAt_dropIndex.2 ⟨by omega, hlisted'⟩⟩
  | unlock =>
    cases hstep
    exact .quiet rfl rfl trivial fun _ _ hin => hin.elim

omit [PackEnv] in
theorem noted_leaves_packExists (s : PackStore) (pack : PackId) :
    (leaves (packExists pack) s).disk = s.disk ∧ (leaves (packExists pack) s).locations = s.locations := by
  obtain ⟨s', hrun, ⟨dangling, rfl⟩, -⟩ := run_packExists s pack
  rw [leaves, hrun]
  exact ⟨rfl, rfl⟩

omit [PackEnv] in
theorem noted_leaves_anyExists (s : PackStore) (es : List IndexEntry) :
    (leaves (anyExists es) s).disk = s.disk ∧ (leaves (anyExists es) s).locations = s.locations := by
  obtain ⟨s', hrun, ⟨dangling, rfl⟩, -⟩ := run_anyExists es s
  rw [leaves, hrun]
  exact ⟨rfl, rfl⟩

/-- No other step touches the index. -/
theorem IndexEffect.elsewhere (hstep : t.step h = some (t', h'))
    (hmerging : ∀ entries packs reply, t ≠ .merging entries packs reply)
    (hindexing : ∀ point packs reply, t ≠ .indexing point packs reply) : IndexEffect fmk t h t' h' := by
  have hlists : ∀ kind id, t.Lists fmk kind id → t'.Lists fmk kind id := by
    intro kind id hin
    cases t with
    | indexing point packs reply => exact absurd rfl (hindexing point packs reply)
    | _ => cases hin
  suffices hsame : h'.store.disk.index = h.store.disk.index ∧ h'.store.locations = h.store.locations ∧
      ∀ d locations, t'.Safe fmk d locations from .quiet hsame.1 hsame.2.1 (hsame.2.2 _ _) hlists
  cases t with
  | putCheck kind bytes =>
    obtain ⟨hdisk, hlocations⟩ :=
      noted_leaves_anyExists h.store (h.store.locations.candidates kind (Env.blake3 bytes))
    rw [StoreTask.step] at hstep
    split at hstep
    · cases hstep
      exact ⟨rfl, rfl, fun _ _ => trivial⟩
    · dsimp only at hstep
      split at hstep <;> cases hstep <;> exact ⟨by rw [hdisk], hlocations, fun _ _ => trivial⟩
  | putOffer | flushDrain | noting | adoptKeep | adoptWrite | adoptNote =>
    cases hstep
    exact ⟨rfl, rfl, fun _ _ => trivial⟩
  | sealing packs =>
    cases packs with
    | nil =>
      cases hstep
      exact ⟨rfl, rfl, fun _ _ => trivial⟩
    | cons =>
      rw [StoreTask.step] at hstep
      split at hstep <;> cases hstep <;> exact ⟨rfl, rfl, fun _ _ => trivial⟩
  | merging entries packs reply => exact absurd rfl (hmerging entries packs reply)
  | indexing point packs reply => exact absurd rfl (hindexing point packs reply)
  | getStaged =>
    rw [StoreTask.step] at hstep
    split at hstep
    · split at hstep <;> cases hstep <;> exact ⟨rfl, rfl, fun _ _ => trivial⟩
    · cases hstep
      exact ⟨rfl, rfl, fun _ _ => trivial⟩
  | getLocations =>
    rw [StoreTask.step] at hstep
    split at hstep <;> cases hstep <;> exact ⟨rfl, rfl, fun _ _ => trivial⟩
  | getSort kind id todo | getNext kind id todo =>
    cases todo with
    | nil =>
      cases hstep
      exact ⟨rfl, rfl, fun _ _ => trivial⟩
    | cons e =>
      obtain ⟨hdisk, hlocations⟩ := noted_leaves_packExists h.store e.pack
      cases hstep
      exact ⟨by rw [hdisk], hlocations, fun _ _ => by split <;> trivial⟩
  | getCache =>
    rw [StoreTask.step] at hstep
    split at hstep <;> cases hstep
    · exact ⟨rfl, rfl, fun _ _ => by unfold StoreTask.readFrom; split <;> [trivial; (split <;> trivial)]⟩
    · exact ⟨rfl, rfl, fun _ _ => trivial⟩
  | getOpen =>
    rw [StoreTask.step] at hstep
    split at hstep
    · cases hstep
      exact ⟨rfl, rfl, fun _ _ => trivial⟩
    · split at hstep <;> cases hstep
      · exact ⟨rfl, rfl, fun _ _ => by split <;> trivial⟩
      · exact ⟨rfl, rfl, fun _ _ => trivial⟩
  | getKeep =>
    cases hstep
    exact ⟨rfl, rfl, fun _ _ => by unfold StoreTask.readFrom; split <;> [trivial; (split <;> trivial)]⟩
  | adoptCheck =>
    rw [StoreTask.step] at hstep
    split at hstep
    · cases hstep
      exact ⟨rfl, rfl, fun _ _ => trivial⟩
    · split at hstep <;> cases hstep
      · exact ⟨rfl, rfl, fun _ _ => trivial⟩
      · exact ⟨rfl, rfl, fun _ _ => by split <;> trivial⟩
  | finished => cases hstep

theorem IndexEffect.merging {entries : List IndexEntry} {packs : List StagingPack} {reply : Reply}
    (hstep : StoreTask.step (.merging entries packs reply) h = some (t', h')) :
    IndexEffect fmk (.merging entries packs reply) h t' h' := by
  cases hstep
  exact
    { upward := .of_index rfl
      safe := trivial
      lists := fun _ _ hin => hin.elim
      located := fun _ _ hin => LocationTable.has_merge.1 hin }

/-- Whatever a task does, rows only move up, and rows that come into a table are about to be written. -/
theorem StoreTask.step_index (laws : CipherLaws) (hseals : CipherSeals)
    (hhandle : HandleOk B F fmk h.store.disk h.store) (htask : t.Ok B F fmk h.store.disk)
    (hfits : t.Fits B F fmk h) (hsafe : t.Safe fmk h.store.disk h.store.locations) (hclear : t.Clear fmk h)
    (hstep : t.step h = some (t', h')) : IndexEffect fmk t h t' h' := by
  by_cases hmerging : ∃ entries packs reply, t = .merging entries packs reply
  · obtain ⟨entries, packs, reply, rfl⟩ := hmerging
    exact .merging hstep
  by_cases hindexing : ∃ point packs reply, t = .indexing point packs reply
  · obtain ⟨point, packs, reply, rfl⟩ := hindexing
    exact .indexing laws hseals hhandle htask hfits hsafe hclear hstep
  push Not at hmerging hindexing
  exact .elsewhere hstep hmerging hindexing

end

/-! ## The folder -/

namespace SharedFolder

variable {B F : Set Bytes} {w w' : SharedFolder} {kind : BlobKind} {id : BlobId} {b : Bytes}

/-- Some task of the handle is about to write a row for the blob. -/
def Pending (w : SharedFolder) (n : Nat) (kind : BlobKind) (id : BlobId) : Prop :=
  ∃ (i : Nat) (t : StoreTask), w.tasks[i]? = some (n, t) ∧ t.Lists w.fmk kind id

/-- What the handles know is in the index or about to be written to it, and the tasks that compact are safe. -/
structure Tidy (w : SharedFolder) : Prop where
  located : ∀ n kind id, w.Located n kind id → w.disk.Indexed w.fmk kind id ∨ w.Pending n kind id
  safe : ∀ (i n : Nat) t h, w.tasks[i]? = some (n, t) → w.handles[n]? = some h →
    t.Safe w.fmk w.disk h.store.locations

def MoveClear (w : SharedFolder) : FolderMove → Prop
  | .step i => ∀ n t h, w.tasks[i]? = some (n, t) → w.handles[n]? = some h → t.Clear w.fmk (w.view h)
  | .open _ | .start _ _ => True

theorem Pending.append {calls : List (Nat × StoreTask)} {n : Nat} (h : w.Pending n kind id) :
    Pending { w with tasks := w.tasks ++ calls } n kind id := by
  obtain ⟨i, t, ht, hlists⟩ := h
  exact ⟨i, t, getElem?_append_of_some ht, hlists⟩

theorem Tidy.opened (htidy : w.Tidy) (hw : w.Good B F) (draw : Nat) : (w.move (.open draw)).Tidy := by
  obtain ⟨table, hopen, hmem⟩ := hw.intact.openStore_ok draw
  rw [SharedFolder.move, hopen]
  refine ⟨?_, fun i n t h ht hh => ?_⟩
  · rintro n kind id ⟨h, hh, hhas⟩
    rcases getElem?_append_some hh with hh | hnew
    · exact htidy.located n kind id ⟨h, hh, hhas⟩
    · obtain rfl := mem_singleton.1 hnew
      obtain ⟨e, he, hkey⟩ := hhas
      exact .inl ⟨e, (hmem e).1 he, hkey⟩
  · have hn : n < w.handles.length := hw.owned _ (mem_of_getElem? ht)
    exact htidy.safe i n t h ht ((getElem?_append_left hn).symm.trans hh)

theorem Tidy.started (htidy : w.Tidy) (n : Nat) (call : SharedCall) : (w.move (.start n call)).Tidy := by
  rw [SharedFolder.move]
  split
  · refine ⟨fun n kind id hin => (htidy.located n kind id hin).imp (fun hin => hin) Pending.append,
      fun i n t h ht hh => ?_⟩
    rcases getElem?_append_some ht with ht | hnew
    · exact htidy.safe i n t h ht hh
    · cases mem_singleton.1 hnew
      cases call <;> trivial
  · exact htidy

/-- The step lemma for a task: what a handle knows is in the index or about to be written to it. -/
theorem Tidy.acts (htidy : w.Tidy) {i n : Nat} {t t' : StoreTask} {h h' : StoreHandle}
    (htask : w.tasks[i]? = some (n, t)) (hhandle : w.handles[n]? = some h)
    (heffect : StepEffect B F w.fmk t (w.view h) t' h') (hindex : IndexEffect w.fmk t (w.view h) t' h') :
    Tidy { w with
      disk := h'.store.disk
      handles := w.handles.set n h'
      tasks := w.tasks.set i (n, t') } := by
  -- a row that was about to be written is so still, or has been written
  have hkeeps : ∀ n₁ kind id, w.disk.Indexed w.fmk kind id ∨ w.Pending n₁ kind id →
      h'.store.disk.Indexed w.fmk kind id ∨ Pending { w with
        tasks := w.tasks.set i (n, t') } n₁ kind id := by
    rintro n₁ kind id (hin | ⟨i₁, t₁, ht₁, hlists⟩)
    · exact .inl (hindex.upward.indexed hin)
    by_cases hi : i = i₁
    · subst hi
      rw [htask] at ht₁
      cases ht₁
      rcases hindex.lists kind id hlists with hlists' | hin
      · exact .inr ⟨i, t', getElem?_set_of_some htask, hlists'⟩
      · exact .inl hin
    · exact .inr ⟨i₁, t₁, (getElem?_set_ne hi).trans ht₁, hlists⟩
  refine ⟨?_, fun i₁ n₁ t₁ h₁ ht₁ hh₁ => ?_⟩
  · rintro n₁ kind id ⟨h₁, hh₁, hhas⟩
    by_cases hn : n = n₁
    · subst hn
      have heq := (getElem?_set_of_some hhandle).symm.trans hh₁
      cases heq
      rcases hindex.located kind id hhas with hold | hnew
      · exact hkeeps n kind id (htidy.located n kind id ⟨h, hhandle, hold⟩)
      · exact .inr ⟨i, t', getElem?_set_of_some htask, hnew⟩
    · exact hkeeps n₁ kind id (htidy.located n₁ kind id ⟨h₁, (getElem?_set_ne hn).symm.trans hh₁, hhas⟩)
  · by_cases hi : i = i₁
    · subst hi
      have heq := (getElem?_set_of_some htask).symm.trans ht₁
      cases heq
      have heq := (getElem?_set_of_some hhandle).symm.trans hh₁
      cases heq
      exact hindex.safe
    · have ht := (getElem?_set_ne hi).symm.trans ht₁
      by_cases hn : n = n₁
      · subst hn
        have heq := (getElem?_set_of_some hhandle).symm.trans hh₁
        cases heq
        exact hindex.upward.safe heffect.located (htidy.safe i₁ n t₁ h ht hhandle)
      · have hh := (getElem?_set_ne hn).symm.trans hh₁
        exact hindex.upward.safe (fun _ _ => id) (htidy.safe i₁ n₁ t₁ h₁ ht hh)

theorem Tidy.move (laws : CipherLaws) (hseals : CipherSeals) (hF : F.InjOn packNameOf) (hw : w.Good B F)
    (htidy : w.Tidy) {m : FolderMove} (hfits : w.MoveFits B F m) (hclear : w.MoveClear m) : (w.move m).Tidy := by
  cases m with
  | «open» draw => exact htidy.opened hw draw
  | start n call => exact htidy.started n call
  | step i =>
    have hmoved := w.stepped i
    generalize w.move (.step i) = w' at hmoved ⊢
    cases hmoved with
    | waits => exact htidy
    | @acts n t t' h h' htask hhandle hstep =>
      have hindex := StoreTask.step_index laws hseals (h := w.view h)
        { hw.handles h (mem_of_getElem? hhandle) with } (hw.tasks _ (mem_of_getElem? htask))
        (hfits n t h htask hhandle) (htidy.safe i n t h htask hhandle) (hclear n t h htask hhandle) hstep
      exact htidy.acts htask hhandle (hw.effect laws hseals hF hfits htask hhandle hstep) hindex

/-- A blob that was accepted before a flush of the handle began is on its way or in the table once the flush
has emptied the pools. -/
theorem Change.drained {m : FolderMove} (hm : Change B F w m w') {n j : Nat}
    (hin : (w.tasks[j]? = some (n, .flushDrain) ∧ w.Known n kind id) ∨ w.Carried n kind id ∨ w.Located n kind id) :
    (w'.tasks[j]? = some (n, .flushDrain) ∧ w'.Known n kind id) ∨ w'.Carried n kind id ∨ w'.Located n kind id := by
  rcases hin with ⟨ht, hknown⟩ | hin
  · by_cases hmj : m = .step j
    · rcases hm.own ht hmj with ⟨hstay, -⟩ | ⟨h, t', h', hhandle, hstep, heffect, ht'⟩
      · rw [hstay]
        exact .inl ⟨ht, hknown⟩
      cases hstep
      rcases hknown with ⟨h₁, hh₁, hstaged⟩ | hin | hin
      · rw [hhandle] at hh₁
        cases hh₁
        refine .inr (.inl ⟨j, _, ht', (heffect.staged kind id hstaged).resolve_left ?_⟩)
        exact fun hno => nomatch hno
      · exact .inr (hm.carried hin)
      · exact .inr (.inr (hm.located hin))
    · exact .inl ⟨hm.others ht hmj, hm.known hknown⟩
  · exact .inr (hin.elim hm.carried (.inr ∘ hm.located))

def AtRest (w : SharedFolder) : Prop := ∀ p ∈ w.tasks, ∃ reply, p.2 = .finished reply

theorem AtRest.indexed (h : w.AtRest) (htidy : w.Tidy) {n : Nat}
    (hin : w.Carried n kind id ∨ w.Located n kind id) : w.disk.Indexed w.fmk kind id := by
  have hlocated : w.Located n kind id := by
    refine hin.resolve_left ?_
    rintro ⟨i, t, ht, hcarries⟩
    obtain ⟨reply, rfl⟩ := h _ (mem_of_getElem? ht)
    cases hcarries
  refine (htidy.located n kind id hlocated).resolve_right ?_
  rintro ⟨i, t, ht, hlists⟩
  obtain ⟨reply, rfl⟩ := h _ (mem_of_getElem? ht)
  cases hlists

theorem tidy_closed {fmk : ByteArr 32} {disk : PackDisk} : (closed fmk disk).Tidy where
  located _ _ _ hin := by
    obtain ⟨h, hh, -⟩ := hin
    cases hh
  safe _ _ _ _ ht := nomatch ht

theorem fmk_move (w : SharedFolder) (m : FolderMove) : (w.move m).fmk = w.fmk := by
  cases m with
  | «open» draw =>
    rw [SharedFolder.move]
    cases openStore w.disk w.fmk draw <;> rfl
  | start =>
    rw [SharedFolder.move]
    split <;> rfl
  | step i =>
    have hmoved := w.stepped i
    generalize w.move (.step i) = w' at hmoved ⊢
    cases hmoved <;> rfl

/-- However many handles are open and however their calls meet: when all have returned, a blob whose
`put_blob` had returned before a `flush` of its handle began can be read by whoever opens the folder, as long
as each index file got a number greater than those in the directory, and whoever compacted knew what was
listed there. -/
theorem flushed_readable (laws : CipherLaws) (hseals : CipherSeals) (hB : B.InjOn Env.blake3)
    (hF : F.InjOn packNameOf) {fmk : ByteArr 32} {disk : PackDisk} (hfiles : disk.FilesIn F)
    (hintact : disk.Intact fmk B) {moves moves' : List FolderMove} {n : Nat}
    (hfits : Fits B F (moves ++ .start n .flush :: moves') (closed fmk disk))
    (hclear : Along MoveClear (moves ++ .start n .flush :: moves') (closed fmk disk))
    (hbefore : (closed fmk disk).after moves = w) {i : Nat}
    (hput : w.tasks[i]? = some (n, .finished (.put kind b (.ok id))))
    (hafter : (w.move (.start n .flush)).after moves' = w') (hrest : w'.AtRest) (draw : Nat) :
    w'.disk.Readable fmk draw kind b := by
  obtain ⟨hfits₁, hfits₂⟩ := Along.append hfits
  have hclosed := good_closed hfiles hintact
  have hgood := hclosed.after laws hseals hF hfits₁
  have hkept := hclosed.kept_after laws hseals hF kept_closed hfits₁
  rw [hbefore] at hfits₂ hgood hkept
  obtain ⟨⟨hb, rfl⟩, hknown⟩ := hkept i n _ kind b _ hput rfl
  have hstart : (w.move (.start n .flush)).tasks[w.tasks.length]? = some (n, .flushDrain) := by
    rw [move, if_pos (hgood.owned _ (mem_of_getElem? hput))]
    exact getElem?_concat_length
  have hgood₁ := hgood.move laws hseals hF hfits₂.1
  have hknown₁ := (hgood.change laws hseals hF hfits₂.1).known hknown
  -- from the start of the flush on, the blob cannot stay in the pools
  have hdrained := (Along.invariant (I := fun w₁ => w₁.Good B F ∧
      ((w₁.tasks[w.tasks.length]? = some (n, .flushDrain) ∧ w₁.Known n kind (Env.blake3 b)) ∨
        w₁.Carried n kind (Env.blake3 b) ∨ w₁.Located n kind (Env.blake3 b))) hfits₂.2
    (fun _ _ hin hfits => ⟨hin.1.move laws hseals hF hfits, (hin.1.change laws hseals hF hfits).drained hin.2⟩)
    ⟨hgood₁, .inl ⟨hstart, hknown₁⟩⟩).2
  -- and over the whole run nothing that is in the index gets lost
  have htidy := Along.invariant (I := fun w₁ => w₁.Good B F ∧ w₁.Tidy ∧ w₁.fmk = fmk) (hfits.and hclear)
    (fun w₁ m hin hboth => ⟨hin.1.move laws hseals hF hboth.1,
      hin.2.1.move laws hseals hF hin.1 hboth.1 hboth.2, (w₁.fmk_move m).trans hin.2.2⟩)
    ⟨hclosed, tidy_closed, rfl⟩
  have hend : (closed fmk disk).after (moves ++ .start n .flush :: moves') = w' := by
    rw [after_append, hbefore]
    exact hafter
  rw [hend] at htidy
  rw [hafter] at hdrained
  obtain ⟨hgood', htidy', rfl⟩ := htidy
  refine (hgood'.intact.readable_iff hB draw kind hb).2 (hrest.indexed htidy' (n := n) (hdrained.resolve_left ?_))
  rintro ⟨ht, -⟩
  obtain ⟨reply, hreply⟩ := hrest _ (mem_of_getElem? ht)
  cases hreply

end SharedFolder

end

namespace Sample

def twoPuts : List FolderMove :=
  [.open 0, .open 100, .start 0 (.putBlob .dataChunk [7]), .start 1 (.putBlob .dataChunk [8])] ++
    List.replicate 3 (.step 0) ++ List.replicate 3 (.step 1)

def firstFlush : List FolderMove := .start 0 .flush :: List.replicate 11 (.step 2)

def secondFlush : List FolderMove := List.replicate 11 (.step 3)

def thirdFlush : List FolderMove :=
  .start 0 (.putBlob .dataChunk [9]) :: List.replicate 3 (.step 4) ++ .start 0 .flush :: List.replicate 11 (.step 5)

def allReturned (tasks : List (Nat × StoreTask)) : Bool :=
  tasks.all fun p => match p.2 with
    | .finished _ => true
    | _ => false

theorem atRest_of_allReturned {w : SharedFolder} (h : allReturned w.tasks) : w.AtRest := by
  rintro ⟨n, t⟩ hp
  have ht := all_eq_true.1 h _ hp
  cases t with
  | finished reply => exact ⟨reply, rfl⟩
  | _ => cases ht

end Sample

open Sample in
/-- The second handle has put a chunk and flushed it, and the first one writes over its index file. -/
theorem flushed_lost : ∃ moves moves' w w', (SharedFolder.closed zeroId emptyDisk).after moves = w ∧
    w.tasks[1]? = some (1, .finished (.put .dataChunk [8] (.ok (Env.blake3 [8])))) ∧
    (w.move (.start 1 .flush)).after moves' = w' ∧ w'.AtRest ∧
    w'.tasks[3]? = some (1, .finished (.flushed (.ok ()))) ∧ ¬ w'.disk.Readable zeroId 0 .dataChunk [8] := by
  refine ⟨twoPuts ++ firstFlush, secondFlush ++ thirdFlush, _, _, rfl, rfl, rfl,
    atRest_of_allReturned (by decide +kernel), rfl, ?_⟩
  rintro ⟨t, t', hopen, hget⟩
  have hgone : ((openStore ((((SharedFolder.closed zeroId emptyDisk).after (twoPuts ++ firstFlush)).move
      (.start 1 .flush)).after (secondFlush ++ thirdFlush)).disk zeroId 0).toOption.bind
        fun t => (resultOf (getBlob .dataChunk (Env.blake3 [8]) t)).toOption) = none := by decide +kernel
  rw [hopen, Except.toOption, Option.bind_some, hget] at hgone
  cases hgone

namespace Sample

def secondFlushed : SharedFolder :=
  (((SharedFolder.closed zeroId emptyDisk).after twoPuts).move (.start 1 .flush)).after (List.replicate 11 (.step 2))

def writtenPacks : List Bytes := secondFlushed.disk.packs.entries.map Sigma.snd

def sealedIn (files : List Bytes) (sp : StagingPack) : Bool :=
  (sealPackBytes sp.kind zeroId sp.salt sp.body sp.entries).toOption.all (· ∈ files)

variable {files : List Bytes}

theorem mem_of_sealedIn {sp : StagingPack} (hc : sealedIn files sp) {file : Bytes}
    (hseal : sealPackBytes sp.kind zeroId sp.salt sp.body sp.entries = .ok file) : file ∈ files := by
  unfold sealedIn at hc
  rw [hseal] at hc
  exact of_decide_eq_true hc

/-- A check of the conditions, for runs of short chunks without compactions and adoptions. -/
def stepChecked (files : List Bytes) (h : StoreHandle) : StoreTask → Bool
  | .putCheck _ bytes => bytes = [7] || bytes = [8]
  | .sealing (sp :: _) _ => sealedIn files sp
  | .indexing (.rename n _) _ _ => h.store.disk.index.keys.all (· < n)
  | .indexing .list _ _ | .indexing (.table _) _ _ | .indexing (.rerename _ _ _) _ _ | .adoptCheck _ _ => false
  | _ => true

def runChecked (files : List Bytes) : List FolderMove → SharedFolder → Bool
  | [], _ => true
  | m :: moves, w =>
    (match m with
      | .step i => (w.tasks[i]?.all fun p => w.handles[p.1]?.all fun h => stepChecked files (w.view h) p.2)
      | _ => true) && runChecked files moves (w.move m)

theorem of_stepChecked {h : StoreHandle} {t : StoreTask} (hc : stepChecked files h t) :
    t.Fits {[7], [8]} {file | file ∈ files} zeroId h ∧ t.Clear zeroId h := by
  cases t with
  | putCheck kind bytes =>
    change (decide (bytes = [7]) || decide (bytes = [8])) = true at hc
    obtain rfl | rfl : bytes = [7] ∨ bytes = [8] := by simpa using hc
    · exact ⟨⟨.inl rfl, by decide⟩, trivial⟩
    · exact ⟨⟨.inr rfl, by decide⟩, trivial⟩
  | sealing packs =>
    cases packs with
    | nil => exact ⟨trivial, trivial⟩
    | cons => exact ⟨fun file hseal => mem_of_sealedIn hc hseal, trivial⟩
  | indexing point =>
    cases point with
    | rename =>
      refine ⟨trivial, fun m hm => ?_⟩
      exact of_decide_eq_true (all_eq_true.1 hc m (AList.mem_keys.1 hm))
    | list | table | rerename => cases hc
    | _ => exact ⟨trivial, trivial⟩
  | adoptCheck => cases hc
  | _ => exact ⟨trivial, trivial⟩

theorem of_runChecked {moves : List FolderMove} {w : SharedFolder} (hfmk : w.fmk = zeroId)
    (hc : runChecked files moves w) : SharedFolder.Fits {[7], [8]} {file | file ∈ files} moves w ∧
      SharedFolder.Along SharedFolder.MoveClear moves w := by
  induction moves generalizing w with
  | nil => exact ⟨trivial, trivial⟩
  | cons m moves ih =>
    obtain ⟨hm, hrest⟩ := Bool.and_eq_true_iff.1 hc
    obtain ⟨hfits, hclear⟩ := ih ((w.fmk_move m).trans hfmk) hrest
    suffices hnow : w.MoveFits {[7], [8]} {file | file ∈ files} m ∧ w.MoveClear m from
      ⟨⟨hnow.1, hfits⟩, hnow.2, hclear⟩
    cases m with
    | «open» | start => exact ⟨trivial, trivial⟩
    | step i =>
      have hstep : ∀ n t h, w.tasks[i]? = some (n, t) → w.handles[n]? = some h →
          t.Fits {[7], [8]} {file | file ∈ files} w.fmk (w.view h) ∧ t.Clear w.fmk (w.view h) := by
        intro n t h ht hh
        rw [hfmk]
        refine of_stepChecked ?_
        dsimp only at hm
        rw [ht, Option.all_some, hh] at hm
        exact hm
      exact ⟨fun n t h ht hh => (hstep n t h ht hh).1, fun n t h ht hh => (hstep n t h ht hh).2⟩

theorem runChecked_secondFlushed : runChecked writtenPacks
    (twoPuts ++ .start 1 .flush :: List.replicate 11 (.step 2)) (SharedFolder.closed zeroId emptyDisk) := by
  decide +kernel

end Sample

open Sample in
/-- The second handle flushes while the first one has put a chunk. -/
theorem flushed_readable_alone : secondFlushed.disk.Readable zeroId 0 .dataChunk [8] := by
  have hput : ((SharedFolder.closed zeroId emptyDisk).after twoPuts).tasks[1]? =
      some (1, .finished (.put .dataChunk [8] (.ok (Env.blake3 [8])))) := rfl
  have hrest : allReturned secondFlushed.tasks := by decide +kernel
  obtain ⟨hfits, hclear⟩ := of_runChecked rfl runChecked_secondFlushed
  refine SharedFolder.flushed_readable cipherLaws cipherSeals ?_ ?_ (emptyDisk_filesIn _) (emptyDisk_intact _)
    hfits hclear rfl hput rfl (atRest_of_allReturned hrest) 0
  · have hinj : ∀ b ∈ [[7], [8]], ∀ b' ∈ [[7], [8]], Env.blake3 b = Env.blake3 b' → b = b' := by decide +kernel
    exact fun b hb b' hb' => hinj b (by simpa using hb) b' (by simpa using hb')
  · have hinj : ∀ f ∈ writtenPacks, ∀ f' ∈ writtenPacks, packNameOf f = packNameOf f' → f = f' := by
      decide +kernel
    exact fun f hf f' hf' => hinj f hf f' hf'

end Ferry
