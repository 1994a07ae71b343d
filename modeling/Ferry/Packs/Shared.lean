import Ferry.Packs.Threads

/-! # What holds while stores are used at the same time

Packs are only ever added to the folder, so what a location gives it gives at any
later time, and what a task has found out about the packs stays true while others
act. From this every handle keeps a table that can be relied on, and every index
file that some task is about to write says the truth.
-/

namespace Ferry

open Lib List

section
variable [PackEnv]

/-! ## Packs that stay -/

/-- The packs of `d` are in `d'` too, those that have their right name unchanged. -/
structure PackDisk.Grows (d d' : PackDisk) : Prop where
  there : ∀ pack, (d.packs.lookup pack).isSome → (d'.packs.lookup pack).isSome
  kept : ∀ pack bytes, d.packs.lookup pack = some bytes → packNameOf bytes = pack →
    d'.packs.lookup pack = some bytes

namespace PackDisk

variable {fmk : ByteArr 32} {B F : Set Bytes} {d d' : PackDisk}

theorem Grows.of_packs (h : d'.packs = d.packs) : d.Grows d' := by
  refine ⟨fun pack hthere => ?_, fun pack bytes hlookup _ => ?_⟩
  · rw [h]
    exact hthere
  · rw [h]
    exact hlookup

theorem FilesIn.grows_withPack (h : d.FilesIn F) (hF : F.InjOn packNameOf) {file : Bytes} (hfile : file ∈ F) :
    d.Grows (d.withPack file) where
  there pack hthere := by
    rw [lookup_withPack]
    split
    · rfl
    · exact hthere
  kept pack bytes hlookup hname := by
    rw [lookup_withPack]
    split
    · rename_i heq
      rw [hF (h _ _ hlookup) hfile (hname.trans heq)]
    · exact hlookup

variable (h : d.Grows d') {t : LocationTable}
include h

theorem Grows.holds {e : IndexEntry} (hholds : d.Holds fmk B e) : d'.Holds fmk B e := by
  obtain ⟨b, hb, bytes, ctx, hlookup, hopen, hread⟩ := hholds
  exact ⟨b, hb, bytes, ctx, h.kept _ _ hlookup (openPack_ok_iff.1 hopen).name, hopen, hread⟩

theorem Grows.backs (hbacks : d.Backs fmk B t) : d'.Backs fmk B t :=
  ⟨hbacks.typed, fun kind id e he => h.holds (hbacks.holds kind id e he)⟩

theorem Grows.rows (hrows : ∀ e ∈ t, (d.packs.lookup e.pack).isSome) :
    ∀ e ∈ t, (d'.packs.lookup e.pack).isSome := fun e he => h.there _ (hrows e he)

end PackDisk

/-! ## Index files -/

def FileOk (B : Set Bytes) (fmk : ByteArr 32) (d : PackDisk) (file : Bytes) : Prop :=
  ∃ rows, openIndexContainer file fmk = .ok rows ∧ ∀ e ∈ rows, d.Holds fmk B e

namespace PackDisk

variable {fmk : ByteArr 32} {B F : Set Bytes} {d d' : PackDisk} {file : Bytes}

theorem Backs.fileOk {t : LocationTable} (h : d.Backs fmk B t) (laws : CipherLaws)
    (hsize : sealedTableLen t < 2 ^ 32) {salt : ByteArr 16} (hseal : sealIndexContainer fmk salt t = .ok file) :
    FileOk B fmk d file :=
  ⟨_, openIndexContainer_sealed laws h.typed hsize hseal, fun _ he => h.row he⟩

theorem Grows.fileOk (h : d.Grows d') (hfile : FileOk B fmk d file) : FileOk B fmk d' file := by
  obtain ⟨rows, hopen, hrows⟩ := hfile
  exact ⟨rows, hopen, fun e he => h.holds (hrows e he)⟩

omit [PackEnv] in
theorem lookup_withIndex {n m : Nat} :
    (d.withIndex n file).index.lookup m = if m = n then some file else d.index.lookup m := by
  show (AList.insert n file d.index).lookup m = _
  split
  · rename_i hm
    rw [hm, AList.lookup_insert]
  · rename_i hm
    rw [AList.lookup_insert_ne hm]

theorem Intact.overwritten (h : d.Intact fmk B) (hfile : FileOk B fmk d file) (n : Nat) :
    (d.withIndex n file).Intact fmk B := by
  obtain ⟨rows, hopen, hrows⟩ := hfile
  refine ⟨fun m file' hlookup => ?_, ?_⟩
  · rw [lookup_withIndex] at hlookup
    split at hlookup
    · cases hlookup
      exact ⟨rows, hopen⟩
    · exact h.opens m file' hlookup
  · rintro e ⟨m, file', rows', hlookup, hopen', he⟩
    rw [lookup_withIndex] at hlookup
    split at hlookup
    · cases hlookup
      rw [hopen] at hopen'
      cases hopen'
      exact hrows e he
    · exact h.holds e ⟨m, file', rows', hlookup, hopen', he⟩

omit [PackEnv] in
theorem lookup_dropIndex {old m : Nat} :
    (d.dropIndex [old]).index.lookup m = if m = old then none else d.index.lookup m := by
  show (AList.erase old d.index).lookup m = _
  split
  · rename_i hm
    rw [hm, AList.lookup_erase]
  · rename_i hm
    rw [AList.lookup_erase_ne hm]

theorem Intact.removed (h : d.Intact fmk B) (old : Nat) : (d.dropIndex [old]).Intact fmk B := by
  have hsub : ∀ m file, (d.dropIndex [old]).index.lookup m = some file → d.index.lookup m = some file := by
    intro m file hlookup
    rw [lookup_dropIndex] at hlookup
    split at hlookup
    · cases hlookup
    · exact hlookup
  refine ⟨fun m file hlookup => h.opens m file (hsub m file hlookup), ?_⟩
  rintro e ⟨m, file, rows, hlookup, hrest⟩
  exact h.holds e ⟨m, file, rows, hsub m file hlookup, hrest⟩

end PackDisk

/-! ## Handles and tasks -/

/-- The memory of a handle says the truth about the packs of the folder. -/
structure HandleOk (B F : Set Bytes) (fmk : ByteArr 32) (d : PackDisk) (s : PackStore) : Prop where
  key : s.fmk = fmk
  target : s.sealTarget = sealTargetBytes
  slim : s.staging.Slim B
  backs : d.Backs fmk B s.locations
  there : ∀ e ∈ s.locations, (d.packs.lookup e.pack).isSome
  dangling : s.dangling = []
  cache : ∀ vp ∈ s.cache, openPack vp.bytes vp.packId fmk = .ok vp.ctx ∧ vp.bytes ∈ F

/-- Rows on their way into the tables. -/
structure RowsOk (B : Set Bytes) (fmk : ByteArr 32) (d : PackDisk) (entries : List IndexEntry) : Prop where
  backs : d.Backs fmk B entries
  there : ∀ e ∈ entries, (d.packs.lookup e.pack).isSome
  size : sealedTableLen entries < 2 ^ 32

def Wanted (B : Set Bytes) (fmk : ByteArr 32) (d : PackDisk) (kind : BlobKind) (id : BlobId) (e : IndexEntry) :
    Prop := d.Holds fmk B e ∧ e.kind = kind ∧ e.id = id

/-- What a task at a point in the index can rely on. -/
def IndexPoint.Ok (B : Set Bytes) (fmk : ByteArr 32) (d : PackDisk) : IndexPoint → Prop
  | .sealTable entries => RowsOk B fmk d entries
  | .lock file | .alloc file | .rename _ file | .realloc _ file | .rerename _ _ file => FileOk B fmk d file
  | .count | .lockList | .list | .table _ | .remove _ _ | .unlock => True

/-- What a pack from a peer must be for its rows to be true: the first entry of each blob gives one of the
blobs in `B`, and the rows fit into an index file. -/
structure HonestPack (B F : Set Bytes) (fmk : ByteArr 32) (claimed : PackId) (bytes : Bytes) (ctx : PackContext) :
    Prop where
  file : bytes ∈ F
  holds : ∀ kind id e, ctx.entries.find? (fun e => e.kind = kind ∧ e.id = id) = some e →
    ∃ b ∈ B, readBlobFromCtx bytes ctx e.kind e.id (e.plainOff, e.plainLen) = .ok b
  size : sealedTableLen (ctx.entries.map (FooterEntry.located claimed)) < 2 ^ 32

def Reply.Ok (B : Set Bytes) : Reply → Prop
  | .got _ id (.ok b) => b ∈ B ∧ Env.blake3 b = id
  | _ => True

structure RestOk (B : Set Bytes) (packs : List StagingPack) (reply : Reply) : Prop where
  ready : ∀ sp ∈ packs, ∃ m, sp.Ready B m
  reply : reply.Ok B

def StoreTask.Ok (B F : Set Bytes) (fmk : ByteArr 32) (d : PackDisk) : StoreTask → Prop
  | .putOffer _ bytes => bytes ≠ [] ∧ bytes ∈ B ∧ segmentCount bytes.length ≤ 2 ^ 31
  | .sealing packs reply => RestOk B packs reply
  | .noting _ entries packs reply | .merging entries packs reply => RowsOk B fmk d entries ∧ RestOk B packs reply
  | .indexing point packs reply => point.Ok B fmk d ∧ RestOk B packs reply
  | .getSort kind id todo there _ =>
    (∀ e ∈ todo, (d.packs.lookup e.pack).isSome) ∧ ∃ e, Wanted B fmk d kind id e ∧
      ((there = [] ∧ todo.head? = some e) ∨ there.head? = some e)
  | .getNext kind id todo _ => ∃ e, Wanted B fmk d kind id e ∧ todo.head? = some e
  | .getCache kind id e _ _ | .getOpen kind id e _ _ => Wanted B fmk d kind id e
  | .getKeep kind id e _ _ vp => Wanted B fmk d kind id e ∧ vp.packId = e.pack ∧
      openPack vp.bytes vp.packId fmk = .ok vp.ctx ∧ vp.bytes ∈ F
  | .adoptWrite claimed bytes ctx =>
    openPack bytes claimed fmk = .ok ctx ∧ HonestPack B F fmk claimed bytes ctx
  | .adoptNote claimed bytes ctx | .adoptKeep claimed bytes ctx =>
    openPack bytes claimed fmk = .ok ctx ∧ HonestPack B F fmk claimed bytes ctx ∧
      d.packs.lookup claimed = some bytes
  | .finished reply => reply.Ok B
  | .putCheck _ _ | .flushDrain | .getStaged _ _ | .getLocations _ _ | .adoptCheck _ _ => True

/-- What is asked of the blobs, the packs and the sizes of the tables at a step. -/
def StoreTask.Fits (B F : Set Bytes) (fmk : ByteArr 32) (h : StoreHandle) : StoreTask → Prop
  | .putCheck _ bytes => bytes ∈ B ∧ segmentCount bytes.length ≤ 2 ^ 31
  | .sealing (sp :: _) _ => ∀ file, sealPackBytes sp.kind fmk sp.salt sp.body sp.entries = .ok file → file ∈ F
  | .indexing (.table _) _ _ => 81 * h.store.locations.length + 20 < 2 ^ 32
  | .adoptCheck claimed bytes =>
    (∀ ctx, openPack bytes claimed fmk = .ok ctx → HonestPack B F fmk claimed bytes ctx) ∧
      ∀ file, h.store.disk.packs.lookup claimed = some file → file = bytes
  | _ => True

/-! ## Blobs on their way -/

/-- The task has taken the blob out of the pools, or out of a pack from a peer, and has not yet entered it
into the table. -/
def StoreTask.Carries (kind : BlobKind) (id : BlobId) : StoreTask → Prop
  | .sealing packs _ | .indexing _ packs _ => Packed packs kind id
  | .noting _ entries packs _ | .merging entries packs _ =>
    LocationTable.Has entries kind id ∨ Packed packs kind id
  | _ => False

/-- The task is a `put_blob` past the pools, and returns the id if nothing fails. -/
def StoreTask.Promises (kind : BlobKind) (b : Bytes) (id : BlobId) : StoreTask → Prop
  | .sealing _ reply | .noting _ _ _ reply | .merging _ _ reply | .indexing _ _ reply | .finished reply =>
    reply = .put kind b (.ok id)
  | _ => False

theorem PackDisk.isSome_withPack {d : PackDisk} {file : Bytes} :
    ((d.withPack file).packs.lookup (packNameOf file)).isSome := by
  rw [lookup_withPack, if_pos rfl]
  rfl

/-- The task is a `get` that has found the blob in the table, or that has returned bytes. -/
def StoreTask.Reads (kind : BlobKind) (id : BlobId) : StoreTask → Prop
  | .getSort kind' id' _ _ _ | .getNext kind' id' _ _ | .getCache kind' id' _ _ _ | .getOpen kind' id' _ _ _
  | .getKeep kind' id' _ _ _ _ | .finished (.got kind' id' (.ok _)) => kind' = kind ∧ id' = id
  | _ => False

structure StepEffect (B F : Set Bytes) (fmk : ByteArr 32) (t : StoreTask) (h : StoreHandle) (t' : StoreTask)
    (h' : StoreHandle) : Prop where
  grows : h.store.disk.Grows h'.store.disk
  files : h'.store.disk.FilesIn F
  intact : h'.store.disk.Intact fmk B
  handle : HandleOk B F fmk h'.store.disk h'.store
  task : t'.Ok B F fmk h'.store.disk
  staged : ∀ kind id, h.store.staging.contains kind id →
    h'.store.staging.contains kind id ∨ t'.Carries kind id
  carried : ∀ kind id, t.Carries kind id → t'.Carries kind id ∨ h'.store.locations.Has kind id
  located : ∀ kind id, h.store.locations.Has kind id → h'.store.locations.Has kind id
  promised : ∀ kind b id, t'.Promises kind b id → t.Promises kind b id ∨ ((b ∈ B ∧ Env.blake3 b = id) ∧
    (h'.store.staging.contains kind id ∨ t'.Carries kind id ∨ h'.store.locations.Has kind id))
  reads : ∀ kind id, t.Reads kind id → t'.Reads kind id

section
variable {B F : Set Bytes} {fmk : ByteArr 32} {d d' : PackDisk} {s : PackStore} {t t' : StoreTask}
  {h h' : StoreHandle} {kind : BlobKind} {id : BlobId} {e : IndexEntry}

/-! ## What others cannot spoil -/

theorem PackDisk.Grows.handleOk (hd : d.Grows d') (hs : HandleOk B F fmk d s) : HandleOk B F fmk d' s :=
  { hs with
    backs := hd.backs hs.backs
    there := hd.rows hs.there }

variable {entries : List IndexEntry} {vp : VerifiedPack}

theorem PackDisk.Grows.rowsOk (hd : d.Grows d') (hrows : RowsOk B fmk d entries) :
    RowsOk B fmk d' entries :=
  ⟨hd.backs hrows.backs, hd.rows hrows.there, hrows.size⟩

theorem PackDisk.Grows.wanted (hd : d.Grows d') (he : Wanted B fmk d kind id e) : Wanted B fmk d' kind id e :=
  ⟨hd.holds he.1, he.2⟩

theorem PackDisk.Grows.pointOk (hd : d.Grows d') {point : IndexPoint} (hpoint : point.Ok B fmk d) :
    point.Ok B fmk d' := by
  cases point with
  | sealTable => exact hd.rowsOk hpoint
  | lock | alloc | rename | realloc | rerename =>
    exact hd.fileOk hpoint
  | count | lockList | list | table | remove | unlock => trivial

theorem PackDisk.Grows.taskOk (hd : d.Grows d') (ht : t.Ok B F fmk d) : t.Ok B F fmk d' := by
  cases t with
  | noting | merging => exact ⟨hd.rowsOk ht.1, ht.2⟩
  | indexing => exact ⟨hd.pointOk ht.1, ht.2⟩
  | getSort =>
    obtain ⟨htodo, e, he, hfirst⟩ := ht
    exact ⟨hd.rows htodo, e, hd.wanted he, hfirst⟩
  | getNext =>
    obtain ⟨e, he, hfirst⟩ := ht
    exact ⟨e, hd.wanted he, hfirst⟩
  | getCache | getOpen => exact hd.wanted ht
  | getKeep => exact ⟨hd.wanted ht.1, ht.2⟩
  | adoptNote | adoptKeep =>
    exact ⟨ht.1, ht.2.1, hd.kept _ _ ht.2.2 (openPack_ok_iff.1 ht.1).name⟩
  | putCheck | flushDrain | getStaged | getLocations | adoptCheck =>
    trivial
  | putOffer | sealing | adoptWrite | finished => exact ht

section
variable (hpacks : h'.store.disk.packs = h.store.disk.packs)
  (hstaging : h'.store.staging = h.store.staging) (hlocations : h'.store.locations = h.store.locations)
  (hfiles : h.store.disk.FilesIn F) (hintact : h'.store.disk.Intact fmk B)
  (hhandle : HandleOk B F fmk h.store.disk h'.store) (htask : t'.Ok B F fmk h.store.disk)
include hpacks hstaging hlocations hfiles hintact hhandle htask

theorem StepEffect.quiet (hcarries : ∀ kind id, t.Carries kind id → t'.Carries kind id)
    (hpromises : ∀ kind b id, t'.Promises kind b id → t.Promises kind b id)
    (hreads : ∀ kind id, t.Reads kind id → t'.Reads kind id) :
    StepEffect B F fmk t h t' h' where
  grows := .of_packs hpacks
  files := by
    unfold PackDisk.FilesIn
    rw [hpacks]
    exact hfiles
  intact := hintact
  handle := (PackDisk.Grows.of_packs hpacks).handleOk hhandle
  task := (PackDisk.Grows.of_packs hpacks).taskOk htask
  staged kind id hin := .inl (by rw [hstaging]; exact hin)
  carried kind id hin := .inl (hcarries kind id hin)
  located kind id hin := by
    rw [hlocations]
    exact hin
  promised kind b id hin := .inl (hpromises kind b id hin)
  reads := hreads

theorem StepEffect.still (hcarries : t'.Carries = t.Carries) (hpromises : t'.Promises = t.Promises)
    (hreads : t'.Reads = t.Reads) : StepEffect B F fmk t h t' h' :=
  .quiet hpacks hstaging hlocations hfiles hintact hhandle htask (fun _ _ => (congrFun₂ hcarries _ _).mpr)
    (fun _ _ _ => (congrFun (congrFun₂ hpromises _ _) _).mp) fun _ _ => (congrFun₂ hreads _ _).mpr

end

/-! ## Packs that are known are there -/

omit [PackEnv] in
theorem packExists_of_present {pack : PackId} (hp : s.present pack) : packExists pack s = .ok true s := by
  obtain ⟨hd, hf⟩ : pack ∉ s.dangling ∧ (s.disk.packs.lookup pack).isSome := by
    simpa [PackStore.present] using hp
  unfold packExists
  rw [run_bind_ok (run_get s), if_neg hd, if_pos hf]
  rfl

omit [PackEnv] in
theorem anyExists_of_present {es : List IndexEntry} (hp : ∀ e ∈ es, s.present e.pack) :
    leaves (anyExists es) s = s := by
  cases es with
  | nil => rfl
  | cons e =>
    unfold leaves anyExists
    rw [run_bind_ok (packExists_of_present (hp e (by simp)))]
    rfl

theorem HandleOk.present (hs : HandleOk B F fmk d s) (hdisk : s.disk = d) {pack : PackId}
    (hthere : (d.packs.lookup pack).isSome) : s.present pack := by
  subst hdisk
  simp [PackStore.present, hs.dangling, hthere]

section
variable (he : Wanted B fmk d kind id e)
include he

theorem Wanted.there : (d.packs.lookup e.pack).isSome := by
  obtain ⟨⟨b, -, bytes, ctx, hlookup, -⟩, -⟩ := he
  rw [hlookup]
  rfl

theorem Wanted.reads (hF : F.InjOn packNameOf) (hfiles : d.FilesIn F)
    (hopen : openPack vp.bytes e.pack fmk = .ok vp.ctx) (hfile : vp.bytes ∈ F) :
    ∃ b ∈ B, Env.blake3 b = id ∧ readBlobFromCtx vp.bytes vp.ctx kind id (e.plainOff, e.plainLen) = .ok b := by
  obtain ⟨⟨b, hb, bytes, ctx, hlookup, hopen', hread⟩, rfl, rfl⟩ := he
  have hname : packNameOf bytes = packNameOf vp.bytes :=
    (openPack_ok_iff.1 hopen').name.trans (openPack_ok_iff.1 hopen).name.symm
  obtain rfl := hF (hfiles _ _ hlookup) hfile hname
  rw [hopen] at hopen'
  cases hopen'
  exact ⟨b, hb, readBlobFromCtx_hash hread, hread⟩

theorem Wanted.readFrom_ok (hF : F.InjOn packNameOf) (hfiles : d.FilesIn F)
    (hopen : openPack vp.bytes e.pack fmk = .ok vp.ctx) (hfile : vp.bytes ∈ F)
    (todo : List IndexEntry) :
    ∃ b ∈ B, Env.blake3 b = id ∧ StoreTask.readFrom kind id e todo vp = .finished (.got kind id (.ok b)) := by
  obtain ⟨b, hb, hhash, hread⟩ := he.reads hF hfiles hopen hfile
  refine ⟨b, hb, hhash, ?_⟩
  unfold StoreTask.readFrom
  rw [hread]

end

/-! ## One step -/

variable (laws : CipherLaws) (hseals : CipherSeals) (hF : F.InjOn packNameOf)

section
variable (hfiles : h.store.disk.FilesIn F) (hintact : h.store.disk.Intact fmk B)
  (hhandle : HandleOk B F fmk h.store.disk h.store)
include hfiles hintact hhandle

variable {todo : List IndexEntry} {bytes : Bytes} {packs : List StagingPack} {last : Option BlobError}
  {claimed : PackId} {ctx : PackContext} {reply : Reply}

/-- The check of a put: it answers for a blob that is there, or goes on to offer it. -/
theorem StepEffect.putCheck (hfits : StoreTask.Fits B F fmk h (.putCheck kind bytes))
    (hstep : StoreTask.step (.putCheck kind bytes) h = some (t', h')) :
    StepEffect B F fmk (.putCheck kind bytes) h t' h' := by
  have hcandidates : ∀ e ∈ h.store.locations.candidates kind (Env.blake3 bytes), h.store.present e.pack :=
    fun e he => hhandle.present rfl (hhandle.there e (mem_filter.1 he).1)
  rw [StoreTask.step] at hstep
  split at hstep
  · cases hstep
    exact .quiet rfl rfl rfl hfiles hintact hhandle trivial (fun _ _ h => h)
      (by rintro _ _ _ ⟨⟩) (fun _ _ h => h)
  rename_i hne
  dsimp only at hstep
  rw [anyExists_of_present hcandidates] at hstep
  split at hstep
  · rename_i hthere
    cases hstep
    have hknown := (PackStore.alreadyPresent_iff fun e he => hhandle.present rfl (hhandle.there e he)).1 hthere
    exact
      { grows := .of_packs rfl
        files := hfiles
        intact := hintact
        handle := hhandle
        task := trivial
        staged := fun _ _ hin => .inl hin
        carried := fun _ _ hin => .inl hin
        located := fun _ _ hin => hin
        promised := by
          rintro _ _ _ ⟨⟩
          exact .inr ⟨⟨hfits.1, rfl⟩, hknown.elim (.inr ∘ .inr) .inl⟩
        reads := fun _ _ => False.elim }
  · cases hstep
    exact .still rfl rfl rfl hfiles hintact hhandle ⟨hne, hfits⟩ rfl rfl rfl

/-- The offer of a put: the blob is staged, and full packs go on to be sealed. -/
theorem StepEffect.putOffer (htask : StoreTask.Ok B F fmk h.store.disk (.putOffer kind bytes))
    (hstep : StoreTask.step (.putOffer kind bytes) h = some (t', h')) :
    StepEffect B F fmk (.putOffer kind bytes) h t' h' := by
  obtain ⟨hne, hbytes, hrange⟩ := htask
  rw [StoreTask.step, hhandle.target] at hstep
  obtain ⟨⟨staging, full, draw⟩, hrun⟩ : ∃ r,
      h.store.staging.offer h.store.draw kind (Env.blake3 bytes) bytes sealTargetBytes = r := ⟨_, rfl⟩
  rw [hrun] at hstep
  cases hstep
  obtain ⟨hslim, -, hready, -, hcontains⟩ := hhandle.slim.offer hne hbytes hrange hrun
  exact
    { grows := .of_packs rfl
      files := hfiles
      intact := hintact
      handle := { hhandle with slim := hslim }
      task := ⟨fun sp hsp => ⟨_, hready sp hsp⟩, trivial⟩
      staged := fun k i hin => by
        by_cases hpacked : Packed full k i
        · exact .inr hpacked
        · exact .inl ((hcontains k i).2 (.inl ⟨hin, hpacked⟩))
      carried := fun _ _ => False.elim
      located := fun _ _ hin => hin
      promised := by
        rintro _ _ _ ⟨⟩
        exact .inr ⟨⟨hbytes, rfl⟩, .inl ((hcontains _ _).2 (.inr ⟨rfl, rfl⟩))⟩
      reads := fun _ _ => False.elim }

theorem StepEffect.flushDrain (hstep : StoreTask.step .flushDrain h = some (t', h')) :
    StepEffect B F fmk .flushDrain h t' h' := by
  cases hstep
  exact
    { grows := .of_packs rfl
      files := hfiles
      intact := hintact
      handle := { hhandle with slim := StagingPools.slim_new }
      task := ⟨fun sp hsp => hhandle.slim.ready_drainAll hsp, trivial⟩
      staged := fun k i hin => .inr (hhandle.slim.packed_drainAll.2 hin)
      carried := fun _ _ => False.elim
      located := fun _ _ hin => hin
      promised := by rintro _ _ _ ⟨⟩
      reads := fun _ _ => False.elim }

include laws hseals hF in
/-- The write of a pack file. -/
theorem StepEffect.sealing (htask : StoreTask.Ok B F fmk h.store.disk (.sealing packs reply))
    (hfits : StoreTask.Fits B F fmk h (.sealing packs reply))
    (hstep : StoreTask.step (.sealing packs reply) h = some (t', h')) :
    StepEffect B F fmk (.sealing packs reply) h t' h' := by
  cases packs with
  | nil =>
    rw [StoreTask.step] at hstep
    cases hstep
    refine .quiet rfl rfl rfl hfiles hintact hhandle htask.reply ?_ (fun _ _ _ hin => hin)
      (fun _ _ => False.elim)
    rintro _ _ ⟨sp, hsp, -⟩
    cases hsp
  | cons sp =>
    obtain ⟨m, hready⟩ := htask.ready sp (by simp)
    obtain ⟨file, hseal⟩ := hready.sealPackBytes_ok hseals fmk
    have hfile := hfits file hseal
    rw [StoreTask.step, hhandle.key, hseal] at hstep
    cases hstep
    have hgrows := hfiles.grows_withPack hF hfile
    exact
      { grows := hgrows
        files := hfiles.withPack hfile
        intact := hintact.withPack hfiles hF hfile
        handle := { hgrows.handleOk hhandle with }
        task := by
          refine ⟨⟨hready.backs_located laws hseal _, fun e he => ?_, hready.sealedTableLen_lt _⟩,
            fun sp' hsp' => htask.ready sp' (by simp [hsp']), htask.reply⟩
          obtain ⟨f, -, rfl⟩ := mem_map.1 he
          exact PackDisk.isSome_withPack
        staged := fun _ _ hin => .inl hin
        carried := by
          rintro kind id ⟨sp', hsp', hhas⟩
          rcases mem_cons.1 hsp' with rfl | hsp'
          · exact .inl (.inl ((StagingPack.Ready.has_located _).2 hhas))
          · exact .inl (.inr ⟨sp', hsp', hhas⟩)
        located := fun _ _ hin => hin
        promised := fun _ _ _ hin => .inl hin
        reads := fun _ _ => False.elim }

omit hfiles hintact in
theorem HandleOk.unnoted (name : PackId) :
    HandleOk B F fmk h.store.disk { h.store with dangling := h.store.dangling.filter (· ≠ name) } :=
  { hhandle with dangling := by rw [hhandle.dangling]; rfl }

theorem StepEffect.noting {name : PackId}
    (htask : StoreTask.Ok B F fmk h.store.disk (.noting name entries packs reply))
    (hstep : StoreTask.step (.noting name entries packs reply) h = some (t', h')) :
    StepEffect B F fmk (.noting name entries packs reply) h t' h' := by
  cases hstep
  exact .still rfl rfl rfl hfiles hintact (hhandle.unnoted name) htask rfl rfl rfl

theorem StepEffect.merging (htask : StoreTask.Ok B F fmk h.store.disk (.merging entries packs reply))
    (hstep : StoreTask.step (.merging entries packs reply) h = some (t', h')) :
    StepEffect B F fmk (.merging entries packs reply) h t' h' := by
  obtain ⟨hrows, hrest⟩ := htask
  cases hstep
  exact
    { grows := .of_packs rfl
      files := hfiles
      intact := hintact
      handle :=
        { hhandle with
          backs := hhandle.backs.merge hrows.backs
          there := fun e he => (LocationTable.mem_merge.1 he).elim (hhandle.there e) (hrows.there e) }
      task := ⟨hrows, hrest⟩
      staged := fun _ _ hin => .inl hin
      carried := fun kind id hin => hin.elim (fun hin => .inr (LocationTable.has_merge.2 (.inr hin))) .inl
      located := fun kind id hin => LocationTable.has_merge.2 (.inl hin)
      promised := fun _ _ _ hin => .inl hin
      reads := fun _ _ => False.elim }

include laws hseals in
/-- The write of an index file, and of a compaction table where there are too many. -/
theorem StepEffect.indexing {point : IndexPoint}
    (htask : StoreTask.Ok B F fmk h.store.disk (.indexing point packs reply))
    (hfits : StoreTask.Fits B F fmk h (.indexing point packs reply))
    (hstep : StoreTask.step (.indexing point packs reply) h = some (t', h')) :
    StepEffect B F fmk (.indexing point packs reply) h t' h' := by
  obtain ⟨hpoint, hrest⟩ := htask
  -- no step but those that write or remove a file changes what is on disk
  have hquiet : ∀ {point' : IndexPoint} {h' : StoreHandle}, point'.Ok B fmk h.store.disk →
      h'.store.disk.packs = h.store.disk.packs → h'.store.staging = h.store.staging →
      h'.store.locations = h.store.locations → h'.store.disk.Intact fmk B →
      HandleOk B F fmk h.store.disk h'.store →
      StepEffect B F fmk (.indexing point packs reply) h (.indexing point' packs reply) h' :=
    fun hpoint' hpacks hstaging hlocations hintact' hhandle' =>
      .still hpacks hstaging hlocations hfiles hintact' hhandle' ⟨hpoint', hrest⟩ rfl rfl rfl
  rw [StoreTask.step] at hstep
  cases point with
  | sealTable =>
    obtain ⟨file, hseal⟩ := sealIndexContainer_ok hseals hpoint.size fmk (PackEnv.salt h.store.draw)
    rw [IndexPoint.step, hhandle.key, hseal] at hstep
    cases hstep
    exact hquiet (hpoint.backs.fileOk laws hpoint.size hseal) rfl rfl rfl hintact { hhandle with }
  | lock =>
    rw [IndexPoint.step] at hstep
    split at hstep
    · cases hstep
    · cases hstep
      exact hquiet hpoint rfl rfl rfl hintact hhandle
  | alloc | realloc =>
    rw [IndexPoint.step] at hstep
    cases hstep
    exact hquiet hpoint rfl rfl rfl hintact { hhandle with }
  | rename n | rerename olds n =>
    rw [IndexPoint.step] at hstep
    cases hstep
    exact hquiet trivial rfl rfl rfl (hintact.overwritten hpoint n) { hhandle with }
  | count =>
    rw [IndexPoint.step] at hstep
    cases hstep
    split
    · exact hquiet trivial rfl rfl rfl hintact hhandle
    · exact hquiet trivial rfl rfl rfl hintact hhandle
  | lockList =>
    rw [IndexPoint.step] at hstep
    split at hstep
    · cases hstep
    · cases hstep
      exact hquiet trivial rfl rfl rfl hintact hhandle
  | list =>
    rw [IndexPoint.step] at hstep
    cases hstep
    exact hquiet trivial rfl rfl rfl hintact hhandle
  | table =>
    have hsize := sealedTableLen_iterSorted hfits
    obtain ⟨file, hseal⟩ := sealIndexContainer_ok hseals hsize fmk (PackEnv.salt h.store.draw)
    rw [IndexPoint.step, hhandle.key, hseal] at hstep
    cases hstep
    exact hquiet (hhandle.backs.iterSorted.fileOk laws hsize hseal) rfl rfl rfl hintact { hhandle with }
  | remove n olds =>
    cases olds with
    | nil =>
      rw [IndexPoint.step] at hstep
      cases hstep
      exact hquiet trivial rfl rfl rfl hintact hhandle
    | cons old =>
      rw [IndexPoint.step] at hstep
      cases hstep
      exact hquiet trivial rfl rfl rfl (hintact.removed old) { hhandle with }
  | unlock =>
    rw [IndexPoint.step] at hstep
    cases hstep
    exact .still rfl rfl rfl hfiles hintact hhandle hrest rfl rfl rfl

theorem StepEffect.getStaged (hstep : StoreTask.step (.getStaged kind id) h = some (t', h')) :
    StepEffect B F fmk (.getStaged kind id) h t' h' := by
  rw [StoreTask.step] at hstep
  cases hstaged : h.store.staging.stagedBytes kind id with
  | none =>
    rw [hstaged] at hstep
    cases hstep
    exact .still rfl rfl rfl hfiles hintact hhandle trivial rfl rfl rfl
  | some =>
    obtain ⟨hb', hhash⟩ := hhandle.slim.of_stagedBytes hstaged
    rw [hstaged] at hstep
    dsimp only at hstep
    rw [if_neg (not_not.2 hhash)] at hstep
    cases hstep
    exact .quiet rfl rfl rfl hfiles hintact hhandle ⟨hb', hhash⟩ (fun _ _ h => h)
      (by rintro _ _ _ ⟨⟩) (fun _ _ => False.elim)

theorem StepEffect.getLocations (hstep : StoreTask.step (.getLocations kind id) h = some (t', h')) :
    StepEffect B F fmk (.getLocations kind id) h t' h' := by
  rw [StoreTask.step] at hstep
  cases hcandidates : h.store.locations.candidates kind id with
  | nil =>
    rw [hcandidates] at hstep
    cases hstep
    exact .quiet rfl rfl rfl hfiles hintact hhandle trivial (fun _ _ h => h)
      (by rintro _ _ _ ⟨⟩) (fun _ _ h => h)
  | cons e =>
    rw [hcandidates] at hstep
    cases hstep
    have hfirst : h.store.locations.find? (fun e => e.kind = kind ∧ e.id = id) = some e := by
      rw [← head?_filter]
      exact congrArg List.head? hcandidates
    have hkey : e.kind = kind ∧ e.id = id := by simpa using find?_some hfirst
    refine .quiet rfl rfl rfl hfiles hintact hhandle ⟨fun e' he' => ?_, e, ?_⟩ (fun _ _ h => h)
      (fun _ _ _ hin => hin) (fun _ _ => False.elim)
    · rw [← hcandidates] at he'
      exact hhandle.there e' (mem_filter.1 he').1
    · exact ⟨⟨hhandle.backs.holds kind id e hfirst, hkey⟩, .inl ⟨rfl, rfl⟩⟩

theorem StepEffect.getSort {there missing : List IndexEntry}
    (htask : StoreTask.Ok B F fmk h.store.disk (.getSort kind id todo there missing))
    (hstep : StoreTask.step (.getSort kind id todo there missing) h = some (t', h')) :
    StepEffect B F fmk (.getSort kind id todo there missing) h t' h' := by
  obtain ⟨htodo, e, he, hfirst⟩ := htask
  cases todo with
  | nil =>
    cases hstep
    have hhead : (there ++ missing).head? = some e := by
      have := hfirst.resolve_left (fun hno => by cases hno.2)
      rw [head?_append, this]
      rfl
    exact .still rfl rfl rfl hfiles hintact hhandle ⟨e, he, hhead⟩ rfl rfl rfl
  | cons e' =>
    have hpresent := hhandle.present rfl (htodo e' (by simp))
    rw [StoreTask.step, if_pos hpresent, leaves, packExists_of_present hpresent] at hstep
    cases hstep
    have hhead : (there ++ [e']).head? = some e := by
      rcases hfirst with ⟨rfl, hfirst⟩ | hfirst
      · exact hfirst
      · rw [head?_append, hfirst]
        rfl
    exact .still rfl rfl rfl hfiles hintact hhandle
      ⟨fun e₁ he₁ => htodo e₁ (by simp [he₁]), e, he, .inr hhead⟩ rfl rfl rfl

theorem StepEffect.getNext (htask : StoreTask.Ok B F fmk h.store.disk (.getNext kind id todo last))
    (hstep : StoreTask.step (.getNext kind id todo last) h = some (t', h')) :
    StepEffect B F fmk (.getNext kind id todo last) h t' h' := by
  obtain ⟨e, he, hfirst⟩ := htask
  obtain ⟨todo, rfl⟩ := head?_eq_some_iff.1 hfirst
  have hpresent := hhandle.present rfl he.there
  rw [StoreTask.step, if_pos hpresent, leaves, packExists_of_present hpresent] at hstep
  cases hstep
  exact .still rfl rfl rfl hfiles hintact hhandle he rfl rfl rfl

include hF in
theorem StepEffect.getCache (htask : StoreTask.Ok B F fmk h.store.disk (.getCache kind id e todo last))
    (hstep : StoreTask.step (.getCache kind id e todo last) h = some (t', h')) :
    StepEffect B F fmk (.getCache kind id e todo last) h t' h' := by
  rw [StoreTask.step] at hstep
  cases hfind : h.store.cache.find e.pack with
  | none =>
    rw [hfind] at hstep
    cases hstep
    exact .still rfl rfl rfl hfiles hintact hhandle htask rfl rfl rfl
  | some vp =>
    have hmem : vp ∈ h.store.cache := mem_of_find?_eq_some hfind
    have hpack : vp.packId = e.pack := by simpa using find?_some hfind
    obtain ⟨hopen, hfile⟩ := hhandle.cache vp hmem
    obtain ⟨b, hb, hhash, hread⟩ := Wanted.readFrom_ok htask hF hfiles (hpack ▸ hopen) hfile todo
    rw [hfind] at hstep
    dsimp only at hstep
    rw [hread] at hstep
    cases hstep
    refine .quiet rfl rfl rfl hfiles hintact { hhandle with cache := fun vp' hvp' => ?_ }
      ⟨hb, hhash⟩ (fun _ _ h => h)
      (by rintro _ _ _ ⟨⟩) (fun _ _ h => h)
    exact hhandle.cache vp' ((PackCache.mem_promote hvp').elim (· ▸ hmem) (fun hin => hin))

theorem StepEffect.getOpen (htask : StoreTask.Ok B F fmk h.store.disk (.getOpen kind id e todo last))
    (hstep : StoreTask.step (.getOpen kind id e todo last) h = some (t', h')) :
    StepEffect B F fmk (.getOpen kind id e todo last) h t' h' := by
  have ⟨⟨b, _, bytes, ctx, hlookup, hopen, _⟩, _⟩ := htask
  rw [StoreTask.step, hlookup] at hstep
  dsimp only at hstep
  rw [hhandle.key, hopen] at hstep
  cases hstep
  exact .still rfl rfl rfl hfiles hintact hhandle ⟨htask, rfl, hopen, hfiles _ _ hlookup⟩ rfl rfl rfl

include hF in
theorem StepEffect.getKeep (htask : StoreTask.Ok B F fmk h.store.disk (.getKeep kind id e todo last vp))
    (hstep : StoreTask.step (.getKeep kind id e todo last vp) h = some (t', h')) :
    StepEffect B F fmk (.getKeep kind id e todo last vp) h t' h' := by
  obtain ⟨he, hpack, hopen, hfile⟩ := htask
  obtain ⟨b, hb, hhash, hread⟩ := he.readFrom_ok hF hfiles (hpack ▸ hopen) hfile todo
  rw [StoreTask.step, hread] at hstep
  cases hstep
  refine .quiet rfl rfl rfl hfiles hintact { hhandle with cache := fun vp' hvp' => ?_ }
        ⟨hb, hhash⟩ (fun _ _ h => h)
        (by rintro _ _ _ ⟨⟩) (fun _ _ h => h)
  exact (PackCache.mem_insert hvp').elim (fun heq => heq ▸ ⟨hopen, hfile⟩) (hhandle.cache vp')

theorem StepEffect.adoptCheck (hfits : StoreTask.Fits B F fmk h (.adoptCheck claimed bytes))
    (hstep : StoreTask.step (.adoptCheck claimed bytes) h = some (t', h')) :
    StepEffect B F fmk (.adoptCheck claimed bytes) h t' h' := by
  obtain ⟨hhonest, hsame⟩ := hfits
  rw [StoreTask.step] at hstep
  split at hstep
  · cases hstep
    exact .quiet rfl rfl rfl hfiles hintact hhandle trivial (fun _ _ h => h) (by rintro _ _ _ ⟨⟩)
      (fun _ _ h => h)
  rw [hhandle.key] at hstep
  cases hopen : openPack bytes claimed fmk with
  | error =>
    rw [hopen] at hstep
    cases hstep
    exact .quiet rfl rfl rfl hfiles hintact hhandle trivial (fun _ _ h => h)
      (by rintro _ _ _ ⟨⟩) (fun _ _ h => h)
  | ok ctx =>
    rw [hopen] at hstep
    cases hstep
    split
    · rename_i hthere
      obtain ⟨file, hlookup⟩ := Option.isSome_iff_exists.1 hthere
      have hbytes := hsame file hlookup
      subst hbytes
      exact .still rfl rfl rfl hfiles hintact hhandle ⟨hopen, hhonest ctx hopen, hlookup⟩ rfl rfl rfl
    · exact .still rfl rfl rfl hfiles hintact hhandle ⟨hopen, hhonest ctx hopen⟩ rfl rfl rfl

include hF in
theorem StepEffect.adoptWrite (htask : StoreTask.Ok B F fmk h.store.disk (.adoptWrite claimed bytes ctx))
    (hstep : StoreTask.step (.adoptWrite claimed bytes ctx) h = some (t', h')) :
    StepEffect B F fmk (.adoptWrite claimed bytes ctx) h t' h' := by
  obtain ⟨hopen, hhonest⟩ := htask
  have hgrows := hfiles.grows_withPack hF hhonest.file
  rw [StoreTask.step] at hstep
  cases hstep
  exact
    { grows := hgrows
      files := hfiles.withPack hhonest.file
      intact := hintact.withPack hfiles hF hhonest.file
      handle := { hgrows.handleOk hhandle with }
      task := by
        refine ⟨hopen, hhonest, ?_⟩
        rw [PackDisk.lookup_withPack, if_pos (openPack_ok_iff.1 hopen).name.symm]
      staged := fun _ _ hin => .inl hin
      carried := fun _ _ => False.elim
      located := fun _ _ hin => hin
      promised := fun _ _ _ => False.elim
      reads := fun _ _ => False.elim }

theorem StepEffect.adoptNote (htask : StoreTask.Ok B F fmk h.store.disk (.adoptNote claimed bytes ctx))
    (hstep : StoreTask.step (.adoptNote claimed bytes ctx) h = some (t', h')) :
    StepEffect B F fmk (.adoptNote claimed bytes ctx) h t' h' := by
  cases hstep
  exact .still rfl rfl rfl hfiles hintact (hhandle.unnoted claimed) htask rfl rfl rfl

omit hfiles hintact hhandle in
theorem HonestPack.rowsOk
    (hhonest : HonestPack B F fmk claimed bytes ctx) (hopen : openPack bytes claimed fmk = .ok ctx)
    (hlookup : d.packs.lookup claimed = some bytes) :
    RowsOk B fmk d (ctx.entries.map (FooterEntry.located claimed)) where
  backs :=
    { typed := fun e he => by
        obtain ⟨f, hf, rfl⟩ := mem_map.1 he
        obtain ⟨plain, -, hparse⟩ := (openPack_ok_iff.1 hopen).footer
        exact (footerParse_ok_iff.1 hparse).2.2.1 f hf
      holds := fun kind id e he => by
        rw [find?_map, Option.map_eq_some_iff] at he
        obtain ⟨f, hf, rfl⟩ := he
        obtain ⟨b, hb, hread⟩ := hhonest.holds kind id f hf
        exact ⟨b, hb, bytes, ctx, hlookup, hopen, hread⟩ }
  there e he := by
    obtain ⟨f, -, rfl⟩ := mem_map.1 he
    show (d.packs.lookup claimed).isSome
    rw [hlookup]
    rfl
  size := hhonest.size

theorem StepEffect.adoptKeep (htask : StoreTask.Ok B F fmk h.store.disk (.adoptKeep claimed bytes ctx))
    (hstep : StoreTask.step (.adoptKeep claimed bytes ctx) h = some (t', h')) :
    StepEffect B F fmk (.adoptKeep claimed bytes ctx) h t' h' := by
  obtain ⟨hopen, hhonest, hlookup⟩ := htask
  cases hstep
  refine .quiet rfl rfl rfl hfiles hintact { hhandle with cache := fun vp' hvp' => ?_ }
    ⟨hhonest.rowsOk hopen hlookup, (by rintro _ ⟨⟩), trivial⟩ (fun _ _ => False.elim)
    (by rintro _ _ _ ⟨⟩) (fun _ _ h => h)
  exact (PackCache.mem_insert hvp').elim (fun heq => heq ▸ ⟨hopen, hhonest.file⟩) (hhandle.cache vp')

include laws hseals hF in
/-- Whatever a task does, the files and its handle go on to say the truth, and no blob gets lost on its
way from the pools to the table. -/
theorem StoreTask.step_effect (htask : t.Ok B F fmk h.store.disk) (hfits : t.Fits B F fmk h)
    (hstep : t.step h = some (t', h')) : StepEffect B F fmk t h t' h' := by
  cases t with
  | putCheck => exact .putCheck hfiles hintact hhandle hfits hstep
  | putOffer => exact .putOffer hfiles hintact hhandle htask hstep
  | flushDrain => exact .flushDrain hfiles hintact hhandle hstep
  | sealing => exact .sealing laws hseals hF hfiles hintact hhandle htask hfits hstep
  | noting => exact .noting hfiles hintact hhandle htask hstep
  | merging => exact .merging hfiles hintact hhandle htask hstep
  | indexing => exact .indexing laws hseals hfiles hintact hhandle htask hfits hstep
  | getStaged => exact .getStaged hfiles hintact hhandle hstep
  | getLocations => exact .getLocations hfiles hintact hhandle hstep
  | getSort => exact .getSort hfiles hintact hhandle htask hstep
  | getNext => exact .getNext hfiles hintact hhandle htask hstep
  | getCache => exact .getCache hF hfiles hintact hhandle htask hstep
  | getOpen => exact .getOpen hfiles hintact hhandle htask hstep
  | getKeep => exact .getKeep hF hfiles hintact hhandle htask hstep
  | adoptCheck => exact .adoptCheck hfiles hintact hhandle hfits hstep
  | adoptWrite => exact .adoptWrite hF hfiles hintact hhandle htask hstep
  | adoptNote => exact .adoptNote hfiles hintact hhandle htask hstep
  | adoptKeep => exact .adoptKeep hfiles hintact hhandle htask hstep
  | finished => cases hstep

end

end

/-! ## The folder -/

theorem SharedCall.task_ok {B F : Set Bytes} {fmk : ByteArr 32} {d : PackDisk} (call : SharedCall) :
    call.task.Ok B F fmk d := by
  cases call with
  | putBlob | flush | get | adoptPack => trivial
  | compactIndex => exact ⟨trivial, (by rintro _ ⟨⟩), trivial⟩

namespace SharedFolder

variable {B F : Set Bytes} {w : SharedFolder}

/-- The files say the truth, and so do the handles and the tasks. -/
structure Good (B F : Set Bytes) (w : SharedFolder) : Prop where
  files : w.disk.FilesIn F
  intact : w.disk.Intact w.fmk B
  handles : ∀ h ∈ w.handles, HandleOk B F w.fmk w.disk h.store
  tasks : ∀ p ∈ w.tasks, p.2.Ok B F w.fmk w.disk
  owned : ∀ p ∈ w.tasks, p.1 < w.handles.length

def MoveFits (B F : Set Bytes) (w : SharedFolder) : FolderMove → Prop
  | .step i => ∀ n t h, w.tasks[i]? = some (n, t) → w.handles[n]? = some h → t.Fits B F w.fmk (w.view h)
  | .open _ | .start _ _ => True

/-- The blobs that are put lie in `B` and the packs that are written in `F`; packs from peers hold what
they list; and no table outgrows an index file. -/
def Fits (B F : Set Bytes) : List FolderMove → SharedFolder → Prop := Along (MoveFits B F)

/-- A step of a task, as the folder sees it. -/
inductive Stepped (w : SharedFolder) (i : Nat) : SharedFolder → Prop
  | waits (hwaits : ∀ n t h, w.tasks[i]? = some (n, t) → w.handles[n]? = some h → t.step (w.view h) = none) :
      Stepped w i w
  | acts {n : Nat} {t t' : StoreTask} {h h' : StoreHandle} (htask : w.tasks[i]? = some (n, t))
      (hhandle : w.handles[n]? = some h) (hstep : t.step (w.view h) = some (t', h')) :
      Stepped w i { w with
        disk := h'.store.disk
        handles := w.handles.set n h'
        tasks := w.tasks.set i (n, t') }

/-- A move of one task changes its own handle and the directory. -/
theorem stepped (w : SharedFolder) (i : Nat) : w.Stepped i (w.move (.step i)) := by
  rw [move]
  cases htask : w.tasks[i]? with
  | none =>
    refine .waits fun n t h ht => ?_
    rw [htask] at ht
    cases ht
  | some p =>
    obtain ⟨n, t⟩ := p
    dsimp only
    cases hhandle : w.handles[n]? with
    | none =>
      refine .waits fun n' t' h ht hh => ?_
      rw [htask] at ht
      cases ht
      rw [hhandle] at hh
      cases hh
    | some h =>
      dsimp only
      cases hstep : t.step (w.view h) with
      | none =>
        refine .waits fun n' t' h' ht hh => ?_
        rw [htask] at ht
        cases ht
        rw [hhandle] at hh
        cases hh
        exact hstep
      | some => exact .acts htask hhandle hstep

theorem Good.effect (laws : CipherLaws) (hseals : CipherSeals) (hF : F.InjOn packNameOf) (hw : w.Good B F)
    {i n : Nat} {t t' : StoreTask} {h h' : StoreHandle} (hfits : w.MoveFits B F (.step i))
    (htask : w.tasks[i]? = some (n, t)) (hhandle : w.handles[n]? = some h)
    (hstep : t.step (w.view h) = some (t', h')) : StepEffect B F w.fmk t (w.view h) t' h' :=
  StoreTask.step_effect laws hseals hF (h := w.view h) hw.files hw.intact
    { hw.handles h (mem_of_getElem? hhandle) with } (hw.tasks _ (mem_of_getElem? htask))
    (hfits n t h htask hhandle) hstep

/-- The step lemma for a folder with any number of handles and tasks. -/
theorem Good.move (laws : CipherLaws) (hseals : CipherSeals) (hF : F.InjOn packNameOf) (hw : w.Good B F)
    {m : FolderMove} (hfits : w.MoveFits B F m) : (w.move m).Good B F := by
  cases m with
  | start n call =>
    rw [SharedFolder.move]
    split
    · rename_i hn
      refine ⟨hw.files, hw.intact, hw.handles, fun p hp => ?_, fun p hp => ?_⟩
      · rcases mem_append.1 hp with hp | hp
        · exact hw.tasks p hp
        · rw [mem_singleton.1 hp]
          exact call.task_ok
      · rcases mem_append.1 hp with hp | hp
        · exact hw.owned p hp
        · rw [mem_singleton.1 hp]
          exact hn
    · exact hw
  | «open» draw =>
    obtain ⟨t, hopen, hmem⟩ := hw.intact.openStore_ok draw
    have hholds : ∀ e ∈ t, w.disk.Holds w.fmk B e := fun e he => hw.intact.holds e ((hmem e).1 he)
    rw [SharedFolder.move, hopen]
    refine ⟨hw.files, hw.intact, fun h hh => ?_, hw.tasks, fun p hp => ?_⟩
    · rcases mem_append.1 hh with hh | hh
      · exact hw.handles h hh
      rw [mem_singleton.1 hh]
      exact
        { key := rfl
          target := rfl
          slim := StagingPools.slim_new
          backs := by
            refine ⟨fun e he => ?_, fun kind id e he => hholds e (mem_of_find?_eq_some he)⟩
            obtain ⟨n, file, rows, -, hrows, hin⟩ := (hmem e).1 he
            exact PackDisk.typed_of_openIndexContainer hrows hin
          there := fun e he => Wanted.there ⟨hholds e he, rfl, rfl⟩
          dangling := rfl
          cache := fun _ hvp => nomatch hvp }
    · rw [length_append]
      exact Nat.lt_add_right _ (hw.owned p hp)
  | step i =>
    have hmoved := w.stepped i
    generalize w.move (.step i) = w' at hmoved ⊢
    cases hmoved with
    | waits => exact hw
    | acts htask hhandle hstep =>
      have heffect := hw.effect laws hseals hF hfits htask hhandle hstep
      refine ⟨heffect.files, heffect.intact, fun h₁ hh₁ => ?_, fun p hp => ?_, fun p hp => ?_⟩
      · rcases mem_or_eq_of_mem_set hh₁ with hh₁ | rfl
        · exact heffect.grows.handleOk (hw.handles h₁ hh₁)
        · exact heffect.handle
      · rcases mem_or_eq_of_mem_set hp with hp | rfl
        · exact heffect.grows.taskOk (hw.tasks p hp)
        · exact heffect.task
      · rw [length_set]
        rcases mem_or_eq_of_mem_set hp with hp | rfl
        · exact hw.owned p hp
        · exact (List.getElem?_eq_some_iff.1 hhandle).1

theorem Good.after (laws : CipherLaws) (hseals : CipherSeals) (hF : F.InjOn packNameOf) (hw : w.Good B F)
    {moves : List FolderMove} (hfits : Fits B F moves w) : (w.after moves).Good B F :=
  Along.invariant hfits (fun _ _ hgood => hgood.move laws hseals hF) hw

def closed (fmk : ByteArr 32) (disk : PackDisk) : SharedFolder := ⟨fmk, disk, [], []⟩

theorem good_closed {fmk : ByteArr 32} {disk : PackDisk} (hfiles : disk.FilesIn F) (hintact : disk.Intact fmk B) :
    (closed fmk disk).Good B F :=
  ⟨hfiles, hintact, (fun _ hin => nomatch hin), (fun _ hin => nomatch hin), (fun _ hin => nomatch hin)⟩

end SharedFolder

end

end Ferry
