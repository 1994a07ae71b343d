import Ferry.Lib.Interleave
import Ferry.Packs.Collect
import Ferry.Store.DiffSpec
import Ferry.Sync.Converge

/-! # A folder and its collections

A folder is scanned, synchronized with peers and collected, the last by a
process of its own that takes its roots from the ledgers on disk: the manifests
agreed with peers and the remote manifests that a pin holds back. The manifest of
the last scan is not among them.
-/

namespace Ferry

open Lib

/-! ## Folders -/

structure FerryFolder where
  /-- The store of the running daemon, with the files of the folder. -/
  store : PackStore
  /-- The manifest of the scanner's last pass. -/
  published : Option BlobId
  /-- The agreement ledger, by peer. -/
  agreed : AList (fun _ : BlobId => AgreedRecord)
  /-- The held ledgers, by peer. -/
  held : AList (fun _ : String => List HeldEntry)

/-- `live_roots`. -/
def FerryFolder.liveRoots (f : FerryFolder) : List BlobId :=
  ((f.agreed.entries.map fun r => r.2.manifestId) ++
    (f.held.entries.flatMap fun r => r.2).filterMap fun e => unhex 32 e.remoteManifestId.toList).dedup.insertionSort
      (fun a b => a.key ≤ b.key)

def FerryFolder.used (f : FerryFolder) : List BlobId := f.published.toList ++ f.liveRoots

inductive FolderEvent where
  /-- The daemon uses its store, in a scan or a session. -/
  | op (op : StoreOp)
  /-- A scan ends with a manifest. -/
  | publish (manifestId : BlobId)
  | agree (peer : BlobId) (rec : AgreedRecord)
  /-- A held ledger is rewritten. -/
  | hold (peer : String) (entries : List HeldEntry)
  | restart (draw : Nat)
  /-- `ferry store gc`. -/
  | gc (draw fuel grace : Nat) (now : Int)

section
variable [PackEnv]

def FerryFolder.step (f : FerryFolder) : FolderEvent → FerryFolder
  | .op op => { f with store := op.after f.store }
  | .publish manifestId => { f with published := some manifestId }
  | .agree peer rec => { f with agreed := f.agreed.insert peer rec }
  | .hold peer entries => { f with held := f.held.insert peer entries }
  | .restart draw =>
    match openStore f.store.disk f.store.fmk draw with
    | .ok s => { f with store := s }
    | .error _ => f
  | .gc draw fuel grace now => { f with store := { f.store with
      disk := f.store.disk.collect f.store.fmk draw fuel f.liveRoots grace now } }

def FerryFolder.after (f : FerryFolder) (events : List FolderEvent) : FerryFolder := events.foldl step f

def FerryFolder.read (f : FerryFolder) : BlobKind → BlobId → Option Bytes := f.store.disk.read f.store.fmk

/-- Everything that the manifest leads to can be read. -/
def FerryFolder.Complete (f : FerryFolder) (m : BlobId) : Prop :=
  ∀ kind id, LeadsTo f.read m (kind, id) → ∃ b, f.read kind id = some b

end

/-! ## Files that stay -/

section
variable [PackEnv]

/-- The locations that the index files give. -/
def PackDisk.listed (d : PackDisk) (fmk : ByteArr 32) : LocationTable :=
  (loadLocations fmk (sortIndexFiles d.index)).toOption.getD []

/-- The locations of a blob whose packs are there, in the order in which they are tried. -/
def PackDisk.located (d : PackDisk) (fmk : ByteArr 32) (kind : BlobKind) (id : BlobId) : List IndexEntry :=
  ((d.listed fmk).candidates kind id).filter fun e => (d.packs.lookup e.pack).isSome

/-- No pack is removed or replaced, and the locations of a blob whose packs are there stay in front. -/
structure PackStore.Extends (s s' : PackStore) : Prop where
  fmk : s'.fmk = s.fmk
  packs : ∀ p ∈ s.disk.packs.entries, s'.disk.packs.lookup p.1 = some p.2
  located : ∀ e ∈ s.disk.listed s.fmk,
    s.disk.located s.fmk e.kind e.id <+: s'.disk.located s.fmk e.kind e.id

instance (s s' : PackStore) : Decidable (s.Extends s') :=
  decidable_of_iff (s'.fmk = s.fmk ∧ (∀ p ∈ s.disk.packs.entries, s'.disk.packs.lookup p.1 = some p.2) ∧
      ∀ e ∈ s.disk.listed s.fmk, s.disk.located s.fmk e.kind e.id <+: s'.disk.located s.fmk e.kind e.id)
    ⟨fun h => ⟨h.1, h.2.1, h.2.2⟩, fun h => ⟨h.fmk, h.packs, h.located⟩⟩

variable {kind : BlobKind} {id : BlobId} {b : Bytes} {m : BlobId}

theorem PackDisk.read_located (d : PackDisk) (fmk : ByteArr 32) (kind : BlobKind) (id : BlobId) :
    d.read fmk kind id = readFiles d.packs fmk kind id (d.located fmk kind id) := by
  rw [PackDisk.read_eq, PackDisk.located, readFiles_filter, PackDisk.listed]
  cases loadLocations fmk (sortIndexFiles d.index) with
  | error => rfl
  | ok locations => rfl

theorem readFiles_of_prefix {packs packs' : AList (fun _ : PackId => Bytes)} {fmk : ByteArr 32}
    {es es' : List IndexEntry} (hpacks : ∀ p ∈ packs.entries, packs'.lookup p.1 = some p.2)
    (hthere : ∀ e ∈ es, (packs.lookup e.pack).isSome) (hes : es <+: es')
    (h : readFiles packs fmk kind id es = some b) : readFiles packs' fmk kind id es' = some b := by
  obtain ⟨more, rfl⟩ := hes
  induction es with
  | nil => cases h
  | cons e es ih =>
    obtain ⟨file, hfile⟩ := Option.isSome_iff_exists.1 (hthere e List.mem_cons_self)
    have hfile' : packs'.lookup e.pack = some file := hpacks ⟨e.pack, file⟩ (AList.mem_lookup_iff.1 hfile)
    rw [List.cons_append]
    simp only [readFiles, hfile, hfile'] at h ⊢
    split at h
    · exact h
    · split at h
      · cases h
      · rename_i hends
        rw [if_neg hends]
        exact ih (fun e' he' => hthere e' (List.mem_cons_of_mem _ he')) h

theorem PackStore.Extends.read {s s' : PackStore} (h : s.Extends s') (hb : s.disk.read s.fmk kind id = some b) :
    s'.disk.read s'.fmk kind id = some b := by
  rw [h.fmk, PackDisk.read_located]
  rw [PackDisk.read_located] at hb
  have hfront : s.disk.located s.fmk kind id <+: s'.disk.located s.fmk kind id := by
    rcases List.eq_nil_or_concat (s.disk.located s.fmk kind id) with hnone | ⟨_, e, hsome⟩
    · rw [hnone]
      exact List.nil_prefix
    · have he : e ∈ s.disk.located s.fmk kind id := by simp [hsome]
      obtain ⟨hlisted, hkey⟩ := List.mem_filter.1 (List.mem_filter.1 he).1
      obtain ⟨rfl, rfl⟩ : e.kind = kind ∧ e.id = id := by simpa using hkey
      exact h.located e hlisted
  exact readFiles_of_prefix h.packs (fun e he => (List.mem_filter.1 he).2) hfront hb

theorem LeadsTo.of_agree {read read' : BlobKind → BlobId → Option Bytes} {r : BlobKind × BlobId}
    (hagree : ∀ kind id, LeadsTo read m (kind, id) → read' kind id = read kind id) (h : LeadsTo read' m r) :
    LeadsTo read m r := by
  induction h with
  | refl => exact .refl read m
  | tail _ hstep ih =>
    obtain ⟨b, hread, hmem⟩ := mem_blobRefs.1 hstep
    exact ih.tail (mem_blobRefs.2 ⟨b, (hagree _ _ ih).symm.trans hread, hmem⟩)

/-! ## Histories -/

namespace FerryFolder

variable {f f' : FerryFolder}

theorem Complete.of_agree (h : f.Complete m)
    (hagree : ∀ kind id, LeadsTo f.read m (kind, id) → f'.read kind id = f.read kind id) : f'.Complete m := by
  intro kind id hleads
  have hbefore : LeadsTo f.read m (kind, id) := hleads.of_agree hagree
  obtain ⟨b, hb⟩ := h kind id hbefore
  exact ⟨b, (hagree kind id hbefore).trans hb⟩

omit [PackEnv] in
theorem mem_liveRoots : m ∈ f.liveRoots ↔ (∃ r ∈ f.agreed.entries, r.2.manifestId = m) ∨
    ∃ r ∈ f.held.entries, ∃ e ∈ r.2, unhex 32 e.remoteManifestId.toList = some m := by
  simp only [liveRoots, List.mem_insertionSort, List.mem_dedup, List.mem_append, List.mem_map,
    List.mem_filterMap, List.mem_flatMap]
  refine or_congr_right ⟨?_, ?_⟩
  · rintro ⟨e, ⟨r, hr, he⟩, hid⟩
    exact ⟨r, hr, e, he, hid⟩
  · rintro ⟨r, hr, e, he, hid⟩
    exact ⟨e, ⟨r, hr, he⟩, hid⟩

/-- What an event has to leave in place: store operations the packs and what the index says of them, a
collection the manifest of the last scan; and a manifest comes into use once everything it leads to is
in the store. -/
def Careful (f : FerryFolder) : FolderEvent → Prop
  | .op op => f.store.Extends (op.after f.store)
  | .publish manifestId => f.Complete manifestId
  | .agree _ rec => f.Complete rec.manifestId
  | .hold _ entries => ∀ e ∈ entries, ∀ m, unhex 32 e.remoteManifestId.toList = some m → f.Complete m
  | .restart _ => True
  | .gc .. => ∀ m ∈ f.published, m ∈ f.liveRoots

omit [PackEnv] in
theorem mem_entries_insert {α : Type} {β : α → Type} [DecidableEq α] {l : AList β} {a : α} {b : β a}
    {r : Sigma β} (h : r ∈ (l.insert a b).entries) : r = ⟨a, b⟩ ∨ r ∈ l.entries := by
  rw [AList.entries_insert, List.mem_cons] at h
  exact h.imp_right fun hr => (List.kerase_sublist _ _).subset hr

/-- A careful event leaves complete what is in use. -/
theorem Careful.complete {e : FolderEvent} (he : f.Careful e) (hf : ∀ m ∈ f.used, f.Complete m) :
    ∀ m ∈ (f.step e).used, (f.step e).Complete m := by
  intro m hm
  cases e with
  | op op =>
    refine (hf m hm).of_agree fun kind id hleads => ?_
    obtain ⟨b, hb⟩ := hf m hm kind id hleads
    exact (he.read hb).trans hb.symm
  | publish manifestId =>
    rcases List.mem_append.1 hm with hm | hm
    · obtain rfl : m = manifestId := by simpa [step] using hm
      exact he
    · exact hf m (List.mem_append_right _ hm)
  | agree peer rec =>
    rcases List.mem_append.1 hm with hm | hm
    · exact hf m (List.mem_append_left _ hm)
    rcases mem_liveRoots.1 hm with ⟨r, hr, rfl⟩ | hheld
    · rcases mem_entries_insert hr with rfl | hr
      · exact he
      · exact hf _ (List.mem_append_right _ (mem_liveRoots.2 (.inl ⟨r, hr, rfl⟩)))
    · exact hf m (List.mem_append_right _ (mem_liveRoots.2 (.inr hheld)))
  | hold peer entries =>
    rcases List.mem_append.1 hm with hm | hm
    · exact hf m (List.mem_append_left _ hm)
    rcases mem_liveRoots.1 hm with hagreed | ⟨r, hr, entry, hentry, hid⟩
    · exact hf m (List.mem_append_right _ (mem_liveRoots.2 (.inl hagreed)))
    · rcases mem_entries_insert hr with rfl | hr
      · exact he entry hentry m hid
      · exact hf m (List.mem_append_right _ (mem_liveRoots.2 (.inr ⟨r, hr, entry, hentry, hid⟩)))
  | restart draw =>
    cases hopen : openStore f.store.disk f.store.fmk draw with
    | error err =>
      simp only [step, hopen] at hm ⊢
      exact hf m hm
    | ok s =>
      obtain ⟨locations, -, hs⟩ := bind_eq_ok.1 hopen
      cases hs
      simp only [step, hopen] at hm ⊢
      exact hf m hm
  | gc draw fuel grace now =>
    have hroot : m ∈ f.liveRoots := by
      rcases List.mem_append.1 hm with hpub | hroot
      · exact he m (Option.mem_toList.1 hpub)
      · exact hroot
    exact (hf m hm).of_agree fun kind id hleads => PackDisk.read_collect _ _ draw fuel grace now hroot hleads

theorem careful_cons {e : FolderEvent} {events : List FolderEvent} :
    Interleave.Along (fun f e => some (step f e)) Careful f (e :: events) ↔
      f.Careful e ∧ Interleave.Along (fun f e => some (step f e)) Careful (f.step e) events :=
  Interleave.along_cons_of_step rfl events

theorem complete_after {before rest : List FolderEvent} (hf : ∀ m ∈ f.used, f.Complete m)
    (hcareful : Interleave.Along (fun f e => some (step f e)) Careful f (before ++ rest)) :
    ∀ m ∈ (f.after before).used, (f.after before).Complete m := by
  induction before generalizing f with
  | nil => exact hf
  | cons e before ih => exact ih (hcareful.1.complete hf) (hcareful.2 _ rfl)

/-- Blobs that can be read and lead to one another only. -/
theorem complete_of_closed (l : List (BlobKind × BlobId)) (hm : (.manifest, m) ∈ l)
    (hl : ∀ r ∈ l, (f.read r.1 r.2).isSome ∧ ∀ r' ∈ blobRefs f.read r, r' ∈ l) : f.Complete m := by
  have hin : ∀ r, LeadsTo f.read m r → r ∈ l := by
    intro r hleads
    induction hleads with
    | refl => exact hm
    | tail _ hstep ih => exact (hl _ ih).2 _ hstep
  exact fun kind id hleads => Option.isSome_iff_exists.1 (hl _ (hin _ hleads)).1

end FerryFolder

end

namespace Sample

def oneFileNode : TreeNode := ⟨[⟨"f", false, 5, 0, .file 1 [(Env.blake3 [7], 1)]⟩]⟩

def oneFileManifest : Bytes := serializeManifest (manifestOf oneFileNode)

def newFolder : FerryFolder := ⟨freshStore, none, ∅, ∅⟩

def initEvents : List FolderEvent :=
  [.op (.putBlob .polynomial (leBytes 8 0x1234)), .op .flush, .op .writeIndexSnapshot]

def scanEvents : List FolderEvent :=
  [.op (.putBlob .dataChunk [7]), .op (.putBlob .treeNode ((serializeTreeNode oneFileNode).toOption.getD [])),
    .op (.putBlob .manifest oneFileManifest), .op .flush, .publish (Env.blake3 oneFileManifest)]

def scannedFolder : FerryFolder := newFolder.after (initEvents ++ scanEvents)

def agreedFolder : FerryFolder :=
  scannedFolder.step (.agree zeroId ⟨zeroId, Env.blake3 oneFileManifest, 0, 0⟩)

def collectedFolder : FerryFolder := agreedFolder.step (.gc 0 10 0 0)

/-- A chunk that nothing refers to is stored, and the folder collected once more. -/
def laterEvents : List FolderEvent := [.op (.putBlob .dataChunk [9]), .op .flush, .gc 0 10 0 0]

def agreedEvents : List FolderEvent :=
  [.agree zeroId ⟨zeroId, Env.blake3 oneFileManifest, 0, 0⟩, .gc 0 10 0 0] ++ laterEvents

theorem scannedFolder_complete : scannedFolder.Complete (Env.blake3 oneFileManifest) := by
  refine FerryFolder.complete_of_closed [(.manifest, Env.blake3 oneFileManifest), (.treeNode, nodeId oneFileNode),
    (.dataChunk, Env.blake3 [7])] (by simp) ?_
  decide +kernel

end Sample

end Ferry
