import Ferry.Packs.History

/-! # What a collection leaves

The collector opens a store of its own on the files of a folder. As long as
nobody else touches the files, such a store reads what the files say, whatever
is cached. So the marking finds everything that the roots lead to, and the packs
that are removed hold nothing of it.
-/

namespace Ferry

open Lib List

section
variable [PackEnv]

/-! ## Reading from files -/

/-- The first of these locations that gives the blob, read from the files. -/
def readFiles (packs : AList (fun _ : PackId => Bytes)) (fmk : ByteArr 32) (kind : BlobKind) (id : BlobId) :
    List IndexEntry → Option Bytes
  | [] => none
  | e :: rest =>
    match packs.lookup e.pack with
    | none => readFiles packs fmk kind id rest
    | some file =>
      match (openPack file e.pack fmk).bind fun ctx =>
        readBlobFromCtx file ctx kind id (e.plainOff, e.plainLen) with
      | .ok b => some b
      | .error err => if err.endsRead then none else readFiles packs fmk kind id rest

/-- A store opened as `s₀` that nobody else has interfered with: what it remembers agrees with the
pack files of that time. -/
structure PackStore.Clean (s₀ s : PackStore) : Prop where
  fmk : s.fmk = s₀.fmk
  staging : s.staging = .new
  locations : s.locations = s₀.locations
  index : s.disk.index = s₀.disk.index
  dangling : ∀ p ∈ s.dangling, s₀.disk.packs.lookup p = none
  cache : ∀ vp ∈ s.cache, s₀.disk.packs.lookup vp.packId = some vp.bytes ∧
    openPack vp.bytes vp.packId s₀.fmk = .ok vp.ctx

variable {r r' : BlobKind × BlobId} {m : Marking} {kind : BlobKind} {id : BlobId}

namespace PackStore.Clean

variable {s₀ s : PackStore} (h : s₀.Clean s)
include h

theorem promote {vp : VerifiedPack}
    (hvp : s₀.disk.packs.lookup vp.packId = some vp.bytes ∧ openPack vp.bytes vp.packId s₀.fmk = .ok vp.ctx) :
    s₀.Clean { s with cache := s.cache.promote vp } where
  __ := h
  cache := by
    intro vp' hmem
    rcases mem_cons.1 (mem_of_mem_take hmem) with rfl | hmem
    · exact hvp
    · exact h.cache vp' (mem_of_mem_filter hmem)

variable (hdisk : s.disk.packs = s₀.disk.packs)
include hdisk

theorem verified_eq (pack : PackId) :
    s.verified pack = match s₀.disk.packs.lookup pack with
      | none => .error .io
      | some file => (openPack file pack s₀.fmk).map fun ctx => ⟨pack, file, ctx⟩ := by
  unfold PackStore.verified
  rw [hdisk, h.fmk]
  cases hc : s.cache.find pack with
  | none => rfl
  | some vp =>
    have hid : vp.packId = pack := by simpa using find?_some hc
    obtain ⟨hfile, hopen⟩ := h.cache vp (mem_of_find?_eq_some hc)
    rw [hid] at hfile hopen
    rw [hfile]
    dsimp only
    rw [hopen, ← hid]
    rfl

/-- Opening a pack fills the cache with what the file holds. -/
theorem opened (pack : PackId) :
    s₀.Clean (s.opened pack) ∧ (s.opened pack).disk.packs = s₀.disk.packs := by
  unfold PackStore.opened
  cases hc : s.cache.find pack with
  | some vp => exact ⟨h.promote (h.cache vp (mem_of_find?_eq_some hc)), hdisk⟩
  | none =>
    cases hv : s.verified pack with
    | error => exact ⟨h, hdisk⟩
    | ok =>
      refine ⟨?_, hdisk⟩
      rw [h.verified_eq hdisk] at hv
      cases hl : s₀.disk.packs.lookup pack with
      | none =>
        rw [hl] at hv
        cases hv
      | some file =>
        rw [hl] at hv
        dsimp only at hv
        cases ho : openPack file pack s₀.fmk with
        | error =>
          rw [ho] at hv
          cases hv
        | ok =>
          rw [ho] at hv
          cases hv
          dsimp only
          unfold PackCache.insert
          split
          · exact h
          · exact h.promote ⟨hl, ho⟩

/-- A store that nobody has interfered with answers from its files. -/
theorem answers_iff {b : Bytes} (es : List IndexEntry)
    (hes : ∀ e ∈ es, (s₀.disk.packs.lookup e.pack).isSome) :
    PackStore.Answers kind id b s es ↔ readFiles s₀.disk.packs s₀.fmk kind id es = some b := by
  induction es generalizing s with
  | nil =>
    constructor
    · intro h
      cases h
    · intro h
      cases h
  | cons e es ih =>
    obtain ⟨file, hfile⟩ := Option.isSome_iff_exists.1 (hes e (by simp))
    have hreads : s.reads kind id e = (openPack file e.pack s₀.fmk).bind fun ctx =>
        readBlobFromCtx file ctx kind id (e.plainOff, e.plainLen) := by
      unfold PackStore.reads
      rw [h.verified_eq hdisk, hfile]
      dsimp only
      cases openPack file e.pack s₀.fmk <;> rfl
    obtain ⟨hclean, hdisk'⟩ := h.opened hdisk e.pack
    have hrest := ih hclean hdisk' fun e he => hes e (by simp [he])
    unfold readFiles
    rw [hfile]
    dsimp only
    rw [← hreads]
    cases hr : s.reads kind id e with
    | ok =>
      constructor
      · intro ha
        cases ha with
        | here hok => rw [hr] at hok; cases hok; rfl
        | later herr => rw [hr] at herr; cases herr
      · intro heq
        cases heq
        exact .here hr
    | error err =>
      dsimp only
      by_cases hd : err.endsRead
      · rw [if_pos hd]
        constructor
        · intro ha
          cases ha with
          | here hok => rw [hr] at hok; cases hok
          | later herr hnd => rw [hr] at herr; cases herr; exact absurd hd hnd
        · intro heq
          cases heq
      · rw [if_neg hd, ← hrest]
        constructor
        · intro ha
          cases ha with
          | here hok => rw [hr] at hok; cases hok
          | later _ _ ha => exact ha
        · exact .later hr hd

theorem noted {s' : PackStore} (hnoted : s.Noted s') : s₀.Clean s' ∧ s'.disk.packs = s₀.disk.packs := by
  obtain ⟨⟨d, rfl⟩, hp⟩ := hnoted
  refine ⟨{ h with dangling := fun p hmem => ?_ }, hdisk⟩
  have habsent : s.present p = false := by
    rw [← hp]
    simp [PackStore.present, show p ∈ d from hmem]
  by_contra hne
  have hmem' : p ∈ s.dangling := by
    by_contra hnot
    simp [PackStore.present, hnot, hdisk, hne] at habsent
  exact hne (h.dangling p hmem')

theorem present_eq (p : PackId) :
    s.present p = (s₀.disk.packs.lookup p).isSome := by
  by_cases hmem : p ∈ s.dangling
  · simp [PackStore.present, hmem, h.dangling p hmem]
  · simp [PackStore.present, hmem, hdisk]

end PackStore.Clean

theorem readFiles_filter (packs : AList (fun _ : PackId => Bytes)) (fmk : ByteArr 32) (kind : BlobKind)
    (id : BlobId) (es : List IndexEntry) :
    readFiles packs fmk kind id (es.filter fun e => (packs.lookup e.pack).isSome) =
      readFiles packs fmk kind id es := by
  induction es with
  | nil => rfl
  | cons e es ih =>
    cases hl : packs.lookup e.pack with
    | none | some => simp [readFiles, hl, ih]

def PackStore.fileBytes (s : PackStore) (kind : BlobKind) (id : BlobId) : Option Bytes :=
  readFiles s.disk.packs s.fmk kind id (s.locations.candidates kind id)

namespace PackStore.Clean

variable {s₀ s : PackStore}

theorem gives_iff (h : s₀.Clean s) (hdisk : s.disk.packs = s₀.disk.packs)
    {b : Bytes} : s.Gives kind id b ↔ s₀.fileBytes kind id = some b := by
  have hat : s.presentAt kind id = (s₀.locations.candidates kind id).filter
      fun e => (s₀.disk.packs.lookup e.pack).isSome := by
    unfold PackStore.presentAt
    rw [h.locations]
    exact filter_congr fun e _ => h.present_eq hdisk e.pack
  unfold PackStore.Gives
  rw [h.staging]
  rw [h.answers_iff hdisk, hat, readFiles_filter]
  · exact Iff.rfl
  · intro e he
    rw [hat] at he
    exact (mem_filter.1 he).2

end PackStore.Clean

theorem getBlob_clean (s₀ : PackStore) (kind : BlobKind) (id : BlobId) :
    Triple (fun s => s₀.Clean s ∧ s.disk.packs = s₀.disk.packs) (getBlob kind id)
      (fun b s => (s₀.Clean s ∧ s.disk.packs = s₀.disk.packs) ∧ s₀.fileBytes kind id = some b)
      (fun _ s => s₀.Clean s ∧ s.disk.packs = s₀.disk.packs) := by
  intro s hs
  have hkeep := (keeps_getBlob (fun _ pack h => h.1.opened h.2 pack) (fun _ _ hn h => h.1.noted h.2 hn)
    kind id : Keeps (fun s => s₀.Clean s ∧ s.disk.packs = s₀.disk.packs) _) s hs
  cases hrun : getBlob kind id s with
  | error =>
    rw [hrun] at hkeep
    exact hkeep
  | ok b s' =>
    rw [hrun] at hkeep
    exact ⟨hkeep, (hs.1.gives_iff hs.2).1 ((run_getBlob_iff s).1 ⟨s', hrun⟩)⟩

/-! ## Marking -/

omit [PackEnv] in
theorem triple_liftAs {ε α : Type} {wrap : ε → BlobError} {x : Except ε α} {I : PackStore → Prop} :
    Triple I (liftAs wrap x) (fun a s => I s ∧ x = .ok a) (fun _ => I) := by
  cases x with
  | ok => exact fun s hs => ⟨hs, rfl⟩
  | error => exact fun s hs => hs

/-- The blobs that these bytes refer to, if they can be read as what their kind says. -/
def refsOf : BlobKind → Bytes → List (BlobKind × BlobId)
  | .manifest, b =>
    match parseManifest b with
    | .ok manifest => [(.treeNode, manifest.rootTreeId)]
    | .error _ => []
  | .treeNode, b =>
    match parseTreeNode b with
    | .ok node => node.referencedBlobs
    | .error _ => []
  | _, _ => []

/-- The blobs that a blob refers to, if it can be read as what its kind says. -/
def blobRefs (read : BlobKind → BlobId → Option Bytes) : BlobKind × BlobId → List (BlobKind × BlobId)
  | (.manifest, id) =>
    match (read .manifest id).map parseManifest with
    | some (.ok manifest) => [(.treeNode, manifest.rootTreeId)]
    | _ => []
  | (.treeNode, id) =>
    match (read .treeNode id).map parseTreeNode with
    | some (.ok node) => node.referencedBlobs
    | _ => []
  | _ => []

theorem mem_blobRefs {read : BlobKind → BlobId → Option Bytes} :
    r' ∈ blobRefs read r ↔ ∃ b, read r.1 r.2 = some b ∧ r' ∈ refsOf r.1 b := by
  obtain ⟨kind, id⟩ := r
  cases kind with
  | manifest =>
    cases hread : read .manifest id with
    | none => simp [blobRefs, hread]
    | some b => cases hparse : parseManifest b <;> simp [blobRefs, refsOf, hread, hparse]
  | treeNode =>
    cases hread : read .treeNode id with
    | none => simp [blobRefs, hread]
    | some b => cases hparse : parseTreeNode b <;> simp [blobRefs, refsOf, hread, hparse]
  | dataChunk | polynomial => simp [blobRefs, refsOf]

/-- `r` is one of the blobs that the manifest `m` leads to, itself included. -/
def LeadsTo (read : BlobKind → BlobId → Option Bytes) (m : BlobId) (r : BlobKind × BlobId) : Prop :=
  Relation.ReflTransGen (fun a b => b ∈ blobRefs read a) (.manifest, m) r

theorem LeadsTo.refl (read : BlobKind → BlobId → Option Bytes) (m : BlobId) :
    LeadsTo read m (.manifest, m) :=
  Relation.ReflTransGen.refl

theorem LeadsTo.tail {read : BlobKind → BlobId → Option Bytes} {m : BlobId}
    (h : LeadsTo read m r) (h' : r' ∈ blobRefs read r) : LeadsTo read m r' :=
  Relation.ReflTransGen.tail h h'

omit [PackEnv] in
theorem TreeNode.referencedBlobs_kind {node : TreeNode}
    (h : r ∈ node.referencedBlobs) : r.1 = .dataChunk ∨ r.1 = .treeNode := by
  obtain ⟨e, -, hr⟩ := mem_flatMap.1 h
  cases hp : e.payload with
  | file =>
    rw [hp] at hr
    obtain ⟨c, -, rfl⟩ := mem_map.1 hr
    exact .inl rfl
  | dir =>
    rw [hp] at hr
    rw [mem_singleton.1 hr]
    exact .inr rfl
  | symlink =>
    rw [hp] at hr
    cases hr

/-- The blob is marked, or a tree that waits on the stack. -/
def Marking.Has (m : Marking) (r : BlobKind × BlobId) : Prop :=
  r ∈ m.set ∨ (r.1 = .treeNode ∧ r.2 ∈ m.treeStack)

/-- A marking, with all that was read on the way to it: what the bytes refer to has been visited, and
every manifest and tree that is marked has been read. -/
structure Marking.Walked (Ans : BlobKind → BlobId → Bytes → Prop) (log : List ((BlobKind × BlobId) × Bytes))
    (m : Marking) : Prop where
  answers : ∀ x ∈ log, Ans x.1.1 x.1.2 x.2
  visited : ∀ x ∈ log, ∀ r ∈ refsOf x.1.1 x.2, m.Has r
  read : ∀ r ∈ m.set, r.1 = .manifest ∨ r.1 = .treeNode → ∃ b, (r, b) ∈ log

omit [PackEnv] in
theorem Marking.has_visit : (m.visit r).Has r' ↔ m.Has r' ∨ r' = r := by
  obtain ⟨kind, id⟩ := r
  obtain ⟨kind', id'⟩ := r'
  cases kind with
  | treeNode =>
    simp only [visit, Has, mem_cons, Prod.mk.injEq]
    tauto
  | dataChunk | manifest | polynomial =>
    simp only [visit, Has, mem_cons]
    tauto

omit [PackEnv] in
theorem Marking.mem_visit_set :
    r' ∈ (m.visit r).set ↔ r' ∈ m.set ∨ (r' = r ∧ r'.1 ≠ .treeNode) := by
  obtain ⟨kind, id⟩ := r
  cases kind with
  | treeNode =>
    simp only [visit]
    refine ⟨.inl, ?_⟩
    rintro (h | ⟨rfl, hne⟩)
    · exact h
    · exact absurd rfl hne
  | dataChunk | manifest | polynomial =>
    simp only [visit, mem_cons]
    refine ⟨?_, ?_⟩
    · rintro (rfl | h)
      · exact .inr ⟨rfl, by simp⟩
      · exact .inl h
    · rintro (h | ⟨rfl, -⟩)
      · exact .inr h
      · exact .inl rfl

omit [PackEnv] in
theorem Marking.has_visitAll {rs : List (BlobKind × BlobId)} :
    (rs.foldl visit m).Has r ↔ m.Has r ∨ r ∈ rs := by
  induction rs generalizing m with
  | nil => simp
  | cons x rs ih =>
    rw [foldl_cons, ih, has_visit, mem_cons]
    tauto

omit [PackEnv] in
theorem Marking.mem_visitAll_set {rs : List (BlobKind × BlobId)} :
    r ∈ (rs.foldl visit m).set ↔ r ∈ m.set ∨ (r ∈ rs ∧ r.1 ≠ .treeNode) := by
  induction rs generalizing m with
  | nil => simp
  | cons x rs ih =>
    rw [foldl_cons, ih, mem_visit_set, mem_cons]
    tauto

section
variable {I : PackStore → Prop} {Ans : BlobKind → BlobId → Bytes → Prop}
  {log : List ((BlobKind × BlobId) × Bytes)}

variable {set : List (BlobKind × BlobId)}

theorem Marking.Walked.skip {treeId : BlobId} {stack : List BlobId}
    (h : Walked Ans log ⟨set, treeId :: stack⟩) (hmem : (.treeNode, treeId) ∈ set) :
    Walked Ans log ⟨set, stack⟩ ∧ ∀ {r}, Has ⟨set, treeId :: stack⟩ r → Has ⟨set, stack⟩ r := by
  have hdrop : ∀ {r}, Has ⟨set, treeId :: stack⟩ r → Has ⟨set, stack⟩ r := by
    rintro r (hr | ⟨hkind, hr⟩)
    · exact .inl hr
    · rcases mem_cons.1 hr with heq | hr
      · exact .inl (by rwa [← heq, ← hkind] at hmem)
      · exact .inr ⟨hkind, hr⟩
  exact ⟨⟨h.answers, fun x hx r hr => hdrop (h.visited x hx r hr), h.read⟩, hdrop⟩

/-- A tree node is marked, and what it refers to is seen or on the stack. -/
theorem Marking.Walked.mark {treeId : BlobId} {stack : List BlobId}
    (h : Walked Ans log ⟨set, treeId :: stack⟩) {bytes : Bytes} {node : TreeNode}
    (hans : Ans .treeNode treeId bytes) (hparse : parseTreeNode bytes = .ok node) :
    Walked Ans (((.treeNode, treeId), bytes) :: log)
        (node.referencedBlobs.foldl visit ⟨(.treeNode, treeId) :: set, stack⟩) ∧
      ∀ {r}, Has ⟨set, treeId :: stack⟩ r →
        Has (node.referencedBlobs.foldl visit ⟨(.treeNode, treeId) :: set, stack⟩) r := by
  have hgrow : ∀ {r}, Has ⟨set, treeId :: stack⟩ r →
      Has (node.referencedBlobs.foldl visit ⟨(.treeNode, treeId) :: set, stack⟩) r := by
    rintro r (hr | ⟨hkind, hr⟩)
    · exact has_visitAll.2 (.inl (.inl (mem_cons_of_mem _ hr)))
    · rcases mem_cons.1 hr with heq | hr
      · exact has_visitAll.2 (.inl (.inl (by rw [← heq, ← hkind]; exact mem_cons_self)))
      · exact has_visitAll.2 (.inl (.inr ⟨hkind, hr⟩))
  refine ⟨⟨forall_mem_cons.2 ⟨hans, h.answers⟩, ?_, ?_⟩, hgrow⟩
  · refine forall_mem_cons.2 ⟨fun r hr => has_visitAll.2 (.inr ?_),
      fun x hx r hr => hgrow (h.visited x hx r hr)⟩
    simpa [refsOf, hparse] using hr
  · intro r hr hkind
    rcases mem_visitAll_set.1 hr with hr | ⟨hr, hne⟩
    · rcases mem_cons.1 hr with rfl | hr
      · exact ⟨bytes, mem_cons_self⟩
      · obtain ⟨b, hb⟩ := h.read r hr hkind
        exact ⟨b, mem_cons_of_mem _ hb⟩
    · rcases TreeNode.referencedBlobs_kind hr with hchunk | htree
      · rw [hchunk] at hkind
        simp at hkind
      · exact absurd htree hne

/-- The walk ends with everything marked that the stack leads to. -/
theorem markTrees_walked (hget : ∀ id, Triple I (getBlob .treeNode id)
      (fun b s => I s ∧ Ans .treeNode id b) (fun _ => I)) {fuel : Nat} (h : m.Walked Ans log) :
    Triple I (markTrees fuel m)
      (fun set s => I s ∧ (∀ r, m.Has r → r ∈ set) ∧ ∃ log, Marking.Walked Ans log ⟨set, []⟩)
      (fun _ => I) := by
  fun_induction markTrees fuel m generalizing log with
  | case1 =>
    refine Triple.pure fun s hs => ⟨hs, ?_, log, h⟩
    rintro r (hr | ⟨-, hr⟩)
    · exact hr
    · cases hr
  | case2 => exact Triple.throw fun s hs => hs
  | case3 fuel set treeId stack hmem ih =>
    obtain ⟨hskip, hdrop⟩ := h.skip hmem
    exact (ih hskip).weaken (fun _ hs => hs)
      (fun set' s hs => ⟨hs.1, fun r hr => hs.2.1 r (hdrop hr), hs.2.2⟩) (fun _ _ hs => hs)
  | case4 fuel set treeId stack hmem ih =>
    refine (hget treeId).bind fun bytes => .of_fact fun hans => ?_
    refine triple_liftAs.bind fun node => .of_fact fun hparse => ?_
    obtain ⟨hmark, hgrow⟩ := h.mark hans hparse
    exact (ih node hmark).weaken (fun _ hs => hs)
      (fun set' s hs => ⟨hs.1, fun r hr => hs.2.1 r (hgrow hr), hs.2.2⟩) (fun _ _ hs => hs)

/-- The manifests are marked, and their root trees are on the stack. -/
theorem markManifests_walked (hget : ∀ id, Triple I (getBlob .manifest id)
      (fun b s => I s ∧ Ans .manifest id b) (fun _ => I)) {ids : List BlobId}
    (h : m.Walked Ans log) :
    Triple I (markManifests ids m)
      (fun m' s => I s ∧ (∃ log, m'.Walked Ans log) ∧ (∀ id ∈ ids, m'.Has (.manifest, id)) ∧
        ∀ r, m.Has r → m'.Has r)
      (fun _ => I) := by
  induction ids generalizing m log with
  | nil => exact Triple.pure fun s hs => ⟨hs, ⟨log, h⟩, by simp, fun r hr => hr⟩
  | cons id ids ih =>
    refine (hget id).bind fun bytes => .of_fact fun hans => ?_
    refine triple_liftAs.bind fun manifest => .of_fact fun hparse => ?_
    have hgrow : ∀ {r}, m.Has r →
        Marking.Has ⟨(.manifest, id) :: m.set, manifest.rootTreeId :: m.treeStack⟩ r := by
      rintro r (hr | ⟨hkind, hr⟩)
      · exact .inl (mem_cons_of_mem _ hr)
      · exact .inr ⟨hkind, mem_cons_of_mem _ hr⟩
    have hwalked : Marking.Walked Ans (((.manifest, id), bytes) :: log)
        ⟨(.manifest, id) :: m.set, manifest.rootTreeId :: m.treeStack⟩ := by
      refine ⟨forall_mem_cons.2 ⟨hans, h.answers⟩, ?_, ?_⟩
      · refine forall_mem_cons.2 ⟨fun r hr => ?_, fun x hx r hr => hgrow (h.visited x hx r hr)⟩
        obtain rfl : r = (.treeNode, manifest.rootTreeId) := by simpa [refsOf, hparse] using hr
        exact .inr ⟨rfl, mem_cons_self⟩
      · intro r hr hkind
        rcases mem_cons.1 hr with rfl | hr
        · exact ⟨bytes, mem_cons_self⟩
        · obtain ⟨b, hb⟩ := h.read r hr hkind
          exact ⟨b, mem_cons_of_mem _ hb⟩
    refine (ih hwalked).weaken (fun _ hs => hs) (fun m' s hs => ⟨hs.1, hs.2.1, ?_, ?_⟩) (fun _ _ hs => hs)
    · intro id' hid'
      rcases mem_cons.1 hid' with rfl | hid'
      · exact hs.2.2.2 _ (.inl mem_cons_self)
      · exact hs.2.2.1 id' hid'
    · exact fun r hr => hs.2.2.2 r (hgrow hr)

theorem collectReferenced_walked (hget : ∀ kind id, Triple I (getBlob kind id)
      (fun b s => I s ∧ Ans kind id b) (fun _ => I)) (fuel : Nat) (roots : List BlobId) :
    Triple I (collectReferenced fuel roots)
      (fun set s => I s ∧ (∀ m ∈ roots, (.manifest, m) ∈ set) ∧ ∃ log, Marking.Walked Ans log ⟨set, []⟩)
      (fun _ => I) := by
  have hempty : Marking.Walked Ans [] ⟨[], []⟩ := ⟨by simp, by simp, by simp⟩
  refine (markManifests_walked (hget .manifest) hempty).bind fun m => .of_fact fun hm => ?_
  obtain ⟨⟨log, hwalked⟩, hroots, -⟩ := hm
  exact (markTrees_walked (hget .treeNode) hwalked).weaken (fun _ hs => hs)
    (fun set s hs => ⟨hs.1, fun root hroot => hs.2.1 _ (hroots root hroot), hs.2.2⟩) (fun _ _ hs => hs)

theorem Marking.Walked.leadsTo (h : Walked Ans log ⟨set, []⟩) {read : BlobKind → BlobId → Option Bytes}
    (hread : ∀ r b b', (r, b) ∈ log → read r.1 r.2 = some b' → (r, b') ∈ log) {m : BlobId}
    (hm : (.manifest, m) ∈ set) (hleads : LeadsTo read m r) : r ∈ set := by
  -- along the path from the root every blob is in the set, which is closed
  induction hleads with
  | refl => exact hm
  | @tail a c _ hrefers ih =>
    obtain ⟨b', hb', hc⟩ := mem_blobRefs.1 hrefers
    have hkind : a.1 = .manifest ∨ a.1 = .treeNode := by
      obtain ⟨kind, id⟩ := a
      cases kind with
      | manifest => exact .inl rfl
      | treeNode => exact .inr rfl
      | dataChunk | polynomial => cases hc
    obtain ⟨b, hb⟩ := h.read a ih hkind
    rcases h.visited _ (hread a b b' hb hb') c hc with hset | ⟨-, hstack⟩
    · exact hset
    · cases hstack

end

theorem collectReferenced_clean (s₀ : PackStore) (fuel : Nat) (roots : List BlobId) :
    Triple (fun s => s₀.Clean s ∧ s.disk.packs = s₀.disk.packs) (collectReferenced fuel roots)
      (fun set s => (s₀.Clean s ∧ s.disk.packs = s₀.disk.packs) ∧
        ∀ m ∈ roots, ∀ r, LeadsTo s₀.fileBytes m r → r ∈ set)
      (fun _ s => s₀.Clean s ∧ s.disk.packs = s₀.disk.packs) := by
  refine (collectReferenced_walked (getBlob_clean s₀) fuel roots).weaken (fun _ hs => hs) ?_ (fun _ _ hs => hs)
  rintro set s ⟨hs, hroots, log, hwalked⟩
  refine ⟨hs, fun m hm r hleads => hwalked.leadsTo (fun r b b' hb hb' => ?_) (hroots m hm) hleads⟩
  have hans := hwalked.answers _ hb
  rw [hb'] at hans
  cases hans
  exact hb

/-! ## Sweeping -/

/-- The file of a pack as the store found it has this footer. -/
def PackStore.Lists (s₀ : PackStore) (pack : PackId) (entries : List FooterEntry) : Prop :=
  ∃ file ctx, s₀.disk.packs.lookup pack = some file ∧ openPack file pack s₀.fmk = .ok ctx ∧
    ctx.entries = entries

/-- Only packs without a reachable blob have gone. -/
structure PackStore.Swept (s₀ : PackStore) (reachable : List (BlobKind × BlobId)) (s : PackStore) : Prop where
  clean : s₀.Clean s
  packs : ∀ p, s.disk.packs.lookup p = s₀.disk.packs.lookup p ∨
    (s.disk.packs.lookup p = none ∧ ∃ entries, s₀.Lists p entries ∧ packIsLive reachable entries = false)

namespace PackStore.Swept

variable {s₀ s : PackStore} {reachable : List (BlobKind × BlobId)}

/-- Listing the blobs of a pack reads its footer. -/
theorem packBlobList (pack : PackId) :
    Triple (s₀.Swept reachable) (packBlobList pack)
      (fun r s => s₀.Swept reachable s ∧ ∀ len entries, r = .ok (len, entries) → s₀.Lists pack entries)
      (fun _ => s₀.Swept reachable) := by
  refine Triple.get_bind fun s hs => ?_
  cases hc : s.cache.find pack with
  | some vp =>
    have hid : vp.packId = pack := by simpa using find?_some hc
    have hvp := hs.clean.cache vp (mem_of_find?_eq_some hc)
    refine Triple.bind (Q := fun _ => s₀.Swept reachable) (Triple.modify ?_) fun _ => ?_
    · rintro _ rfl
      exact ⟨hs.clean.promote hvp, hs.packs⟩
    · refine Triple.pure fun s' hs' => ⟨hs', fun len entries heq => ?_⟩
      cases heq
      exact ⟨vp.bytes, vp.ctx, hid ▸ hvp.1, hid ▸ hvp.2, rfl⟩
  | none =>
    cases hl : s.disk.packs.lookup pack with
    | none =>
      rintro _ rfl
      exact ⟨hs, fun _ _ heq => by cases heq⟩
    | some file =>
      rintro _ rfl
      refine ⟨hs, fun len entries heq => ?_⟩
      have hfile : s₀.disk.packs.lookup pack = some file := by
        rcases hs.packs pack with hsame | ⟨hnone, -⟩
        · rw [← hsame, hl]
        · rw [hl] at hnone
          cases hnone
      rw [hs.clean.fmk] at heq
      obtain ⟨ctx, hopen, heq⟩ := bind_eq_ok.1 heq
      cases heq
      exact ⟨file, ctx, hfile, hopen, rfl⟩

theorem deletePack (h : s₀.Swept reachable s) {pack : PackId} {entries : List FooterEntry}
    (hlists : s₀.Lists pack entries) (hdead : packIsLive reachable entries = false) :
    s₀.Swept reachable { s with
      disk := { s.disk with packs := s.disk.packs.erase pack },
      cache := PackCache.remove s.cache pack } where
  clean := { h.clean with
    cache := fun vp hvp => h.clean.cache vp (mem_of_mem_filter hvp) }
  packs p := by
    by_cases hp : p = pack
    · subst hp
      exact .inr ⟨AList.lookup_erase _ _, entries, hlists, hdead⟩
    · rw [show (s.disk.packs.erase pack).lookup p = s.disk.packs.lookup p from AList.lookup_erase_ne hp]
      exact h.packs p

theorem keeps_sweepPack (grace : Nat) (now : Int) (sw : Sweep) (pack : PackId) :
    Keeps (s₀.Swept reachable) (sweepPack reachable grace now sw pack) := by
  refine (packBlobList pack).bind fun listed => .of_fact fun hlisted => ?_
  cases listed with
  | error => exact Keeps.pure _
  | ok found =>
    obtain ⟨len, entries⟩ := found
    dsimp only
    by_cases hlive : packIsLive reachable entries
    · rw [if_pos hlive]
      exact Keeps.pure _
    rw [if_neg hlive]
    split
    · refine Keeps.bind (Triple.modify fun s hs => ?_) fun _ => Keeps.pure _
      exact hs.deletePack (hlisted len entries rfl) (Bool.eq_false_iff.2 hlive)
    · exact Keeps.pure _

/-- A pack that was deleted gave nothing for a reachable blob. -/
theorem readFiles_eq (h : s₀.Swept reachable s) (hmem : (kind, id) ∈ reachable) (es : List IndexEntry) :
    readFiles s.disk.packs s₀.fmk kind id es = readFiles s₀.disk.packs s₀.fmk kind id es := by
  induction es with
  | nil => rfl
  | cons e es ih =>
    unfold readFiles
    rcases h.packs e.pack with hsame | ⟨hnone, entries, ⟨file, ctx, hfile, hopen, rfl⟩, hdead⟩
    · rw [hsame, ih]
    have hnot : ctx.entries.find? (fun e => e.kind = kind ∧ e.id = id) = none := by
      rw [find?_eq_none]
      intro x hx heq
      obtain ⟨rfl, rfl⟩ : x.kind = kind ∧ x.id = id := by simpa using heq
      have : packIsLive reachable ctx.entries = true :=
        any_eq_true.2 ⟨x, hx, by simp [hmem]⟩
      rw [hdead] at this
      cases this
    have hread : (openPack file e.pack s₀.fmk).bind (fun ctx =>
        readBlobFromCtx file ctx kind id (e.plainOff, e.plainLen)) = .error .notFound := by
      rw [hopen]
      change readBlobFromCtx file ctx kind id (e.plainOff, e.plainLen) = _
      unfold readBlobFromCtx
      rw [hnot]
    rw [hnone, hfile]
    dsimp only
    rw [hread, ih]
    rfl

end PackStore.Swept

/-- The index is as before, and what the roots lead to is read from the files as before. -/
def PackStore.Kept (s₀ : PackStore) (roots : List BlobId) (s : PackStore) : Prop :=
  s.disk.index = s₀.disk.index ∧ ∀ m ∈ roots, ∀ kind id, LeadsTo s₀.fileBytes m (kind, id) → ∀ es,
    readFiles s.disk.packs s₀.fmk kind id es = readFiles s₀.disk.packs s₀.fmk kind id es

/-- A collection loses nothing that its roots lead to, whether it succeeds or not. -/
theorem collectGarbage_clean (s₀ : PackStore) (fuel : Nat) (roots : List BlobId) (grace : Nat) (now : Int) :
    Triple (fun s => s₀.Clean s ∧ s.disk.packs = s₀.disk.packs) (collectGarbage fuel roots grace now)
      (fun _ => s₀.Kept roots) (fun _ => s₀.Kept roots) := by
  have hunswept : ∀ _ : BlobError, ∀ s, s₀.Clean s ∧ s.disk.packs = s₀.disk.packs → s₀.Kept roots s :=
    fun _ s hs => ⟨hs.1.index, fun _ _ _ _ _ _ => by rw [hs.2]⟩
  have hmarked := (collectReferenced_clean s₀ fuel roots).weaken (fun _ hs => hs) (fun _ _ hs => hs)
    hunswept
  refine hmarked.bind fun reachable => .of_fact fun hreach => ?_
  have hkept : ∀ s, s₀.Swept reachable s → s₀.Kept roots s := fun s hs =>
    ⟨hs.clean.index, fun m hm kind id hleads es => hs.readFiles_eq (hreach m hm _ hleads) es⟩
  refine Triple.weaken (?_ : Keeps (s₀.Swept reachable) _) (fun s hs => ⟨hs.1, fun p => .inl (by rw [hs.2])⟩)
    (fun _ => hkept) fun _ => hkept
  refine .get_bind fun s => .bind ?_ fun sw => ?_
  · exact .foldlM fun sw pack _ => PackStore.Swept.keeps_sweepPack grace now sw pack
  dsimp only
  split
  · exact .bind (Triple.modify fun s hs => ⟨{ hs.clean with }, hs.packs⟩) fun _ => .pure _
  · exact .pure _

/-! ## The files of a folder -/

/-- What a store opened on these files reads for a blob. -/
def PackDisk.read (d : PackDisk) (fmk : ByteArr 32) (kind : BlobKind) (id : BlobId) : Option Bytes :=
  match openStore d fmk 0 with
  | .error _ => none
  | .ok s =>
    match getBlob kind id s with
    | .ok b _ => some b
    | .error _ _ => none

def PackDisk.collect (d : PackDisk) (fmk : ByteArr 32) (draw fuel : Nat) (roots : List BlobId)
    (grace : Nat) (now : Int) : PackDisk :=
  match openStore d fmk draw with
  | .error _ => d
  | .ok s => ((StoreOp.collectGarbage fuel roots grace now).after s).disk

theorem PackStore.Clean.of_fresh (d : PackDisk) (fmk : ByteArr 32) (draw : Nat) (locations : LocationTable) :
    PackStore.Clean (.fresh d fmk draw locations) (.fresh d fmk draw locations) where
  fmk := rfl
  staging := rfl
  locations := rfl
  index := rfl
  dangling := by simp [fresh]
  cache := by simp [fresh]

/-- A freshly opened store reads from the files that the index names. -/
theorem PackDisk.read_eq (d : PackDisk) (fmk : ByteArr 32) (kind : BlobKind) (id : BlobId) :
    d.read fmk kind id = match loadLocations fmk (sortIndexFiles d.index) with
      | .error _ => none
      | .ok locations => readFiles d.packs fmk kind id (locations.candidates kind id) := by
  unfold PackDisk.read openStore
  cases loadLocations fmk (sortIndexFiles d.index) with
  | error => rfl
  | ok locations =>
    have hclean := PackStore.Clean.of_fresh d fmk 0 locations
    change (match getBlob kind id (.fresh d fmk 0 locations) with
      | .ok b _ => some b
      | .error _ _ => none) = (PackStore.fresh d fmk 0 locations).fileBytes kind id
    cases hrun : getBlob kind id (.fresh d fmk 0 locations) with
    | ok b s' =>
      exact ((hclean.gives_iff rfl).1 ((run_getBlob_iff _).1 ⟨s', hrun⟩)).symm
    | error =>
      symm
      rw [Option.eq_none_iff_forall_ne_some]
      intro b hb
      obtain ⟨s'', hok⟩ := (run_getBlob_iff _).2 ((hclean.gives_iff rfl).2 hb)
      rw [hrun] at hok
      cases hok

/-- What a root leads to is read after a collection as before it. -/
theorem PackDisk.read_collect (d : PackDisk) (fmk : ByteArr 32) (draw fuel : Nat) {roots : List BlobId}
    (grace : Nat) (now : Int) {m : BlobId} (hm : m ∈ roots)
    (hleads : LeadsTo (d.read fmk) m (kind, id)) :
    (d.collect fmk draw fuel roots grace now).read fmk kind id = d.read fmk kind id := by
  unfold PackDisk.collect openStore
  cases hload : loadLocations fmk (sortIndexFiles d.index) with
  | error => rfl
  | ok locations =>
    have hread : d.read fmk = (PackStore.fresh d fmk draw locations).fileBytes := by
      funext kind id
      rw [PackDisk.read_eq, hload]
      rfl
    have hcollect : Triple (fun s => (PackStore.fresh d fmk draw locations).Clean s ∧ s.disk.packs = d.packs)
        (StoreOp.collectGarbage fuel roots grace now).run
        (fun _ => (PackStore.fresh d fmk draw locations).Kept roots)
        (fun _ => (PackStore.fresh d fmk draw locations).Kept roots) :=
      (collectGarbage_clean _ fuel roots grace now).bind fun _ => Keeps.pure _
    obtain ⟨hindex, hkept⟩ := StoreOp.after_of_triple hcollect
      ⟨PackStore.Clean.of_fresh d fmk draw locations, rfl⟩
    rw [hread] at hleads
    rw [PackDisk.read_eq, PackDisk.read_eq]
    change (match loadLocations fmk (sortIndexFiles ((StoreOp.collectGarbage fuel roots grace now).after
      (.fresh d fmk draw locations)).disk.index) with
      | .error _ => none
      | .ok locations => _) = _
    rw [hindex]
    change (match loadLocations fmk (sortIndexFiles d.index) with
      | .error _ => none
      | .ok locations => _) = _
    rw [hload]
    exact hkept m hm kind id hleads _

end

end Ferry
