import Ferry.Lib.Search
import Ferry.Session.Answers
import Ferry.Sync.ChunkLists

/-! # Pulling a tree level by level

The tree fetch of `pull_content` asks for the nodes of a level, reads them and
goes on with the directories it has not asked for before. The server has every
node, so each level comes in at the first attempt and one round is one level. The
walk gives up after `budget` rounds.
-/

namespace Ferry

open Lib Session Net List

variable {n : Nat}

section
variable [SessionEnv] {α β : Type}

/-! ## Fetching what the server has -/

omit [SessionEnv] in
theorem chunksOf_flatten {γ : Type} (hn : 0 < n) (l : List γ) : (chunksOf n l).flatten = l := by
  have hpieces : ∀ k, (((List.range k).map fun i => (l.drop (i * n)).take n)).flatten = l.take (k * n) := by
    intro k
    induction k with
    | zero => simp
    | succ k ih =>
      rw [range_succ, map_append, flatten_append, ih, Nat.succ_mul, take_add]
      simp
  unfold chunksOf
  rw [hpieces, take_of_length_le]
  have hdiv := Nat.div_add_mod (l.length + n - 1) n
  have hmod := Nat.mod_lt (l.length + n - 1) hn
  rw [Nat.mul_comm]
  omega

/-- The store can send the blob: it has it, and a batch can carry it. -/
def Store.Carries (st : Store) (kind : BlobKind) (id : BlobId) : Prop :=
  ∃ b, st.get kind id = .ok b ∧ b ≠ []

variable {st : Store} {node : TreeNode} {enqueued : List BlobId} {id : BlobId} {kind : BlobKind}

theorem answers_of_carries {ids : List BlobId} (h : ∀ id ∈ ids, st.Carries kind id) :
    ((ids.map fun id => (kind, id)).filterMap st.answer).map (·.2.1) = ids ∧
      ∀ x ∈ (ids.map fun id => (kind, id)).filterMap st.answer,
        x.1 = kind ∧ st.get x.1 x.2.1 = .ok x.2.2 ∧ x.2.2 ≠ [] := by
  induction ids with
  | nil => simp
  | cons id ids ih =>
    obtain ⟨b, hb, hne⟩ := h id (by simp)
    have hanswer : st.answer (kind, id) = some (kind, id, b) := by
      simp [Store.answer, hb, Except.toOption]
    obtain ⟨hids, hall⟩ := ih fun id' hid' => h id' (by simp [hid'])
    rw [map_cons, filterMap_cons_some hanswer]
    refine ⟨by rw [map_cons, hids], fun x hx => ?_⟩
    rcases mem_cons.1 hx with rfl | hx
    · exact ⟨rfl, hb, hne⟩
    · exact hall x hx

theorem Store.Grown.agrees {srv st' : Store} (h : st.Grown srv st') (hagrees : st.Agrees srv) :
    st'.Agrees srv := by
  intro kind id b b' hb hb'
  rcases h.source kind id b hb with hst | hsrv
  · exact hagrees kind id b b' hst hb'
  · exact Except.ok.inj (hsrv.symm.trans hb')

variable {ex srv : Exchange} {m : Net Frame SessionError α Unit}

/-- Batches of these blobs stay within the limit of the link. -/
def Store.Fits (st : Store) (maxFrame : Nat) (kind : BlobKind) (ids : BlobId → Prop) : Prop :=
  ∀ (xs : ItemBatch) x, (∀ y ∈ xs ++ [x], st.Has y ∧ y.1 = kind ∧ ids y.2.1) → xs.length < maxBatchItems →
    ItemBatch.content xs < batchFlushBytes → ItemBatch.payloadLen (xs ++ [x]) + 23 ≤ maxFrame

theorem Store.Fits.short {ids : BlobId → Prop} {maxFrame : Nat} (h : st.Fits maxFrame kind ids) {group : List BlobId}
    (hgroup : ∀ id ∈ group, ids id) {b : ItemBatch} (hb : b ∈ itemBatches st (group.map fun id => (kind, id)) [] 0) :
    ItemBatch.payloadLen b + 23 ≤ maxFrame := by
  obtain ⟨xs, x, rfl, hlen, hsize⟩ := @itemBatches_cut _ st (group.map fun id => (kind, id)) [] (by decide) (by decide)
    b hb
  refine h xs x (fun y hy => ?_) hlen hsize
  have hmem : y ∈ (group.map fun id => (kind, id)).filterMap st.answer := by
    rw [← nil_append (filterMap ..), ← itemBatches_flatten st _ [] 0]
    exact mem_flatten.2 ⟨_, hb, hy⟩
  obtain ⟨key, hkey, hanswer⟩ := mem_filterMap.1 hmem
  obtain ⟨id, hid, rfl⟩ := mem_map.1 hkey
  obtain ⟨heq, hhas⟩ := Store.answer_eq_some.1 hanswer
  obtain ⟨hkind, hid'⟩ := Prod.mk.inj heq
  exact ⟨hhas, hkind.symm, hid' ▸ hgroup id hid⟩

/-- The groups of a fetch against an honest server, by induction. -/
theorem fetchGroups_runs (hf : ex.folderId = srv.folderId) (hmax : 27 ≤ ex.maxFrame) {ids : BlobId → Prop}
    (hfits : srv.store.Fits ex.maxFrame kind ids) {groups : List (List BlobId)} (hne : ∀ g ∈ groups, g ≠ [])
    (hcarries : ∀ id ∈ groups.flatten, srv.store.Carries kind id ∧ ids id) (got : List BlobId) (st : Store) :
    ∃ st', st.Took srv.store kind groups.flatten st' ∧
      ∀ (k : List BlobId × Store → Session α) (m : Net Frame SessionError α Unit),
        Runs ⟨k (got ++ groups.flatten, st'), servePeerStage srv, [], []⟩ m →
        Runs ⟨fetchGroups (askItems ex kind) (readItemBatches ex.maxFrame kind) groups got st >>= k,
          servePeerStage srv, [], []⟩ m := by
  induction groups generalizing got st with
  | nil => exact ⟨st, ⟨.refl _ _, by simp⟩, fun k m h => by simpa [fetchGroups] using h⟩
  | cons group groups ih =>
    simp only [flatten_cons, mem_append] at hcarries
    obtain ⟨hids, hall⟩ := answers_of_carries fun id hid => (hcarries id (.inl hid)).1
    obtain ⟨st₁, htake, htook⟩ := takeItems_took hall [] st
    rw [hids] at htake
    rw [hids] at htook
    obtain ⟨st', htook', hruns⟩ := ih (fun g hg => hne g (by simp [hg]))
      (fun id hid => hcarries id (.inr hid)) (got ++ group) st₁
    refine ⟨st', htook.trans htook', fun k m h => ?_⟩
    have hflat := itemBatches_flatten srv.store (group.map fun id => (kind, id)) [] 0
    rw [nil_append] at hflat
    rw [fetchGroups, bind_assoc]
    apply Runs.send_left
    apply serve_items_runs hf (by simpa using hne group (by simp))
    rw [bind_assoc]
    apply readBatches_runs hmax (itemBatches_ne_nil fun _ => rfl)
      (fun b hb => hfits.short (fun id hid => (hcarries id (.inl hid)).2) hb) ?_ (hflat ▸ htake)
    · apply hruns
      rwa [append_assoc]
    · intro b hb x hx
      exact (hall x (hflat ▸ mem_flatten.2 ⟨b, hb, hx⟩)).2.2

/-- A fetch from an honest server brings what was wanted. -/
theorem fetchBlobs_runs (hf : ex.folderId = srv.folderId) (hmax : 27 ≤ ex.maxFrame) {ids : BlobId → Prop}
    (hfits : srv.store.Fits ex.maxFrame kind ids) {want : List BlobId}
    (hcarries : ∀ id ∈ want, srv.store.Carries kind id ∧ ids id) (st : Store) :
    ∃ st', st.Took srv.store kind want st' ∧ ∀ (k : Store → Session α) (m : Net Frame SessionError α Unit),
        Runs ⟨k st', servePeerStage srv, [], []⟩ m →
        Runs ⟨fetchBlobs ex kind want st >>= k, servePeerStage srv, [], []⟩ m := by
  have hdone : ∀ rounds (st : Store), fetchRounds (askItems ex kind) (readItemBatches ex.maxFrame kind)
      (fun n _ => .wire (.missingItems n)) rounds [] st = pure st := by
    intro rounds st
    cases rounds <;> rfl
  by_cases hwant : want = []
  · subst hwant
    refine ⟨st, ⟨.refl _ _, by simp⟩, fun k m h => ?_⟩
    rwa [fetchBlobs]
  have hflat := chunksOf_flatten (n := maxRequestItems) (by decide) want
  obtain ⟨st', htook, hruns⟩ := fetchGroups_runs hf hmax hfits (fun g hg => chunksOf_ne_nil (by decide) hg)
    (fun id hid => hcarries id (hflat ▸ hid)) [] st
  rw [hflat] at htook
  refine ⟨st', htook, fun k m h => ?_⟩
  rw [fetchBlobs, fetchRounds, if_neg hwant, bind_assoc]
  apply hruns
  have hrest : want.filter (· ∉ [] ++ (chunksOf maxRequestItems want).flatten) = [] := by
    rw [hflat]
    simp
  dsimp only
  rw [hrest, hdone]
  exact h

/-! ## The walk -/

theorem get_of_loadNode (h : loadNode st id = .ok node) :
    ∃ b, st.get .treeNode id = .ok b ∧ parseTreeNode b = .ok node := by
  unfold loadNode at h
  split at h
  · cases h
  rename_i bytes hget
  split at h
  · cases h
  · rename_i node' hparse
    cases h
    exact ⟨bytes, hget, hparse⟩

theorem carries_of_loadNode (h : loadNode st id = .ok node) : st.Carries .treeNode id := by
  obtain ⟨b, hget, hparse⟩ := get_of_loadNode h
  refine ⟨b, hget, ?_⟩
  rintro rfl
  cases hparse

/-- One entry of a node that was read: a directory that is not known yet is put on the queue. -/
def enqueueChild (s : List BlobId × List BlobId) (e : TreeEntry) : List BlobId × List BlobId :=
  match e.payload with
  | .dir child => if child ∈ s.2 then s else (s.1 ++ [child], child :: s.2)
  | _ => s

omit [SessionEnv] in
theorem mem_enqueueChild {s : List BlobId × List BlobId} {e : TreeEntry} {a : BlobId} :
    (a ∈ (enqueueChild s e).2 ↔ a ∈ s.2 ∨ e.payload = .dir a) ∧
      (a ∈ (enqueueChild s e).1 ↔ a ∈ s.1 ∨ (a ∉ s.2 ∧ e.payload = .dir a)) := by
  unfold enqueueChild
  cases e.payload with
  | file | symlink => simp
  | dir child =>
    dsimp only
    by_cases hknown : child ∈ s.2
    · rw [if_pos hknown]
      constructor <;> grind
    · rw [if_neg hknown]
      constructor <;> grind

omit [SessionEnv] in
theorem mem_enqueueChildren {entries : List TreeEntry} {s : List BlobId × List BlobId} {a : BlobId} :
    (a ∈ (entries.foldl enqueueChild s).2 ↔ a ∈ s.2 ∨ ∃ e ∈ entries, e.payload = .dir a) ∧
      (a ∈ (entries.foldl enqueueChild s).1 ↔ a ∈ s.1 ∨ (a ∉ s.2 ∧ ∃ e ∈ entries, e.payload = .dir a)) := by
  induction entries generalizing s with
  | nil => simp
  | cons e entries ih =>
    obtain ⟨hmet, hqueue⟩ := @ih (enqueueChild s e)
    rw [foldl_cons, hmet, hqueue, mem_enqueueChild.1, mem_enqueueChild.2]
    constructor <;> grind

theorem childTrees_eq (h : loadNode st id = .ok node) (s : List BlobId × List BlobId) :
    childTrees st s id = .ok (node.entries.foldl enqueueChild s) := by
  obtain ⟨b, hget, hparse⟩ := get_of_loadNode h
  simp only [childTrees, hget, hparse]
  rfl

/-- The children of a level that are new go to the next one. -/
theorem childTrees_mem {ids : List BlobId} (hload : ∀ id ∈ ids, ∃ node, loadNode st id = .ok node)
    (s : List BlobId × List BlobId) :
    ∃ s', ids.foldlM (childTrees st) s = .ok s' ∧ ∀ a, (a ∈ s'.2 ↔ a ∈ s.2 ∨ ∃ id ∈ ids, st.Child id a) ∧
        (a ∈ s'.1 ↔ a ∈ s.1 ∨ (a ∉ s.2 ∧ ∃ id ∈ ids, st.Child id a)) := by
  induction ids generalizing s with
  | nil => exact ⟨s, rfl, by simp⟩
  | cons id ids ih =>
    obtain ⟨node, hnode⟩ := hload id (by simp)
    obtain ⟨s', hfold, hmem⟩ := ih (fun id' hid' => hload id' (by simp [hid']))
      (node.entries.foldl enqueueChild s)
    refine ⟨s', ?_, fun a => ?_⟩
    · rw [foldlM_cons, childTrees_eq hnode]
      exact hfold
    · have hchild : st.Child id a ↔ ∃ e ∈ node.entries, e.payload = .dir a := by
        rw [← TreeNode.mem_children]
        refine ⟨?_, fun h => ⟨node, hnode, h⟩⟩
        rintro ⟨node', hnode', h⟩
        rw [hnode] at hnode'
        cases hnode'
        exact h
      obtain ⟨hmet, hqueue⟩ := hmem a
      rw [hmet, hqueue, mem_enqueueChildren.1, mem_enqueueChildren.2]
      constructor <;> grind

/-- Of these blobs, what a pack is said to hold can be read. -/
def Store.WholeIn (st : Store) (kind : BlobKind) (ids : BlobId → Prop) : Prop :=
  ∀ id, ids id → st.present kind id → ∃ b, st.get kind id = .ok b

theorem Store.WholeIn.grown {srv st' : Store} {ids : BlobId → Prop} (h : st.WholeIn kind ids)
    (hgrown : st.Grown srv st') : st'.WholeIn kind ids := by
  intro id hid hthere
  rcases hgrown.whole kind id hthere with hold | hok
  · obtain ⟨b, hb⟩ := h id hid hold
    exact ⟨b, hgrown.keeps kind id b hb⟩
  · cases hget : st'.get kind id with
    | ok b => exact ⟨b, rfl⟩
    | error =>
      rw [hget] at hok
      cases hok

/-- The walk after `n` rounds: every node that is not on the queue has come in. -/
structure Pulling (srv : Store) (root : BlobId) (n : Nat) (queue enqueued : List BlobId) (st : Store) :
    Prop where
  levelled : Levelled srv.Child root n (· ∈ enqueued) (· ∈ queue)
  agrees : st.Agrees srv
  whole : st.WholeIn .treeNode (Relation.ReflTransGen srv.Child root)
  fetched : ∀ a ∈ enqueued, a ∉ queue → ∃ b, st.get .treeNode a = .ok b

def Store.HoldsTree (st : Store) (root : BlobId) : Prop :=
  ∀ t, Relation.ReflTransGen st.Child root t → ∃ node, loadNode st t = .ok node

theorem loadNode_of_agrees {srv : Store} (hagrees : st.Agrees srv)
    (hsrv : loadNode srv id = .ok node) {b : Bytes} (hst : st.get .treeNode id = .ok b) :
    loadNode st id = .ok node := by
  obtain ⟨b', hget, hparse⟩ := get_of_loadNode hsrv
  rw [hagrees _ _ _ _ hst hget] at hst
  simp only [loadNode, hst, hparse]

/-- The step lemma: a level has come, and the queue is the next one. -/
theorem Pulling.step {srv st' : Store} {root : BlobId} {queue : List BlobId}
    (h : Pulling srv root n queue enqueued st) (hheld : srv.HoldsTree root)
    (htook : st.Took srv .treeNode queue st') :
    ∃ s', queue.foldlM (childTrees st') ([], enqueued) = .ok s' ∧ Pulling srv root (n + 1) s'.1 s'.2 st' := by
  have hagrees := htook.grown.agrees h.agrees
  have hwhole := h.whole.grown htook.grown
  have hthere : ∀ id ∈ queue, ∃ b, st'.get .treeNode id = .ok b := fun id hid =>
    hwhole id (h.levelled.fresh_iff.1 hid).1.reached (htook.there id hid)
  have hload : ∀ id ∈ queue, ∃ node, loadNode srv id = .ok node ∧ loadNode st' id = .ok node := by
    intro id hid
    obtain ⟨node, hnode⟩ := hheld id (h.levelled.fresh_iff.1 hid).1.reached
    obtain ⟨b, hb⟩ := hthere id hid
    exact ⟨node, hnode, loadNode_of_agrees hagrees hnode hb⟩
  have hchild : ∀ id ∈ queue, ∀ a, st'.Child id a ↔ srv.Child id a := by
    intro id hid a
    obtain ⟨node, hsrv, hst'⟩ := hload id hid
    simp only [Store.Child, hsrv, hst']
  obtain ⟨s', hfold, hmem⟩ := childTrees_mem (fun id hid => (hload id hid).imp fun _ => And.right)
    ([], enqueued)
  have hmet : ∀ {a}, a ∈ s'.2 ↔ a ∈ enqueued ∨ ∃ b, b ∈ queue ∧ srv.Child b a := by
    intro a
    rw [(hmem a).1]
    refine or_congr_right (exists_congr fun b => and_congr_right fun hb => hchild b hb a)
  have hfresh : ∀ {a}, a ∈ s'.1 ↔ a ∈ s'.2 ∧ a ∉ enqueued := by
    intro a
    rw [(hmem a).1, (hmem a).2]
    tauto
  refine ⟨s', hfold, h.levelled.step hmet hfresh, hagrees, hwhole, fun a ha hnot => ?_⟩
  have hold : a ∈ enqueued := by
    by_contra hnew
    exact hnot (hfresh.2 ⟨ha, hnew⟩)
  by_cases hqueue : a ∈ queue
  · exact hthere a hqueue
  · obtain ⟨b, hb⟩ := h.fetched a hold hqueue
    exact ⟨b, htook.grown.keeps _ _ _ hb⟩

theorem Pulling.done {srv : Store} {root : BlobId}
    (h : Pulling srv root n [] enqueued st) (hheld : srv.HoldsTree root) :
    ∀ t, Relation.ReflTransGen srv.Child root t → st.get .treeNode t = srv.get .treeNode t := by
  intro t ht
  obtain ⟨b, hb⟩ := h.fetched t (h.levelled.done (by simp) ht) (by simp)
  obtain ⟨node, hnode⟩ := hheld t ht
  obtain ⟨b', hb', -⟩ := get_of_loadNode hnode
  rw [hb, hb', h.agrees _ _ _ _ hb hb']

/-- The run lemma, by induction on the rounds that are left. -/
theorem fetchTrees_runs {root : BlobId} (hf : ex.folderId = srv.folderId) (hmax : 27 ≤ ex.maxFrame)
    (hfits : srv.store.Fits ex.maxFrame .treeNode (Relation.ReflTransGen srv.store.Child root))
    (hheld : srv.store.HoldsTree root) (rounds : Nat) {queue : List BlobId}
    (h : Pulling srv.store root n queue enqueued st) :
    ((∀ a, ¬ AtLevel srv.store.Child root (n + rounds) a) →
      ∃ st', Runs ⟨fetchTrees ex rounds queue enqueued st, servePeerStage srv, [], []⟩
          ⟨pure st', servePeerStage srv, [], []⟩ ∧
        ∀ t, Relation.ReflTransGen srv.store.Child root t → st'.get .treeNode t = srv.store.get .treeNode t) ∧
    ((∃ a, AtLevel srv.store.Child root (n + rounds) a) →
      ∃ missing, Runs ⟨fetchTrees ex rounds queue enqueued st, servePeerStage srv, [], []⟩
          ⟨Dialogue.fail (.wire (.missingItems missing)), servePeerStage srv, [], []⟩) := by
  -- The queue holds the nodes of level `n`, so it is empty when the levels have ended.
  induction rounds generalizing n queue enqueued st with
  | zero =>
    cases queue with
    | nil =>
      refine ⟨fun _ => ⟨st, .refl, h.done hheld⟩, ?_⟩
      rintro ⟨a, ha⟩
      cases h.levelled.fresh_iff.2 ha
    | cons id =>
      refine ⟨fun hnone => ?_, fun _ => ⟨_, .refl⟩⟩
      exact absurd (h.levelled.fresh_iff.1 (mem_cons_self ..)) (hnone id)
  | succ rounds ih =>
    cases queue with
    | nil =>
      refine ⟨fun _ => ⟨st, .refl, h.done hheld⟩, ?_⟩
      rintro ⟨a, ha⟩
      obtain ⟨b, hb⟩ := ha.exists_of_le (Nat.le_add_right n (rounds + 1))
      cases h.levelled.fresh_iff.2 hb
    | cons id queue =>
      have hcarries : ∀ a ∈ id :: queue, srv.store.Carries .treeNode a ∧
          Relation.ReflTransGen srv.store.Child root a := by
        intro a ha
        have hreached := (h.levelled.fresh_iff.1 ha).1.reached
        obtain ⟨node, hnode⟩ := hheld a hreached
        exact ⟨carries_of_loadNode hnode, hreached⟩
      obtain ⟨st₁, htook, hruns⟩ := fetchBlobs_runs hf hmax hfits hcarries st
      obtain ⟨s', hfold, hnext⟩ := h.step hheld htook
      have hround : ∀ m, Runs ⟨fetchTrees ex rounds s'.1 s'.2 st₁, servePeerStage srv, [], []⟩ m →
          Runs ⟨fetchTrees ex (rounds + 1) (id :: queue) enqueued st, servePeerStage srv, [], []⟩ m := by
        intro m hm
        apply hruns
        rwa [hfold]
      have ih := ih hnext
      rw [Nat.add_right_comm] at ih
      obtain ⟨hok, hgive⟩ := ih
      constructor
      · intro hnone
        obtain ⟨st', hrun, hall⟩ := hok hnone
        exact ⟨st', hround _ hrun, hall⟩
      · intro hsome
        obtain ⟨missing, hrun⟩ := hgive hsome
        exact ⟨missing, hround _ hrun⟩

/-! ## Trees of any depth -/

/-- The tree fetch of a manifest: whatever the schedule, it stops with every node of the tree in the
store of the puller, and the server is ready for the next request. -/
def TreesArrive (ex srv : Exchange) (man : RootManifest) : Prop :=
  ∃ st', Inevitable ⟨pure st', servePeerStage srv, [], []⟩
      ⟨fetchTrees ex budget [man.rootTreeId] [man.rootTreeId] ex.store, servePeerStage srv, [], []⟩ ∧
    ∀ t, Relation.ReflTransGen srv.store.Child man.rootTreeId t →
      st'.get .treeNode t = srv.store.get .treeNode t

theorem servePeerStage_waits (srv : Exchange) : ∃ accepts, Dialogue.Waits (servePeerStage srv) accepts :=
  ⟨_, _, _, Dialogue.loop_eq ..⟩

theorem pulling_start {srv : Store} (root : BlobId) (hagrees : st.Agrees srv)
    (hwhole : st.WholeIn .treeNode (Relation.ReflTransGen srv.Child root)) : Pulling srv root 0 [root] [root] st where
  levelled := by simpa using Levelled.start srv.Child root
  agrees := hagrees
  whole := hwhole
  fetched := by simp

/-- What a pull relies on: the server has every node of the tree, in batches that the link takes in; and of
these nodes, the puller has no other bytes and no pack that it cannot read. -/
structure Pullable (ex srv : Exchange) (man : RootManifest) : Prop where
  folder : ex.folderId = srv.folderId
  maxFrame : 27 ≤ ex.maxFrame
  held : srv.store.HoldsTree man.rootTreeId
  fits : srv.store.Fits ex.maxFrame .treeNode (Relation.ReflTransGen srv.store.Child man.rootTreeId)
  agrees : ex.store.Agrees srv.store
  whole : ex.store.WholeIn .treeNode (Relation.ReflTransGen srv.store.Child man.rootTreeId)

theorem fetchTrees_gives_up {man : RootManifest} (h : Pullable ex srv man)
    (hdeep : ∃ t, AtLevel srv.store.Child man.rootTreeId budget t) : ¬ TreesArrive ex srv man := by
  rintro ⟨st', hend, -⟩
  have hruns := fetchTrees_runs h.folder h.maxFrame h.fits h.held budget
    (pulling_start man.rootTreeId h.agrees h.whole)
  obtain ⟨missing, hrun⟩ := hruns.2 hdeep
  obtain ⟨accepts, hwaits⟩ := servePeerStage_waits srv
  have hfails := hrun.inevitable (settled_of_waits (.inr ⟨_, rfl⟩) hwaits)
  exact Dialogue.pure_ne_fail (congrArg Net.left (hend.unique hfails))

/-- The tree comes over exactly when no directory is nested deeper than the budget allows. -/
theorem fetchTrees_arrive_iff {man : RootManifest} (h : Pullable ex srv man) :
    TreesArrive ex srv man ↔ ∀ t, Relation.ReflTransGen srv.store.Child man.rootTreeId t →
        ∃ n < budget, Within srv.store.Child man.rootTreeId n t := by
  rw [← no_atLevel_iff]
  constructor
  · intro harrive t ht
    exact fetchTrees_gives_up h ⟨t, ht⟩ harrive
  · intro hnone
    have hruns := fetchTrees_runs h.folder h.maxFrame h.fits h.held budget
      (pulling_start man.rootTreeId h.agrees h.whole)
    obtain ⟨st', hrun, hall⟩ := hruns.1 hnone
    obtain ⟨accepts, hwaits⟩ := servePeerStage_waits srv
    exact ⟨st', hrun.inevitable (settled_of_waits (.inl ⟨st', rfl⟩) hwaits), hall⟩

end

/-! ### A chain of directories -/

namespace DeepTree

def idOf (n : Nat) : BlobId := ⟨leBytes 32 n, by simp⟩

/-- A hash that counts: the number in the last 32 bytes, and one more. -/
scoped instance deepEnv : SessionEnv where
  blake3 bytes := idOf (leNat (bytes.drop (bytes.length - 32)) + 1)
  nfc s := s
  toLowercase s := s
  freshEntropy _ _ := ""
  fromUnixTimestamp _ := none
  fmtRfc3339 _ := ""
  gitignore _ := .ok fun _ => false
  cipherSeal _ _ _ plain := .ok plain
  cipherOpen _ _ _ ct := .ok ct
  hkdfExpand _ _ fmk := fmk
  salt _ := ByteArr.fill 16 0
  pick n := n

def node (n : Nat) : TreeNode :=
  ⟨if n ≤ 1 then [] else [⟨"d", false, 0, 0, .dir (idOf (n - 1))⟩]⟩

theorem blake3_node : ∀ n < 66, 0 < n → Env.blake3 (nodeBytes (node n).entries) = idOf n := by
  decide +kernel

theorem parse_node : ∀ n < 66, parseTreeNode (nodeBytes (node n).entries) = .ok (node n) := by
  decide +kernel

theorem idOf_leNat (id : BlobId) : idOf (leNat id.val) = id := by
  have h := leBytes_leNat id.val
  rw [id.property] at h
  exact Subtype.ext h

theorem leNat_idOf (hn : n < 66) : leNat (idOf n).val = n :=
  leNat_leBytes 32 n (Nat.lt_of_lt_of_le hn (by decide))

def store : Store where
  get kind id :=
    if kind = .treeNode ∧ 0 < leNat id.val ∧ leNat id.val < 66 then
      .ok (nodeBytes (node (leNat id.val)).entries)
    else .error (.notFound kind id)
  present kind id := kind = .treeNode ∧ 0 < leNat id.val ∧ leNat id.val < 66
  get_hash := by
    intro kind id b h
    split at h
    · rename_i hid
      cases h
      rw [blake3_node _ hid.2.2 hid.2.1, idOf_leNat]
    · cases h
  present_of_get := by
    intro kind id b h
    split at h
    · rename_i hid
      simpa using hid
    · cases h

theorem loadNode_idOf (hpos : 0 < n) (hn : n < 66) : loadNode store (idOf n) = .ok (node n) := by
  have hget : store.get .treeNode (idOf n) = .ok (nodeBytes (node n).entries) := by
    simp only [store, leNat_idOf hn]
    exact if_pos ⟨trivial, hpos, hn⟩
  simp only [loadNode, hget, parse_node n hn]

theorem child_idOf (hpos : 0 < n) (hn : n < 66) {b : BlobId} :
    store.Child (idOf n) b ↔ 1 < n ∧ b = idOf (n - 1) := by
  simp only [Store.Child, loadNode_idOf hpos hn, TreeNode.mem_children, node]
  by_cases h1 : n ≤ 1
  · simp [h1]
  · simp [Nat.lt_of_not_le h1, eq_comm]

theorem within_iff {r : Nat} (hpos : 0 < r) (hr : r < 66) {m : Nat} {t : BlobId} :
    Within store.Child (idOf r) m t ↔ ∃ j ≤ m, j < r ∧ t = idOf (r - j) := by
  induction m generalizing t with
  | zero =>
    constructor
    · rintro rfl
      exact ⟨0, le_rfl, hpos, rfl⟩
    · rintro ⟨j, hj, -, rfl⟩
      obtain rfl := Nat.le_zero.1 hj
      rfl
  | succ m ih =>
    constructor
    · rintro (h | ⟨b, hb, hchild⟩)
      · obtain ⟨j, hj, hjr, rfl⟩ := ih.1 h
        exact ⟨j, by omega, hjr, rfl⟩
      · obtain ⟨j, hj, hjr, rfl⟩ := ih.1 hb
        obtain ⟨hlt, rfl⟩ := (child_idOf (by omega) (by omega)).1 hchild
        exact ⟨j + 1, by omega, by omega, rfl⟩
    · rintro ⟨j, hj, hjr, rfl⟩
      by_cases hjm : j ≤ m
      · exact .inl (ih.2 ⟨j, hjm, hjr, rfl⟩)
      · obtain rfl : j = m + 1 := by omega
        refine .inr ⟨idOf (r - m), ih.2 ⟨m, le_rfl, by omega, rfl⟩, ?_⟩
        exact (child_idOf (by omega) (by omega)).2 ⟨by omega, rfl⟩

theorem holdsTree {r : Nat} (hpos : 0 < r) (hr : r < 66) : store.HoldsTree (idOf r) := by
  intro t ht
  obtain ⟨m, hm⟩ := exists_within ht
  obtain ⟨j, -, hjr, rfl⟩ := (within_iff hpos hr).1 hm
  exact ⟨_, loadNode_idOf (by omega) (by omega)⟩

def manifest (r : Nat) : RootManifest := ⟨ByteArr.fill 16 1, zeroId, 0, 0, idOf r, zeroId⟩

theorem length_node : ∀ n < 66, (nodeBytes (node n).entries).length < 100 := by
  decide +kernel

theorem content_le {xs : ItemBatch} (h : ∀ x ∈ xs, x.2.2.length < 100) :
    (xs.map fun item => 41 + item.2.2.length).sum ≤ 141 * xs.length := by
  induction xs with
  | nil => simp
  | cons x xs ih =>
    have hx := h x (by simp)
    have hxs := ih fun y hy => h y (by simp [hy])
    simp only [map_cons, sum_cons, length_cons]
    omega

theorem pullable {r : Nat} (hpos : 0 < r) (hr : r < 66) : Pullable (.ofStore .empty) (.ofStore store) (manifest r) where
  folder := rfl
  maxFrame := by decide
  held := holdsTree hpos hr
  fits xs x hall hlen _ := by
    have hshort : ∀ y ∈ xs ++ [x], y.2.2.length < 100 := by
      intro y hy
      obtain ⟨hhas, -, -⟩ := hall y hy
      simp only [Exchange.ofStore, Store.Has, store] at hhas
      split at hhas
      · rename_i hid
        rw [← Except.ok.inj hhas]
        exact length_node _ hid.2.2
      · cases hhas
    have hle := content_le hshort
    rw [length_append] at hle
    simp only [ItemBatch.payloadLen, Exchange.ofStore]
    have hbatch : maxBatchItems = 512 := rfl
    have hframe : maxFrameBody = 67108864 := rfl
    simp only [length_singleton] at hle
    omega
  agrees kind id b b' h := by cases h
  whole id _ h := by cases h

end DeepTree

open DeepTree in
/-- 65 directories, each in the next, do not come over. -/
theorem fetchTrees_deep : Pullable (.ofStore .empty) (.ofStore store) (manifest 65) ∧
      ¬ TreesArrive (.ofStore .empty) (.ofStore store) (manifest 65) := by
  have hpull := pullable (r := 65) (by decide) (by decide)
  refine ⟨hpull, fetchTrees_gives_up hpull ⟨idOf 1, ?_, ?_⟩⟩
  · exact (within_iff (by decide) (by decide)).2 ⟨64, le_rfl, by decide, rfl⟩
  · intro m hm hw
    obtain ⟨j, hj, -, hid⟩ := (within_iff (by decide) (by decide)).1 hw
    have hn := congrArg (fun id : BlobId => leNat id.val) hid
    simp only [leNat_idOf (n := 1) (by decide), leNat_idOf (n := 65 - j) (by omega)] at hn
    have hm' : m < 64 := hm
    omega

open DeepTree in
/-- 64 of them do. -/
theorem fetchTrees_arrive_iff_deep : TreesArrive (.ofStore .empty) (.ofStore store) (manifest 64) := by
  refine (fetchTrees_arrive_iff (pullable (by decide) (by decide))).2 fun t ht => ?_
  obtain ⟨m, hm⟩ := exists_within ht
  obtain ⟨j, -, hj, rfl⟩ := (within_iff (by decide) (by decide)).1 hm
  exact ⟨j, hj, (within_iff (by decide) (by decide)).2 ⟨j, le_rfl, hj, rfl⟩⟩

end Ferry
