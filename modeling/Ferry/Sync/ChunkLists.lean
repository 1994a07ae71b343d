import Ferry.Lib.Search
import Ferry.Sync.Mirror

/-! # The chunks of a plan

`send` and `fetch` are collected while the loop decides, path by path, and are
then cut down to what the other tree does not refer to. After that, removals are
given up and directories come back. The lists are right for the plan that comes
out in the end: nothing that is to be written lacks its chunks.
-/

namespace Ferry

open Lib List

/-- A file of the tree has the chunk. -/
def Tree.Refers (t : Tree) (id : BlobId) : Prop := ∃ p s, t p = some s ∧ id ∈ s.chunks.map (·.1)

/-! ## What a tree refers to -/

variable {id : BlobId}

section
variable [Env] {st : Store} {root : BlobId}

/-- The node `a` has a subdirectory with the node `b`. -/
def Store.Child (st : Store) (a b : BlobId) : Prop := ∃ node, loadNode st a = .ok node ∧ b ∈ node.children

def TreeNode.chunkIds (node : TreeNode) : List BlobId :=
  node.entries.flatMap fun e => (EntryState.of e).chunks.map (·.1)

/-- The node is below the root and has a file with the chunk. -/
def Store.HoldsChunk (st : Store) (root id : BlobId) : Prop :=
  ∃ t node, Relation.ReflTransGen st.Child root t ∧ loadNode st t = .ok node ∧ id ∈ node.chunkIds

theorem TreeNode.Valid.find_name {node : TreeNode} (h : node.Valid) {e : TreeEntry}
    (he : e ∈ node.entries) : node.entries.find? (·.name = e.name) = some e := by
  have hnodup : (node.entries.map (·.name)).Nodup :=
    pairwise_map.2 (h.sorted.imp fun hlt => ne_of_lt hlt)
  cases hf : node.entries.find? (·.name = e.name) with
  | none => simpa using find?_eq_none.1 hf e he
  | some e' =>
    have hname : e'.name = e.name := by simpa using find?_some hf
    rw [inj_on_of_nodup_map hnodup (mem_of_find?_eq_some hf) he hname]

theorem Store.HoldsChunk.refers (h : st.HoldsChunk root id) : Tree.Refers (flat st root) id := by
  obtain ⟨t, node, hreach, hload, hid⟩ := h
  induction hreach using Relation.ReflTransGen.head_induction_on with
  | refl =>
    obtain ⟨e, he, hid⟩ := mem_flatMap.1 hid
    refine ⟨[e.name], .of e, ?_, hid⟩
    rw [flat_eq_flatEntries hload, flatEntries_cons, (loadNode_valid hload).find_name he]
    rfl
  | head hab _ ih =>
    obtain ⟨parent, hparent, hchild⟩ := hab
    obtain ⟨e, he, hpay⟩ := TreeNode.mem_children.1 hchild
    obtain ⟨p, s, hp, hs⟩ := ih
    refine ⟨e.name :: p, s, ?_, hs⟩
    have hne : p ≠ [] := by
      rintro rfl
      simp [(flat_isTree st _).1] at hp
    rw [flat_eq_flatEntries hparent, flatEntries_cons, (loadNode_valid hparent).find_name he]
    simpa [flatEntry, flatBelow, hpay] using hp

theorem holdsChunk_of_flat {p : CompPath} {s : EntryState} (hp : flat st root p = some s)
    (hid : id ∈ s.chunks.map (·.1)) : st.HoldsChunk root id := by
  induction p generalizing root with
  | nil => simp [(flat_isTree st root).1] at hp
  | cons c rest ih =>
    cases hl : loadNode st root with
    | error => simp [flat, entryAt, hl] at hp
    | ok node =>
      rw [flat_eq_flatEntries hl, flatEntries_cons] at hp
      obtain ⟨e, hf, he⟩ := Option.bind_eq_some_iff.1 hp
      have hmem := mem_of_find?_eq_some hf
      cases rest with
      | nil =>
        cases he
        exact ⟨root, node, .refl, hl, mem_flatMap.2 ⟨e, hmem, hid⟩⟩
      | cons =>
        cases hpay : e.payload with
        | file | symlink => simp [flatEntry, flatBelow, hpay] at he
        | dir =>
          simp only [flatEntry, hpay] at he
          obtain ⟨t, node', hreach, hload, hin⟩ := ih he
          refine ⟨t, node', .head ⟨node, hl, ?_⟩ hreach, hload, hin⟩
          exact TreeNode.mem_children.2 ⟨e, hmem, hpay⟩

theorem refers_iff : Tree.Refers (flat st root) id ↔ st.HoldsChunk root id :=
  ⟨fun ⟨_, _, hp, hid⟩ => holdsChunk_of_flat hp hid, Store.HoldsChunk.refers⟩

/-! ## The walk over a tree -/

variable {refs : List BlobId}

theorem chunkRefsLoop_cons {fuel : Nat} {stack seenTrees out : List BlobId}
    (h : chunkRefsLoop st (fuel + 1) (id :: stack) seenTrees out = .ok refs) :
    (id ∈ seenTrees ∧ chunkRefsLoop st fuel stack seenTrees out = .ok refs) ∨
      ∃ node, id ∉ seenTrees ∧ loadNode st id = .ok node ∧
        chunkRefsLoop st fuel (node.children.reverse ++ stack) (id :: seenTrees)
          (out ++ node.chunkIds) = .ok refs := by
  rw [chunkRefsLoop] at h
  split at h
  · exact .inl ⟨‹_›, h⟩
  right
  split at h
  · cases h
  rename_i bytes hget
  split at h
  · cases h
  · rename_i node hparse
    exact ⟨node, ‹_›, by simp only [loadNode, hget, hparse], h⟩

/-- The walk collects the chunks of the nodes it has seen, and has seen all of them in the end. -/
theorem chunkRefsLoop_walked {fuel : Nat} {stack seenTrees out : List BlobId}
    (h : chunkRefsLoop st fuel stack seenTrees out = .ok refs)
    (hwalked : Walked st.Child root (· ∈ seenTrees) (· ∈ stack))
    (hout : ∀ id, id ∈ out ↔ ∃ t node, t ∈ seenTrees ∧ loadNode st t = .ok node ∧ id ∈ node.chunkIds)
    : id ∈ refs ↔ st.HoldsChunk root id := by
  induction fuel generalizing stack seenTrees out with
  | zero =>
    cases stack with
    | nil =>
      cases h
      rw [hout]
      simp only [hwalked.done (by simp), Store.HoldsChunk]
    | cons => cases h
  | succ fuel ih =>
    cases stack with
    | nil =>
      cases h
      rw [hout]
      simp only [hwalked.done (by simp), Store.HoldsChunk]
    | cons a =>
      rcases chunkRefsLoop_cons h with ⟨hseen, h⟩ | ⟨node, hnew, hload, h⟩
      · refine ih h (hwalked.step ?_ ?_ ?_) hout
        · intro b hb
          rcases hb with hb | hb
          · exact .inl hb
          · rcases mem_cons.1 hb with rfl | hb
            · exact .inl hseen
            · exact .inr hb
        · intro b c hb hnot
          exact absurd hb hnot
        · intro b hb
          exact .inl (hb.imp_right (mem_cons_of_mem _))
      · refine ih h (hwalked.step ?_ ?_ ?_) ?_
        · intro b hb
          simp only [mem_cons, mem_append] at hb ⊢
          tauto
        · intro b c hb hnot hbc
          have hb' : b = a := (mem_cons.1 hb).resolve_right hnot
          subst hb'
          obtain ⟨node', hload', hc⟩ := hbc
          rw [hload] at hload'
          cases hload'
          exact .inr (by simp [hc])
        · intro b hb
          simp only [mem_cons, mem_append, mem_reverse] at hb ⊢
          rcases hb with (rfl | hb) | hb | hb
          · exact .inl (.inr (.inl rfl))
          · exact .inl (.inl hb)
          · exact .inr ⟨a, .inr (.inl rfl), node, hload, hb⟩
          · exact .inl (.inr (.inr hb))
        · intro x
          rw [mem_append, hout]
          constructor
          · rintro (⟨t, node', ht, hrest⟩ | hx)
            · exact ⟨t, node', mem_cons_of_mem _ ht, hrest⟩
            · exact ⟨a, node, mem_cons_self, hload, hx⟩
          · rintro ⟨t, node', ht, hload', hx⟩
            rcases mem_cons.1 ht with rfl | ht
            · rw [hload] at hload'
              cases hload'
              exact .inr hx
            · exact .inl ⟨t, node', ht, hload', hx⟩

theorem mem_manifestChunkRefs {fuel : Nat} (h : manifestChunkRefs st fuel root = .ok refs) :
    id ∈ refs ↔ Tree.Refers (flat st root) id := by
  rw [refers_iff]
  refine chunkRefsLoop_walked h ?_ (by simp)
  refine (Walked.start st.Child root).step ?_ ?_ ?_ <;> simp

end

/-! ## What the loop collects -/

/-- The map has the chunks with the property, each id with one of the lengths it comes with. -/
structure Candidates (P : BlobId × Nat → Prop) (cand : AList (fun _ : BlobId => Nat)) : Prop where
  genuine : ∀ {id len}, cand.lookup id = some len → P (id, len)
  complete : ∀ {c}, P c → c.1 ∈ cand

namespace Candidates

variable {P Q : BlobId × Nat → Prop} {cand : AList (fun _ : BlobId => Nat)} (h : Candidates P cand)
include h

theorem congr (hPQ : ∀ c, Q c ↔ P c) : Candidates Q cand :=
  ⟨fun hl => (hPQ _).2 (h.genuine hl), fun hc => h.complete ((hPQ _).1 hc)⟩

theorem insert (x : BlobId × Nat) :
    Candidates (fun c => P c ∨ c = x) (cand.insert x.1 x.2) where
  genuine := by
    intro id len hl
    by_cases hid : id = x.1
    · subst hid
      rw [AList.lookup_insert] at hl
      cases hl
      exact .inr rfl
    · rw [AList.lookup_insert_ne hid] at hl
      exact .inl (h.genuine hl)
  complete := by
    rintro c (hc | rfl)
    · exact AList.mem_insert _ |>.2 (.inr (h.complete hc))
    · exact AList.mem_insert _ |>.2 (.inl rfl)

theorem collect (chunks : Chunks) :
    Candidates (fun c => P c ∨ c ∈ chunks) (collectChunks chunks cand) := by
  induction chunks generalizing P cand with
  | nil => exact h.congr fun c => by simp
  | cons x chunks ih =>
    refine (ih (h.insert x)).congr fun c => ?_
    rw [mem_cons, or_assoc]

theorem mem_wantedChunks (refs : List BlobId) : (∀ c ∈ wantedChunks cand refs, P c ∧ c.1 ∉ refs) ∧
      ∀ c, P c → c.1 ∉ refs → c.1 ∈ (wantedChunks cand refs).map (·.1) := by
  have hmem : ∀ c, c ∈ wantedChunks cand refs ↔ cand.lookup c.1 = some c.2 ∧ c.1 ∉ refs := by
    intro c
    unfold wantedChunks
    rw [(perm_insertionSort _ _).mem_iff, mem_filter, mem_map]
    simp only [decide_eq_true_eq]
    refine and_congr_left fun _ => ⟨?_, fun hl => ⟨⟨c.1, c.2⟩, AList.mem_lookup_iff.1 hl, rfl⟩⟩
    rintro ⟨e, he, rfl⟩
    exact AList.mem_lookup_iff.2 he
  refine ⟨fun c hc => ?_, fun c hc hnot => ?_⟩
  · obtain ⟨hl, hnot⟩ := (hmem c).1 hc
    exact ⟨h.genuine hl, hnot⟩
  · obtain ⟨len, hl⟩ := Option.isSome_iff_exists.1 (AList.lookup_isSome.2 (h.complete hc))
    exact mem_map.2 ⟨(c.1, len), (hmem _).2 ⟨hl, hnot⟩, rfl⟩

end Candidates

theorem candidates_of_ok {localDev remoteDev : BlobId} {rounds : List Decided} {pr pr' : Progress}
    (h : rounds.foldlM (Progress.step localDev remoteDev) pr = .ok pr') {P Q : BlobId × Nat → Prop}
    (hsend : Candidates P pr.sendCand) (hfetch : Candidates Q pr.fetchCand) :
    Candidates (fun c => P c ∨ ∃ d ∈ rounds, c ∈ d.sendChunks) pr'.sendCand ∧
      Candidates (fun c => Q c ∨ ∃ d ∈ rounds, c ∈ d.fetchChunks) pr'.fetchCand := by
  induction rounds generalizing pr P Q with
  | nil =>
    cases h
    exact ⟨hsend.congr fun c => by simp, hfetch.congr fun c => by simp⟩
  | cons d rounds ih =>
    obtain ⟨mid, hstep, hrest⟩ := bind_eq_ok.1 h
    obtain ⟨q, -, hmid⟩ := bind_eq_ok.1 hstep
    cases hmid
    obtain ⟨hsend', hfetch'⟩ := ih hrest (hsend.collect d.sendChunks) (hfetch.collect d.fetchChunks)
    refine ⟨hsend'.congr fun c => ?_, hfetch'.congr fun c => ?_⟩ <;>
      simp only [exists_mem_cons_iff, or_assoc]

/-! ## The lists of the plan -/

def LoserContent.storeChunks : LoserContent → Chunks
  | .fromStore _ _ _ _ chunks _ => chunks
  | _ => []

namespace Merge

variable {M : Merge} {p : CompPath}

/-- The local entry stays and the remote side has to take it over. -/
def LocalWins (M : Merge) (p : CompPath) : Prop :=
  M.decision p = .keepLocal ∨ ∃ kind, M.decision p = .conflict kind .localSide

/-- The remote entry is taken over, or was in a conflict. -/
def RemoteCounts (M : Merge) (p : CompPath) : Prop :=
  M.decision p = .applyRemote ∨ ∃ kind winner, M.decision p = .conflict kind winner

theorem LocalWins.mineAt (h : M.LocalWins p) : M.mineAt p = M.mine p := by
  rcases h with h | ⟨kind, h⟩
  · exact mineAt_of_lists (lists_of_keepLocal h)
  · exact mineAt_of_lists (lists_of_conflict h).1

theorem RemoteCounts.theirsAt (h : M.RemoteCounts p) : M.theirsAt p = M.theirs p := by
  rcases h with h | ⟨kind, winner, h⟩
  · exact Takes.theirsAt (.inl h)
  · exact theirsAt_of_lists (lists_of_conflict h).2.1

theorem Takes.remoteCounts (h : M.Takes p) : M.RemoteCounts p :=
  h.imp_right fun ⟨kind, hd⟩ => ⟨kind, .remoteSide, hd⟩

variable {c : BlobId × Nat} {remoteRefs localRefs : Except ReconcileError (List BlobId)} {plan : ActionPlan}

theorem mem_chunksOf {o : Option EntryState} :
    c ∈ Decided.chunksOf o ↔ ∃ s, o = some s ∧ c ∈ s.chunks := by
  cases o with
  | none | some => simp [Decided.chunksOf]

theorem mem_sendChunks :
    c ∈ (M.decided p).sendChunks ↔ M.LocalWins p ∧ ∃ s, M.mine p = some s ∧ c ∈ s.chunks := by
  have hmine : M.LocalWins p → (c ∈ Decided.chunksOf (M.mineAt p) ↔
      ∃ s, M.mine p = some s ∧ c ∈ s.chunks) := fun h => by rw [mem_chunksOf, h.mineAt]
  unfold Decided.sendChunks
  simp only [decided]
  cases hd : M.decision p with
  | nothing | applyRemote => simp [LocalWins, hd]
  | keepLocal => simpa [LocalWins, hd] using hmine (.inl hd)
  | conflict kind winner =>
    cases winner with
    | localSide => simpa [LocalWins, hd] using hmine (.inr ⟨kind, hd⟩)
    | remoteSide => simp [LocalWins, hd]

theorem mem_fetchChunks :
    c ∈ (M.decided p).fetchChunks ↔ M.RemoteCounts p ∧ ∃ s, M.theirs p = some s ∧ c ∈ s.chunks := by
  have htheirs : M.RemoteCounts p → (c ∈ Decided.chunksOf (M.theirsAt p) ↔
      ∃ s, M.theirs p = some s ∧ c ∈ s.chunks) := fun h => by rw [mem_chunksOf, h.theirsAt]
  unfold Decided.fetchChunks
  simp only [decided]
  cases hd : M.decision p with
  | nothing | keepLocal => simp [RemoteCounts, hd]
  | applyRemote => simpa [RemoteCounts, hd] using htheirs (.inl hd)
  | conflict kind winner => simpa [RemoteCounts, hd] using htheirs (.inr ⟨kind, winner, hd⟩)

/-- The plan names the chunks that have to move, and no others. -/
structure NamesChunks (M : Merge) (plan : ActionPlan) : Prop where
  materialize : ∀ op ∈ plan.materialize, ∀ s, op.result = some s → ∀ c ∈ s.chunks,
    M.mine.Refers c.1 ∨ c.1 ∈ plan.fetch.map (·.1)
  quarantine : ∀ q ∈ plan.quarantine, ∀ c ∈ q.content.storeChunks,
    M.mine.Refers c.1 ∨ c.1 ∈ plan.fetch.map (·.1)
  localWins : ∀ p s, M.LocalWins p → M.mine p = some s → ∀ c ∈ s.chunks,
    ¬ M.theirs.Refers c.1 → c.1 ∈ plan.send.map (·.1)
  fetch : ∀ c ∈ plan.fetch, ¬ M.mine.Refers c.1 ∧ ∃ p s, M.RemoteCounts p ∧ M.theirs p = some s ∧ c ∈ s.chunks
  send : ∀ c ∈ plan.send, ¬ M.theirs.Refers c.1 ∧ ∃ p s, M.LocalWins p ∧ M.mine p = some s ∧ c ∈ s.chunks

theorem LocalWins.touched (h : M.LocalWins p) : M.Touched p := by
  refine touched_of_decision fun hnothing => ?_
  rcases h with h | ⟨kind, h⟩ <;> simp [hnothing] at h

theorem RemoteCounts.touched (h : M.RemoteCounts p) : M.Touched p := by
  refine touched_of_decision fun hnothing => ?_
  rcases h with h | ⟨kind, winner, h⟩ <;> simp [hnothing] at h

/-- Which chunks a plan sends and fetches: the candidates that the other side does not refer to. -/
theorem planFrom_chunks {localView remoteView : ViewMap} (h : M.Indexed localView remoteView)
    (hplan : planFrom M.localDev M.remoteDev localView remoteView localRefs remoteRefs = .ok plan) :
    ∃ sendCand fetchCand lrefs rrefs, localRefs = .ok lrefs ∧ remoteRefs = .ok rrefs ∧
      plan.send = wantedChunks sendCand rrefs ∧ plan.fetch = wantedChunks fetchCand lrefs ∧
      Candidates (fun c => ∃ p s, M.LocalWins p ∧ M.mine p = some s ∧ c ∈ s.chunks) sendCand ∧
      Candidates (fun c => ∃ p s, M.RemoteCounts p ∧ M.theirs p = some s ∧ c ∈ s.chunks) fetchCand := by
  obtain ⟨pr, hpr, hplan⟩ := bind_eq_ok.1 hplan
  obtain ⟨rrefs, hrrefs, hplan⟩ := bind_eq_ok.1 hplan
  obtain ⟨lrefs, hlrefs, hplan⟩ := bind_eq_ok.1 hplan
  obtain ⟨synth, -, hplan⟩ := bind_eq_ok.1 hplan
  cases hplan
  have hnone : Candidates (fun _ => False) (∅ : AList (fun _ : BlobId => Nat)) :=
    ⟨fun hl => by simp at hl, fun hc => hc.elim⟩
  obtain ⟨hsend, hfetch⟩ := candidates_of_ok hpr hnone hnone
  refine ⟨_, _, lrefs, rrefs, hlrefs, hrrefs, rfl, rfl, hsend.congr fun c => ?_, hfetch.congr fun c => ?_⟩
  · rw [false_or]
    constructor
    · rintro ⟨p, s, hwins, hmine, hc⟩
      exact ⟨_, h.mem_rounds.2 ⟨p, hwins.touched, rfl⟩, mem_sendChunks.2 ⟨hwins, s, hmine, hc⟩⟩
    · rintro ⟨d, hd, hc⟩
      obtain ⟨p, -, rfl⟩ := h.mem_rounds.1 hd
      obtain ⟨hwins, s, hmine, hc⟩ := mem_sendChunks.1 hc
      exact ⟨p, s, hwins, hmine, hc⟩
  · rw [false_or]
    constructor
    · rintro ⟨p, s, hcounts, htheirs, hc⟩
      exact ⟨_, h.mem_rounds.2 ⟨p, hcounts.touched, rfl⟩, mem_fetchChunks.2 ⟨hcounts, s, htheirs, hc⟩⟩
    · rintro ⟨d, hd, hc⟩
      obtain ⟨p, -, rfl⟩ := h.mem_rounds.1 hd
      obtain ⟨hcounts, s, htheirs, hc⟩ := mem_fetchChunks.1 hc
      exact ⟨p, s, hcounts, htheirs, hc⟩

theorem Keeps.storeChunks {q : QuarantineOp} (h : M.Keeps p q) (hc : c ∈ q.content.storeChunks) :
    ∃ s, M.RemoteCounts p ∧ M.theirs p = some s ∧ c ∈ s.chunks := by
  obtain ⟨kind, winner, lost, hd, hlost, -, rfl⟩ := h
  have hcounts : M.RemoteCounts p := .inr ⟨kind, winner, hd⟩
  cases winner with
  | localSide => exact ⟨lost, hcounts, hcounts.theirsAt.symm.trans hlost, hc⟩
  | remoteSide =>
    simp only [Side.other, Decided.loserContent] at hc
    split at hc <;> cases hc

theorem PlanOf.synthesized_isDir (h : M.PlanOf plan) (hp : M.Synthesized p)
    {s : EntryState} (hs : M.base p = some s) : s.kind = .dir := by
  obtain ⟨hne, ⟨t, ht, habove⟩, hsup, hout⟩ := hp
  have hpass := (h.aboveTarget ht hne habove).resolve_left hsup
  rw [hout] at hpass
  obtain ⟨s', hs', hdir⟩ := hpass
  rw [hs] at hs'
  cases hs'
  exact hdir

/-- Each clause of `NamesChunks` for the plan of two views. -/
theorem namesChunks {localView remoteView : ViewMap} (h : M.Indexed localView remoteView)
    (hplan : planFrom M.localDev M.remoteDev localView remoteView localRefs remoteRefs = .ok plan)
    (hmine : ∀ refs, localRefs = .ok refs → ∀ id, id ∈ refs ↔ M.mine.Refers id)
    (htheirs : ∀ refs, remoteRefs = .ok refs → ∀ id, id ∈ refs ↔ M.theirs.Refers id)
    (hdirs : ∀ p s, M.base p = some s → s.kind = .dir → s.chunks = []) : M.NamesChunks plan := by
  have hof := planOf_planFrom h hplan
  obtain ⟨sendCand, fetchCand, lrefs, rrefs, hlrefs, hrrefs, hsend, hfetch, hcsend, hcfetch⟩ :=
    planFrom_chunks h hplan
  have hmine := hmine lrefs hlrefs
  have htheirs := htheirs rrefs hrrefs
  obtain ⟨hfetchOnly, hfetchAll⟩ := hcfetch.mem_wantedChunks lrefs
  obtain ⟨hsendOnly, hsendAll⟩ := hcsend.mem_wantedChunks rrefs
  rw [← hfetch] at hfetchOnly hfetchAll
  rw [← hsend] at hsendOnly hsendAll
  have hcovered : ∀ c, (∃ p s, M.RemoteCounts p ∧ M.theirs p = some s ∧ c ∈ s.chunks) →
      M.mine.Refers c.1 ∨ c.1 ∈ plan.fetch.map (·.1) := by
    intro c hc
    by_cases href : c.1 ∈ lrefs
    · exact .inl ((hmine _).1 href)
    · exact .inr (hfetchAll c hc href)
  constructor
  · intro op hop s hs c hc
    rcases hof.materialize.1 hop with ⟨p, htakes, -, rfl⟩ | ⟨p, s', hsyn, hbase, rfl⟩
    · exact hcovered c ⟨p, s, htakes.remoteCounts, hs, hc⟩
    · cases hs
      rw [hdirs p s hbase (hof.synthesized_isDir hsyn hbase)] at hc
      cases hc
  · intro q hq c hc
    obtain ⟨p, hkeeps⟩ := hof.quarantine.1 hq
    exact hcovered c ⟨p, hkeeps.storeChunks hc⟩
  · intro p s hwins hs c hc hnot
    exact hsendAll c ⟨p, s, hwins, hs, hc⟩ fun href => hnot ((htheirs _).1 href)
  · intro c hc
    obtain ⟨hfrom, hnot⟩ := hfetchOnly c hc
    exact ⟨fun href => hnot ((hmine _).2 href), hfrom⟩
  · intro c hc
    obtain ⟨hfrom, hnot⟩ := hsendOnly c hc
    exact ⟨fun href => hnot ((htheirs _).2 href), hfrom⟩

end Merge

section
variable [Env]

theorem chunks_eq_nil_of_isDir {st : Store} {p : CompPath} {s : EntryState}
    (h : flat st id p = some s) (hdir : s.kind = .dir) : s.chunks = [] := by
  obtain ⟨e, -, rfl⟩ := Option.map_eq_some_iff.1 h
  revert hdir
  unfold EntryState.of EntryKind.fromPayload
  cases e.payload <;> simp

/-- A plan names the chunks that have to move for what it says in the end. -/
theorem reconcile_namesChunks {st st' : Store} {fuel : Nat} {localM remoteM : RootManifest}
    {base : Option RootManifest} {plan : ActionPlan}
    (h : reconcile st fuel localM remoteM base = .ok (plan, st')) :
    (Merge.ofTrees st' localM.deviceId remoteM.deviceId (baseRoot st localM remoteM base nilTreeId)
      localM.rootTreeId remoteM.rootTreeId).NamesChunks plan := by
  obtain ⟨localDiff, remoteDiff, hl, hr, hplan⟩ := reconcile_parts h
  have hindexed : (Merge.ofTrees st' localM.deviceId remoteM.deviceId
      (baseRoot st localM remoteM base nilTreeId) localM.rootTreeId remoteM.rootTreeId).Indexed _ _ :=
    Merge.ofTrees_indexed hl hr
  exact Merge.namesChunks hindexed hplan (fun _ hrefs _ => mem_manifestChunkRefs hrefs)
    (fun _ hrefs _ => mem_manifestChunkRefs hrefs) fun _ _ => chunks_eq_nil_of_isDir

end

namespace Sample

def chunkFile (name : String) (mtime : Int) (chunk : UInt8) : TreeEntry :=
  ⟨name, false, mtime, 0, .file 1 [(ByteArr.fill 32 chunk, 1)]⟩

def editedHere : TreeNode := ⟨[chunkFile "a" 1 1, chunkFile "b" 5 2, chunkFile "e" 1 3]⟩

def editedThere : TreeNode := ⟨[chunkFile "a" 2 4, chunkFile "b" 2 5, chunkFile "d" 1 6]⟩

def editedStore : Store := (Store.empty.withNode editedHere).withNode editedThere

end Sample

open Sample in
/-- Two files edited on both devices, and one added on each. -/
theorem reconcile_namesChunks_edited : ∃ plan st',
    reconcile editedStore 2 (childOf 1 editedHere) (childOf 2 editedThere) none = .ok (plan, st') ∧
      (plan.send.map fun c => c.1.val.headD 0) = [2, 3] ∧ (plan.fetch.map fun c => c.1.val.headD 0) = [4, 5, 6] ∧
      (Merge.ofTrees st' (childOf 1 editedHere).deviceId (childOf 2 editedThere).deviceId
        (baseRoot editedStore (childOf 1 editedHere) (childOf 2 editedThere) none nilTreeId)
        (childOf 1 editedHere).rootTreeId (childOf 2 editedThere).rootTreeId).NamesChunks plan := by
  have hok : ((reconcile editedStore 2 (childOf 1 editedHere) (childOf 2 editedThere) none).toOption.any fun r =>
      (r.1.send.map fun c => c.1.val.headD 0) = [2, 3] ∧ (r.1.fetch.map fun c => c.1.val.headD 0) = [4, 5, 6]) =
        true := by
    decide +kernel
  obtain ⟨r, hrun, hr⟩ := exists_of_any hok
  obtain ⟨hsend, hfetch⟩ := of_decide_eq_true hr
  exact ⟨r.1, r.2, hrun, hsend, hfetch, reconcile_namesChunks hrun⟩

end Ferry
