import Mathlib.Data.List.Dedup
import Ferry.Sync.ChunkLists
import Ferry.Sync.Converge

/-! # Splitting a plan at a pin

`gate_plan` takes the held paths out of a plan. It works on joined paths, three
lists at a time; over the paths of a plan that reconciliation makes, this is a
split of each list by the predicate, and the string test for nesting is the
order of the tree.
-/

namespace Ferry

open Lib List

/-! ## Plans -/

def ActionPlan.paths (plan : ActionPlan) : List CompPath :=
  plan.materialize.map (·.path) ++ plan.quarantine.map (·.path) ++ plan.conflicts.map (·.path)

/-- What the split needs of a plan. -/
structure ActionPlan.Proper (plan : ActionPlan) : Prop where
  ne_nil : ∀ p ∈ plan.paths, p ≠ []
  noSlash : ∀ p ∈ plan.paths, NoSlash p
  materialize : (plan.materialize.map (·.path)).Nodup
  quarantine : (plan.quarantine.map (·.path)).Nodup
  conflicts : (plan.conflicts.map (·.path)).Nodup
  /-- Where a remote entry is taken over, the copy that is kept is a local one. -/
  copies : ∀ op ∈ plan.materialize, ∀ q ∈ plan.quarantine, op.path = q.path → q.content.storeChunks = []

variable {p : CompPath} {α : Type} {plan : ActionPlan}

theorem ActionPlan.mem_paths : p ∈ plan.paths ↔
    (∃ op ∈ plan.materialize, op.path = p) ∨ (∃ q ∈ plan.quarantine, q.path = p) ∨
      ∃ c ∈ plan.conflicts, c.path = p := by
  simp [ActionPlan.paths]

namespace Merge

variable {M : Merge}

/-- A directory comes back only where neither side of a conflict is kept as a copy. -/
theorem Synthesized.not_quarantines (h : M.Synthesized p) : ¬ M.Quarantines p := by
  intro hq
  obtain ⟨hmine, htheirs⟩ := hq.both
  obtain ⟨kind, winner, lost, hd, -⟩ := hq
  obtain ⟨hl, hr, -⟩ := lists_of_conflict hd
  have hout : (M.decided p).winnerState winner = none := by
    have := h.2.2.2
    unfold Merge.outcome Decided.outcome at this
    rw [show (M.decided p).decision = _ from hd] at this
    cases winner <;> exact Option.some.inj this
  cases winner with
  | localSide => exact hmine ((mineAt_of_lists hl).symm.trans hout)
  | remoteSide => exact htheirs ((theirsAt_of_lists hr).symm.trans hout)

theorem PlanOf.decided_of_mem (h : M.PlanOf plan) (hp : p ∈ plan.paths) : M.Touched p ∨ M.Synthesized p := by
  rcases ActionPlan.mem_paths.1 hp with ⟨op, hop, rfl⟩ | ⟨q, hq, rfl⟩ | ⟨c, hc, rfl⟩
  · rcases h.materialize.1 hop with ⟨p, htakes, -, rfl⟩ | ⟨p, s, hsyn, -, rfl⟩
    · exact .inl htakes.touched
    · exact .inr hsyn
  · obtain ⟨p, hkeeps⟩ := h.quarantine.1 hq
    exact .inl (hkeeps.path ▸ hkeeps.quarantines.touched)
  · obtain ⟨p, htouched, hc⟩ := h.conflicts.1 hc
    exact .inl ((plannedConflict_decided hc).1 ▸ htouched)

theorem PlanOf.proper (h : M.PlanOf plan) : plan.Proper where
  ne_nil p hp := (h.decided_of_mem hp).elim (·.ne_nil) (·.1)
  noSlash p hp := (h.decided_of_mem hp).elim (·.noSlash) (·.noSlash)
  materialize := h.nodup
  quarantine := h.quarantineNodup
  conflicts := h.conflictsNodup
  copies op hop q hq heq := by
    obtain ⟨p, hkeeps⟩ := h.quarantine.1 hq
    rw [hkeeps.path] at heq
    subst heq
    rcases h.materialize.1 hop with ⟨p, htakes, -, rfl⟩ | ⟨p, s, hsyn, -, rfl⟩
    · -- the remote side won, so the copy is of the live local entry
      obtain ⟨kind, winner, lost, hd, -, -, rfl⟩ := hkeeps
      rcases htakes with ht | ⟨kind', ht⟩ <;> cases hd.symm.trans ht
      simp only [Side.other, Decided.loserContent]
      split <;> rfl
    · exact absurd hkeeps.quarantines hsyn.not_quarantines

end Merge

theorem reconcile_proper [Env] {st st' : Store} {fuel : Nat} {localM remoteM : RootManifest}
    {base : Option RootManifest} (h : reconcile st fuel localM remoteM base = .ok (plan, st')) : plan.Proper := by
  obtain ⟨_, -, hplan⟩ := reconcile_planOf h
  exact hplan.proper

/-! ## Nesting -/


theorem intercalate_append (sep : List α) {l r : List (List α)} (hl : l ≠ []) (hr : r ≠ []) :
    sep.intercalate (l ++ r) = sep.intercalate l ++ sep ++ sep.intercalate r := by
  induction l with
  | nil => exact absurd rfl hl
  | cons x l ih =>
    cases l with
    | nil => simp [intercalate_cons_of_ne_nil hr]
    | cons =>
      rw [cons_append] at ih
      simp [ih]

theorem joinPath_append {r : CompPath} (hp : p ≠ []) (hr : r ≠ []) :
    (joinPath (p ++ r)).toList = (joinPath p).toList ++ '/' :: (joinPath r).toList := by
  have hslash : "/".toList = ['/'] := rfl
  simp only [joinPath, String.toList_intercalate, map_append, hslash]
  rw [intercalate_append _ (by simpa using hp) (by simpa using hr), append_assoc, singleton_append]

theorem nests_iff {q : CompPath} (hp : NoSlash p) (hq : NoSlash q) (hpn : p ≠ []) (hqn : q ≠ []) :
    nests (joinPath p) (joinPath q) = true ↔ Above p q := by
  unfold nests
  rw [ isPrefixOf_iff_prefix]
  constructor
  · rintro ⟨w, hw⟩
    rw [append_assoc, singleton_append] at hw
    have hsplit := splitOn_joinPath hq hqn
    rw [← hw, splitOn_append_cons_self, map_append, splitOn_joinPath hp hpn] at hsplit
    obtain ⟨c, r, hcr⟩ := exists_cons_of_ne_nil
      (mt map_eq_nil_iff.1 (splitOn_ne_nil '/' w) : (w.splitOn '/').map String.ofList ≠ [])
    exact ⟨c, r, by rw [← hcr, hsplit]⟩
  · rintro ⟨c, r, rfl⟩
    rw [joinPath_append hpn (by simp)]
    exact ⟨_, by rw [append_assoc, singleton_append]⟩

/-! ## The lists of a gated plan -/

section
variable {holds : CompPath → Bool}

theorem mem_heldKeys {key : String} :
    key ∈ heldKeys plan holds ↔ ∃ p ∈ plan.paths, holds p = true ∧ joinPath p = key := by
  unfold heldKeys
  rw [(perm_insertionSort _ _).mem_iff, mem_dedup, mem_map]
  simp only [mem_filter, and_assoc]
  rfl

theorem heldKeys_nodup : (heldKeys plan holds).Nodup :=
  (perm_insertionSort _ _).nodup_iff.2 (nodup_dedup _)

theorem mem_otherKeys {key : String} :
    key ∈ otherKeys plan holds ↔ ∃ p ∈ plan.paths, holds p = false ∧ joinPath p = key := by
  unfold otherKeys
  rw [mem_map]
  simp only [mem_filter, and_assoc, Bool.not_eq_true']
  rfl

theorem heldKeys_eq_nil : heldKeys plan holds = [] ↔ ∀ p ∈ plan.paths, holds p = false := by
  rw [eq_nil_iff_forall_not_mem]
  constructor
  · intro h p hp
    by_contra hholds
    exact h _ (mem_heldKeys.2 ⟨p, hp, by simpa using hholds, rfl⟩)
  · intro h key hkey
    obtain ⟨p, hp, hholds, -⟩ := mem_heldKeys.1 hkey
    rw [h p hp] at hholds
    cases hholds

/-- A held and an applied path of the plan lie one above the other. -/
def ActionPlan.Torn (plan : ActionPlan) (holds : CompPath → Bool) : Prop :=
  ∃ p ∈ plan.paths, ∃ q ∈ plan.paths, holds p = true ∧ holds q = false ∧ (Above p q ∨ Above q p)

/-- The check refuses exactly the plans that the gate would tear. -/
theorem splitCheck_eq_ok (h : plan.Proper) :
    splitCheck (heldKeys plan holds) (otherKeys plan holds) = .ok () ↔ ¬ plan.Torn holds := by
  have hcheck : ∀ key key', (if nests key key' || nests key' key then
      (.error (.structuralSplit key key') : Except ConvergenceError Unit) else .ok ()) = .ok () ↔
        ¬ (nests key key' = true ∨ nests key' key = true) := by
    intro key key'
    by_cases hn : nests key key' || nests key' key
    · rw [if_pos hn]
      exact iff_of_false (by simp) (not_not.2 (by simpa using hn))
    · rw [if_neg hn]
      exact iff_of_true rfl (by simpa using hn)
  unfold splitCheck
  simp only [forM_eq_ok, hcheck]
  constructor
  · rintro hall ⟨p, hp, q, hq, hholds, hfree, habove⟩
    refine hall _ (mem_heldKeys.2 ⟨p, hp, hholds, rfl⟩) _ (mem_otherKeys.2 ⟨q, hq, hfree, rfl⟩) ?_
    rwa [nests_iff (h.noSlash p hp) (h.noSlash q hq) (h.ne_nil p hp) (h.ne_nil q hq),
      nests_iff (h.noSlash q hq) (h.noSlash p hp) (h.ne_nil q hq) (h.ne_nil p hp)]
  · intro hwhole key hkey key' hkey' hn
    obtain ⟨p, hp, hholds, rfl⟩ := mem_heldKeys.1 hkey
    obtain ⟨q, hq, hfree, rfl⟩ := mem_otherKeys.1 hkey'
    rw [nests_iff (h.noSlash p hp) (h.noSlash q hq) (h.ne_nil p hp) (h.ne_nil q hq),
      nests_iff (h.noSlash q hq) (h.noSlash p hp) (h.ne_nil q hq) (h.ne_nil p hp)] at hn
    exact hwhole ⟨p, hp, q, hq, hholds, hfree, hn⟩

/-! ## What is recorded -/

/-- What is recorded of a held path is what its operations say. -/
structure HeldAs (plan : ActionPlan) (p : CompPath) (held : HeldPath) : Prop where
  path : held.path = joinPath p
  conflict : ∀ c ∈ plan.conflicts, c.path = p → held.decision = .conflict (some c.winner)
  write : (∀ c ∈ plan.conflicts, c.path ≠ p) → ∀ op ∈ plan.materialize, op.path = p →
    held.decision = if op.result.isSome then .remoteApply else .remoteDelete
  copy : (∀ c ∈ plan.conflicts, c.path ≠ p) → (∀ op ∈ plan.materialize, op.path ≠ p) →
    held.decision = .conflict none
  chunks : held.chunks =
    ((plan.materialize.filter (·.path = p)).flatMap fun op => Decided.chunksOf op.result) ++
      (plan.quarantine.filter (·.path = p)).flatMap fun q => q.content.storeChunks

end

theorem filter_eq_find {β : Type} [DecidableEq β] {f : α → β} {l : List α} (h : (l.map f).Nodup) (b : β) :
    l.filter (f · = b) = (l.find? (f · = b)).toList := by
  induction l with
  | nil => rfl
  | cons a l ih =>
    rw [map_cons, nodup_cons] at h
    by_cases ha : f a = b
    · have hnone : l.filter (f · = b) = [] := by
        rw [filter_eq_nil_iff]
        intro a' ha' heq
        exact h.1 (mem_map.2 ⟨a', ha', by simpa [ha] using heq⟩)
      simp [ha, hnone]
    · simp [ha, ih h.2]

section
variable {holds : CompPath → Bool}

theorem find_key (h : plan.Proper) {f : α → CompPath} {l : List α} (hl : ∀ a ∈ l, f a ∈ plan.paths)
    (hp : p ∈ plan.paths) (hholds : holds p = true) :
    l.find? (fun a => holds (f a) && joinPath (f a) = joinPath p) = l.find? (f · = p) := by
  rw [← head?_filter, ← head?_filter]
  refine congrArg _ (filter_congr fun a ha => ?_)
  rw [Bool.eq_iff_iff, Bool.and_eq_true, decide_eq_true_eq, decide_eq_true_eq]
  constructor
  · rintro ⟨-, heq⟩
    exact joinPath_inj (h.noSlash _ (hl a ha)) (h.noSlash p hp) (h.ne_nil _ (hl a ha)) (h.ne_nil p hp) heq
  · rintro rfl
    exact ⟨hholds, rfl⟩

theorem listed_iff_find {β : Type} [DecidableEq β] {f : α → β} {l : List α} (h : (l.map f).Nodup) {b : β}
    {a : α} : a ∈ l ∧ f a = b ↔ l.find? (f · = b) = some a := by
  have hmem : a ∈ l.filter (f · = b) ↔ a ∈ (l.find? (f · = b)).toList := by rw [filter_eq_find h b]
  simpa [eq_comm] using hmem

theorem storedChunks_eq (o : Option QuarantineOp) : (match o.map QuarantineOp.content with
    | some (.fromStore _ _ _ _ chunks _) => chunks
    | _ => []) = o.toList.flatMap fun q => q.content.storeChunks := by
  cases o with
  | none => rfl
  | some q => cases hq : q.content <;> simp [hq, LoserContent.storeChunks]

/-- A held path carries what the plan would have done there. -/
theorem heldPath_heldAs (h : plan.Proper) (hp : p ∈ plan.paths) (hholds : holds p = true) :
    HeldAs plan p (heldPath plan holds (joinPath p)) := by
  have hmat := find_key h (fun op hop => ActionPlan.mem_paths.2 (.inl ⟨op, hop, rfl⟩)) hp hholds
  have hqtn := find_key h (fun q hq => ActionPlan.mem_paths.2 (.inr (.inl ⟨q, hq, rfl⟩))) hp hholds
  have hcon := find_key h (fun c hc => ActionPlan.mem_paths.2 (.inr (.inr ⟨c, hc, rfl⟩))) hp hholds
  have hmatOnly := fun op => listed_iff_find h.materialize (b := p) (a := op)
  have hqtnOnly := fun q => listed_iff_find h.quarantine (b := p) (a := q)
  have hconOnly := fun c => listed_iff_find h.conflicts (b := p) (a := c)
  unfold heldPath
  rw [hmat, hqtn, hcon]
  constructor
  · rfl
  · intro c hc hpath
    rw [(hconOnly c).1 ⟨hc, hpath⟩]
  · intro hno op hop hpath
    have hnone : plan.conflicts.find? (·.path = p) = none :=
      find?_eq_none.2 fun c hc => by simpa using hno c hc
    rw [hnone, (hmatOnly op).1 ⟨hop, hpath⟩]
    cases hresult : op.result with
    | none | some => simp [hresult]
  · intro hno hnop
    have hnone : plan.conflicts.find? (·.path = p) = none :=
      find?_eq_none.2 fun c hc => by simpa using hno c hc
    have hnone' : plan.materialize.find? (·.path = p) = none :=
      find?_eq_none.2 fun op hop => by simpa using hnop op hop
    rw [hnone, hnone']
    rfl
  · rw [filter_eq_find h.materialize, filter_eq_find h.quarantine]
    cases hm : plan.materialize.find? (·.path = p) with
    | none => exact storedChunks_eq _
    | some op =>
      obtain ⟨hop, hpath⟩ := (hmatOnly op).2 hm
      cases hresult : op.result with
      | none =>
        simp only [Option.bind_some, hresult, Option.toList_some, flatMap_singleton]
        exact storedChunks_eq _
      | some =>
        have hnone : (plan.quarantine.find? (·.path = p)).toList.flatMap
            (fun q => q.content.storeChunks) = [] := by
          rw [flatMap_eq_nil_iff]
          intro q hq
          obtain ⟨hmem, hqpath⟩ := (hqtnOnly q).2 (by simpa using hq)
          exact h.copies op hop q hmem (hpath.trans hqpath.symm)
        simp [hresult, hnone, Decided.chunksOf]

/-! ## The split -/

/-- The applied plan and the held list, as a split of the plan by the predicate. -/
structure GateSplit (plan : ActionPlan) (holds : CompPath → Bool) (applied : ActionPlan)
    (held : List HeldPath) : Prop where
  materialize : applied.materialize = plan.materialize.filter fun op => ! holds op.path
  quarantine : applied.quarantine = plan.quarantine.filter fun q => ! holds q.path
  conflicts : applied.conflicts = plan.conflicts.filter fun c => ! holds c.path
  send : applied.send = plan.send
  fetch : applied.fetch = plan.fetch
  hasLocalWins : applied.hasLocalWins = plan.hasLocalWins
  once : ∀ p ∈ plan.paths, holds p = true → ∃ h, held.filter (·.path = joinPath p) = [h] ∧ HeldAs plan p h
  onlyHeld : ∀ h ∈ held, ∃ p ∈ plan.paths, holds p = true ∧ h.path = joinPath p
  apart : ∀ p ∈ plan.paths, holds p = true → ∀ q ∈ applied.paths, ¬ Above p q ∧ ¬ Above q p
  unheld : (∀ p ∈ plan.paths, holds p = false) → applied = plan ∧ held = []

theorem filter_unheld {f : α → CompPath} {l : List α} (h : ∀ a ∈ l, holds (f a) = false) :
    l.filter (fun a => ! holds (f a)) = l := by
  rw [filter_eq_self]
  intro a ha
  rw [h a ha]
  rfl

theorem applied_paths {applied : ActionPlan}
    (hmat : applied.materialize = plan.materialize.filter fun op => ! holds op.path)
    (hqtn : applied.quarantine = plan.quarantine.filter fun q => ! holds q.path)
    (hcon : applied.conflicts = plan.conflicts.filter fun c => ! holds c.path)
    (hp : p ∈ applied.paths) : p ∈ plan.paths ∧ holds p = false := by
  rw [ActionPlan.mem_paths, hmat, hqtn, hcon] at hp
  simp only [mem_filter, Bool.not_eq_true'] at hp
  rw [ActionPlan.mem_paths]
  rcases hp with ⟨op, ⟨hop, hfree⟩, rfl⟩ | ⟨q, ⟨hq, hfree⟩, rfl⟩ | ⟨c, ⟨hc, hfree⟩, rfl⟩
  · exact ⟨.inl ⟨op, hop, rfl⟩, hfree⟩
  · exact ⟨.inr (.inl ⟨q, hq, rfl⟩), hfree⟩
  · exact ⟨.inr (.inr ⟨c, hc, rfl⟩), hfree⟩

theorem gateSplit_unheld (h : ∀ p ∈ plan.paths, holds p = false) : GateSplit plan holds plan [] where
  materialize := (filter_unheld fun op hop => h _ (ActionPlan.mem_paths.2 (.inl ⟨op, hop, rfl⟩))).symm
  quarantine := (filter_unheld fun q hq => h _ (ActionPlan.mem_paths.2 (.inr (.inl ⟨q, hq, rfl⟩)))).symm
  conflicts := (filter_unheld fun c hc => h _ (ActionPlan.mem_paths.2 (.inr (.inr ⟨c, hc, rfl⟩)))).symm
  send := rfl
  fetch := rfl
  hasLocalWins := rfl
  once p hp hholds := by simp [h p hp] at hholds
  onlyHeld h hh := by cases hh
  apart p hp hholds := by simp [h p hp] at hholds
  unheld _ := ⟨rfl, rfl⟩

theorem held_once (hp : p ∈ plan.paths) (hholds : holds p = true) :
    ((heldKeys plan holds).map (heldPath plan holds)).filter (·.path = joinPath p) =
      [heldPath plan holds (joinPath p)] := by
  have hpaths : ((heldKeys plan holds).map (heldPath plan holds)).map (·.path) = heldKeys plan holds := by
    rw [map_map]
    exact map_id _
  have hnodup : (((heldKeys plan holds).map (heldPath plan holds)).map (·.path)).Nodup := by
    rw [hpaths]
    exact heldKeys_nodup
  rw [filter_eq_find hnodup]
  have hfound : ((heldKeys plan holds).map (heldPath plan holds)).find? (·.path = joinPath p) =
      some (heldPath plan holds (joinPath p)) := by
    refine (listed_iff_find hnodup).1 ⟨mem_map.2 ⟨joinPath p, ?_, rfl⟩, rfl⟩
    exact mem_heldKeys.2 ⟨p, hp, hholds, rfl⟩
  rw [hfound]
  rfl

/-- The gate splits a proper plan, or refuses it if it would be torn. -/
theorem ActionPlan.Proper.gate_split (h : plan.Proper) (holds : CompPath → Bool) :
    (∀ applied held, gatePlan plan holds = .ok (applied, held) → GateSplit plan holds applied held) ∧
      ((∃ e, gatePlan plan holds = .error e) ↔ plan.Torn holds) := by
  by_cases hnone : heldKeys plan holds = []
  · have hall := heldKeys_eq_nil.1 hnone
    have hgate : gatePlan plan holds = .ok (plan, []) := if_pos hnone
    rw [hgate]
    refine ⟨?_, ?_⟩
    · intro applied held heq
      cases heq
      exact gateSplit_unheld hall
    · refine iff_of_false (by simp) ?_
      rintro ⟨p, hp, q, -, hholds, -⟩
      rw [hall p hp] at hholds
      cases hholds
  · rw [gatePlan, if_neg hnone]
    cases hcheck : splitCheck (heldKeys plan holds) (otherKeys plan holds) with
    | error e =>
      refine ⟨?_, iff_of_true ⟨e, rfl⟩ ?_⟩
      · intro applied held heq
        cases heq
      · by_contra hwhole
        rw [(splitCheck_eq_ok h).2 hwhole] at hcheck
        cases hcheck
    | ok =>
      have hwhole := (splitCheck_eq_ok h).1 hcheck
      refine ⟨?_, iff_of_false (by simp) hwhole⟩
      intro applied held heq
      cases heq
      refine ⟨rfl, rfl, rfl, rfl, rfl, rfl, ?_, ?_, ?_, ?_⟩
      · intro p hp hholds
        exact ⟨_, held_once hp hholds, heldPath_heldAs h hp hholds⟩
      · intro r hr
        obtain ⟨key, hkey, rfl⟩ := mem_map.1 hr
        obtain ⟨p, hp, hholds, rfl⟩ := mem_heldKeys.1 hkey
        exact ⟨p, hp, hholds, rfl⟩
      · intro p hp hholds q hq
        obtain ⟨hq, hfree⟩ := applied_paths rfl rfl rfl hq
        exact ⟨fun habove => hwhole ⟨p, hp, q, hq, hholds, hfree, .inl habove⟩,
          fun habove => hwhole ⟨p, hp, q, hq, hholds, hfree, .inr habove⟩⟩
      · intro hall
        exact absurd (heldKeys_eq_nil.2 hall) hnone

end

/-- `gate_plan` splits the plan of a reconciliation without loss, and fails only where a split would
tear the tree. -/
theorem gatePlan_splits [Env] {st st' : Store} {fuel : Nat} {localM remoteM : RootManifest}
    {base : Option RootManifest} (h : reconcile st fuel localM remoteM base = .ok (plan, st'))
    (holds : CompPath → Bool) :
    (∀ applied held, gatePlan plan holds = .ok (applied, held) → GateSplit plan holds applied held) ∧
      ((∃ e, gatePlan plan holds = .error e) ↔ plan.Torn holds) :=
  (reconcile_proper h).gate_split holds

open Sample in
/-- Of two conflicts, with a copy of each loser, the one whose copy comes from the store is held. -/
theorem gatePlan_splits_edited : ∃ plan st' applied,
    reconcile editedStore 2 (childOf 1 editedHere) (childOf 2 editedThere) none = .ok (plan, st') ∧
      plan.quarantine.map (·.path) = [["a"], ["b"]] ∧ applied.quarantine.map (·.path) = [["a"]] ∧
      applied.conflicts.map (·.path) = [["a"]] ∧
      GateSplit plan (· == ["b"]) applied [⟨"b", .conflict (some .localSide), [(ByteArr.fill 32 5, 1)]⟩] := by
  have hok : ((reconcile editedStore 2 (childOf 1 editedHere) (childOf 2 editedThere) none).toOption.any fun r =>
      r.1.quarantine.map (·.path) = [["a"], ["b"]] ∧ (gatePlan r.1 (· == ["b"])).toOption.any fun g =>
        g.1.quarantine.map (·.path) = [["a"]] ∧ g.1.conflicts.map (·.path) = [["a"]] ∧
        g.2 = [⟨"b", .conflict (some .localSide), [(ByteArr.fill 32 5, 1)]⟩]) = true := by
    decide +kernel
  obtain ⟨r, hrun, hr⟩ := exists_of_any hok
  obtain ⟨hkept, hsplit⟩ := of_decide_eq_true hr
  obtain ⟨g, hgate, hg⟩ := exists_of_any hsplit
  obtain ⟨hquar, hconf, hheld⟩ := of_decide_eq_true hg
  refine ⟨r.1, r.2, g.1, hrun, hkept, hquar, hconf, ?_⟩
  rw [← hheld]
  exact (gatePlan_splits hrun _).1 _ _ hgate

end Ferry
