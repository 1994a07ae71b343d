import Ferry.Sync.Merge

/-! # What the plan contains

From the index of both change sets, `planFrom` computes the decisions of the
merge and what follows from them along the tree: which removals are given up,
which directories come back, and that above every path to be written there is no
file or link left.
-/

namespace Ferry

open Lib List

theorem filterMap_map_sublist {α β γ : Type} {f : α → Option β} {g : β → γ} {g' : α → γ}
    (h : ∀ a b, f a = some b → g b = g' a) (l : List α) :
    ((l.filterMap f).map g).Sublist (l.map g') := by
  induction l with
  | nil => exact List.Sublist.refl _
  | cons a l ih =>
    cases hb : f a with
    | none =>
      rw [filterMap_cons_none hb]
      exact ih.cons _
    | some b =>
      rw [filterMap_cons_some hb, map_cons, h a b hb]
      exact ih.cons_cons _

/-- The two views index the visible changes of both sides. -/
structure Merge.Indexed (M : Merge) (localView remoteView : ViewMap) : Prop where
  mine : ∀ {k v}, localView.lookup k = some v ↔
    ∃ p, Lists M.base M.mine p ∧ joinPath p = k ∧ v = (p, ⟨M.base p, M.mine p⟩)
  theirs : ∀ {k v}, remoteView.lookup k = some v ↔
    ∃ p, Lists M.base M.theirs p ∧ joinPath p = k ∧ v = (p, ⟨M.base p, M.theirs p⟩)

variable {synth : AList (fun _ : String => EntryState)} {op : MaterializeOp} {q : QuarantineOp}
  {k : String} {d : Decided} {remoteDev localDev : BlobId}

namespace Merge

variable {M : Merge} {localView remoteView : ViewMap}

theorem indexed {localDiff remoteDiff : ChangeSet} (hl : Exact M.base M.mine [] localDiff)
    (hr : Exact M.base M.theirs [] remoteDiff) :
    M.Indexed (indexChangeSet localDiff) (indexChangeSet remoteDiff) where
  mine := hl.lookup_index M.baseTree M.mineTree M.baseSlash M.mineSlash
  theirs := hr.lookup_index M.baseTree M.theirsTree M.baseSlash M.theirsSlash

namespace Indexed

variable (h : M.Indexed localView remoteView)
include h

/-! ## The rounds of the loop -/

omit h in
theorem lookup_or {side : CompPath → Option EntryState} {view : ViewMap}
    (hview : ∀ {k v}, view.lookup k = some v ↔
      ∃ p, Lists M.base side p ∧ joinPath p = k ∧ v = (p, ⟨M.base p, side p⟩))
    (htree : IsTree EntryState.IsDir side) (hslash : Slashless side) {p : CompPath} (hp : M.Touched p) :
    (Lists M.base side p ∧ view.lookup (joinPath p) = some (p, ⟨M.base p, side p⟩)) ∨
      (¬ Lists M.base side p ∧ view.lookup (joinPath p) = none) := by
  by_cases hl : Lists M.base side p
  · exact .inl ⟨hl, hview.2 ⟨p, hl, rfl, rfl⟩⟩
  refine .inr ⟨hl, ?_⟩
  by_contra hsome
  obtain ⟨v, hv⟩ := Option.ne_none_iff_exists'.1 hsome
  obtain ⟨q, hq, hk, -⟩ := hview.1 hv
  exact hl (joinPath_inj (hq.noSlash M.baseSlash hslash) hp.noSlash (hq.ne_nil M.baseTree htree) hp.ne_nil hk ▸ hq)

theorem decidedAt_touched {p : CompPath} (hp : M.Touched p) :
    decidedAt M.localDev M.remoteDev localView remoteView (joinPath p) = some (M.decided p) := by
  rcases lookup_or h.mine M.mineTree M.mineSlash hp with ⟨hl, hlv⟩ | ⟨hl, hlv⟩ <;>
    rcases lookup_or h.theirs M.theirsTree M.theirsSlash hp with ⟨hr, hrv⟩ | ⟨hr, hrv⟩
  · simp [decidedAt, hlv, hrv, sidesAt, decided, decision, mineAt_of_lists hl, theirsAt_of_lists hr]
  · simp [decidedAt, hlv, hrv, sidesAt, decided, decision, mineAt_of_lists hl, theirsAt_of_not_lists hr]
  · simp [decidedAt, hlv, hrv, sidesAt, decided, decision, mineAt_of_not_lists hl, theirsAt_of_lists hr]
  · exact (hp.elim hl hr).elim

theorem mem_mergedKeys :
    k ∈ mergedKeys localView remoteView ↔ ∃ p, M.Touched p ∧ joinPath p = k := by
  have hkey : ∀ {m : ViewMap}, k ∈ m.keys ↔ ∃ v, m.lookup k = some v := by
    intro m
    rw [← AList.mem_keys, ← AList.lookup_isSome, Option.isSome_iff_exists]
  rw [mergedKeys, (perm_insertionSort _ _).mem_iff, mem_union_iff, hkey, hkey]
  constructor
  · rintro (⟨v, hv⟩ | ⟨v, hv⟩)
    · obtain ⟨p, hp, hk, -⟩ := h.mine.1 hv
      exact ⟨p, .inl hp, hk⟩
    · obtain ⟨p, hp, hk, -⟩ := h.theirs.1 hv
      exact ⟨p, .inr hp, hk⟩
  · rintro ⟨p, hp | hp, hk⟩
    · exact .inl ⟨_, h.mine.2 ⟨p, hp, hk, rfl⟩⟩
    · exact .inr ⟨_, h.theirs.2 ⟨p, hp, hk, rfl⟩⟩

end Indexed

def rounds (M : Merge) (localView remoteView : ViewMap) : List Decided :=
  (mergedKeys localView remoteView).filterMap
    (decidedAt M.localDev M.remoteDev localView remoteView)

theorem Indexed.mem_rounds (h : M.Indexed localView remoteView) :
    d ∈ M.rounds localView remoteView ↔ ∃ p, M.Touched p ∧ M.decided p = d := by
  rw [rounds, mem_filterMap]
  constructor
  · rintro ⟨k, hk, hd⟩
    obtain ⟨p, hp, rfl⟩ := h.mem_mergedKeys.1 hk
    rw [h.decidedAt_touched hp, Option.some.injEq] at hd
    exact ⟨p, hp, hd⟩
  · rintro ⟨p, hp, rfl⟩
    exact ⟨joinPath p, h.mem_mergedKeys.2 ⟨p, hp, rfl⟩, h.decidedAt_touched hp⟩

theorem decidedAt_key (h : decidedAt localDev remoteDev localView remoteView k = some d) : d.key = k := by
  obtain ⟨x, -, rfl⟩ := Option.map_eq_some_iff.1 h
  rfl

theorem rounds_keys_nodup (M : Merge) (localView remoteView : ViewMap) :
    ((M.rounds localView remoteView).map (·.key)).Nodup := by
  have hkeys : (mergedKeys localView remoteView).Nodup :=
    (perm_insertionSort _ _).nodup_iff.2 (List.Nodup.union _ remoteView.keys_nodup)
  have hsub : ((M.rounds localView remoteView).map (·.key)).Sublist
      ((mergedKeys localView remoteView).map id) :=
    filterMap_map_sublist (fun _ _ hd => decidedAt_key hd) _
  rw [map_id] at hsub
  exact hkeys.sublist hsub

theorem Indexed.rounds_paths_nodup (h : M.Indexed localView remoteView) :
    ((M.rounds localView remoteView).map (·.path)).Nodup := by
  have hkeys := rounds_keys_nodup M localView remoteView
  have hmap : (M.rounds localView remoteView).map (·.key) =
      ((M.rounds localView remoteView).map (·.path)).map joinPath := by
    rw [map_map]
    refine map_congr_left fun d hd => ?_
    obtain ⟨p, -, rfl⟩ := h.mem_rounds.1 hd
    rfl
  rw [hmap] at hkeys
  exact List.Nodup.of_map _ hkeys

end Merge

/-! ## What the loop gathers -/

/-- What is kept of the loser of a round; nothing if the loop stops there. -/
def Decided.kept (localDev remoteDev : BlobId) (d : Decided) : Option QuarantineOp :=
  match d.quarantineOp localDev remoteDev with
  | .ok q => q
  | .error _ => none

/-- The lists that the loop returns with, from those it started with. -/
structure Gathers (localDev remoteDev : BlobId) (rounds : List Decided) (pr pr' : Progress) : Prop where
  noStop : ∀ d ∈ rounds, ∃ q, d.quarantineOp localDev remoteDev = .ok q
  decided : pr'.decided = pr.decided ++ rounds
  materialize : pr'.materialize = pr.materialize ++ rounds.filterMap Decided.materializeOp
  quarantine : pr'.quarantine = pr.quarantine ++ rounds.filterMap (Decided.kept localDev remoteDev)
  conflicts : pr'.conflicts = pr.conflicts ++ rounds.filterMap (Decided.plannedConflict localDev remoteDev)

theorem materializeOp_path (h : d.materializeOp = some op) :
    op.path = d.path := by
  unfold Decided.materializeOp at h
  split at h <;> cases h <;> rfl

theorem kept_path (h : d.kept localDev remoteDev = some q) : q.path = d.path := by
  unfold Decided.kept Decided.quarantineOp at h
  split at h
  · rename_i q' hq
    subst h
    split at hq
    · split at hq
      · cases hq
      · split at hq <;> cases hq
        rfl
    · cases hq
  · cases h

theorem plannedConflict_path {c : PlannedConflict} (h : d.plannedConflict localDev remoteDev = some c) :
    c.path = d.path := by
  unfold Decided.plannedConflict at h
  split at h <;> cases h
  rfl

theorem filterMap_cons_toList {α β : Type} (f : α → Option β) (a : α) (l : List α) :
    (a :: l).filterMap f = (f a).toList ++ l.filterMap f := by
  cases h : f a with
  | none => rw [filterMap_cons_none h]; rfl
  | some => rw [filterMap_cons_some h]; rfl

/-- The loop over the paths gathers what each round decides. -/
theorem gathers_of_ok {rounds : List Decided} {pr pr' : Progress}
    (h : rounds.foldlM (Progress.step localDev remoteDev) pr = .ok pr') :
    Gathers localDev remoteDev rounds pr pr' := by
  induction rounds generalizing pr with
  | nil =>
    cases h
    exact ⟨by simp, by simp, by simp, by simp, by simp⟩
  | cons d rounds ih =>
    obtain ⟨mid, hstep, hrest⟩ := bind_eq_ok.1 h
    obtain ⟨q, hq, hmid⟩ := bind_eq_ok.1 hstep
    cases hmid
    have hrec := ih hrest
    have hkept : d.kept localDev remoteDev = q := by simp [Decided.kept, hq]
    refine ⟨?_, ?_, ?_, ?_, ?_⟩
    · intro d' hd'
      rcases mem_cons.1 hd' with rfl | hd'
      · exact ⟨q, hq⟩
      · exact hrec.noStop d' hd'
    · simp [hrec.decided]
    · rw [hrec.materialize, filterMap_cons_toList, append_assoc]
    · rw [hrec.quarantine, filterMap_cons_toList, hkept, append_assoc]
    · rw [hrec.conflicts, filterMap_cons_toList, append_assoc]

/-! ## The directories above the targets -/

theorem mem_properPrefixes {e p : CompPath} : e ∈ properPrefixes p ↔ e ≠ [] ∧ Above e p := by
  simp only [properPrefixes, mem_map, mem_range'_1]
  constructor
  · rintro ⟨i, ⟨hlo, hhi⟩, rfl⟩
    have hlen : (p.take i).length = i := by
      rw [length_take]
      omega
    refine ⟨fun hnil => ?_, above_iff_isPrefix.2 ⟨ take_prefix i p, fun heq => ?_⟩⟩
    · rw [hnil, length_nil] at hlen
      omega
    · rw [heq] at hlen
      omega
  · rintro ⟨hne, habove⟩
    have hlt := habove.length_lt
    have hpos := length_pos_iff.2 hne
    refine ⟨e.length, ⟨by omega, by omega⟩, ?_⟩
    exact (prefix_iff_eq_take.1 (above_iff_isPrefix.1 habove).1).symm

section
variable {suppressed : List String} {final : String → Option (Option EntryState)}
  {baseOf : String → Option EntryState}

/-- The check above a target passes at the key. -/
def KeyPasses (suppressed : List String) (final : String → Option (Option EntryState))
    (baseOf : String → Option EntryState) (key : String) : Prop :=
  key ∈ suppressed ∨ match final key with
    | some none => ∃ s, baseOf key = some s ∧ s.kind = .dir
    | some (some s) => s.kind = .dir
    | none => True

/-- What the check has collected after the keys in `K`. -/
structure SynthFrom (suppressed : List String) (final : String → Option (Option EntryState))
    (baseOf : String → Option EntryState) (K : String → Prop)
    (synth : AList (fun _ : String => EntryState)) : Prop where
  passes : ∀ k, K k → KeyPasses suppressed final baseOf k
  lookup : ∀ {k s}, synth.lookup k = some s ↔ K k ∧ k ∉ suppressed ∧ final k = some none ∧ baseOf k = some s

variable {K : String → Prop} {synth' : AList (fun _ : String => EntryState)}

section
variable (h : SynthFrom suppressed final baseOf K synth)
include h

theorem SynthFrom.congr {K' : String → Prop} (hK : ∀ k, K' k ↔ K k) :
    SynthFrom suppressed final baseOf K' synth := by
  obtain rfl : K' = K := funext fun k => propext (hK k)
  exact h

theorem SynthFrom.mem (hk : k ∈ synth) :
    ∃ s, synth.lookup k = some s ∧ K k ∧ k ∉ suppressed ∧ final k = some none ∧ baseOf k = some s := by
  obtain ⟨s, hs⟩ := Option.isSome_iff_exists.1 (AList.lookup_isSome.2 hk)
  exact ⟨s, hs, h.lookup.1 hs⟩

/-- The step lemma for the ancestors of a target, one case for each way to settle one. -/
theorem SynthFrom.step {target anc : CompPath}
    (hstep : synthStep suppressed final baseOf target synth anc = .ok synth') :
    SynthFrom suppressed final baseOf (fun k => K k ∨ k = joinPath anc) synth' := by
  unfold synthStep at hstep
  dsimp only at hstep
  split at hstep
  · rename_i hskip
    cases hstep
    refine ⟨fun k hk => ?_, ?_⟩
    · rcases hk with hk | rfl
      · exact h.passes k hk
      · rcases hskip with hsup | hin
        · exact .inl hsup
        · exact h.passes _ (h.mem hin).choose_spec.2.1
    · intro k s
      rw [h.lookup]
      refine ⟨fun hk => ⟨.inl hk.1, hk.2⟩, ?_⟩
      rintro ⟨hk | rfl, hrest⟩
      · exact ⟨hk, hrest⟩
      · rcases hskip with hsup | hin
        · exact absurd hsup hrest.1
        · exact ⟨(h.mem hin).choose_spec.2.1, hrest⟩
  · rename_i hnot
    simp only [not_or] at hnot
    have hsame : ∀ {synth' : AList (fun _ : String => EntryState)}, synth' = synth →
        KeyPasses suppressed final baseOf (joinPath anc) → final (joinPath anc) ≠ some none →
        SynthFrom suppressed final baseOf (fun k => K k ∨ k = joinPath anc) synth' := by
      rintro _ rfl hpass hfin
      refine ⟨fun k hk => hk.elim (h.passes k) (fun heq => heq ▸ hpass), ?_⟩
      intro k s
      rw [h.lookup]
      refine ⟨fun hk => ⟨.inl hk.1, hk.2⟩, ?_⟩
      rintro ⟨hk | rfl, hrest⟩
      · exact ⟨hk, hrest⟩
      · exact absurd hrest.2.1 hfin
    split at hstep
    · rename_i hfin
      split at hstep
      · rename_i s hbase
        split at hstep
        · rename_i hdir
          cases hstep
          have hpass : KeyPasses suppressed final baseOf (joinPath anc) := by
            right
            simp [hfin, hbase, hdir]
          refine ⟨fun k hk => hk.elim (h.passes k) (fun heq => heq ▸ hpass), ?_⟩
          intro k s'
          by_cases hk : k = joinPath anc
          · subst hk
            rw [AList.lookup_insert]
            constructor
            · rintro hs
              cases hs
              exact ⟨.inr rfl, hnot.1, hfin, hbase⟩
            · rintro ⟨-, -, -, hs⟩
              rw [hbase] at hs
              exact hs
          · rw [AList.lookup_insert_ne hk, h.lookup]
            simp [hk]
        · cases hstep
      · cases hstep
    · rename_i s hfin
      split at hstep
      · cases hstep
      · rename_i hdir
        exact hsame (by cases hstep; rfl) (.inr (by simpa [hfin] using hdir)) (by simp [hfin])
    · rename_i hfin
      exact hsame (by cases hstep; rfl) (.inr (by simp [hfin])) (by simp [hfin])

theorem SynthFrom.steps {target : CompPath} {l : List CompPath}
    (hrun : l.foldlM (synthStep suppressed final baseOf target) synth = .ok synth') :
    SynthFrom suppressed final baseOf (fun k => K k ∨ ∃ e ∈ l, k = joinPath e) synth' := by
  induction l generalizing K synth with
  | nil =>
    cases hrun
    exact h.congr (by simp)
  | cons e l ih =>
    obtain ⟨mid, hstep, hrest⟩ := bind_eq_ok.1 hrun
    exact (ih (h.step hstep) hrest).congr (by simp [or_assoc])

end

/-- The run lemma: which ancestors are synthesized. -/
theorem synthDirs_from {targets : List CompPath}
    (hrun : synthDirs suppressed final baseOf targets = .ok synth) :
    SynthFrom suppressed final baseOf
      (fun k => ∃ t ∈ targets, ∃ e ∈ properPrefixes t, k = joinPath e) synth := by
  suffices h : ∀ (l : List CompPath) (K : String → Prop) (synth₀ synth₁ : AList fun _ => EntryState),
      SynthFrom suppressed final baseOf K synth₀ →
      l.foldlM (fun synth target =>
        (properPrefixes target).foldlM (synthStep suppressed final baseOf target) synth) synth₀ = .ok synth₁ →
      SynthFrom suppressed final baseOf
        (fun k => K k ∨ ∃ t ∈ l, ∃ e ∈ properPrefixes t, k = joinPath e) synth₁ by
    refine (h targets (fun _ => False) ∅ synth ⟨fun _ hk => hk.elim, ?_⟩ hrun).congr (by simp)
    simp
  intro l
  induction l with
  | nil =>
    intro K synth₀ synth₁ h₀ hrun
    cases hrun
    exact h₀.congr (by simp)
  | cons t l ih =>
    intro K synth₀ synth₁ h₀ hrun
    obtain ⟨mid, hstep, hrest⟩ := bind_eq_ok.1 hrun
    exact (ih _ _ _ (h₀.steps hstep) hrest).congr (by simp [or_assoc])

end

/-! ## The plan of a merge -/

namespace Merge

variable {M : Merge} {p : CompPath}

theorem materializeOp_decided :
    (M.decided p).materializeOp = some op ↔ M.Takes p ∧ op = ⟨p, M.base p, M.theirs p⟩ := by
  have htheirs : M.Takes p → M.theirsAt p = M.theirs p := Takes.theirsAt
  unfold Takes at htheirs ⊢
  unfold Decided.materializeOp decided
  cases hd : M.decision p with
  | nothing | keepLocal => simp
  | applyRemote => simp [htheirs (.inl hd), eq_comm]
  | conflict kind winner =>
    cases winner with
    | localSide => simp
    | remoteSide => simp [htheirs (.inr ⟨kind, hd⟩), eq_comm]

def Keeps (M : Merge) (p : CompPath) (q : QuarantineOp) : Prop :=
  ∃ kind winner lost, M.decision p = .conflict kind winner ∧
    (M.decided p).winnerState winner.other = some lost ∧ lost.kind ≠ .dir ∧
    q = ⟨p, Decided.deviceOf M.localDev M.remoteDev winner.other, lost.mtimeSec, lost.mtimeNsec,
      lost.exec, Decided.loserContent winner.other lost⟩

/-- A round keeps a loser exactly if the merge does. -/
theorem kept_decided : (M.decided p).kept M.localDev M.remoteDev = some q ↔ M.Keeps p q := by
  unfold Decided.kept Decided.quarantineOp Keeps
  have hdec : (M.decided p).decision = M.decision p := rfl
  rw [hdec]
  cases hd : M.decision p with
  | nothing | keepLocal | applyRemote => simp
  | conflict kind winner =>
    dsimp only
    cases hlost : (M.decided p).winnerState winner.other with
    | none => simp [hlost]
    | some lost =>
      by_cases hdir : lost.kind = .dir
      · simp only [hdir, if_true, reduceCtorEq, false_iff]
        rintro ⟨kind', winner', lost', heq, hlost', hnd, -⟩
        cases heq
        rw [hlost] at hlost'
        cases hlost'
        exact hnd hdir
      · simp only [hdir, if_false, Option.some.injEq]
        constructor
        · rintro rfl
          exact ⟨kind, winner, lost, rfl, hlost, hdir, rfl⟩
        · rintro ⟨kind', winner', lost', heq, hlost', -, rfl⟩
          cases heq
          rw [hlost] at hlost'
          cases hlost'
          rfl

theorem Keeps.path (h : M.Keeps p q) : q.path = p := by
  obtain ⟨kind, winner, lost, -, -, -, rfl⟩ := h
  rfl

theorem Keeps.quarantines (h : M.Keeps p q) : M.Quarantines p := by
  obtain ⟨kind, winner, lost, hd, hlost, -, -⟩ := h
  exact ⟨kind, winner, lost, hd, hlost⟩

/-- The plan that reconciliation makes for the merge. -/
structure PlanOf (M : Merge) (plan : ActionPlan) : Prop where
  materialize : ∀ {op}, op ∈ plan.materialize ↔
    (∃ p, M.Takes p ∧ ¬ M.Suppressed p ∧ op = ⟨p, M.base p, M.theirs p⟩) ∨
      ∃ p s, M.Synthesized p ∧ M.base p = some s ∧ op = ⟨p, none, some s⟩
  nodup : (plan.materialize.map (·.path)).Nodup
  quarantine : ∀ {q}, q ∈ plan.quarantine ↔ ∃ p, M.Keeps p q
  quarantineNodup : (plan.quarantine.map (·.path)).Nodup
  /-- A losing directory would have stopped the loop. -/
  noDirLoses : ∀ {p kind winner lost}, M.decision p = .conflict kind winner →
    (M.decided p).winnerState winner.other = some lost → lost.kind ≠ .dir
  conflicts : ∀ {c}, c ∈ plan.conflicts ↔
    ∃ p, M.Touched p ∧ (M.decided p).plannedConflict M.localDev M.remoteDev = some c
  conflictsNodup : (plan.conflicts.map (·.path)).Nodup
  hasLocalWins : plan.hasLocalWins = true ↔ ∃ p, (M.decided p).isLocalWin = true
  /-- Above a target there is a directory in the end, or one that comes back. -/
  aboveTarget : ∀ {t e}, M.Target t → e ≠ [] → Above e t → M.Suppressed e ∨ match M.outcome e with
    | some none => ∃ s, M.base e = some s ∧ s.kind = .dir
    | some (some s) => s.kind = .dir
    | none => True

/-! ## Reading the lists of the loop as properties of paths -/

section
variable {localView remoteView : ViewMap} {pr : Progress} (h : M.Indexed localView remoteView)
  (hg : Gathers M.localDev M.remoteDev (M.rounds localView remoteView) {} pr)
include h hg

omit hg in
theorem mem_filterMap_rounds {α : Type} {f : Decided → Option α} {x : α} :
    x ∈ [] ++ (M.rounds localView remoteView).filterMap f ↔ ∃ p, M.Touched p ∧ f (M.decided p) = some x := by
  rw [nil_append, mem_filterMap]
  constructor
  · rintro ⟨d, hd, hx⟩
    obtain ⟨p, hp, rfl⟩ := h.mem_rounds.1 hd
    exact ⟨p, hp, hx⟩
  · rintro ⟨p, hp, hx⟩
    exact ⟨_, h.mem_rounds.2 ⟨p, hp, rfl⟩, hx⟩

theorem mem_gathered_materialize :
    op ∈ pr.materialize ↔ ∃ p, M.Takes p ∧ op = ⟨p, M.base p, M.theirs p⟩ := by
  rw [hg.materialize, mem_filterMap_rounds h]
  simp only [materializeOp_decided]
  exact exists_congr fun p => and_iff_right_of_imp fun hp => hp.1.touched

theorem mem_gathered_quarantine : q ∈ pr.quarantine ↔ ∃ p, M.Keeps p q := by
  rw [hg.quarantine, mem_filterMap_rounds h]
  simp only [kept_decided]
  exact exists_congr fun p => and_iff_right_of_imp fun hp => hp.quarantines.touched

theorem mem_gathered_conflicts {c : PlannedConflict} : c ∈ pr.conflicts ↔
    ∃ p, M.Touched p ∧ (M.decided p).plannedConflict M.localDev M.remoteDev = some c := by
  rw [hg.conflicts, mem_filterMap_rounds h]

theorem gathered_noDirLoses {kind : ConflictKind} {winner : Side} {lost : EntryState}
    (hd : M.decision p = .conflict kind winner)
    (hlost : (M.decided p).winnerState winner.other = some lost) : lost.kind ≠ .dir := by
  intro hdir
  obtain ⟨q, hq⟩ := hg.noStop _ (h.mem_rounds.2 ⟨p, .inl (lists_of_conflict hd).1, rfl⟩)
  unfold Decided.quarantineOp at hq
  have hdec : (M.decided p).decision = .conflict kind winner := hd
  rw [hdec] at hq
  simp [hlost, hdir] at hq

omit hg h in
theorem plannedConflict_decided {c : PlannedConflict}
    (hc : (M.decided p).plannedConflict M.localDev M.remoteDev = some c) :
    c.path = p ∧ M.decision p = .conflict c.kind c.winner := by
  unfold Decided.plannedConflict at hc
  have hdec : (M.decided p).decision = M.decision p := rfl
  rw [hdec] at hc
  cases hd : M.decision p with
  | conflict =>
    rw [hd] at hc
    cases hc
    exact ⟨rfl, rfl⟩
  | _ => simp [hd] at hc

theorem mem_quarantine_paths : p ∈ pr.quarantine.map (·.path) ↔ M.Quarantines p := by
  rw [mem_map]
  constructor
  · rintro ⟨q, hq, rfl⟩
    obtain ⟨p', hp'⟩ := (mem_gathered_quarantine h hg).1 hq
    exact hp'.path ▸ hp'.quarantines
  · rintro ⟨kind, winner, lost, hd, hlost⟩
    have hk : M.Keeps p _ := ⟨kind, winner, lost, hd, hlost, gathered_noDirLoses h hg hd hlost, rfl⟩
    exact ⟨_, (mem_gathered_quarantine h hg).2 ⟨p, hk⟩, hk.path⟩

/-- The paths that are carried out. -/
theorem mem_survivors : p ∈ survivors pr ↔ M.Survives p := by
  have hcon : p ∈ (pr.conflicts.filter (·.winner = .localSide)).map (·.path) ↔
      ∃ kind, M.decision p = .conflict kind .localSide := by
    simp only [mem_map, mem_filter, decide_eq_true_eq]
    constructor
    · rintro ⟨c, ⟨hc, hw⟩, rfl⟩
      obtain ⟨p', -, hc'⟩ := (mem_gathered_conflicts h hg).1 hc
      obtain ⟨rfl, hd⟩ := plannedConflict_decided hc'
      exact ⟨c.kind, hw ▸ hd⟩
    · rintro ⟨kind, hd⟩
      obtain ⟨c, hc⟩ : ∃ c, (M.decided p).plannedConflict M.localDev M.remoteDev = some c := by
        unfold Decided.plannedConflict
        rw [show (M.decided p).decision = _ from hd]
        exact ⟨_, rfl⟩
      obtain ⟨hpath, hw⟩ := plannedConflict_decided hc
      rw [hd, Decision.conflict.injEq] at hw
      exact ⟨c, ⟨(mem_gathered_conflicts h hg).2 ⟨p, .inl (lists_of_conflict hd).1, hc⟩, hw.2.symm⟩, hpath⟩
  have hkeep : p ∈ (pr.decided.filter fun d => d.decision = .keepLocal ∧ d.mine.isSome).map (·.path) ↔
      M.decision p = .keepLocal ∧ M.mineAt p ≠ none := by
    simp only [hg.decided, mem_map, mem_filter, decide_eq_true_eq, Option.isSome_iff_ne_none]
    constructor
    · rintro ⟨d, ⟨hd, hk⟩, rfl⟩
      obtain ⟨p', -, rfl⟩ := h.mem_rounds.1 hd
      exact hk
    · intro hk
      exact ⟨M.decided p, ⟨h.mem_rounds.2 ⟨p, .inl (lists_of_keepLocal hk.1), rfl⟩, hk⟩, rfl⟩
  rw [survivors, mem_append, mem_append, mem_quarantine_paths h hg, hcon, hkeep, or_assoc]
  rfl

/-- The suppressed paths, by their keys. -/
theorem mem_suppressedKeys :
    k ∈ suppressedKeys pr ↔ ∃ e, M.Suppressed e ∧ joinPath e = k := by
  have hrem : ∀ {e}, NoSlash e → e ≠ [] →
      (joinPath e ∈ removalKeys pr.materialize ↔ M.Takes e ∧ M.theirsAt e = none) := by
    intro e hns hne
    simp only [removalKeys, mem_map, mem_filter, Option.isNone_iff_eq_none]
    constructor
    · rintro ⟨op, ⟨hop, hnone⟩, hk⟩
      obtain ⟨p, hp, rfl⟩ := (mem_gathered_materialize h hg).1 hop
      obtain rfl : p = e := joinPath_inj hp.touched.noSlash hns hp.touched.ne_nil hne hk
      exact ⟨hp, hp.theirsAt.trans hnone⟩
    · rintro ⟨ht, hnone⟩
      exact ⟨_, ⟨(mem_gathered_materialize h hg).2 ⟨e, ht, rfl⟩, ht.theirsAt.symm.trans hnone⟩, rfl⟩
  simp only [suppressedKeys, mem_filter, mem_flatMap, mem_map, mem_survivors h hg,
    mem_properPrefixes, decide_eq_true_eq]
  constructor
  · rintro ⟨⟨p, hp, e, ⟨hne, habove⟩, rfl⟩, hk⟩
    have hns : NoSlash e := noSlash_of_above (.inl hp.lists) habove
    obtain ⟨ht, hnone⟩ := (hrem hns hne).1 hk
    exact ⟨e, ⟨ht, hnone, p, hp, habove⟩, rfl⟩
  · rintro ⟨e, ⟨ht, hnone, p, hp, habove⟩, rfl⟩
    exact ⟨⟨p, hp, e, ⟨ht.touched.ne_nil, habove⟩, rfl⟩,
      (hrem ht.touched.noSlash ht.touched.ne_nil).2 ⟨ht, hnone⟩⟩

theorem joinPath_mem_suppressedKeys (hns : NoSlash p) (hne : p ≠ []) :
    joinPath p ∈ suppressedKeys pr ↔ M.Suppressed p := by
  rw [mem_suppressedKeys h hg]
  constructor
  · rintro ⟨e, he, hk⟩
    exact joinPath_inj he.1.touched.noSlash hns he.1.touched.ne_nil hne hk ▸ he
  · exact fun hp => ⟨p, hp, rfl⟩

theorem finalState_eq (hns : NoSlash p) (hne : p ≠ []) :
    finalState pr.decided (joinPath p) = M.outcome p := by
  unfold finalState
  rw [hg.decided, nil_append]
  cases hfind : (M.rounds localView remoteView).find? (·.key = joinPath p) with
  | some =>
    have hd := mem_of_find?_eq_some hfind
    have hk := find?_some hfind
    obtain ⟨q, hq, rfl⟩ := h.mem_rounds.1 hd
    obtain rfl : q = p := joinPath_inj hq.noSlash hns hq.ne_nil hne (of_decide_eq_true hk)
    rfl
  | none =>
    by_contra hout
    rw [Option.bind_none, eq_comm, ← ne_eq, outcome_ne_none_iff] at hout
    have hmem := h.mem_rounds.2 ⟨p, touched_of_decision hout, rfl⟩
    have := find?_eq_none.1 hfind _ hmem
    simp [decided] at this

theorem mem_unsuppressed : op ∈ pr.materialize.filter (fun op =>
    ¬ (op.result.isNone ∧ joinPath op.path ∈ suppressedKeys pr)) ↔
      ∃ p, M.Takes p ∧ ¬ M.Suppressed p ∧ op = ⟨p, M.base p, M.theirs p⟩ := by
  rw [mem_filter, mem_gathered_materialize h hg]
  constructor
  · rintro ⟨⟨p, hp, rfl⟩, hnot⟩
    refine ⟨p, hp, fun hsup => ?_, rfl⟩
    simp only [decide_eq_true_eq, Option.isNone_iff_eq_none] at hnot
    exact hnot ⟨hp.theirsAt.symm.trans hsup.2.1,
      (joinPath_mem_suppressedKeys h hg hp.touched.noSlash hp.touched.ne_nil).2 hsup⟩
  · rintro ⟨p, hp, hsup, rfl⟩
    refine ⟨⟨p, hp, rfl⟩, ?_⟩
    simp only [decide_eq_true_eq]
    rintro ⟨-, hk⟩
    exact hsup ((joinPath_mem_suppressedKeys h hg hp.touched.noSlash hp.touched.ne_nil).1 hk)

theorem mem_targets {t : CompPath} : t ∈ ((pr.materialize.filter (fun op =>
    ¬ (op.result.isNone ∧ joinPath op.path ∈ suppressedKeys pr))).filter
      (·.result.isSome)).map (·.path) ++ pr.quarantine.map (·.path) ↔ M.Target t := by
  rw [mem_append, mem_quarantine_paths h hg]
  refine or_congr_left ?_
  simp only [mem_map, mem_filter (p := fun op : MaterializeOp => op.result.isSome),
    mem_unsuppressed h hg, Option.isSome_iff_ne_none]
  constructor
  · rintro ⟨op, ⟨⟨p, hp, -, rfl⟩, hsome⟩, rfl⟩
    exact ⟨hp, hp.theirsAt ▸ hsome⟩
  · rintro ⟨hp, hsome⟩
    exact ⟨_, ⟨⟨t, hp, fun hsup => hsome hsup.2.1, rfl⟩, hp.theirsAt ▸ hsome⟩, rfl⟩

omit hg in
theorem viewBase_eq (hp : M.Touched p) : viewBase localView remoteView (joinPath p) = M.base p := by
  unfold viewBase
  rcases Indexed.lookup_or h.mine M.mineTree M.mineSlash hp with ⟨-, hlv⟩ | ⟨hl, hlv⟩ <;>
    rcases Indexed.lookup_or h.theirs M.theirsTree M.theirsSlash hp with ⟨-, hrv⟩ | ⟨hr, hrv⟩
  · simp [hlv, hrv]
  · simp [hlv, hrv]
  · simp [hlv, hrv]
  · exact (hp.elim hl hr).elim

theorem lookup_synth
    (hsynth : SynthFrom (suppressedKeys pr) (finalState pr.decided) (viewBase localView remoteView)
      (fun k => ∃ t, M.Target t ∧ ∃ e ∈ properPrefixes t, k = joinPath e) synth)
    {s : EntryState} :
    synth.lookup k = some s ↔ ∃ e, M.Synthesized e ∧ M.base e = some s ∧ joinPath e = k := by
  rw [hsynth.lookup]
  constructor
  · rintro ⟨⟨t, ht, e, he, rfl⟩, hsup, hfin, hbase⟩
    obtain ⟨hne, habove⟩ := mem_properPrefixes.1 he
    have hns := noSlash_of_above ht.touched habove
    rw [finalState_eq h hg hns hne] at hfin
    have htouched := touched_of_outcome hfin
    rw [viewBase_eq h htouched] at hbase
    rw [joinPath_mem_suppressedKeys h hg hns hne] at hsup
    exact ⟨e, ⟨hne, ⟨t, ht, habove⟩, hsup, hfin⟩, hbase, rfl⟩
  · rintro ⟨e, ⟨hne, ⟨t, ht, habove⟩, hsup, hfin⟩, hbase, rfl⟩
    have hns := noSlash_of_above ht.touched habove
    have htouched := touched_of_outcome hfin
    refine ⟨⟨t, ht, e, mem_properPrefixes.2 ⟨hne, habove⟩, rfl⟩, ?_, ?_, ?_⟩
    · rwa [joinPath_mem_suppressedKeys h hg hns hne]
    · rw [finalState_eq h hg hns hne, hfin]
    · rw [viewBase_eq h htouched, hbase]

end

theorem Synthesized.noSlash (h : M.Synthesized p) : NoSlash p := by
  obtain ⟨-, ⟨t, ht, habove⟩, -⟩ := h
  exact noSlash_of_above ht.touched habove

section
variable (hsynth : ∀ {k s}, synth.lookup k = some s ↔ ∃ e, M.Synthesized e ∧ M.base e = some s ∧ joinPath e = k)
include hsynth

theorem mem_synthOps :
    op ∈ synthOps synth ↔ ∃ p s, M.Synthesized p ∧ M.base p = some s ∧ op = ⟨p, none, some s⟩ := by
  simp only [synthOps, mem_map, (perm_insertionSort _ _).mem_iff]
  constructor
  · rintro ⟨⟨k, s⟩, hmem, rfl⟩
    obtain ⟨e, he, hb, rfl⟩ := hsynth.1 (AList.mem_lookup_iff.2 hmem)
    exact ⟨e, s, he, hb, by simp only [splitKey, splitOn_joinPath he.noSlash he.1]⟩
  · rintro ⟨p, s, hp, hb, rfl⟩
    refine ⟨⟨joinPath p, s⟩, AList.mem_lookup_iff.1 (hsynth.2 ⟨p, hp, hb, rfl⟩), ?_⟩
    simp only [splitKey, splitOn_joinPath hp.noSlash hp.1]

theorem synthOps_paths_nodup : ((synthOps synth).map (·.path)).Nodup := by
  have hkeys : ((synth.entries.insertionSort (fun a b => a.1 ≤ b.1)).map (·.1)).Nodup :=
    ((perm_insertionSort _ _).map _).nodup_iff.2 synth.keys_nodup
  have hmap : (synthOps synth).map (·.path) =
      ((synth.entries.insertionSort (fun a b => a.1 ≤ b.1)).map (·.1)).map splitKey := by
    simp [synthOps]
  rw [hmap]
  refine hkeys.map_on ?_
  intro k hk k' hk' heq
  have hpath : ∀ {k}, k ∈ (synth.entries.insertionSort (fun a b => a.1 ≤ b.1)).map (·.1) →
      joinPath (splitKey k) = k := by
    intro k hk
    obtain ⟨⟨k, s⟩, hmem, rfl⟩ := mem_map.1 hk
    rw [(perm_insertionSort _ _).mem_iff] at hmem
    obtain ⟨e, he, -, rfl⟩ := hsynth.1 (AList.mem_lookup_iff.2 hmem)
    simp only [splitKey, splitOn_joinPath he.noSlash he.1]
  rw [← hpath hk, heq, hpath hk']

end

theorem Takes.outcome (h : M.Takes p) : M.outcome p = some (M.theirs p) := by
  have htheirs := h.theirsAt
  unfold Merge.outcome Decided.outcome decided
  rcases h with hd | ⟨kind, hd⟩ <;> simp [hd, htheirs]

theorem Synthesized.not_takes (h : M.Synthesized p) : ¬ M.Takes p := by
  obtain ⟨hne, ⟨t, ht, habove⟩, hsup, hout⟩ := h
  intro htakes
  have hnone : M.theirs p = none := by
    rw [htakes.outcome] at hout
    exact Option.some.inj hout
  rcases ht with ⟨ht, hsome⟩ | hq
  · rw [ht.theirsAt] at hsome
    exact hsome (M.theirsTree.none_of_none hne hnone habove)
  · exact hsup ⟨htakes, htakes.theirsAt.trans hnone, t, .inl hq, habove⟩

/-- The plan is the one that the merge calls for, list by list. -/
theorem planOf_planFrom {localView remoteView : ViewMap}
    (h : M.Indexed localView remoteView) {localRefs remoteRefs : Except ReconcileError (List BlobId)}
    {plan : ActionPlan} (hplan : planFrom M.localDev M.remoteDev localView remoteView localRefs
      remoteRefs = .ok plan) : M.PlanOf plan := by
  obtain ⟨pr, hpr, hplan⟩ := bind_eq_ok.1 hplan
  obtain ⟨rrefs, -, hplan⟩ := bind_eq_ok.1 hplan
  obtain ⟨lrefs, -, hplan⟩ := bind_eq_ok.1 hplan
  obtain ⟨synth, hsynth, hplan⟩ := bind_eq_ok.1 hplan
  cases hplan
  have hg : Gathers M.localDev M.remoteDev (M.rounds localView remoteView) {} pr := gathers_of_ok hpr
  have hmat : ∀ {op}, op ∈ pr.materialize.filter (fun op =>
      ¬ (op.result.isNone ∧ joinPath op.path ∈ suppressedKeys pr)) ↔
        ∃ p, M.Takes p ∧ ¬ M.Suppressed p ∧ op = ⟨p, M.base p, M.theirs p⟩ :=
    mem_unsuppressed h hg
  have hfrom : SynthFrom (suppressedKeys pr) (finalState pr.decided) (viewBase localView remoteView)
      (fun k => ∃ t, M.Target t ∧ ∃ e ∈ properPrefixes t, k = joinPath e) synth :=
    (synthDirs_from hsynth).congr fun k => by simp only [mem_targets h hg]
  have hlook : ∀ {k s}, synth.lookup k = some s ↔
      ∃ e, M.Synthesized e ∧ M.base e = some s ∧ joinPath e = k := lookup_synth h hg hfrom
  refine ⟨?_, ?_, ?_, ?_, ?_, ?_, ?_, ?_, ?_⟩
  · intro op
    rw [mem_append, hmat, mem_synthOps hlook]
  · rw [map_append, nodup_append]
    refine ⟨?_, synthOps_paths_nodup hlook, ?_⟩
    · refine (h.rounds_paths_nodup.sublist ?_).sublist (filter_sublist.map _)
      rw [hg.materialize]
      exact filterMap_map_sublist (fun d op => materializeOp_path) _
    · intro p hp q hq
      obtain ⟨op, hop, rfl⟩ := mem_map.1 hp
      obtain ⟨op', hop', rfl⟩ := mem_map.1 hq
      obtain ⟨p, htakes, -, rfl⟩ := hmat.1 hop
      obtain ⟨q, -, hsyn, -, rfl⟩ := (mem_synthOps hlook).1 hop'
      rintro rfl
      exact hsyn.not_takes htakes
  · exact mem_gathered_quarantine h hg
  · refine h.rounds_paths_nodup.sublist ?_
    rw [hg.quarantine]
    exact filterMap_map_sublist (fun d q => kept_path) _
  · exact gathered_noDirLoses h hg
  · intro c
    rw [(sortByPath_perm _ _).mem_iff]
    exact mem_gathered_conflicts h hg
  · refine (((sortByPath_perm _ _).map _).nodup_iff).2 (h.rounds_paths_nodup.sublist ?_)
    rw [hg.conflicts]
    exact filterMap_map_sublist (fun d c => plannedConflict_path) _
  · rw [any_eq_true, hg.decided]
    constructor
    · rintro ⟨d, hd, hwin⟩
      obtain ⟨p, -, rfl⟩ := h.mem_rounds.1 hd
      exact ⟨p, hwin⟩
    · rintro ⟨p, hwin⟩
      refine ⟨_, h.mem_rounds.2 ⟨p, touched_of_decision ?_, rfl⟩, hwin⟩
      intro hnothing
      rw [Decided.isLocalWin, show (M.decided p).decision = _ from hnothing] at hwin
      cases hwin
  · intro t e ht hne habove
    have hns := noSlash_of_above ht.touched habove
    have hpass := hfrom.passes _ ⟨t, ht, e, mem_properPrefixes.2 ⟨hne, habove⟩, rfl⟩
    unfold KeyPasses at hpass
    rw [joinPath_mem_suppressedKeys h hg hns hne, finalState_eq h hg hns hne] at hpass
    refine hpass.imp id fun hpass => ?_
    cases hout : M.outcome e with
    | none => trivial
    | some =>
      rw [hout] at hpass
      rwa [viewBase_eq h (touched_of_outcome hout)] at hpass

end Merge

end Ferry
