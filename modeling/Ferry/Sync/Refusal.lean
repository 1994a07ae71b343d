import Ferry.Sync.Trees

/-! # When reconciliation refuses

A structural conflict comes from one of two checks: a directory would lose a
conflict, or something would be written below a path that is no directory in
the end. Both are read here as properties of the three trees, and compared with
the same merge seen from the other device.
-/

namespace Ferry

open Lib

def Refused {α : Type} (x : Except ReconcileError α) : Prop :=
  ∃ ancestor path, x = .error (.structuralConflict ancestor path)

variable {b : BlobId} {α : Type}

theorem not_refused_ok {a : α} : ¬ Refused (.ok a) := by
  rintro ⟨_, _, h⟩
  cases h

instance {α : Type} (x : Except ReconcileError α) : Decidable (Refused x) :=
  match x with
  | .error (.structuralConflict a p) => .isTrue ⟨a, p, rfl⟩
  | .error (.store _) | .error (.manifest _) | .error (.diff _) | .error .depth | .ok _ =>
    .isFalse (by rintro ⟨_, _, h⟩; cases h)

theorem refused_error {β : Type} {e : ReconcileError} (h : Refused (.error e : Except _ α)) :
    Refused (.error e : Except _ β) := by
  obtain ⟨a, p, he⟩ := h
  cases he
  exact ⟨a, p, rfl⟩

namespace Merge

def DirLoses (M : Merge) : Prop := ∃ p kind winner lost, M.decision p = .conflict kind winner ∧
  (M.decided p).winnerState winner.other = some lost ∧ lost.kind = .dir

def Passes (M : Merge) (e : CompPath) : Prop := M.Suppressed e ∨ match M.outcome e with
  | some none => ∃ s, M.base e = some s ∧ s.kind = .dir
  | some (some s) => s.kind = .dir
  | none => True

/-- A target lies below a path where nothing may be written. -/
def Blocked (M : Merge) : Prop := ∃ t e, M.Target t ∧ e ≠ [] ∧ Above e t ∧ ¬ M.Passes e

/-- The local side put a file or a link in the place of a directory of the
base, and the diff of the remote side lists an entry below it. -/
def Overruns (M : Merge) : Prop := ∃ e t, Above e t ∧ (∃ b, M.base e = some b ∧ b.kind = .dir) ∧
  (∃ s, M.mine e = some s ∧ s.kind ≠ .dir) ∧ Lists M.base M.theirs t ∧ M.theirs t ≠ none

variable {M : Merge}

/-! ## The two checks -/

variable {p : CompPath} {err : ReconcileError}

theorem quarantineOp_error {localDev remoteDev : BlobId} {d : Decided}
    (h : d.quarantineOp localDev remoteDev = .error err) :
    (∃ ancestor path, err = .structuralConflict ancestor path) ∧ ∃ kind winner lost,
      d.decision = .conflict kind winner ∧ d.winnerState winner.other = some lost ∧ lost.kind = .dir := by
  unfold Decided.quarantineOp at h
  split at h
  · rename_i kind winner hd
    split at h
    · cases h
    rename_i lost hlost
    split at h
    · rename_i hdir
      cases h
      exact ⟨⟨_, _, rfl⟩, kind, winner, lost, hd, hlost, hdir⟩
    · cases h
  · cases h

/-- Why an ancestor cannot be settled. -/
theorem synthStep_error {suppressed : List String} {final : String → Option (Option EntryState)}
    {baseOf : String → Option EntryState} {target anc : CompPath}
    {synth : AList (fun _ : String => EntryState)}
    (h : synthStep suppressed final baseOf target synth anc = .error err) :
    (∃ ancestor path, err = .structuralConflict ancestor path) ∧
      ¬ KeyPasses suppressed final baseOf (joinPath anc) := by
  unfold synthStep at h
  dsimp only at h
  split at h
  · cases h
  rename_i hskip
  have hsup : joinPath anc ∉ suppressed := fun hmem => hskip (.inl hmem)
  split at h
  · rename_i hfin
    rw [KeyPasses, hfin]
    split at h
    · rename_i s hbase
      split at h
      · cases h
      · rename_i hdir
        cases h
        exact ⟨⟨_, _, rfl⟩, by simp [hsup, hbase, hdir]⟩
    · rename_i hbase
      cases h
      exact ⟨⟨_, _, rfl⟩, by simp [hsup, hbase]⟩
  · rename_i s hfin
    rw [KeyPasses, hfin]
    split at h
    · rename_i hdir
      cases h
      exact ⟨⟨_, _, rfl⟩, by simpa [hsup] using hdir⟩
    · cases h
  · cases h

section
variable {localView remoteView : ViewMap} (h : M.Indexed localView remoteView)
include h

theorem dirLoses_of_error {pr : Progress}
    (hrun : (M.rounds localView remoteView).foldlM (Progress.step M.localDev M.remoteDev) pr =
      .error err) : (∃ ancestor path, err = .structuralConflict ancestor path) ∧ M.DirLoses := by
  obtain ⟨d, hd, pr', hstep⟩ := foldlM_eq_error hrun
  have hq : d.quarantineOp M.localDev M.remoteDev = .error err := by
    unfold Progress.step at hstep
    cases hq : d.quarantineOp M.localDev M.remoteDev with
    | error =>
      rw [hq] at hstep
      cases hstep
      rfl
    | ok =>
      rw [hq] at hstep
      cases hstep
  obtain ⟨p, -, rfl⟩ := h.mem_rounds.1 hd
  obtain ⟨herr, kind, winner, lost, hdec, hlost, hdir⟩ := quarantineOp_error hq
  exact ⟨herr, p, kind, winner, lost, hdec, hlost, hdir⟩

theorem keyPasses_iff {pr : Progress}
    (hg : Gathers M.localDev M.remoteDev (M.rounds localView remoteView) {} pr) {e : CompPath}
    (hns : NoSlash e) (hne : e ≠ []) :
    KeyPasses (suppressedKeys pr) (finalState pr.decided) (viewBase localView remoteView)
      (joinPath e) ↔ M.Passes e := by
  unfold KeyPasses Passes
  rw [joinPath_mem_suppressedKeys h hg hns hne, finalState_eq h hg hns hne]
  cases hout : M.outcome e with
  | none => rfl
  | some o =>
    cases o with
    | none => simp only [viewBase_eq h (touched_of_outcome hout)]
    | some => rfl

/-- Reconciliation refuses exactly if a directory would lose or, once both trees
could be read, a target is blocked. -/
theorem planFrom_refused_iff {localRefs remoteRefs : Except ReconcileError (List BlobId)}
    (hl : ¬ Refused localRefs) (hr : ¬ Refused remoteRefs) :
    Refused (planFrom M.localDev M.remoteDev localView remoteView localRefs remoteRefs) ↔ M.DirLoses ∨
        ((∃ refs, localRefs = .ok refs) ∧ (∃ refs, remoteRefs = .ok refs) ∧ M.Blocked) := by
  have hrounds : (mergedKeys localView remoteView).filterMap
      (decidedAt M.localDev M.remoteDev localView remoteView) = M.rounds localView remoteView := rfl
  unfold planFrom
  dsimp only
  rw [hrounds]
  cases hrun : (M.rounds localView remoteView).foldlM (Progress.step M.localDev M.remoteDev) {} with
  | error =>
    obtain ⟨⟨a, p, rfl⟩, hloses⟩ := dirLoses_of_error h hrun
    exact iff_of_true ⟨a, p, rfl⟩ (.inl hloses)
  | ok pr =>
    have hg := gathers_of_ok hrun
    have hnot : ¬ M.DirLoses := by
      rintro ⟨p, kind, winner, lost, hd, hlost, hdir⟩
      exact gathered_noDirLoses h hg hd hlost hdir
    rw [ok_bind]
    cases remoteRefs with
    | error => exact iff_of_false (fun href => hr (refused_error href)) (by simp [hnot])
    | ok =>
      cases localRefs with
      | error => exact iff_of_false (fun href => hl (refused_error href)) (by simp [hnot])
      | ok =>
        cases hsynth : synthDirs (suppressedKeys pr) (finalState pr.decided)
            (viewBase localView remoteView) (((pr.materialize.filter fun op =>
              ¬ (op.result.isNone ∧ joinPath op.path ∈ suppressedKeys pr)).filter
                (·.result.isSome)).map (·.path) ++ pr.quarantine.map (·.path)) with
        | error err =>
          obtain ⟨t, ht, synth, hstep⟩ := foldlM_eq_error hsynth
          obtain ⟨e, he, synth', hstep'⟩ := foldlM_eq_error hstep
          obtain ⟨⟨a, p, rfl⟩, hkey⟩ := synthStep_error hstep'
          obtain ⟨hne, habove⟩ := mem_properPrefixes.1 he
          have htarget := (mem_targets h hg).1 ht
          have hns := noSlash_of_above htarget.touched habove
          rw [keyPasses_iff h hg hns hne] at hkey
          exact iff_of_true ⟨a, p, rfl⟩
            (.inr ⟨⟨_, rfl⟩, ⟨_, rfl⟩, t, e, htarget, hne, habove, hkey⟩)
        | ok synth =>
          refine iff_of_false not_refused_ok ?_
          rintro (hloses | ⟨-, -, t, e, ht, hne, habove, hpass⟩)
          · exact hnot hloses
          · have hns := noSlash_of_above ht.touched habove
            refine hpass ((keyPasses_iff h hg hns hne).1 ?_)
            exact (synthDirs_from hsynth).passes _
              ⟨t, (mem_targets h hg).2 ht, e, mem_properPrefixes.2 ⟨hne, habove⟩, rfl⟩

end

/-! ## What blocks a target -/

theorem not_hidden_of_ne_none {B S : Tree} (hB : IsTree EntryState.IsDir B)
    (hS : IsTree EntryState.IsDir S) (hb : B p ≠ none) (hs : S p ≠ none) :
    ¬ Hidden B S p := by
  rintro ⟨d, habove, b, s, hbd, hsd, hsplit⟩
  have hd : d ≠ [] := hB.ne_nil hbd
  obtain ⟨b', hb', hbdir⟩ := hB.parent hd habove hb
  obtain ⟨s', hs', hsdir⟩ := hS.parent hd habove hs
  rw [hbd, Option.some.injEq] at hb'
  rw [hsd, Option.some.injEq] at hs'
  exact hsplit (iff_of_true (hb' ▸ hbdir) (hs' ▸ hsdir))

theorem not_lists_of_dirs {B S : Tree} {b s : EntryState} (hb : B p = some b)
    (hbd : b.kind = .dir) (hs : S p = some s) (hsd : s.kind = .dir) : ¬ Lists B S p := by
  intro h
  exact h.1 (by simp [hb, hs, classify, hbd, hsd])

theorem lists_of_kinds {B S : Tree} (hB : IsTree EntryState.IsDir B) (hS : IsTree EntryState.IsDir S)
    {b s : EntryState} (hb : B p = some b) (hs : S p = some s)
    (hk : b.kind ≠ s.kind) : Lists B S p :=
  ⟨by simp [hb, hs, classify, hk], not_hidden_of_ne_none hB hS (by simp [hb]) (by simp [hs])⟩

theorem Quarantines.both {t : CompPath} (h : M.Quarantines t) : M.mine t ≠ none ∧ M.theirs t ≠ none := by
  obtain ⟨kind, winner, lost, hd, hlost⟩ := h
  obtain ⟨hl, hr, hne⟩ := lists_of_conflict hd
  have hmine : (M.decided t).mine = M.mine t := mineAt_of_lists hl
  have htheirs : (M.decided t).theirs = M.theirs t := theirsAt_of_lists hr
  unfold decision decideEntry at hd
  rw [mineAt_of_lists hl, theirsAt_of_lists hr] at hd
  cases hm : M.mine t with
  | none =>
    rw [hm] at hd hmine
    cases ht : M.theirs t with
    | none => exact absurd (hm.trans ht.symm) hne
    | some =>
      simp only [ht] at hd
      split_ifs at hd
      cases hd
      simp [Decided.winnerState, Side.other, hmine] at hlost
  | some =>
    cases ht : M.theirs t with
    | none =>
      rw [hm, ht] at hd
      simp only at hd
      split_ifs at hd
      cases hd
      simp [Decided.winnerState, Side.other, htheirs, ht] at hlost
    | some => exact ⟨by simp, by simp⟩

theorem decision_of_mine_only (hl : Lists M.base M.mine p)
    (hr : ¬ Lists M.base M.theirs p) : M.decision p = .keepLocal := by
  unfold decision decideEntry
  rw [if_neg (mineAt_ne_iff.2 hl), if_pos (theirsAt_of_not_lists hr)]

theorem decision_of_theirs_only (hl : ¬ Lists M.base M.mine p)
    (hr : Lists M.base M.theirs p) : M.decision p = .applyRemote := by
  unfold decision decideEntry
  rw [if_pos (mineAt_of_not_lists hl), if_neg (theirsAt_ne_iff.2 hr)]

theorem Overruns.blocked (h : M.Overruns) : M.Blocked := by
  obtain ⟨e, t, habove, ⟨b, hb, hbdir⟩, ⟨s, hs, hsdir⟩, hlist, htheirs⟩ := h
  have he : e ≠ [] := M.baseTree.ne_nil hb
  obtain ⟨r, hr, hrdir : r.kind = .dir⟩ := M.theirsTree.parent he habove htheirs
  have hkeep : M.decision e = .keepLocal := decision_of_mine_only
    (lists_of_kinds M.baseTree M.mineTree hb hs (by rw [hbdir]; exact fun h => hsdir h.symm))
    (not_lists_of_dirs hb hbdir hr hrdir)
  have hmine := mineAt_of_lists (lists_of_keepLocal hkeep)
  -- below the new entry the local diff is silent
  have hhid : Hidden M.base M.mine t := ⟨e, habove, b, s, hb, hs, fun hiff => hsdir (hiff.1 hbdir)⟩
  have htakes : M.Takes t := .inl (decision_of_theirs_only (fun hl => hl.2 hhid) hlist)
  refine ⟨t, e, .inl ⟨htakes, by rwa [htakes.theirsAt]⟩, he, habove, ?_⟩
  rintro (⟨hd | ⟨kind, hd⟩, -⟩ | hout)
  · rw [hkeep] at hd
    cases hd
  · rw [hkeep] at hd
    cases hd
  · simp only [Merge.outcome, decided, hkeep, hmine, hs] at hout
    exact hsdir hout

/-- Where an outcome comes from. -/
theorem outcome_cases {e : CompPath} {o : Option EntryState} (h : M.outcome e = some o) :
    (M.Takes e ∧ o = M.theirs e) ∨
      ((M.decision e = .keepLocal ∨ ∃ kind, M.decision e = .conflict kind .localSide) ∧
        Lists M.base M.mine e ∧ o = M.mine e) := by
  have hmine : ∀ hl : Lists M.base M.mine e, some (M.mineAt e) = some o → o = M.mine e := by
    intro hl heq
    rw [← mineAt_of_lists hl]
    exact (Option.some.inj heq).symm
  have htakes : M.Takes e → o = M.theirs e := fun ht =>
    (Option.some.inj (ht.outcome.symm.trans h)).symm
  unfold Merge.outcome Decided.outcome decided at h
  cases hd : M.decision e with
  | nothing => simp [hd] at h
  | applyRemote => exact .inl ⟨.inl hd, htakes (.inl hd)⟩
  | keepLocal =>
    rw [hd] at h
    exact .inr ⟨.inl rfl, lists_of_keepLocal hd, hmine (lists_of_keepLocal hd) h⟩
  | conflict kind winner =>
    cases winner with
    | remoteSide => exact .inl ⟨.inr ⟨kind, hd⟩, htakes (.inr ⟨kind, hd⟩)⟩
    | localSide =>
      rw [hd] at h
      have hl := (lists_of_conflict hd).1
      exact .inr ⟨.inr ⟨kind, rfl⟩, hl, hmine hl h⟩

theorem Target.theirs {t : CompPath} (h : M.Target t) : M.theirs t ≠ none := by
  rcases h with ⟨htakes, hsome⟩ | hq
  · rwa [htakes.theirsAt] at hsome
  · exact hq.both.2

/-- Where the remote side has a directory, only a local file or link that took
the place of one in the base blocks. -/
theorem overruns_of_blocked (hnot : ¬ M.DirLoses) (h : M.Blocked) : M.Overruns := by
  obtain ⟨t, e, htarget, he, habove, hpass⟩ := h
  simp only [Passes, not_or] at hpass
  obtain ⟨-, hout⟩ := hpass
  have hsome := htarget.theirs
  obtain ⟨r, hr, hrdir : r.kind = .dir⟩ := M.theirsTree.parent he habove hsome
  obtain ⟨o, ho⟩ : ∃ o, M.outcome e = some o := by
    rw [← Option.ne_none_iff_exists']
    intro hnone
    simp [hnone] at hout
  have hbad : ∀ s, o = some s → s.kind ≠ .dir := by
    rintro s rfl hdir
    rw [ho] at hout
    exact hout hdir
  rcases outcome_cases ho with ⟨-, hoe⟩ | ⟨hdec, hl, hoe⟩
  · exact absurd hrdir (hbad r (hoe.trans hr))
  rcases hdec with hd | ⟨kind, hd⟩
  · rcases htarget with ⟨htakes, -⟩ | hq
    · have hlist := htakes.lists
      have hbase : ∀ b, M.base e = some b → b.kind = .dir := by
        intro b hb
        by_contra hbdir
        exact hlist.2 ⟨e, habove, b, r, hb, hr, fun hiff => hbdir (hiff.2 hrdir)⟩
      cases hm : M.mine e with
      | none =>
        obtain ⟨b, hb⟩ := Option.ne_none_iff_exists'.1 (hl.ne_none.resolve_right (by simp [hm]))
        rw [ho, hoe, hm] at hout
        exact absurd ⟨b, hb, hbase b hb⟩ hout
      | some s =>
        have hsdir : s.kind ≠ .dir := hbad s (hoe.trans hm)
        cases hb : M.base e with
        | some b =>
          exact ⟨e, t, habove, ⟨b, hb, hbase b hb⟩, ⟨s, hm, hsdir⟩, hlist, hsome⟩
        | none =>
          -- both sides added the path, which is a conflict
          have hlr : Lists M.base M.theirs e := by
            refine ⟨by simp [hb, hr, classify], ?_⟩
            rintro ⟨d, hd', hsplit⟩
            exact hlist.2 ⟨d, hd'.trans habove, hsplit⟩
          unfold decision decideEntry at hd
          rw [mineAt_of_lists hl, theirsAt_of_lists hlr, hm, hr] at hd
          have hne : s ≠ r := by
            rintro rfl
            exact hsdir hrdir
          have hcontent : sameContent s r = false := by simp [sameContent, hrdir, hsdir]
          simp [hne, hcontent, hsdir, hb] at hd
    · obtain ⟨s, hs, hsdir : s.kind = .dir⟩ := M.mineTree.parent he habove hq.both.1
      exact absurd hsdir (hbad s (hoe.trans hs))
  · -- the remote directory would lose
    refine absurd ⟨e, kind, .localSide, r, hd, ?_, hrdir⟩ hnot
    show M.theirsAt e = some r
    rw [theirsAt_of_lists (lists_of_conflict hd).2.1, hr]

theorem blocked_iff (hnot : ¬ M.DirLoses) : M.Blocked ↔ M.Overruns :=
  ⟨overruns_of_blocked hnot, Overruns.blocked⟩

end Merge

/-! ## The merge seen from the other device -/

@[simp] theorem Side.other_other (s : Side) : s.other.other = s := by cases s <;> rfl

def Decision.mirror : Decision → Decision
  | .nothing => .nothing
  | .applyRemote => .keepLocal
  | .keepLocal => .applyRemote
  | .conflict kind winner => .conflict kind winner.other

theorem sameContent_comm (l r : EntryState) : sameContent l r = sameContent r l := by
  unfold sameContent
  by_cases hk : l.kind = r.kind
  · rw [hk]
    cases r.kind <;> simp [eq_comm]
  · have hk' : ¬ r.kind = l.kind := fun h => hk h.symm
    simp [hk, hk']

/-- Two devices pick the same winner: the later time, then the larger id. -/
theorem pickWinner_mirror {l r : EntryState} {a : BlobId} (h : a ≠ b) :
    pickWinner r l b a = (pickWinner l r a b).other := by
  have hkey : a.key ≠ b.key := fun heq => h (ByteArr.key_injective heq)
  unfold pickWinner
  by_cases htime : (l.mtimeSec, l.mtimeNsec) = (r.mtimeSec, r.mtimeNsec)
  · rw [if_neg (not_not.2 htime), if_neg (not_not.2 htime.symm)]
    rcases lt_trichotomy a.key b.key with hlt | heq | hgt
    · rw [if_pos hlt, if_neg (not_lt.2 hlt.le)]
      rfl
    · exact absurd heq hkey
    · rw [if_neg (not_lt.2 hgt.le), if_pos hgt]
      rfl
  · rw [if_pos htime, if_pos fun heq => htime heq.symm]
    have hflip : r.newerThan l = !l.newerThan r := by
      rw [Prod.mk.injEq] at htime
      unfold EntryState.newerThan
      by_cases hsec : l.mtimeSec = r.mtimeSec
      · have hnsec : l.mtimeNsec ≠ r.mtimeNsec := fun heq => htime ⟨hsec, heq⟩
        simp only [hsec, lt_irrefl, decide_false, decide_true, Bool.false_or, Bool.true_and]
        rw [Bool.eq_iff_iff]
        simp only [decide_eq_true_eq, Bool.not_eq_true', decide_eq_false_iff_not]
        omega
      · rw [Bool.eq_iff_iff]
        simp only [Bool.or_eq_true, decide_eq_true_eq, Bool.and_eq_true, Bool.not_eq_true',
          Bool.or_eq_false_iff, decide_eq_false_iff_not, Bool.and_eq_false_iff]
        omega
    rw [hflip]
    cases l.newerThan r <;> rfl

/-- Deciding a path from the other side gives the mirror image. -/
theorem decideEntry_mirror {a : BlobId} (h : a ≠ b) (base l r : Option EntryState) :
    decideEntry b a base r l = (decideEntry a b base l r).mirror := by
  unfold decideEntry
  by_cases hl : l = base
  · by_cases hr : r = base <;> simp [hl, hr, Decision.mirror]
  by_cases hr : r = base
  · simp [hl, hr, Decision.mirror]
  rw [if_neg hr, if_neg hl, if_neg hl, if_neg hr]
  by_cases hlr : l = r
  · simp [hlr, Decision.mirror]
  rw [if_neg hlr, if_neg fun heq => hlr heq.symm]
  cases l with
  | none =>
    cases r with
    | none => exact absurd rfl hlr
    | some => rfl
  | some ls =>
    cases r with
    | none => rfl
    | some rs =>
      simp only
      rw [sameContent_comm rs ls, pickWinner_mirror h]
      by_cases hc : sameContent ls rs = true
      · rw [if_pos hc, if_pos hc]
        cases pickWinner ls rs a b <;> rfl
      rw [if_neg hc, if_neg hc]
      by_cases hd : ls.kind = .dir ∧ rs.kind = .dir
      · rw [if_pos hd, if_pos hd.symm]
        rfl
      rw [if_neg hd, if_neg fun hd' => hd hd'.symm]
      by_cases hb : base = none
      · rw [if_pos hb, if_pos hb]
        rfl
      · rw [if_neg hb, if_neg hb]
        rfl

namespace Merge

/-- The same three trees on the device of the second side. -/
def mirror (M : Merge) : Merge where
  localDev := M.remoteDev
  remoteDev := M.localDev
  base := M.base
  mine := M.theirs
  theirs := M.mine
  baseTree := M.baseTree
  mineTree := M.theirsTree
  theirsTree := M.mineTree
  baseSlash := M.baseSlash
  mineSlash := M.theirsSlash
  theirsSlash := M.mineSlash

variable {M : Merge} (h : M.localDev ≠ M.remoteDev)
include h

theorem decision_mirror (p : CompPath) :
    M.mirror.decision p = (M.decision p).mirror := decideEntry_mirror h _ _ _

theorem DirLoses.mirror (hloses : M.DirLoses) : M.mirror.DirLoses := by
  obtain ⟨p, kind, winner, lost, hd, hlost, hdir⟩ := hloses
  refine ⟨p, kind, winner.other, lost, ?_, ?_, hdir⟩
  · rw [decision_mirror h, hd]
    rfl
  · rw [Side.other_other]
    cases winner <;> exact hlost

theorem dirLoses_mirror_iff : M.mirror.DirLoses ↔ M.DirLoses :=
  ⟨fun hl => hl.mirror h.symm, fun hl => hl.mirror h⟩

end Merge

/-! ## Both devices -/

section
variable [Env]

structure TreesRead (st : Store) (fuel : Nat) (base mine theirs : BlobId) : Prop where
  mineDiff : ∃ cs, diffRoots st fuel base mine = .ok cs
  theirsDiff : ∃ cs, diffRoots st fuel base theirs = .ok cs
  mineRefs : ∃ refs, manifestChunkRefs st fuel mine = .ok refs
  theirsRefs : ∃ refs, manifestChunkRefs st fuel theirs = .ok refs

variable {st : Store} {fuel : Nat}

theorem chunkRefsLoop_not_refused {stack seenTrees out : List BlobId} :
    ¬ Refused (chunkRefsLoop st fuel stack seenTrees out) := by
  induction fuel generalizing stack seenTrees out with
  | zero => cases stack <;> simp [chunkRefsLoop, Refused]
  | succ fuel ih =>
    cases stack with
    | nil => simp [chunkRefsLoop, Refused]
    | cons =>
      unfold chunkRefsLoop
      split
      · exact ih
      split
      · simp [Refused]
      · split
        · simp [Refused]
        · exact ih

omit [Env] in
theorem refused_bind_liftDiff {β : Type} {x : Except DiffError α} {f : α → Except ReconcileError β} :
    Refused (liftDiff x >>= f) ↔ ∃ a, x = .ok a ∧ Refused (f a) := by
  cases x with
  | error => simp [liftDiff, Refused]
  | ok => simp [liftDiff]

omit [Env] in
theorem refused_bind_pure {β : Type} {x : Except ReconcileError α} {f : α → β} :
    Refused (do let a ← x; return f a) ↔ Refused x := by
  cases x with
  | error => exact ⟨refused_error, refused_error⟩
  | ok => exact iff_of_false not_refused_ok not_refused_ok

theorem manifestChunkRefs_not_refused (st : Store) (fuel : Nat) (root : BlobId) :
    ¬ Refused (manifestChunkRefs st fuel root) := chunkRefsLoop_not_refused

theorem Merge.ofTrees_refused_iff {localDev remoteDev l r : BlobId}
    {localDiff remoteDiff : ChangeSet} (hl : diffRoots st fuel b l = .ok localDiff)
    (hr : diffRoots st fuel b r = .ok remoteDiff) :
    Refused (planFrom localDev remoteDev (indexChangeSet localDiff) (indexChangeSet remoteDiff)
      (manifestChunkRefs st fuel l) (manifestChunkRefs st fuel r)) ↔
      (Merge.ofTrees st localDev remoteDev b l r).DirLoses ∨
        (TreesRead st fuel b l r ∧ (Merge.ofTrees st localDev remoteDev b l r).Overruns) := by
  have hplan := Merge.planFrom_refused_iff
    (Merge.ofTrees_indexed hl hr : (Merge.ofTrees st localDev remoteDev b l r).Indexed _ _)
    (manifestChunkRefs_not_refused st fuel l) (manifestChunkRefs_not_refused st fuel r)
  refine hplan.trans ?_
  by_cases hloses : (Merge.ofTrees st localDev remoteDev b l r).DirLoses
  · exact iff_of_true (.inl hloses) (.inl hloses)
  rw [Merge.blocked_iff hloses]
  constructor
  · rintro (h | ⟨hlr, hrr, hover⟩)
    · exact .inl h
    · exact .inr ⟨⟨⟨_, hl⟩, ⟨_, hr⟩, hlr, hrr⟩, hover⟩
  · rintro (h | ⟨hread, hover⟩)
    · exact .inl h
    · exact .inr ⟨hread.mineRefs, hread.theirsRefs, hover⟩

/-- When a reconciliation refuses, in terms of its three trees. -/
theorem reconcile_refused_iff {st' : Store} {localM remoteM : RootManifest}
    {base : Option RootManifest} {emptyRoot : BlobId}
    (hempty : withEmptyTree st = .ok (emptyRoot, st'))
    (hb : baseRoot st localM remoteM base emptyRoot = b) :
    Refused (reconcile st fuel localM remoteM base) ↔
      ((∃ cs, diffRoots st' fuel b localM.rootTreeId = .ok cs) ∧
        ∃ cs, diffRoots st' fuel b remoteM.rootTreeId = .ok cs) ∧
      ((Merge.ofTrees st' localM.deviceId remoteM.deviceId b localM.rootTreeId
          remoteM.rootTreeId).DirLoses ∨
        (TreesRead st' fuel b localM.rootTreeId remoteM.rootTreeId ∧
          (Merge.ofTrees st' localM.deviceId remoteM.deviceId b localM.rootTreeId
            remoteM.rootTreeId).Overruns)) := by
  rw [reconcile_eq, hempty, ok_bind]
  dsimp only
  rw [hb, refused_bind_liftDiff]
  constructor
  · rintro ⟨localDiff, hl, h⟩
    obtain ⟨remoteDiff, hr, h⟩ := refused_bind_liftDiff.1 h
    exact ⟨⟨⟨_, hl⟩, _, hr⟩, (Merge.ofTrees_refused_iff hl hr).1 (refused_bind_pure.1 h)⟩
  · rintro ⟨⟨⟨localDiff, hl⟩, remoteDiff, hr⟩, h⟩
    exact ⟨localDiff, hl, refused_bind_liftDiff.2
      ⟨remoteDiff, hr, refused_bind_pure.2 ((Merge.ofTrees_refused_iff hl hr).2 h)⟩⟩

theorem resolveSafeBase_comm (st : Store) (localM remoteM : RootManifest) (base : Option RootManifest) :
    resolveSafeBase st localM remoteM base = resolveSafeBase st remoteM localM base := by
  cases base with
  | none => rfl
  | some =>
    unfold resolveSafeBase
    dsimp only
    rw [Bool.and_comm]

theorem baseRoot_comm (st : Store) (localM remoteM : RootManifest) (base : Option RootManifest)
    (emptyRoot : BlobId) :
    baseRoot st localM remoteM base emptyRoot = baseRoot st remoteM localM base emptyRoot := by
  unfold baseRoot
  rw [resolveSafeBase_comm]

/-- Where all trees can be read and no conflict quarantines a directory, a directory of the base
that one side replaced must hold no change of the other, or both sides must have such a
directory. -/
def RefusalsAgree (st : Store) (fuel : Nat) (m₁ m₂ : RootManifest) (base : Option RootManifest) :
    Prop :=
  ∀ emptyRoot st', withEmptyTree st = .ok (emptyRoot, st') →
    TreesRead st' fuel (baseRoot st m₁ m₂ base emptyRoot) m₁.rootTreeId m₂.rootTreeId →
    (Merge.ofTrees st' m₁.deviceId m₂.deviceId (baseRoot st m₁ m₂ base emptyRoot) m₁.rootTreeId
        m₂.rootTreeId).DirLoses ∨
      ((Merge.ofTrees st' m₁.deviceId m₂.deviceId (baseRoot st m₁ m₂ base emptyRoot) m₁.rootTreeId
          m₂.rootTreeId).Overruns ↔
        (Merge.ofTrees st' m₂.deviceId m₁.deviceId (baseRoot st m₁ m₂ base emptyRoot) m₂.rootTreeId
          m₁.rootTreeId).Overruns)

theorem withEmptyTree_not_refused (st : Store) : ¬ Refused (withEmptyTree st) := by
  unfold withEmptyTree
  cases serializeTreeNode ⟨[]⟩ with
  | error => simp [Refused]
  | ok bytes =>
    dsimp only
    cases st.putBlob .treeNode bytes <;> simp [Refused]

theorem Merge.ofTrees_dirLoses_comm (st : Store) {dev₁ dev₂ : BlobId} (b r₁ r₂ : BlobId) (h : dev₁ ≠ dev₂) :
    (Merge.ofTrees st dev₁ dev₂ b r₁ r₂).DirLoses ↔ (Merge.ofTrees st dev₂ dev₁ b r₂ r₁).DirLoses :=
  (Merge.dirLoses_mirror_iff
    (h : (Merge.ofTrees st dev₁ dev₂ b r₁ r₂).localDev ≠ _)).symm

theorem TreesRead.symm {l r : BlobId} (h : TreesRead st fuel b l r) :
    TreesRead st fuel b r l :=
  ⟨h.theirsDiff, h.mineDiff, h.theirsRefs, h.mineRefs⟩

/-- Two devices that reconcile the same manifests refuse together exactly when neither replaced a
directory the other changed something in, or both did. -/
theorem reconcile_refused_comm_iff (st : Store) (fuel : Nat) (m₁ m₂ : RootManifest)
    (base : Option RootManifest) (hdev : m₁.deviceId ≠ m₂.deviceId) :
    (Refused (reconcile st fuel m₁ m₂ base) ↔ Refused (reconcile st fuel m₂ m₁ base)) ↔
      RefusalsAgree st fuel m₁ m₂ base := by
  unfold RefusalsAgree
  cases hempty : withEmptyTree st with
  | error =>
    have hnot : ∀ m m' : RootManifest, ¬ Refused (reconcile st fuel m m' base) := by
      intro m m' h
      rw [reconcile_eq, hempty] at h
      exact withEmptyTree_not_refused st (hempty ▸ refused_error h)
    exact iff_of_true (iff_of_false (hnot m₁ m₂) (hnot m₂ m₁)) (fun _ _ h => nomatch h)
  | ok r =>
    obtain ⟨emptyRoot, st'⟩ := r
    have hloses := Merge.ofTrees_dirLoses_comm st' (baseRoot st m₁ m₂ base emptyRoot)
      m₁.rootTreeId m₂.rootTreeId hdev
    rw [reconcile_refused_iff hempty rfl,
      reconcile_refused_iff hempty (baseRoot_comm st m₂ m₁ base emptyRoot), ← hloses]
    constructor
    · intro hiff _ _ heq hread
      cases heq
      by_cases hl : (Merge.ofTrees st' m₁.deviceId m₂.deviceId (baseRoot st m₁ m₂ base emptyRoot)
          m₁.rootTreeId m₂.rootTreeId).DirLoses
      · exact .inl hl
      · refine .inr ⟨fun h => ?_, fun h => ?_⟩
        · obtain ⟨-, h | h⟩ := hiff.1 ⟨⟨hread.mineDiff, hread.theirsDiff⟩, .inr ⟨hread, h⟩⟩
          · exact absurd h hl
          · exact h.2
        · obtain ⟨-, h | h⟩ := hiff.2 ⟨⟨hread.theirsDiff, hread.mineDiff⟩, .inr ⟨hread.symm, h⟩⟩
          · exact absurd h hl
          · exact h.2
    · intro hagree
      constructor
      · rintro ⟨hdiffs, h | ⟨hread, h⟩⟩
        · exact ⟨hdiffs.symm, .inl h⟩
        · refine ⟨hdiffs.symm, (hagree _ _ rfl hread).imp_right fun hiff => ?_⟩
          exact ⟨hread.symm, hiff.1 h⟩
      · rintro ⟨hdiffs, h | ⟨hread, h⟩⟩
        · exact ⟨hdiffs.symm, .inl h⟩
        · refine ⟨hdiffs.symm, (hagree _ _ rfl hread.symm).imp_right fun hiff => ?_⟩
          exact ⟨hread.symm, hiff.2 h⟩

end

/-! ### A directory replaced on one side and filled on the other -/

namespace Sample

def nodeXY : TreeNode := ⟨[emptyFile "x", emptyFile "y"]⟩

def rootFilled : TreeNode := ⟨[⟨"d", false, 7, 0, .dir (nodeId nodeXY)⟩]⟩

def filledStore : Store := (fileDirStore.withNode nodeXY).withNode rootFilled

/-- The manifest of `node` that the device `dev` made after that of `rootDir`. -/
def childOf (dev : UInt8) (node : TreeNode) : RootManifest :=
  ⟨ByteArr.fill 16 0, ByteArr.fill 32 dev, 0, 0, nodeId node, manifestId (manifestOf rootDir)⟩

end Sample

open Sample in
theorem reconcile_refused_comm_iff_of_filled :
    (childOf 1 rootFile).deviceId ≠ (childOf 2 rootFilled).deviceId ∧
      ((Refused (reconcile filledStore 2 (childOf 1 rootFile) (childOf 2 rootFilled)
          (some (manifestOf rootDir))) ↔
        Refused (reconcile filledStore 2 (childOf 2 rootFilled) (childOf 1 rootFile)
          (some (manifestOf rootDir)))) ↔
        RefusalsAgree filledStore 2 (childOf 1 rootFile) (childOf 2 rootFilled)
          (some (manifestOf rootDir))) := by
  have hdev : (childOf 1 rootFile).deviceId ≠ (childOf 2 rootFilled).deviceId := by decide +kernel
  exact ⟨hdev, reconcile_refused_comm_iff filledStore 2 _ _ _ hdev⟩

open Sample in
/-- The device that replaced the directory refuses, the one that filled it goes on. -/
theorem reconcile_refused_one_sided :
    Refused (reconcile filledStore 2 (childOf 1 rootFile) (childOf 2 rootFilled)
        (some (manifestOf rootDir))) ∧
      ¬ Refused (reconcile filledStore 2 (childOf 2 rootFilled) (childOf 1 rootFile)
        (some (manifestOf rootDir))) := by
  constructor <;> decide +kernel

end Ferry
