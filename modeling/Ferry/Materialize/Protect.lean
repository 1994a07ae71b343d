import Ferry.Materialize.GuardSound

/-! # What a guarded run may destroy

A run that has passed its guard removes and overwrites step by step and may
stop anywhere. If it reports a divergence it has changed nothing. Whatever else it
reports, a file or link that was there when it began is still there, times aside,
or the expected tree records it, as long as each act finds at its turn what
`Guarded` says: the guard has looked at the place that the act now writes to.
-/

namespace Ferry

open Lib List Function

section
variable [Env]

/-! ## The invariant -/

/-- Every file or link of `d₀` is in `d`, times aside, or recorded. -/
def Protected (ap : Applier) (root : BlobId) (d₀ d : Disk) : Prop :=
  ∀ q i, d₀.get q = some i → i ≠ .dir → (d.get q).map Inode.bare = some i.bare ∨ Noted ap root q i

section
variable {ap : Applier} {root : BlobId} {d₀ d d' : Disk} {a : CompPath}

theorem Protected.refl (ap : Applier) (root : BlobId) (d : Disk) : Protected ap root d d := by
  intro q i hq _
  exact .inl (by rw [hq]; rfl)

section
variable (h : Protected ap root d₀ d)
include h

theorem Protected.timesOnly (ht : d.TimesOnly d') : Protected ap root d₀ d' := fun q i hq hi =>
  (h q i hq hi).imp_left (ht q).trans

theorem Protected.of_leaf {q : CompPath} (hq : d₀.get q = some i) (hi : i ≠ .dir)
    (hleaf : d.LeafAt q → Noted ap root q i) : Noted ap root q i := by
  rcases h q i hq hi with hsame | hnoted
  · refine hleaf ⟨fun hnone => by simp [hnone] at hsame, fun hdir => ?_⟩
    simp only [hdir, Option.map_some, Option.some.injEq] at hsame
    exact hi (Inode.bare_eq_dir.1 hsame.symm)
  · exact hnoted

/-- A tree may go if every file and link in it that was there at the beginning is recorded. -/
theorem Protected.cut (hq : ∀ q i, a <+: q → d₀.get q = some i → i ≠ .dir → d.LeafAt q → Noted ap root q i) :
    Protected ap root d₀ (d.removeTree a) := by
  intro q i hget hi
  by_cases hpre : a <+: q
  · exact .inr (h.of_leaf hget hi (hq q i hpre hget hi))
  · refine (h q i hget hi).imp_left fun hsame => ?_
    rw [Disk.get_removeTree, Lib.cut, if_neg hpre]
    exact hsame

theorem Protected.place {j : Inode} (hcan : d.CanPlace a j)
    (hat : ∀ i, d₀.get a = some i → i ≠ .dir → d.LeafAt a → Noted ap root a i) :
    Protected ap root d₀ (d.place a j hcan) := by
  intro q i hget hi
  by_cases heq : q = a
  · subst heq
    exact .inr (h.of_leaf hget hi (hat i hget hi))
  · rw [Disk.get_place, update_of_ne heq]
    exact h q i hget hi

/-- An empty directory may go, and so may a file or link that is recorded. -/
theorem Protected.cut_one (hbelow : ∀ q, Above a q → d.get q = none)
    (hat : ∀ i, d₀.get a = some i → i ≠ .dir → d.LeafAt a → Noted ap root a i) :
    Protected ap root d₀ (d.removeTree a) := by
  refine h.cut fun q i hpre hget hi hleaf => ?_
  by_cases heq : a = q
  · subst heq
    exact hat i hget hi hleaf
  · exact absurd (hbelow q (above_iff_isPrefix.2 ⟨hpre, heq⟩)) hleaf.1

end

end

/-! ## What an act must find -/

/-- The path of the act leads through no link, and what stood at its place when the run began, if
anything, is what the guard has looked at. -/
structure Faced (ap : Applier) (d₀ d : Disk) (p abs : CompPath) : Prop where
  ne : abs ≠ []
  plain : PlainPath abs
  noLink : d.NoLink abs
  seen : d₀.get abs = none ∨ lookFrom .refuse d₀ ap.target p = .ok abs

/-- Nothing is destroyed that the guard passes over: another entry with the name under which a file is
looked up, a file in place of an expected directory, an entry under the temporary name. -/
def ApplierAct.Guarded (ap : Applier) (root : BlobId) (d₀ d : Disk) (abs : CompPath) : ApplierAct → Prop
  | .remove rm => Faced ap d₀ d rm.path abs ∧ (rm.deep = true → Untwinned d₀ abs)
  | .upsert up =>
    match up.mutation with
    | .mkdir .. => Faced ap d₀ d up.path abs ∧ (ExpectsDir ap.store root up.path → ¬ d.LeafAt abs)
    | .writeFile .. | .writeSymlink .. => Faced ap d₀ d up.path abs ∧ d.get (tempPath abs up.path) = none ∧
      (ExpectsDir ap.store root up.path → d.get abs = none)
    | _ => True
  | _ => True

def Guarded (ap : Applier) (root : BlobId) (d₀ : Disk) (s : Exec) (a : ApplierAct) : Prop :=
  match ap.resolve s a.path with
  | .error _ => True
  | .ok abs => a.Guarded ap root d₀ s.disk abs

instance {ap : Applier} {d₀ d : Disk} {p abs : CompPath} : Decidable (Faced ap d₀ d p abs) :=
  decidable_of_iff (abs ≠ [] ∧ PlainPath abs ∧ d.NoLink abs ∧
      (d₀.get abs = none ∨ (lookFrom .refuse d₀ ap.target p).toOption = some abs)) <| by
    have hlook : (lookFrom .refuse d₀ ap.target p).toOption = some abs ↔
        lookFrom .refuse d₀ ap.target p = .ok abs := by
      cases lookFrom .refuse d₀ ap.target p <;> simp [Except.toOption]
    rw [hlook]
    exact ⟨fun ⟨h₁, h₂, h₃, h₄⟩ => ⟨h₁, h₂, h₃, h₄⟩, fun h => ⟨h.ne, h.plain, h.noLink, h.seen⟩⟩

instance {ap : Applier} {root : BlobId} {d₀ d : Disk} {abs : CompPath} :
    (a : ApplierAct) → Decidable (a.Guarded ap root d₀ d abs)
  | .look _ | .touch _ => isTrue trivial
  | .remove _ | .upsert ⟨_, .mkdir ..⟩ | .upsert ⟨_, .writeFile ..⟩ | .upsert ⟨_, .writeSymlink ..⟩ =>
    inferInstanceAs (Decidable (_ ∧ _))
  | .upsert ⟨_, .skip⟩ | .upsert ⟨_, .restoreMtime ..⟩ | .upsert ⟨_, .restoreSymlinkMtime ..⟩ => isTrue trivial

instance {ap : Applier} {root : BlobId} {d₀ : Disk} {s : Exec} {a : ApplierAct} :
    Decidable (Guarded ap root d₀ s a) := by
  unfold Guarded
  exact match ap.resolve s a.path with
    | .error _ => isTrue trivial
    | .ok _ => inferInstance

/-! ## The acts -/

section
variable {ap : Applier} {root : BlobId} {d₀ : Disk} {s : Exec} {p abs : CompPath}

/-- The invariant of a run. -/
abbrev Safe (ap : Applier) (root : BlobId) (d₀ : Disk) (s : Exec) : Prop := Protected ap root d₀ s.disk

omit [Env] in
theorem above_eq_dir (h : d₀.get q ≠ none) (hne : abs ≠ []) (habove : Above abs q) : d₀.get abs = some .dir := by
  obtain ⟨j, hj, hdir⟩ := d₀.isTree.parent hne habove h
  rw [hj, hdir]

theorem Faced.seen_of_get (h : Faced ap d₀ s.disk p abs) (hpre : abs <+: q) (hget : d₀.get q ≠ none) :
    ∃ i, d₀.get abs = some i ∧ lookFrom .refuse d₀ ap.target p = .ok abs := by
  have hsome : d₀.get abs ≠ none := by
    by_cases heq : abs = q
    · rwa [heq]
    · rw [above_eq_dir hget h.ne (above_iff_isPrefix.2 ⟨hpre, heq⟩)]
      simp
  obtain ⟨i, hi⟩ := Option.ne_none_iff_exists'.1 hsome
  exact ⟨i, hi, h.seen.resolve_left hsome⟩

/-- What a removal takes away the guard has seen recorded. -/
theorem safe_executeRemove {rm : PlannedRemove} (hs : Safe ap root d₀ s) (hguarded : Guarded ap root d₀ s (.remove rm))
    (hchecked : ∀ a i, lookFrom .refuse d₀ ap.target rm.path = .ok a → d₀.get a = some i →
      RemovalChecked ap root d₀ rm a) :
    Triple (· = s) (ap.executeRemove rm) (fun _ => Safe ap root d₀) fun _ => Safe ap root d₀ := by
  refine triple_of_resolved (fun _ => hs) fun abs fold hres => ?_
  unfold Guarded at hguarded
  rw [show ap.resolve s (ApplierAct.remove rm).path = _ from resolve_eq_ok hres] at hguarded
  obtain ⟨hfaced, htwin⟩ := hguarded
  refine (triple_executeRemove hres hfaced.ne hfaced.plain hfaced.noLink).weaken (fun _ h => h) ?_ fun _ _ h => h ▸ hs
  rintro _ s' (rfl | ⟨md, hget, hempty, rfl⟩)
  · exact hs
  have hleaf : ∀ i, d₀.get abs = some i → i ≠ .dir → s.disk.LeafAt abs → Noted ap root abs i := by
    intro i hi hid _
    obtain ⟨j, hj, hlook⟩ := hfaced.seen_of_get (prefix_refl _) (by simp [hi])
    exact (hchecked abs j hlook hj).leaf i hi hid
  by_cases hdir : md = .dir
  swap
  · exact hs.cut_one (fun q hq => s.disk.isTree.none_below hget hdir hq) hleaf
  rcases hempty hdir with hdeep | hnames
  · refine hs.cut fun q i hpre hi hid _ => ?_
    obtain ⟨j, hj, hlook⟩ := hfaced.seen_of_get hpre (by simp [hi])
    obtain ⟨sub, rfl⟩ := hpre
    exact (hchecked abs j hlook hj).deep hdeep (htwin hdeep) sub i hi hid
  -- an empty directory: whatever stood below it is gone already
  · exact hs.cut_one (fun q hq => Disk.none_below_of_names_nil hnames hq) hleaf

section
variable (hs : Safe ap root d₀ s) (hfaced : Faced ap d₀ s.disk p abs)
  (hchecked : ∀ i, d₀.get abs = some i → (i ≠ .dir ∧ Noted ap root abs i) ∨ ExpectsDir ap.store root p)
include hs hchecked

/-- A directory goes only where none is expected, so none was there when the run began. -/
theorem safe_cleared (hne : abs ≠ []) (hexp : ExpectsDir ap.store root p → s.disk.get abs = none) {s₁ : Exec}
    (h : Cleared abs s s₁) : Safe ap root d₀ s₁ := by
  rcases h with ⟨rfl, -⟩ | ⟨rfl, hget⟩
  · exact hs
  refine hs.cut fun q i hpre hi hid hleaf => ?_
  by_cases heq : abs = q
  · subst heq
    exact absurd hget hleaf.2
  · have hdir := above_eq_dir (show d₀.get q ≠ none by simp [hi]) hne (above_iff_isPrefix.2 ⟨hpre, heq⟩)
    refine absurd rfl ((hchecked _ hdir).resolve_right fun h => ?_).1
    cases (hexp h).symm.trans hget

include hfaced

/-- Writing a file or link: what it replaces is recorded. -/
theorem safe_place (htemp : s.disk.get (tempPath abs p) = none)
    (hexp : ExpectsDir ap.store root p → s.disk.get abs = none) {s₁ : Exec} (h₁ : Cleared abs s s₁)
    {Ok : Inode → Prop} {m : ExecM Unit} (hm : s₁.disk.Vacant (tempPath abs p) → Triple (· = s₁) m
      (fun _ s' => ∃ i d, Ok i ∧ s₁.disk.renameOnto abs i = .ok d ∧ s' = { s₁ with disk := d })
      (fun _ s' => ∃ d : Disk, d.inodes = s₁.disk.inodes ∧ s' = { s₁ with disk := d })) :
    Triple (· = s₁) m (fun _ => Safe ap root d₀) fun _ => Safe ap root d₀ := by
  have hs₁ := safe_cleared hs hchecked hfaced.ne hexp h₁
  refine (triple_place hfaced.ne hfaced.plain (h₁.noLink hfaced.noLink) (h₁.get_eq_none htemp) hm).weaken
    (fun _ h => h) ?_ ?_
  · rintro _ s' ⟨-, i, hcan, -, rfl⟩
    refine hs₁.place hcan fun j hj _ hleaf => ?_
    rcases hchecked j hj with ⟨-, hnoted⟩ | hdir
    · exact hnoted
    · exact absurd (h₁.get_eq_none (hexp hdir)) hleaf.1
  · rintro _ s' ⟨d, hd, rfl⟩
    refine Protected.timesOnly hs₁ fun q => ?_
    simp only [Disk.get, hd]

end

/-- What an upsert replaces the guard has seen recorded, one case for each mutation. -/
theorem safe_executeUpsert {up : PlannedUpsert} (hs : Safe ap root d₀ s) (hguarded : Guarded ap root d₀ s (.upsert up))
    (hchecked : up.mutation.isMutation → ∀ a i, lookFrom .refuse d₀ ap.target up.path = .ok a → d₀.get a = some i →
      (i ≠ .dir ∧ Noted ap root a i) ∨ ExpectsDir ap.store root up.path) :
    Triple (· = s) (ap.executeUpsert up) (fun _ => Safe ap root d₀) fun _ => Safe ap root d₀ := by
  refine triple_abs_bind (fun _ _ => hs) fun abs fold hres => ?_
  unfold Guarded at hguarded
  rw [show ap.resolve s (ApplierAct.upsert up).path = _ from hres] at hguarded
  obtain ⟨path, mutation⟩ := up
  have hat : mutation.isMutation → Faced ap d₀ s.disk path abs → ∀ i, d₀.get abs = some i →
      (i ≠ .dir ∧ Noted ap root abs i) ∨ ExpectsDir ap.store root path := by
    intro hmut hfaced i hi
    obtain ⟨j, -, hlook⟩ := hfaced.seen_of_get (prefix_refl _) (by simp [hi])
    exact hchecked hmut abs i hlook hi
  have htimes : ∀ {at_ : CompPath} {call : Disk → Except Errno Disk}, (∀ d d', call d = .ok d' → d.TimesOnly d') →
      Keeps (Safe ap root d₀) (change at_ call) :=
    fun h => keeps_change fun _ hs d hrun => Protected.timesOnly hs (h _ d hrun)
  have hstart : ∀ {m : ExecM Unit}, Keeps (Safe ap root d₀) m → Triple (· = { s with fold := fold }) m
      (fun _ => Safe ap root d₀) fun _ => Safe ap root d₀ :=
    fun h => Triple.weaken h (fun _ h => h ▸ hs) (fun _ _ h => h) fun _ _ h => h
  cases mutation with
  | skip => exact hstart (.pure _)
  | restoreMtime => exact hstart (htimes fun _ _ h => Disk.setTimes_timesOnly h)
  | restoreSymlinkMtime => exact hstart (htimes fun _ _ h => Disk.setTimesNoFollow_timesOnly h)
  | mkdir =>
    obtain ⟨hfaced, hexp⟩ := hguarded
    refine Triple.bind (Q := fun _ s' => Safe ap root d₀ s' ∧ s'.disk.NoLink abs) (Triple.weaken
      (triple_clearLeaf (s := { s with fold := fold }) hfaced.ne hfaced.plain hfaced.noLink) (fun _ h => h) ?_
      fun _ _ h => h ▸ hs) fun _ => ?_
    · rintro _ s' (rfl | ⟨rfl, hleaf⟩)
      · exact ⟨hs, hfaced.noLink⟩
      refine ⟨hs.cut_one (fun q hq => ?_) fun i hi _ hleaf => ?_,
        (Disk.acted_removeTree abs s.disk).noLink le_rfl hfaced.noLink⟩
      · obtain ⟨md, hmd⟩ := Option.ne_none_iff_exists'.1 hleaf.1
        exact s.disk.isTree.none_below hmd (fun hdir => hleaf.2 (hmd.trans (congrArg some hdir))) hq
      · exact ((hat rfl hfaced i hi).resolve_right fun h => hexp h hleaf).2
    · refine Triple.bind (Q := fun _ => Safe ap root d₀) (.of_each fun s₁ ⟨hs₁, hno⟩ => Triple.weaken
        (triple_ensureDir hfaced.ne hfaced.plain hno) (fun _ h => h) ?_ fun _ _ h => h ▸ hs₁) fun _ =>
        Keeps.bind (Triple.modify fun _ h => h) fun _ => Triple.modify fun _ h => h
      rintro _ s' (⟨rfl, -⟩ | ⟨hnone, hcan, rfl⟩)
      · exact hs₁
      · exact hs₁.place hcan fun i _ _ hleaf => absurd hnone hleaf.1
  | writeSymlink target times =>
    obtain ⟨hfaced, htemp, hexp⟩ := hguarded
    dsimp only
    split
    · exact Triple.throw fun _ h => h ▸ hs
    refine Triple.bind ((triple_clearDir (s := { s with fold := fold }) hfaced.ne hfaced.plain hfaced.noLink).fails
      fun _ _ h => h ▸ hs) fun _ => .of_each fun s₁ h₁ => Triple.bind (safe_place (s := { s with fold := fold }) hs
        hfaced (hat rfl hfaced) htemp hexp h₁ fun hfree => triple_land hfaced.ne hfree makes_symlink) fun _ => ?_
    refine Keeps.bind (Triple.modify fun _ h => h) fun _ => ?_
    split
    · exact htimes fun _ _ h => Disk.setTimesNoFollow_timesOnly h
    · exact .pure _
  | writeFile =>
    obtain ⟨hfaced, htemp, hexp⟩ := hguarded
    refine Triple.bind ((triple_clearDir (s := { s with fold := fold }) hfaced.ne hfaced.plain hfaced.noLink).fails
      fun _ _ h => h ▸ hs) fun _ => .of_each fun s₁ h₁ => Triple.bind (safe_place (s := { s with fold := fold }) hs
        hfaced (hat rfl hfaced) htemp hexp h₁ fun hfree => triple_writeFileAtomically hfaced.ne hfree)
      fun _ => Triple.modify fun _ h => h

theorem safe_executeTouch {t : PlannedTouch} : Keeps (Safe ap root d₀) (ap.executeTouch t) := by
  refine .of_each fun s hs => triple_abs_bind (fun _ _ => hs) fun abs fold _ => ?_
  refine Triple.weaken (P := Safe ap root d₀) (Keeps.get_bind fun s' => ?_) (fun _ h => h ▸ hs) (fun _ _ h => h)
    fun _ _ h => h
  dsimp only
  split
  · exact .pure _
  · exact .throw _
  · split
    · exact .pure _
    · refine (keeps_look _ _).bind fun _ => ?_
      split
      · exact .pure _
      · exact keeps_change fun _ hs d hrun => Protected.timesOnly hs (Disk.setTimes_timesOnly hrun)

end

/-! ## The run -/

/-- A guarded change set changes nothing if it diverges. Otherwise it destroys nothing unrecorded, if every
act finds at its turn that the guard has looked at what it is about to destroy. -/
theorem applyChangeSet_guarded {ap : Applier} {m : RootManifest} (hmode : ap.overwrite = .expect m)
    {cs : ChangeSet} {s : Exec} (hplain : PlainPath ap.target) (hroot : s.disk.DirAt ap.target) :
    (∀ ds s', ap.applyChangeSet cs s = .error (.diverged ds) s' → s'.disk = s.disk) ∧
      (s.disk.RealNames → ap.Turns (Guarded ap m.rootTreeId s.disk) cs.removes cs.upserts s →
        Protected ap m.rootTreeId s.disk (finalDisk (ap.applyChangeSet cs s))) := by
  refine ⟨fun ds s' hrun => ?_, fun hnames hturns => ?_⟩
  · rcases applyChangeSet_cases hplain hroot cs with ⟨e, h⟩ | h
    · cases h.symm.trans hrun
      rfl
    · exact (run_diverged ap _ _ s.disk).of_error rfl (h ▸ hrun) ds rfl
  refine finalDisk_applyChangeSet hplain hroot (.refl _ _ _) ?_
  have hprep := (finds_prepare hmode hnames cs.removes cs.upserts).weaken (fun s' (h : s' = s) => h ▸ rfl)
    (fun _ s' h => (⟨h.1 ▸ .refl _ _ _, h.2⟩ : Safe ap m.rootTreeId s.disk s' ∧ _))
    fun _ s' h => (h ▸ .refl _ _ _ : Safe ap m.rootTreeId s.disk s')
  refine (triple_run (C := Guarded ap m.rootTreeId s.disk) hprep (fun planned => ?_) fun t => ?_).weaken
    (fun s' h => ⟨h, h ▸ hturns⟩) (fun _ _ h => h) fun _ _ h => h
  · rintro s₁ ⟨⟨hs₁, hchecked⟩, halong⟩
    refine Along.keeps (I := Safe ap m.rootTreeId s.disk) (fun a ha => .of_each fun s₂ ⟨hs₂, hguarded⟩ => ?_) s₁
      ⟨hs₁, halong⟩
    rcases mem_runActs.1 ha with ⟨rm, hrm, rfl⟩ | ⟨up, hup, rfl⟩
    · exact safe_executeRemove hs₂ hguarded (hchecked.removal rm hrm)
    · exact safe_executeUpsert hs₂ hguarded (hchecked.upsert up hup)
  · exact safe_executeTouch.weaken (fun _ h => h.1) (fun _ _ h => h) fun _ _ h => h

end

/-! ### A live file where a directory is expected -/

theorem Disk.realNames_of_entries [Env] {d : Disk} (h : ∀ kv ∈ d.inodes.entries, ∀ c ∈ kv.1, RealName c) :
    d.RealNames := by
  intro q hq
  obtain ⟨i, hi⟩ := Option.ne_none_iff_exists'.1 hq
  exact h ⟨q, i⟩ (AList.mem_lookup_iff.1 hi)

namespace Sample

def editedExec : Exec :=
  ⟨(Disk.empty.withEntry ["t"] .dir).withEntry ["t", "d"] (.file [1, 2] false 9), fun _ => none, []⟩

def dirState : EntryState := ⟨.dir, false, 7, 0, [], none⟩

def addDir : ChangeSet := { added := [⟨["d"], dirState⟩] }

end Sample

open Sample in
/-- The guard passes, and the live file `d` is deleted for a directory. -/
theorem applyChangeSet_guarded_deletes_edit :
    ¬ Protected (expecting rootDir) (nodeId rootDir) editedExec.disk
      (finalDisk ((expecting rootDir).applyChangeSet addDir editedExec)) := by
  intro h
  have hend : (finalDisk ((expecting rootDir).applyChangeSet addDir editedExec)).get ["t", "d"] =
      some .dir := by decide +kernel
  have hlive : editedExec.disk.get ["t", "d"] = some (.file [1, 2] false 9) := by decide +kernel
  rcases h ["t", "d"] _ hlive (by simp) with hsame | ⟨rel, p, hrel, halike, e, he, hm⟩
  · rw [hend] at hsame
    cases hsame
  · obtain rfl : rel = ["d"] := by simpa [expecting, eq_comm] using hrel
    obtain rfl : p = ["d"] := by
      rw [← map_id p]
      exact halike.symm
    have hentry : entryAt fileDirStore (nodeId rootDir) ["d"] =
        some ⟨"d", false, 7, 0, .dir (nodeId nodeX)⟩ := by decide +kernel
    cases he.symm.trans hentry
    exact absurd hm.kind (by decide)

namespace Accent

def root : TreeNode := ⟨[Sample.emptyFile "\u00e9"]⟩

/-- The expected tree has a file under the composed spelling of its name. -/
def applier : Applier :=
  ⟨Store.empty.withNode root, ["t"], .expect ⟨ByteArr.fill 16 0, zeroId, 0, 0, nodeId root, zeroId⟩, 2⟩

/-- The disk has it under the decomposed one. -/
def exec : Exec :=
  ⟨(Disk.empty.withEntry ["t"] .dir).withEntry ["t", "e\u0301"] (.file [] false 9), fun _ => none, []⟩

/-- The file goes, and another one comes. -/
def replacement : ChangeSet :=
  { removed := [⟨["\u00e9"], .of (Sample.emptyFile "\u00e9")⟩], added := [⟨["b"], .of (Sample.emptyFile "b")⟩] }

end Accent

open Accent in
theorem applyChangeSet_guarded_accent :
    Protected applier (nodeId root) exec.disk (finalDisk (applier.applyChangeSet replacement exec)) :=
  (@applyChangeSet_guarded _ applier _ rfl replacement exec (by decide) (by decide +kernel)).2
    (Disk.realNames_of_entries (by decide +kernel)) (by decide +kernel)

end Ferry
