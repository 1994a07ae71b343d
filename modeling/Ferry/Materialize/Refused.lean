import Ferry.Materialize.ReadOnly
import Ferry.Store.Codec

/-! # Refusals that come too late

A change set may be refused for its content: a chunk that is not in the store, a
link target that is not allowed, a name that the disk spells in two ways. Some of
this is found out only when the act in question is carried out, after the acts
before it. A refusal leaves everything as it was if nothing that was there has been
in the way of an act so far.
-/

namespace Ferry

open Lib List

namespace Disk

variable {d d' : Disk} {p : CompPath}

theorem get_of_no_metadata {e : Errno} (h : d.symlinkMetadata p = .error e) {q : CompPath}
    (hq : d.locate p = .ok q) : d.get q = none := by
  unfold symlinkMetadata at h
  rw [hq] at h
  cases q with
  | nil => cases h
  | cons c r =>
    cases hget : d.get (c :: r) with
    | none => rfl
    | some => simp [hget] at h

theorem renameOnto_grows {e : Errno} {i : Inode} (hnone : d.symlinkMetadata p = .error e)
    (h : d.renameOnto p i = .ok d') : d.Grows d' := by
  unfold renameOnto at h
  split at h
  · cases h
  rename_i q hloc
  split at h
  · rename_i hcan
    cases h
    exact grows_place (get_of_no_metadata hnone hloc) hcan.2
  · cases h

theorem grows_of_inodes (h : d'.inodes = d.inodes) : d.Grows d' := by
  intro q i hq
  rw [get, h]
  exact hq

/-- The times of an entry that was not there before. -/
theorem setTimesNoFollow_grows {d₁ : Disk} {e : Errno} {t : Int} (hnone : d.symlinkMetadata p = .error e)
    (hg : d.Grows d₁) (h : d₁.setTimesNoFollow p t = .ok d') (hloc : ∃ q, d.locate p = .ok q) : d.Grows d' := by
  obtain ⟨q, hq⟩ := hloc
  have hnew := get_of_no_metadata hnone hq
  have hplace : ∀ {i : Inode} (hc : d₁.CanPlace q i), d.Grows { d₁.place q i hc with dirTime := d₁.dirTime } := by
    intro i hc r j hr
    have hne : r ≠ q := by
      rintro rfl
      rw [hnew] at hr
      cases hr
    show (d₁.place q i hc).get r = some j
    rw [get_place, Function.update_of_ne hne]
    exact hg r j hr
  unfold setTimesNoFollow at h
  rw [hg.locate hq] at h
  dsimp only at h
  split at h
  · split at h
    · cases h
      exact hplace _
    · cases h
  · split at h
    · cases h
      exact hplace _
    · cases h
  · cases h
    exact hg
  · cases h

end Disk

section
variable [Env]

/-- A failure of the file system. -/
def MaterializeError.IsIo : MaterializeError → Prop
  | .io .. => True
  | _ => False

/-- Nothing stands where the upsert is to be carried out, nor under its temporary name. -/
def Mutation.Clear (d : Disk) (abs tmp : CompPath) : Mutation → Prop
  | .skip => True
  | .mkdir .. => (d.symlinkMetadata abs).toOption = none
  | .writeFile .. | .writeSymlink .. => (d.symlinkMetadata abs).toOption = none ∧ d.Vacant tmp
  | .restoreMtime .. | .restoreSymlinkMtime .. => False

/-- Nothing that is there is in the way of the act. -/
def Clear (ap : Applier) (s : Exec) (a : ApplierAct) : Prop :=
  match ap.resolve s a.path, a with
  | .error _, _ => True
  | .ok abs, .remove _ => (s.disk.symlinkMetadata abs).toOption = none
  | .ok abs, .upsert up => up.mutation.Clear s.disk abs (tempPath abs up.path)
  | .ok _, _ => False

/-- From the first act on that finds something in its way, no act is refused. -/
def Orderly (ap : Applier) : List ApplierAct → Exec → Prop
  | [], _ => True
  | a :: rest, s => Along (Firm MaterializeError.IsIo ap) ap.act (a :: rest) s ∨
    Clear ap s a ∧ After (ap.act a s) (Orderly ap rest)

/-- The acts of the run are in order, and no touch is refused. -/
def Applier.Ordered (ap : Applier) (removes : List PlannedRemove) (upserts : List PlannedUpsert) (s : Exec) : Prop :=
  match ap.prepare removes upserts s with
  | .error .. => True
  | .ok planned s => Orderly ap (runActs removes planned) s ∧
    After ((runActs removes planned).forM ap.act s) fun s =>
      Along (Firm MaterializeError.IsIo ap) ap.act (touchActs s) s

variable {ap : Applier} {s : Exec}

instance : DecidablePred MaterializeError.IsIo := fun e => by
  unfold MaterializeError.IsIo
  split <;> infer_instance

instance {d : Disk} {abs tmp : CompPath} : (m : Mutation) → Decidable (m.Clear d abs tmp)
  | .skip => isTrue trivial
  | .mkdir .. => inferInstanceAs (Decidable ((d.symlinkMetadata abs).toOption = none))
  | .writeFile .. | .writeSymlink .. => inferInstanceAs (Decidable (_ ∧ _))
  | .restoreMtime .. | .restoreSymlinkMtime .. => isFalse id

instance {a : ApplierAct} : Decidable (Clear ap s a) := by
  unfold Clear
  generalize ap.resolve s a.path = resolved
  exact match resolved, a with
    | .error _, _ => isTrue trivial
    | .ok _, .remove _ | .ok _, .upsert _ => inferInstance
    | .ok _, .look _ | .ok _, .touch _ => isFalse id

instance decidableOrderly : ∀ l, DecidablePred (Orderly ap l)
  | [], _ => isTrue trivial
  | _ :: l, _ =>
    haveI := decidableOrderly l
    inferInstanceAs (Decidable (Along _ _ _ _ ∨ _ ∧ After _ _))

instance {removes : List PlannedRemove} {upserts : List PlannedUpsert} :
    Decidable (ap.Ordered removes upserts s) := by
  unfold Applier.Ordered
  split <;> infer_instance

section
variable {abs : CompPath} {e : Errno} (hnone : s.disk.symlinkMetadata abs = .error e)
include hnone

omit [Env] in
theorem ne_nil_of_no_metadata : abs ≠ [] := by
  rintro rfl
  cases hnone

theorem clearDir_of_none : clearDir abs s = .ok ⟨⟩ s := by
  unfold clearDir
  rw [run_bind_ok (run_get s), hnone]
  rfl

theorem triple_clearLeaf_of_none : Triple (· = s) (clearLeaf abs) (fun _ s' => s' = s) (fun _ s' => s' = s) := by
  refine Triple.get_bind fun s' hs => ?_
  subst hs
  rw [hnone]
  cases e with
  | notFound => exact Triple.pure fun _ h => h
  | _ => exact Triple.throw fun _ h => h

end

/-- The run only adds to what was there in the state `s`. -/
abbrev Adds (s : Exec) (m : ExecM Unit) : Prop :=
  Triple (· = s) m (fun _ s' => s.disk.Grows s'.disk) (fun _ s' => s.disk.Grows s'.disk)

omit [Env] in
theorem Adds.of_keeps {m : ExecM Unit} (h : Keeps (fun s' => s.disk.Grows s'.disk) m) : Adds s m :=
  Triple.weaken h (fun _ hs => hs ▸ .refl s.disk) (fun _ _ h => h) fun _ _ h => h

/-- An upsert with nothing in its way only adds entries, also where it fails. -/
theorem adds_executeUpsert {up : PlannedUpsert} (h : Clear ap s (.upsert up)) : Adds s (ap.executeUpsert up) := by
  refine triple_abs_bind (fun _ _ => .refl _) fun abs fold hres => ?_
  unfold Clear at h
  rw [show ap.resolve s (ApplierAct.upsert up).path = _ from hres] at h
  obtain ⟨path, mutation⟩ := up
  have hnone : (s.disk.symlinkMetadata abs).toOption = none → ∃ e, s.disk.symlinkMetadata abs = .error e := by
    cases hmd : s.disk.symlinkMetadata abs with
    | error e => exact fun _ => ⟨e, rfl⟩
    | ok => exact fun h => by cases h
  have hclear : ∀ {e}, s.disk.symlinkMetadata abs = .error e →
      Triple (· = { s with fold := fold }) (clearDir abs) (fun _ s' => s' = { s with fold := fold })
        fun _ s' => s.disk.Grows s'.disk := by
    rintro e he s' rfl
    rw [clearDir_of_none (s := { s with fold := fold }) he]
  have hsame : ∀ (x : MaterializeError) (s' : Exec), (∃ d : Disk, d.inodes = s.disk.inodes ∧
      s' = { s with fold := fold, disk := d }) → s.disk.Grows s'.disk := by
    rintro _ s' ⟨d, hd, rfl⟩
    exact Disk.grows_of_inodes hd
  cases mutation with
  | skip => exact Triple.pure fun _ hs => hs ▸ .refl _
  | restoreMtime | restoreSymlinkMtime => exact h.elim
  | mkdir =>
    obtain ⟨e, he⟩ := hnone h
    refine Triple.bind ((triple_clearLeaf_of_none (s := { s with fold := fold }) he).fails
      fun _ _ hs => hs ▸ .refl _) fun _ => Adds.of_keeps (s := { s with fold := fold }) ?_
    refine Keeps.bind (keeps_change fun s' hs d hrun => ?_) fun _ => ?_
    · split at hrun
      · cases hrun
        exact hs
      · exact hs.trans (Disk.createDir_grows hrun)
    · exact Keeps.bind (Triple.modify fun _ h => h) fun _ => Triple.modify fun _ h => h
  | writeFile =>
    obtain ⟨e, he⟩ := hnone h.1
    refine (hclear he).bind fun _ => Triple.bind (((triple_writeFileAtomically (s := { s with fold := fold })
      (ne_nil_of_no_metadata he) h.2).fails hsame)) fun _ => ?_
    refine Triple.modify ?_
    rintro _ ⟨_, d, -, hon, rfl⟩
    exact Disk.renameOnto_grows he hon
  | writeSymlink target times =>
    obtain ⟨e, he⟩ := hnone h.1
    dsimp only
    split
    · exact Triple.throw fun _ hs => hs ▸ .refl _
    refine (hclear he).bind fun _ => Triple.bind (((triple_land (s := { s with fold := fold })
      (ne_nil_of_no_metadata he) h.2 makes_symlink).fails hsame)) fun _ => ?_
    have hloc : ∀ {i d}, s.disk.renameOnto abs i = .ok d → ∃ q, s.disk.locate abs = .ok q := by
      intro i d hon
      unfold Disk.renameOnto at hon
      split at hon
      · cases hon
      · exact ⟨_, ‹_›⟩
    refine Triple.bind (Q := fun _ s' => s.disk.Grows s'.disk ∧ ∃ q, s.disk.locate abs = .ok q)
      (Triple.modify ?_) fun _ => ?_
    · rintro _ ⟨_, d, -, hon, rfl⟩
      exact ⟨Disk.renameOnto_grows he hon, hloc hon⟩
    · split
      · exact triple_change (fun _ hs _ hrun => Disk.setTimesNoFollow_grows he hs.1 hrun hs.2) fun _ hs _ => hs.1
      · exact Triple.pure fun _ hs => hs.1

/-- An act that finds nothing in its way only adds. -/
theorem adds_act {a : ApplierAct} (h : Clear ap s a) : Adds s (ap.act a) := by
  cases a with
  | look => exact triple_abs_bind (fun _ _ => .refl _) fun _ _ _ => Triple.pure fun _ hs => hs ▸ .refl _
  | touch =>
    refine triple_abs_bind (fun _ _ => .refl _) fun abs fold hres => ?_
    unfold Clear at h
    rw [show ap.resolve s (ApplierAct.touch _).path = _ from hres] at h
    exact h.elim
  | remove rm =>
    refine triple_abs_bind (fun _ _ => .refl _) fun abs fold hres => Triple.get_bind fun s' hs => ?_
    unfold Clear at h
    rw [show ap.resolve s (ApplierAct.remove _).path = _ from hres] at h
    subst hs
    dsimp only at h ⊢
    split
    · exact Triple.pure fun _ hs => hs ▸ .refl _
    · exact Triple.throw fun _ hs => hs ▸ .refl _
    · rename_i hmd
      rw [hmd] at h
      cases h
  | upsert up => exact adds_executeUpsert h

/-! ## The run -/

theorem orderly_grows {acts : List ApplierAct} {d : Disk} (hd : d.Grows s.disk) (h : Orderly ap acts s) :
    Triple (· = s) (acts.forM ap.act) (fun _ _ => True) (fun e s' => e.IsIo ∨ d.Grows s'.disk) := by
  induction acts generalizing s with
  | nil => exact Triple.pure fun _ _ => trivial
  | cons a rest ih =>
    rcases h with hfirm | ⟨hclear, hrest⟩
    · refine Triple.weaken (Triple.forM_along (I := fun _ _ => True) (a :: rest) fun _ b _ _ => ?_)
        (fun s' hs => ⟨trivial, hs ▸ hfirm⟩) (fun _ _ h => h) fun _ _ h => .inl h
      exact (errs_act (fun _ _ => trivial) b).weaken (fun _ h => h.2) (fun _ _ h => h) fun _ _ h => h
    · rintro s' rfl
      have hadds := adds_act hclear s' rfl
      cases hrun : ap.act a s' with
      | error =>
        rw [hrun] at hadds
        rw [forM_cons, run_bind_error hrun]
        exact .inr (hd.trans hadds)
      | ok _ s₁ =>
        rw [hrun] at hadds hrest
        rw [run_forM_cons hrun]
        exact ih (hd.trans hadds) hrest s₁ rfl

/-- A refused change set leaves every entry as it was, if from the first act on that finds something in its
way no act is refused. -/
theorem applyChangeSet_refused {cs : ChangeSet} {s : Exec}
    (hordered : ∀ d, Disk.createDirAll (ap.target.length + 1) s.disk ap.target = .ok d →
      ap.Ordered cs.removes cs.upserts { s with disk := d }) :
    Triple (· = s) (ap.applyChangeSet cs) (fun _ _ => True) (fun e s' => e.IsIo ∨ s.disk.Grows s'.disk) := by
  refine Triple.bind (Q := fun _ s' => ∃ d, Disk.createDirAll (ap.target.length + 1) s.disk ap.target = .ok d ∧
    s' = { s with disk := d }) ?_ fun _ => Triple.bind (Triple.fails (keeps_liftExcept _) ?_) fun _ => .of_each ?_
  · refine triple_change ?_ fun _ _ _ => .inl trivial
    rintro s' rfl d hd
    exact ⟨d, hd, rfl⟩
  · rintro _ _ ⟨d, hd, rfl⟩
    exact .inr (Disk.createDirAll_grows hd)
  rintro _ ⟨d, hd, rfl⟩
  have hgrows := Disk.createDirAll_grows hd
  have hord := hordered d hd
  unfold Applier.Ordered at hord
  rw [run_eq_acts]
  rintro s₀ rfl
  have hprep := triple_prepare ap cs.removes cs.upserts d { s with disk := d } rfl
  cases hrun : ap.prepare cs.removes cs.upserts { s with disk := d } with
  | error =>
    rw [hrun] at hprep
    rw [run_bind_error hrun]
    exact .inr (hprep ▸ hgrows)
  | ok planned s₁ =>
    rw [hrun] at hprep hord
    rw [run_bind_ok hrun]
    have hacts := orderly_grows (d := s.disk) (hprep.1 ▸ hgrows) hord.1 s₁ rfl
    cases hrun₂ : (runActs cs.removes planned).forM ap.act s₁ with
    | error =>
      rw [hrun₂] at hacts
      rw [run_bind_error hrun₂]
      exact hacts
    | ok _ s₂ =>
      have hlast := hord.2
      rw [hrun₂] at hlast
      rw [run_bind_ok hrun₂, run_bind_ok (run_get s₂)]
      refine Triple.weaken (Triple.forM_along (I := fun _ _ => True) (touchActs s₂) fun _ b _ _ => ?_)
        (fun _ h => h) (fun _ _ h => h) (fun _ _ h => .inl h) s₂ ⟨trivial, hlast⟩
      exact (errs_act (fun _ _ => trivial) b).weaken (fun _ h => h.2) (fun _ _ h => h) fun _ _ h => h

end

namespace Sample

def emptyState : EntryState := ⟨.file, false, 0, 0, [], none⟩

/-- A file with a chunk that is in no store. -/
def lostState : EntryState := { emptyState with chunks := [(Env.blake3 [], 1)] }

def replacing : Applier := ⟨Store.empty, [], .always, 0⟩

/-- A folder with one file. -/
def oneFile : Exec := ⟨Disk.empty.withEntry ["a"] (.file [1] false 0), fun _ => none, []⟩

/-- The run was refused for want of a chunk, and the file is gone. -/
def lost : EStateM.Result MaterializeError Exec Unit → Bool
  | .error (.store _) s => s.disk.get ["a"] = none
  | _ => false

end Sample

open Sample in
/-- Two files come, and the chunk of the second is missing. -/
theorem applyChangeSet_refused_add : Triple (· = oneFile)
    (replacing.applyChangeSet { added := [⟨["b"], emptyState⟩, ⟨["c"], lostState⟩] }) (fun _ _ => True)
    fun e s => e.IsIo ∨ oneFile.disk.Grows s.disk := by
  refine applyChangeSet_refused fun d hd => ?_
  cases hd
  decide +kernel

open Sample in
/-- Removals come first, so a chunk that is missing is found out too late. -/
theorem applyChangeSet_refused_late :
    ∃ e s, replacing.applyChangeSet { removed := [⟨["a"], emptyState⟩], added := [⟨["b"], lostState⟩] } oneFile =
      .error e s ∧ ¬ e.IsIo ∧ ¬ oneFile.disk.Grows s.disk := by
  have hlost : lost (replacing.applyChangeSet
    { removed := [⟨["a"], emptyState⟩], added := [⟨["b"], lostState⟩] } oneFile) = true := by decide +kernel
  unfold lost at hlost
  split at hlost
  · rename_i x s hrun
    refine ⟨_, s, hrun, fun h => h, fun h => ?_⟩
    have hgone := of_decide_eq_true hlost
    rw [h ["a"] _ rfl] at hgone
    cases hgone
  · cases hlost

end Ferry
