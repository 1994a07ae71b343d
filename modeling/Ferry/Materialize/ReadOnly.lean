import Ferry.Materialize.Acts
import Ferry.Materialize.Content
import Ferry.Materialize.Temp
import Ferry.Store.DiffSpec

/-! # Planning and guarding only look

Until the guard has passed, a run changes remembered spellings and planned
touches but not the disk. A divergence is reported by the guard alone, so a run
that reports one has changed nothing.
-/

namespace Ferry

open Lib

section
variable [Env]

/-! ## Steps that leave the disk alone -/

def ReadOnly {α : Type} (m : ExecM α) : Prop :=
  ∀ d : Disk, Triple (fun s => s.disk = d) m (fun _ s => s.disk = d) (fun _ s => s.disk = d)

section
variable {I : Exec → Prop} {ap : Applier}

omit [Env] in
theorem keeps_liftExcept {α : Type} (x : Except MaterializeError α) : Keeps I (liftExcept x) := by
  intro s hs
  unfold liftExcept
  cases x <;> exact hs

omit [Env] in
theorem triple_look {α : Type} {at_ : CompPath} {call : Disk → Except Errno α} {Q : α → Exec → Prop}
    (h : ∀ s, I s → ∀ a, call s.disk = .ok a → Q a s) : Triple I (look at_ call) Q (fun _ => I) := by
  intro s hs
  unfold look
  cases hrun : call s.disk with
  | ok a => exact h s hs a hrun
  | error => exact hs

omit [Env] in
theorem keeps_look {α : Type} (at_ : CompPath) (call : Disk → Except Errno α) :
    Keeps I (look at_ call) := triple_look fun _ hs _ _ => hs

omit [Env] in
theorem triple_change {at_ : CompPath} {call : Disk → Except Errno Disk} {P : Exec → Prop} {Q : PUnit → Exec → Prop}
    {X : MaterializeError → Exec → Prop} (h : ∀ s, P s → ∀ d, call s.disk = .ok d → Q ⟨⟩ { s with disk := d })
    (herror : ∀ s, P s → ∀ e, X (.io at_ e) s) : Triple P (change at_ call) Q X := by
  intro s hs
  unfold change
  cases hrun : call s.disk with
  | ok d => exact h s hs d hrun
  | error e => exact herror s hs e

omit [Env] in
theorem keeps_change {at_ : CompPath} {call : Disk → Except Errno Disk}
    (h : ∀ s, I s → ∀ d, call s.disk = .ok d → I { s with disk := d }) : Keeps I (change at_ call) :=
  triple_change h fun _ hs _ => hs

theorem keeps_clearDir {a : CompPath} (hrm : Keeps I (removeDirChildrenFirst a))
    (hnote : ∀ deep, Keeps I (noteRemoved a deep)) : Keeps I (clearDir a) := by
  refine .get_bind fun s => ?_
  split
  · exact hrm.bind fun _ => hnote _
  · exact .pure _

theorem keeps_clearLeaf {a : CompPath} (hrm : Keeps I (change a (·.removeFile a)))
    (hnote : ∀ deep, Keeps I (noteRemoved a deep)) : Keeps I (clearLeaf a) := by
  refine .get_bind fun s => ?_
  split
  · exact .pure _
  · exact .throw _
  · exact .pure _
  · exact hrm.bind fun _ => hnote _

omit [Env] in
theorem keeps_statOpt (abs : CompPath) : Keeps I (statOpt abs) := by
  intro s hs
  unfold statOpt
  cases s.disk.symlinkMetadata abs with
  | ok => exact hs
  | error e => cases e <;> exact hs

theorem keeps_contentMatches (st : Store) (abs : CompPath) (chunks : Chunks) :
    Keeps I (contentMatches st abs chunks) :=
  (keeps_look _ _).bind fun _ => keeps_liftExcept _

/-- The two upserts that only set a time, and the one that does nothing. -/
def Mutation.Cheap : Mutation → Prop
  | .skip | .restoreMtime .. | .restoreSymlinkMtime .. => True
  | _ => False

/-- Planning keeps an upsert or makes it a cheap one. -/
def PlannedFrom (up planned : PlannedUpsert) : Prop :=
  planned.path = up.path ∧ (planned.mutation = up.mutation ∨ planned.mutation.Cheap)

section
variable {up : PlannedUpsert} (htouch : ∀ sec nsec, Keeps I (pushTouch ⟨up.path, sec, nsec⟩)) (st : Store)
  (abs : CompPath) (shadowed : Bool)
include htouch

/-- Planning an upsert changes nothing, and may only turn it into a cheaper one. -/
theorem triple_planUpsert : Triple I (planUpsert st abs up shadowed) (fun up' s => I s ∧ PlannedFrom up up')
    (fun _ => I) := by
  have hkeep : ∀ s, I s → I s ∧ PlannedFrom up up := fun s hs => ⟨hs, rfl, .inl rfl⟩
  have hcheap : ∀ {m : Mutation}, m.Cheap → ∀ s, I s → I s ∧ PlannedFrom up { up with mutation := m } :=
    fun hm s hs => ⟨hs, rfl, .inr hm⟩
  unfold planUpsert
  split
  · exact Triple.pure hkeep
  split
  · exact Triple.pure hkeep
  · refine Triple.bind (keeps_statOpt abs) fun md => ?_
    split
    · exact Triple.bind (htouch _ _) fun _ => Triple.pure (hcheap trivial)
    · exact Triple.pure hkeep
  · refine Triple.bind (keeps_statOpt abs) fun md => ?_
    split
    · split
      · split
        · split <;> exact Triple.pure (hcheap trivial)
        · exact Triple.pure (hcheap trivial)
      · exact Triple.pure hkeep
    · exact Triple.pure hkeep
  · exact .throw fun _ hs => hs
  · exact .throw fun _ hs => hs
  · refine Triple.bind (keeps_statOpt abs) fun md => ?_
    split
    · split
      · exact Triple.pure hkeep
      · refine Triple.bind (keeps_contentMatches st abs _) fun same => ?_
        split
        · split <;> exact Triple.pure (hcheap trivial)
        · exact Triple.pure hkeep
    · exact Triple.pure hkeep

theorem keeps_planUpsert : Keeps I (planUpsert st abs up shadowed) :=
  (triple_planUpsert htouch st abs shadowed).weaken (fun _ h => h) (fun _ _ h => h.1) fun _ _ h => h

end

/-! ## The guard -/

variable (habs : ∀ rel, Keeps I (ap.abs rel))
include habs

theorem keeps_checkLiveMatches (rel : CompPath)
    (exp : ExpectedState) : Keeps I (ap.checkLiveMatches rel exp) := by
  refine (habs rel).bind fun abs => (keeps_statOpt abs).bind fun md => ?_
  split
  · exact .pure _
  split
  · exact .pure _
  split
  · exact .pure _
  · split <;> exact .pure _
  · split
    · exact .pure _
    · split
      · exact .pure _
      · refine (keeps_contentMatches _ abs _).bind fun same => ?_
        split <;> exact .pure _

theorem keeps_verifyLiveEntry (expected : List (String × ExpectedState)) (absDir q sub : CompPath) :
    Keeps I (ap.verifyLiveEntry expected absDir q sub) := by
  refine .get_bind fun s => ?_
  dsimp only
  split
  · exact .pure _
  · split
    · exact .pure _
    · split
      · exact .pure _
      · exact (keeps_checkLiveMatches habs _ _).bind fun _ => .pure _
  · exact .pure _

theorem keeps_verifySubtree (dirPath : CompPath)
    (dirEntry : TreeEntry) : Keeps I (ap.verifySubtreeMatchesBase dirPath dirEntry) := by
  refine (keeps_liftExcept _).bind fun expected => (habs _).bind fun absDir => ?_
  refine (keeps_look _ _).bind fun q => .get_bind fun s => ?_
  exact (Keeps.mapM fun _ _ => keeps_verifyLiveEntry habs _ _ _ _).bind fun _ => .pure _

theorem keeps_guardRemoval (root : BlobId) (rm : PlannedRemove) :
    Keeps I (ap.guardRemoval root rm) := by
  refine (keeps_liftExcept _).bind fun exp => ?_
  split
  · exact .pure _
  refine (habs _).bind fun abs => (keeps_statOpt abs).bind fun md => ?_
  split
  · exact .pure _
  split
  · exact .pure _
  · split
    · exact keeps_verifySubtree habs _ _
    · exact keeps_checkLiveMatches habs _ _

theorem keeps_guardUpsert (root : BlobId) (up : PlannedUpsert) :
    Keeps I (ap.guardUpsert root up) := by
  refine (keeps_liftExcept _).bind fun exp => (habs _).bind fun abs => ?_
  refine (keeps_statOpt abs).bind fun live => ?_
  split
  · exact .pure _
  · exact .pure _
  · exact .pure _
  · split
    · exact .pure _
    · exact keeps_checkLiveMatches habs _ _

theorem keeps_guard (removes : List PlannedRemove)
    (upserts : List PlannedUpsert) : Keeps I (ap.guard removes upserts) := by
  unfold Applier.guard
  split
  · exact .pure _
  refine (Keeps.mapM fun _ _ => keeps_guardRemoval habs _ _).bind fun _ => ?_
  refine (Keeps.mapM fun _ _ => keeps_guardUpsert habs _ _).bind fun _ => ?_
  dsimp only
  split
  · exact .throw _
  · exact .pure _

end

theorem readOnly_abs (ap : Applier) (rel : CompPath) : ReadOnly (ap.abs rel) := by
  intro d s hs
  unfold Applier.abs
  cases resolveFrom .refuse s.disk ap.target rel s.fold <;> exact hs

theorem readOnly_guard (ap : Applier) (removes : List PlannedRemove) (upserts : List PlannedUpsert) :
    ReadOnly (ap.guard removes upserts) := fun d =>
  keeps_guard (fun rel => readOnly_abs ap rel d) removes upserts

/-- Nothing has been written when the guard passes, and each upsert is one of those asked for. -/
theorem triple_prepare (ap : Applier) (removes : List PlannedRemove) (upserts : List PlannedUpsert) (d : Disk) :
    Triple (fun s => s.disk = d) (ap.prepare removes upserts)
      (fun planned s => s.disk = d ∧ List.Forall₂ PlannedFrom (sortByPath (·.path) upserts) planned)
      (fun _ s => s.disk = d) := by
  refine Triple.bind (Q := fun _ s => s.disk = d) (Triple.modify fun s hs => hs) fun _ => ?_
  refine Triple.bind (Triple.mapM (R := PlannedFrom) _ fun up _ => ?_) fun planned => .of_fact fun hplanned => ?_
  · exact Triple.bind (readOnly_abs ap _ d) fun _ =>
      triple_planUpsert (fun _ _ => Triple.modify fun _ hs => hs) _ _ _
  · exact Triple.bind (readOnly_guard ap removes planned d) fun _ => Triple.pure fun _ hs => ⟨hs, hplanned⟩

/-! ## The errors of an act -/

/-- Whatever the step fails with is in `E`. -/
def Errs (E : MaterializeError → Prop) {α : Type} (m : ExecM α) : Prop :=
  Triple (fun _ => True) m (fun _ _ => True) (fun e _ => E e)

variable {E : MaterializeError → Prop} {e : MaterializeError}

namespace Errs

variable {α β : Type}

omit [Env]

theorem pure (a : α) : Errs E (Pure.pure a : ExecM α) := Triple.pure fun _ _ => trivial

theorem throw (h : E e) : Errs E (throw e : ExecM α) := Triple.throw fun _ _ => h

theorem bind {m : ExecM α} {f : α → ExecM β} (h : Errs E m) (hf : ∀ a, Errs E (f a)) : Errs E (m >>= f) :=
  Triple.bind h hf

theorem get_bind {f : Exec → ExecM β} (h : ∀ s, Errs E (f s)) : Errs E (get >>= f) :=
  Triple.get_bind fun s _ => (h s).weaken (fun _ _ => trivial) (fun _ _ h => h) fun _ _ h => h

theorem modify (f : Exec → Exec) : Errs E (modify f : ExecM PUnit) := Triple.modify fun _ _ => trivial

theorem lift_bind {x : Except MaterializeError α} {f : α → ExecM β} (h : ∀ e, x = .error e → E e)
    (hf : ∀ a, x = .ok a → Errs E (f a)) : Errs E (liftExcept x >>= f) := by
  cases x with
  | ok a => exact fun s hs => hf a rfl s hs
  | error e => exact fun _ _ => h e rfl

theorem orUnlink {tmp : CompPath} {m : ExecM Unit} (h : Errs E m) : Errs E (orUnlink tmp m) := by
  intro s hs
  have hm := h s hs
  unfold Ferry.orUnlink
  cases hrun : m s with
  | ok => trivial
  | error =>
    rw [hrun] at hm
    exact hm

end Errs

/-- Resolving a path fails for an ambiguous spelling only. -/
theorem resolveFrom_error {policy : AmbiguityPolicy} {d : Disk} {cur rel : CompPath}
    {cache : FoldCache} (h : resolveFrom policy d cur rel cache = .error e) :
    ∃ parent first second, e = .ambiguousDiskSpelling parent first second := by
  induction rel generalizing cur cache with
  | nil => cases h
  | cons c rest ih =>
    unfold resolveFrom at h
    split at h
    · exact ih h
    split at h
    · rename_i hm
      cases h
      unfold matchLive pick at hm
      dsimp only at hm
      split at hm
      · rename_i hp
        cases hm
        split at hp
        · cases hp
        · cases hp
        · split at hp
          · cases hp
            exact ⟨_, _, _, rfl⟩
          · cases hp
          · cases hp
      · cases hm
    · exact ih h
    · exact ih h

/-- Reading chunks never reports a divergence. -/
theorem readChunks_error {st : Store} {display : String} {index : Nat} {chunks : Chunks}
    (h : readChunks st display index chunks = .error e) :
    ∀ ds, e ≠ .diverged ds := by
  induction chunks generalizing index with
  | nil => cases h
  | cons c rest ih =>
    unfold readChunks at h
    split at h
    · cases h
      intro ds heq
      cases heq
    split at h
    · cases h
      intro ds heq
      cases heq
    split at h
    · cases h
      intro ds heq
      cases heq
    cases htail : readChunks st display (index + 1) rest with
    | ok => simp [htail] at h
    | error =>
      rw [htail] at h
      cases h
      exact ih htail

/-- The path resolves, or fails to with an error in `E`. -/
def Resolves (E : MaterializeError → Prop) (ap : Applier) (s : Exec) (p : CompPath) : Prop :=
  match ap.resolve s p with
  | .ok _ => True
  | .error e => E e

/-- The upsert fails with errors in `E` where its content or its link is refused. -/
def Tolerated (E : MaterializeError → Prop) (st : Store) (up : PlannedUpsert) : Prop :=
  match up.mutation with
  | .writeFile _ _ _ size chunks =>
    (sumLens chunks = size ∨ E (.sizeMismatch (joinPath up.path) size (sumLens chunks))) ∧
    match readChunks st (joinPath up.path) 0 chunks with
    | .ok _ => True
    | .error e => E e
  | .writeSymlink target _ =>
    match classifyLink (up.path.length - 1) target with
    | .syncAsLink => True
    | .refuse reason => E (.symlinkRefused (joinPath up.path) target reason)
  | _ => True

/-- If the act is refused at its turn, then with an error in `E`. -/
def Firm (E : MaterializeError → Prop) (ap : Applier) (s : Exec) (a : ApplierAct) : Prop :=
  Resolves E ap s a.path ∧ match a with
    | .upsert up => Tolerated E ap.store up
    | _ => True

section
variable [DecidablePred E] {ap : Applier} {s : Exec} {up : PlannedUpsert} {a : ApplierAct}

instance {p : CompPath} : Decidable (Resolves E ap s p) := by
  unfold Resolves
  split <;> infer_instance

instance {st : Store} : Decidable (Tolerated E st up) := by
  unfold Tolerated
  (repeat' split) <;> infer_instance

instance : Decidable (Firm E ap s a) := by
  unfold Firm
  split <;> infer_instance

end

section
variable {ap : Applier} (hio : ∀ path x, E (.io path x))
include hio

omit [Env] in
theorem errs_look {α : Type} (at_ : CompPath) (call : Disk → Except Errno α) : Errs E (look at_ call) := by
  intro s _
  unfold look
  cases call s.disk with
  | ok => trivial
  | error => exact hio _ _

omit [Env] in
theorem errs_change (at_ : CompPath) (call : Disk → Except Errno Disk) : Errs E (change at_ call) := by
  intro s _
  unfold change
  cases call s.disk with
  | ok => trivial
  | error => exact hio _ _

omit hio in
/-- The rest of an act does not depend on the state that resolving its path leaves. -/
theorem errs_abs_bind {p : CompPath} {f : CompPath → ExecM Unit} (hf : ∀ abs, Errs E (f abs)) :
    Triple (fun s => Resolves E ap s p) (ap.abs p >>= f) (fun _ _ => True) (fun e _ => E e) := by
  refine Triple.bind (Q := fun _ _ => True) ?_ fun abs => hf abs
  intro s hs
  unfold Applier.abs
  unfold Resolves Applier.resolve at hs
  cases h : resolveFrom .refuse s.disk ap.target p s.fold with
  | ok => trivial
  | error =>
    rw [h] at hs
    exact hs

omit [Env] in
theorem errs_removeDirChildrenFirst (abs : CompPath) : Errs E (removeDirChildrenFirst abs) :=
  (errs_look hio _ _).bind fun _ => errs_change hio _ _

theorem errs_clearDir (abs : CompPath) : Errs E (clearDir abs) := by
  refine .get_bind fun s => ?_
  split
  · exact (errs_removeDirChildrenFirst hio _).bind fun _ => .modify _
  · exact .pure _

theorem errs_clearLeaf (abs : CompPath) : Errs E (clearLeaf abs) := by
  refine .get_bind fun s => ?_
  split
  · exact .pure _
  · exact .throw (hio _ _)
  · exact .pure _
  · exact (errs_change hio _ _).bind fun _ => .modify _

theorem errs_executeRemove (rm : PlannedRemove) :
    Triple (fun s => Resolves E ap s rm.path) (ap.executeRemove rm) (fun _ _ => True) (fun e _ => E e) := by
  refine errs_abs_bind fun abs => .get_bind fun s => ?_
  split
  · exact .pure _
  · exact .throw (hio _ _)
  · dsimp only
    split
    · split
      · exact (errs_removeDirChildrenFirst hio _).bind fun _ => .modify _
      · exact (errs_change hio _ _).bind fun _ => .modify _
    · exact (errs_change hio _ _).bind fun _ => .modify _

/-- A chunk list that has been read needs no second look: the regions of the file are its chunks. -/
theorem errs_writeTemp {tmp : CompPath} {disp : String} {exec : Bool} {sec : Int} {nsec : Nat} {chunks : Chunks}
    (hread : ∀ e, readChunks ap.store disp 0 chunks = .error e → E e) :
    Errs E (ap.writeTemp tmp disp exec sec nsec chunks) := by
  refine (errs_look hio _ _).bind fun _ => (errs_change hio _ _).bind fun _ => .lift_bind hread fun bytes hbytes => ?_
  rw [verifyRegions_eq (readChunks_ok hbytes)]
  exact fun _ _ => trivial

/-- A tolerated upsert whose path resolves fails with an error in `E` only. -/
theorem errs_executeUpsert {up : PlannedUpsert} (hup : Tolerated E ap.store up) :
    Triple (fun s => Resolves E ap s up.path) (ap.executeUpsert up) (fun _ _ => True) (fun e _ => E e) := by
  obtain ⟨path, mutation⟩ := up
  refine errs_abs_bind fun abs => ?_
  cases mutation with
  | skip => exact .pure _
  | mkdir =>
    refine (errs_clearLeaf hio _).bind fun _ => (errs_change hio _ _).bind fun _ => ?_
    exact (Errs.modify _).bind fun _ => .modify _
  | restoreMtime | restoreSymlinkMtime => exact errs_change hio _ _
  | writeSymlink target times =>
    dsimp only [Tolerated] at hup ⊢
    split
    · rename_i hrefuse
      rw [hrefuse] at hup
      exact .throw hup
    refine (errs_clearDir hio _).bind fun _ => Errs.bind (.orUnlink ?_) fun _ => (Errs.modify _).bind fun _ => ?_
    · refine Errs.bind ?_ fun _ => errs_change hio _ _
      exact (errs_look hio _ _).bind fun _ => errs_change hio _ _
    · split
      · exact errs_change hio _ _
      · exact .pure _
  | writeFile exec sec nsec size chunks =>
    obtain ⟨hsize, hread⟩ := hup
    refine (errs_clearDir hio _).bind fun _ => Errs.bind ?_ fun _ => .modify _
    unfold Applier.writeFileAtomically
    split
    · exact .throw (hsize.resolve_left ‹_›)
    refine .orUnlink ((errs_writeTemp hio fun e he => ?_).bind fun _ => errs_change hio _ _)
    rw [he] at hread
    exact hread

theorem errs_executeTouch (t : PlannedTouch) :
    Triple (fun s => Resolves E ap s t.path) (ap.executeTouch t) (fun _ _ => True) (fun e _ => E e) := by
  refine errs_abs_bind fun abs => .get_bind fun s => ?_
  dsimp only
  split
  · exact .pure _
  · exact .throw (hio _ _)
  · split
    · exact .pure _
    · refine (errs_look hio _ _).bind fun q => ?_
      split
      · exact .pure _
      · exact errs_change hio _ _

theorem errs_act (a : ApplierAct) :
    Triple (fun s => Firm E ap s a) (ap.act a) (fun _ _ => True) (fun e _ => E e) := by
  rintro s ⟨hres, hup⟩
  cases a with
  | look => exact errs_abs_bind (fun _ => .pure _) s hres
  | remove rm => exact errs_executeRemove hio rm s hres
  | upsert up => exact errs_executeUpsert hio hup s hres
  | touch t => exact errs_executeTouch hio t s hres

end

/-- Only the guard reports a divergence, and before anything is written. -/
theorem run_diverged (ap : Applier) (removes : List PlannedRemove) (upserts : List PlannedUpsert)
    (d : Disk) : Triple (fun s => s.disk = d) (ap.run removes upserts) (fun _ _ => True)
      (fun e s => ∀ ds, e = .diverged ds → s.disk = d) := by
  have hact : ∀ a, Triple (fun _ => True) (ap.act a) (fun _ _ => True)
      (fun e (_ : Exec) => ∀ ds, e ≠ .diverged ds) := by
    intro a
    refine (errs_act (fun _ _ _ h => nomatch h) a).weaken (fun s _ => ⟨?_, ?_⟩) (fun _ _ h => h) fun _ _ h => h
    · unfold Resolves Applier.resolve
      cases h : resolveFrom .refuse s.disk ap.target a.path s.fold with
      | ok => trivial
      | error =>
        obtain ⟨parent, first, second, rfl⟩ := resolveFrom_error h
        exact fun _ h => nomatch h
    · cases a with
      | look | remove | touch => trivial
      | upsert up =>
        dsimp only [Tolerated]
        split
        · refine ⟨.inr (fun _ h => nomatch h), ?_⟩
          split
          · trivial
          · exact readChunks_error ‹_›
        · split
          · trivial
          · exact fun _ h => nomatch h
        · trivial
  have hacts : ∀ l : List ApplierAct, Triple (fun _ => True) (l.forM ap.act) (fun _ _ => True)
      (fun e s => ∀ ds, e = .diverged ds → s.disk = d) := fun l =>
    (Triple.forM (I := fun _ _ => True) l fun _ a _ _ => hact a).fails fun _ _ h ds heq => absurd heq (h ds)
  rw [run_eq_acts]
  refine Triple.bind (Q := fun _ _ => True) ((triple_prepare ap removes upserts d).weaken (fun _ h => h)
    (fun _ _ _ => trivial) fun _ _ h _ _ => h) fun planned => (hacts _).bind fun _ => ?_
  exact Triple.get_bind fun s _ => (hacts _).weaken (fun _ _ => trivial) (fun _ _ h => h) fun _ _ h => h

end

end Ferry
