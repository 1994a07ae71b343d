import Ferry.Lib.Hoare
import Ferry.Materialize.Apply

/-! # The acts of a run

Once the guard has passed, a run is a list of acts carried out one after the
other: removals, upserts, and at last the touches that these have planned. Each
act resolves its path when its turn comes, on the disk that the acts before it
have left. `Turns C` says that every act finds `C` at its turn, as far as the run
gets.
-/

namespace Ferry

open Lib

section
variable [Env]

inductive ApplierAct where
  | look (rel : CompPath)
  | remove (rm : PlannedRemove)
  | upsert (up : PlannedUpsert)
  | touch (t : PlannedTouch)

def ApplierAct.path : ApplierAct → CompPath
  | .look rel => rel
  | .remove rm => rm.path
  | .upsert up => up.path
  | .touch t => t.path

def Applier.act (ap : Applier) : ApplierAct → ExecM Unit
  | .look rel => ap.abs rel >>= fun _ => pure ()
  | .remove rm => ap.executeRemove rm
  | .upsert up => ap.executeUpsert up
  | .touch t => ap.executeTouch t

/-- What `resolve` answers with the listings remembered so far. -/
def Applier.resolve (ap : Applier) (s : Exec) (rel : CompPath) : Except MaterializeError CompPath :=
  (resolveFrom .refuse s.disk ap.target rel s.fold).map (·.1)

theorem triple_resolve_bind {ap : Applier} {s : Exec} {p : CompPath} {f : CompPath → ExecM Unit}
    {Q : PUnit → Exec → Prop} {X : MaterializeError → Exec → Prop}
    (herror : ∀ e, resolveFrom .refuse s.disk ap.target p s.fold = .error e → X e s)
    (hf : ∀ abs fold, resolveFrom .refuse s.disk ap.target p s.fold = .ok (abs, fold) →
      Triple (· = { s with fold := fold }) (f abs) Q X) : Triple (· = s) (ap.abs p >>= f) Q X := by
  rintro s' rfl
  cases h : resolveFrom .refuse s'.disk ap.target p s'.fold with
  | error e =>
    rw [run_bind_error (show ap.abs p s' = .error e s' by simp [Applier.abs, h])]
    exact herror e h
  | ok r =>
    rw [run_bind_ok (show ap.abs p s' = .ok r.1 { s' with fold := r.2 } by simp [Applier.abs, h])]
    exact hf r.1 r.2 h _ rfl

theorem triple_abs_bind {ap : Applier} {s : Exec} {p : CompPath} {f : CompPath → ExecM Unit} {Q : PUnit → Exec → Prop}
    {X : MaterializeError → Exec → Prop} (herror : ∀ e, ap.resolve s p = .error e → X e s)
    (hf : ∀ abs fold, ap.resolve s p = .ok abs → Triple (· = { s with fold := fold }) (f abs) Q X) :
    Triple (· = s) (ap.abs p >>= f) Q X := by
  unfold Applier.resolve at herror hf
  exact triple_resolve_bind (fun e h => herror e (by rw [h]; rfl)) fun abs fold h => hf abs fold (by rw [h]; rfl)

/-- The part of a run that only looks. -/
def Applier.prepare (ap : Applier) (removes : List PlannedRemove) (upserts : List PlannedUpsert) :
    ExecM (List PlannedUpsert) := do
  modify fun s => { s with fold := fun _ => none, touches := [] }
  let planned ← ap.plan removes (sortByPath (·.path) upserts)
  ap.guard removes planned
  return planned

def runActs (removes : List PlannedRemove) (planned : List PlannedUpsert) : List ApplierAct :=
  (sortDescending (·.path) removes).map .remove ++ planned.map .upsert

def touchActs (s : Exec) : List ApplierAct := (sortDescending (·.path) s.touches).map .touch

variable {ap : Applier} {removes : List PlannedRemove} {upserts : List PlannedUpsert}

omit [Env] in
theorem mem_runActs {planned : List PlannedUpsert} {a : ApplierAct} :
    a ∈ runActs removes planned ↔ (∃ rm ∈ removes, a = .remove rm) ∨ ∃ up ∈ planned, a = .upsert up := by
  have hperm : (sortDescending (·.path) removes).Perm removes := List.perm_insertionSort _ _
  simp only [runActs, List.mem_append, List.mem_map, hperm.mem_iff, eq_comm]

theorem run_eq_acts : ap.run removes upserts = (do
    let planned ← ap.prepare removes upserts
    (runActs removes planned).forM ap.act
    (touchActs (← get)).forM ap.act) := by
  have hmap : ∀ {α : Type} (f : α → ApplierAct) (l : List α),
      (l.map f).forM ap.act = l.forM fun a => ap.act (f a) := by
    intro α f l
    induction l with
    | nil => rfl
    | cons a l ih => exact congrArg (ap.act (f a) >>= ·) (funext fun _ => ih)
  have happ : ∀ l l' : List ApplierAct,
      (l ++ l').forM ap.act = l.forM ap.act >>= fun _ => l'.forM ap.act := by
    intro l l'
    induction l with
    | nil => rfl
    | cons a l ih =>
      rw [List.cons_append, forM_cons, ih, forM_cons, bind_assoc]
  simp only [Applier.run, Applier.prepare, runActs, touchActs, happ, hmap, bind_assoc, pure_bind]
  rfl

/-- Every act of the run finds `C` when its turn comes. -/
def Applier.Turns (ap : Applier) (C : Exec → ApplierAct → Prop) (removes : List PlannedRemove)
    (upserts : List PlannedUpsert) (s : Exec) : Prop :=
  match ap.prepare removes upserts s with
  | .error .. => True
  | .ok planned s => Along C ap.act (runActs removes planned) s ∧
    After ((runActs removes planned).forM ap.act s) fun s => Along C ap.act (touchActs s) s

variable {C : Exec → ApplierAct → Prop}

instance [∀ s a, Decidable (C s a)] {s : Exec} : Decidable (ap.Turns C removes upserts s) := by
  unfold Applier.Turns
  split <;> infer_instance

/-- A run whose acts all find their condition: what holds after the guard, then after the removals and
upserts, then at the end. -/
theorem triple_run {P J : Exec → Prop} {Q : List PlannedUpsert → Exec → Prop} {X : MaterializeError → Exec → Prop}
    (hprepare : Triple P (ap.prepare removes upserts) Q X)
    (hacts : ∀ planned, Triple (fun s => Q planned s ∧ Along C ap.act (runActs removes planned) s)
      ((runActs removes planned).forM ap.act) (fun _ => J) X)
    (htouch : ∀ t, Triple (fun s => J s ∧ C s (.touch t)) (ap.executeTouch t) (fun _ => J) X) :
    Triple (fun s => P s ∧ ap.Turns C removes upserts s) (ap.run removes upserts) (fun _ => J) X := by
  rw [run_eq_acts]
  rintro s ⟨hP, hturns⟩
  have hprep := hprepare s hP
  unfold Applier.Turns at hturns
  cases hrun : ap.prepare removes upserts s with
  | error =>
    rw [hrun] at hprep
    rw [run_bind_error hrun]
    exact hprep
  | ok planned s₁ =>
    rw [hrun] at hprep hturns
    rw [run_bind_ok hrun]
    obtain ⟨halong, hlast⟩ := hturns
    have hmid := hacts planned s₁ ⟨hprep, halong⟩
    cases hrun₂ : (runActs removes planned).forM ap.act s₁ with
    | error =>
      rw [hrun₂] at hmid
      rw [run_bind_error hrun₂]
      exact hmid
    | ok _ s₂ =>
      rw [hrun₂] at hmid hlast
      rw [run_bind_ok hrun₂, run_bind_ok (run_get s₂)]
      refine Triple.forM_along (I := fun _ => J) (touchActs s₂) (fun _ a _ hl => ?_) s₂ ⟨hmid, hlast⟩
      obtain ⟨t, -, rfl⟩ := List.mem_map.1 (show a ∈ touchActs s₂ by simp [hl])
      exact htouch t

end

end Ferry
