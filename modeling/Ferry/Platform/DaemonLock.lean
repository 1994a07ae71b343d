import Ferry.Lib.Interleave
import Mathlib.Data.Fintype.Basic
import Mathlib.Logic.Function.Basic

/-!
# The daemon lock

`DaemonLock` is a `flock` on the file `daemon.lock` of the daemon's directory.
The lock belongs to the inode a process has opened, while the name is unlinked
by the process that drops the lock.  The model is the directory with one stage for
each process; a schedule takes the system calls of `acquire` and `drop` one by
one, in any order the kernel may give them.
-/

namespace Ferry

open Function

/-- What `read_pid` finds in `daemon.pid`. -/
structure PidRecord where
  pid : Nat
  startToken : Option Nat
deriving DecidableEq, Repr

inductive DaemonLockError where
  | alreadyRunning (pid : Option Nat)
  | io
deriving DecidableEq, Repr

namespace DaemonLock

/-- How far a process is in `acquire` or in `drop`, and the inode it has open. -/
inductive Stage where
  /-- Neither acquiring nor holding; the error its last `acquire` returned. -/
  | outside (last : Option DaemonLockError)
  | opened (inode : Nat)
  /-- The `flock` is granted, the pid file is still to be written. -/
  | locked (inode : Nat)
  /-- `acquire` has returned the lock. -/
  | holding (inode : Nat)
  /-- `drop` has removed the pid file. -/
  | leaving (inode : Nat)
  /-- `drop` has released the `flock`. -/
  | unlocked (inode : Nat)
deriving DecidableEq, Repr

/-- The inode whose `flock` a process at this stage has. -/
def Stage.flocked : Stage → Option Nat
  | .locked i | .holding i | .leaving i => some i
  | .outside _ | .opened _ | .unlocked _ => none

def Stage.inode : Stage → Option Nat
  | .opened i | .locked i | .holding i | .leaving i | .unlocked i => some i
  | .outside _ => none

theorem Stage.inode_of_flocked {stage : Stage} {i : Nat} (h : stage.flocked = some i) :
    stage.inode = some i := by
  cases stage <;> simp_all [Stage.flocked, Stage.inode]

/-- The daemon's directory, the kernel's lock table and the processes that use them. -/
structure Dir (P : Type) where
  /-- The inode that `daemon.lock` names. -/
  lockFile : Option Nat
  nextInode : Nat
  flockOwner : Nat → Option P
  pidFile : Option PidRecord
  stage : P → Stage

/-- The system calls of the lock, with what the kernel may answer. -/
inductive Call (P : Type) where
  | openFile (p : P)
  | flock (p : P)
  /-- `write` of the pid file: the record that reached it, none where the write failed. -/
  | writePid (p : P) (written : Option PidRecord)
  | removePid (p : P) (removed : Bool)
  | unlock (p : P)
  | unlinkFile (p : P) (removed : Bool)
  /-- An `open` or a `flock` that fails with another error. -/
  | fault (p : P)
  /-- The process ends: the kernel closes its file and releases its lock. -/
  | exits (p : P)
deriving DecidableEq

variable {P : Type}

namespace Dir

def setOwner (d : Dir P) (i : Nat) (owner : Option P) : Dir P :=
  { d with flockOwner := update d.flockOwner i owner }

/-- `OpenOptions::open` with `create`: the file the name has, or a new one under it. -/
def openOrCreate (d : Dir P) : Nat × Dir P :=
  match d.lockFile with
  | some i => (i, d)
  | none => (d.nextInode, { d with lockFile := some d.nextInode, nextInode := d.nextInode + 1 })

@[simp] theorem setOwner_same (d : Dir P) (i : Nat) (owner : Option P) :
    (d.setOwner i owner).flockOwner i = owner := update_self ..

@[simp] theorem setOwner_of_ne (d : Dir P) {i j : Nat} (h : j ≠ i) (owner : Option P) :
    (d.setOwner i owner).flockOwner j = d.flockOwner j := update_of_ne h ..

variable {d' : Dir P} {c : Call P}

section Calls

variable [DecidableEq P]

def setStage (d : Dir P) (p : P) (stage : Stage) : Dir P :=
  { d with stage := update d.stage p stage }

/-- One system call, undefined where the process is not at that point of the code. -/
def step (d : Dir P) : Call P → Option (Dir P)
  | .openFile p =>
    match d.stage p with
    | .outside _ => some (d.openOrCreate.2.setStage p (.opened d.openOrCreate.1))
    | _ => none
  | .flock p =>
    match d.stage p with
    | .opened i =>
      match d.flockOwner i with
      | none => some ((d.setOwner i (some p)).setStage p (.locked i))
      -- `EWOULDBLOCK`: `acquire` returns and closes the file
      | some _ => some (d.setStage p (.outside (some (.alreadyRunning (d.pidFile.map (·.pid))))))
    | _ => none
  | .writePid p written =>
    match d.stage p with
    | .locked i => some ({ d with pidFile := written.or d.pidFile }.setStage p (.holding i))
    | _ => none
  | .removePid p removed =>
    match d.stage p with
    | .holding i =>
      some ({ d with pidFile := if removed then none else d.pidFile }.setStage p (.leaving i))
    | _ => none
  | .unlock p =>
    match d.stage p with
    | .leaving i => some ((d.setOwner i none).setStage p (.unlocked i))
    | _ => none
  | .unlinkFile p removed =>
    match d.stage p with
    -- `remove_file` goes by the name, whatever file stands under it by now
    | .unlocked _ =>
      some ({ d with lockFile := if removed then none else d.lockFile }.setStage p (.outside none))
    | _ => none
  | .fault p =>
    match d.stage p with
    | .outside _ | .opened _ => some (d.setStage p (.outside (some .io)))
    | _ => none
  | .exits p =>
    match (d.stage p).flocked with
    | some i => some ((d.setOwner i none).setStage p (.outside none))
    | none => some (d.setStage p (.outside none))

@[simp] theorem setStage_same (d : Dir P) (p : P) (stage : Stage) :
    (d.setStage p stage).stage p = stage := update_self ..

@[simp] theorem setStage_of_ne (d : Dir P) {p q : P} (h : q ≠ p) (stage : Stage) :
    (d.setStage p stage).stage q = d.stage q := update_of_ne h ..

/-- The calls that can happen, each with the point of the code it stands at. -/
inductive Does (d : Dir P) : Call P → Dir P → Prop
  | openFile {p : P} {last : Option DaemonLockError} (h : d.stage p = .outside last) :
      Does d (.openFile p) (d.openOrCreate.2.setStage p (.opened d.openOrCreate.1))
  | granted {p : P} {i : Nat} (h : d.stage p = .opened i) (hfree : d.flockOwner i = none) :
      Does d (.flock p) ((d.setOwner i (some p)).setStage p (.locked i))
  | refused {p : P} {i : Nat} (h : d.stage p = .opened i) :
      Does d (.flock p) (d.setStage p (.outside (some (.alreadyRunning (d.pidFile.map (·.pid))))))
  | writePid {p : P} {i : Nat} (h : d.stage p = .locked i) (written : Option PidRecord) :
      Does d (.writePid p written) ({ d with pidFile := written.or d.pidFile }.setStage p (.holding i))
  | removePid {p : P} {i : Nat} (h : d.stage p = .holding i) (removed : Bool) :
      Does d (.removePid p removed)
        ({ d with pidFile := if removed then none else d.pidFile }.setStage p (.leaving i))
  | unlock {p : P} {i : Nat} (h : d.stage p = .leaving i) :
      Does d (.unlock p) ((d.setOwner i none).setStage p (.unlocked i))
  | unlinkFile {p : P} {i : Nat} (h : d.stage p = .unlocked i) (removed : Bool) :
      Does d (.unlinkFile p removed)
        ({ d with lockFile := if removed then none else d.lockFile }.setStage p (.outside none))
  | fault {p : P} (h : (d.stage p).flocked = none) :
      Does d (.fault p) (d.setStage p (.outside (some .io)))
  | dies {p : P} {i : Nat} (h : (d.stage p).flocked = some i) :
      Does d (.exits p) ((d.setOwner i none).setStage p (.outside none))
  | leaves {p : P} (h : (d.stage p).flocked = none) :
      Does d (.exits p) (d.setStage p (.outside none))

/-- The cases of a step. -/
theorem does_of_step {d : Dir P} (h : d.step c = some d') : Does d c d' := by
  cases c with
  | openFile =>
    rw [step] at h
    split at h
    · next hs => cases h; exact .openFile hs
    · cases h
  | flock =>
    rw [step] at h
    split at h
    · next i hs =>
      split at h
      · next hfree => cases h; exact .granted hs hfree
      · cases h; exact .refused hs
    · cases h
  | writePid p written =>
    rw [step] at h
    split at h
    · next hs => cases h; exact .writePid hs written
    · cases h
  | removePid p removed =>
    rw [step] at h
    split at h
    · next hs => cases h; exact .removePid hs removed
    · cases h
  | unlock =>
    rw [step] at h
    split at h
    · next hs => cases h; exact .unlock hs
    · cases h
  | unlinkFile p removed =>
    rw [step] at h
    split at h
    · next hs => cases h; exact .unlinkFile hs removed
    · cases h
  | fault =>
    rw [step] at h
    split at h
    · next hs => cases h; exact .fault (by rw [hs]; rfl)
    · next hs => cases h; exact .fault (by rw [hs]; rfl)
    · cases h
  | exits =>
    rw [step] at h
    split at h
    · next hs => cases h; exact .dies hs
    · next hs => cases h; exact .leaves hs

end Calls

/-- Nobody uses the lock; a file may be left under its name. -/
structure AtRest (d : Dir P) : Prop where
  named : ∀ i, d.lockFile = some i → i < d.nextInode
  free : ∀ i, d.flockOwner i = none
  outside : ∀ p, (d.stage p).inode = none

/-- No two processes both hold an acquired lock. -/
def Exclusive (d : Dir P) : Prop :=
  ∀ p q i j, d.stage p = .holding i → d.stage q = .holding j → p = q

/-- An unlink that takes the name away finds every other process outside. -/
def UnlinksAlone (d : Dir P) : Call P → Prop
  | .unlinkFile p true => ∀ q, q ≠ p → (d.stage q).inode = none
  | _ => True

instance [Fintype P] [DecidableEq P] (d : Dir P) : (c : Call P) → Decidable (d.UnlinksAlone c)
  | .unlinkFile p true => inferInstanceAs (Decidable (∀ q, q ≠ p → (d.stage q).inode = none))
  | .unlinkFile _ false | .openFile _ | .flock _ | .writePid _ _ | .removePid _ _ | .unlock _
  | .fault _ | .exits _ => .isTrue trivial

/-! ## The lock table -/

/-- What holds on every schedule: the lock table says who has which `flock`. -/
structure Sound (d : Dir P) : Prop where
  named : ∀ i, d.lockFile = some i → i < d.nextInode
  known : ∀ p i, (d.stage p).inode = some i → i < d.nextInode
  owned : ∀ p i, d.flockOwner i = some p ↔ (d.stage p).flocked = some i

namespace Sound

variable {d : Dir P} {p : P} {i : Nat} {stage : Stage}

theorem ofAtRest (h : d.AtRest) : d.Sound where
  named := h.named
  known := by
    intro p i hi
    rw [h.outside p] at hi
    cases hi
  owned := by
    intro p i
    have hflock : (d.stage p).flocked ≠ some i := by
      intro hi
      have hopen := Stage.inode_of_flocked hi
      rw [h.outside p] at hopen
      cases hopen
    rw [h.free i]
    exact ⟨fun hnone => (by cases hnone), fun hi => absurd hi hflock⟩

theorem next_free (h : d.Sound) : d.flockOwner d.nextInode = none := by
  cases howner : d.flockOwner d.nextInode with
  | none => rfl
  | some p =>
    have hopen := Stage.inode_of_flocked ((h.owned p _).1 howner)
    exact absurd (h.known p _ hopen) (Nat.lt_irrefl _)

theorem withPid (h : d.Sound) (pidFile : Option PidRecord) : ({ d with pidFile } : Dir P).Sound :=
  ⟨h.named, h.known, h.owned⟩

theorem withName (h : d.Sound) (removed : Bool) :
    ({ d with lockFile := if removed then none else d.lockFile } : Dir P).Sound where
  named := by
    intro i hi
    cases removed with
    | true => cases hi
    | false => exact h.named i hi
  known := h.known
  owned := h.owned

theorem openOrCreate (h : d.Sound) :
    d.openOrCreate.2.Sound ∧ d.openOrCreate.1 < d.openOrCreate.2.nextInode := by
  rw [Dir.openOrCreate]
  cases hname : d.lockFile with
  | some i => exact ⟨h, h.named i hname⟩
  | none =>
    refine ⟨⟨?_, ?_, h.owned⟩, Nat.lt_succ_self _⟩
    · intro i hi
      cases hi
      exact Nat.lt_succ_self _
    · intro p i hi
      exact Nat.lt_succ_of_lt (h.known p i hi)

variable [DecidableEq P] (h : d.Sound)
include h

theorem move (hflock : stage.flocked = (d.stage p).flocked)
    (hopen : ∀ i, stage.inode = some i → i < d.nextInode) : (d.setStage p stage).Sound where
  named := h.named
  known := by
    intro q i hi
    by_cases hq : q = p
    · subst hq
      rw [setStage_same] at hi
      exact hopen i hi
    · rw [setStage_of_ne d hq] at hi
      exact h.known q i hi
  owned := by
    intro q i
    by_cases hq : q = p
    · subst hq
      rw [setStage_same, hflock]
      exact h.owned q i
    · rw [setStage_of_ne d hq]
      exact h.owned q i

/-- A lock that is free is granted. -/
theorem grant (hp : (d.stage p).flocked = none) (hfree : d.flockOwner i = none)
    (hi : i < d.nextInode) : ((d.setOwner i (some p)).setStage p (.locked i)).Sound where
  named := h.named
  known := by
    intro q j hj
    by_cases hq : q = p
    · subst hq
      rw [setStage_same] at hj
      cases hj
      exact hi
    · rw [setStage_of_ne _ hq] at hj
      exact h.known q j hj
  owned := by
    intro q j
    have hold := h.owned q j
    show (d.setOwner i (some p)).flockOwner j = some q ↔ _
    by_cases hq : q = p
    · subst hq
      by_cases hj : j = i
      · subst hj
        simp [Stage.flocked]
      · rw [setOwner_of_ne d hj, hold, hp]
        simp [Stage.flocked, Ne.symm hj]
    · rw [setStage_of_ne _ hq]
      by_cases hj : j = i
      · subst hj
        rw [hfree] at hold
        rw [setOwner_same]
        exact ⟨fun heq => absurd (Option.some.inj heq).symm hq, fun hf => by cases hold.2 hf⟩
      · rw [setOwner_of_ne d hj]
        exact hold

/-- A lock is given back. -/
theorem release (hp : (d.stage p).flocked = some i) (hflock : stage.flocked = none)
    (hopen : ∀ j, stage.inode = some j → j < d.nextInode) :
    ((d.setOwner i none).setStage p stage).Sound where
  named := h.named
  known := by
    intro q j hj
    by_cases hq : q = p
    · subst hq
      rw [setStage_same] at hj
      exact hopen j hj
    · rw [setStage_of_ne _ hq] at hj
      exact h.known q j hj
  owned := by
    intro q j
    have hold := h.owned q j
    have howner := (h.owned p i).2 hp
    show (d.setOwner i none).flockOwner j = some q ↔ _
    by_cases hj : j = i
    · subst hj
      rw [setOwner_same]
      refine ⟨fun heq => (by cases heq), fun hf => ?_⟩
      by_cases hq : q = p
      · subst hq
        rw [setStage_same, hflock] at hf
        cases hf
      · rw [setStage_of_ne _ hq] at hf
        have hqi := hold.2 hf
        rw [howner] at hqi
        exact absurd (Option.some.inj hqi).symm hq
    · rw [setOwner_of_ne d hj, hold]
      by_cases hq : q = p
      · subst hq
        rw [setStage_same, hflock, hp]
        simp [Ne.symm hj]
      · rw [setStage_of_ne _ hq]
        rfl

/-- The step lemma: a lock has one holder, who has its file open. -/
theorem step (hstep : d.step c = some d') : d'.Sound := by
  cases does_of_step hstep with
  | openFile hs =>
    obtain ⟨hsound, hlt⟩ := h.openOrCreate
    refine hsound.move ?_ ?_
    · have hstage : d.openOrCreate.2.stage = d.stage := by
        rw [Dir.openOrCreate]
        cases d.lockFile <;> rfl
      rw [hstage, hs]
      rfl
    · intro i hi
      cases hi
      exact hlt
  | granted hs hfree =>
    exact h.grant (by rw [hs]; rfl) hfree (h.known _ _ (by rw [hs]; rfl))
  | refused hs => exact h.move (by rw [hs]; rfl) (fun i hi => by cases hi)
  | @writePid p i hs written | @removePid p i hs removed =>
    refine (h.withPid _).move ?_ (fun i hi => h.known p i ?_)
    · show _ = (d.stage _).flocked
      rw [hs]
      rfl
    · rw [hs]
      exact hi
  | @unlock p i hs =>
    refine h.release (by rw [hs]; rfl) rfl (fun j hj => h.known p j ?_)
    rw [hs]
    exact hj
  | unlinkFile hs removed =>
    refine (h.withName removed).move ?_ (fun i hi => by cases hi)
    rw [hs]
    rfl
  | fault hs | leaves hs => exact h.move hs.symm (fun i hi => by cases hi)
  | dies hs => exact h.release hs rfl (fun j hj => by cases hj)

end Sound

/-! ## Orderly schedules -/

/-- Every lock file in use is the one the name stands for. -/
def Agreed (d : Dir P) : Prop :=
  ∀ p i, (d.stage p).inode = some i → d.lockFile = some i

theorem Agreed.move [DecidableEq P] {d : Dir P} {p : P} {stage : Stage} (h : d.Agreed)
    (hstage : ∀ i, stage.inode = some i → d.lockFile = some i) : (d.setStage p stage).Agreed := by
  intro q i hi
  by_cases hq : q = p
  · subst hq
    rw [setStage_same] at hi
    exact hstage i hi
  · rw [setStage_of_ne d hq] at hi
    exact h q i hi

theorem Agreed.openOrCreate {d : Dir P} (h : d.Agreed) :
    d.openOrCreate.2.Agreed ∧ d.openOrCreate.2.lockFile = some d.openOrCreate.1 := by
  rw [Dir.openOrCreate]
  cases hname : d.lockFile with
  | some => exact ⟨h, hname⟩
  | none =>
    refine ⟨?_, rfl⟩
    intro p i hi
    have hold := h p i hi
    rw [hname] at hold
    cases hold

/-- The step lemma: while unlinks are alone, every lock file in use is the one under the name. -/
theorem Agreed.step [DecidableEq P] {d : Dir P} (h : d.Agreed) (halone : d.UnlinksAlone c)
    (hstep : d.step c = some d') : d'.Agreed := by
  cases does_of_step hstep with
  | openFile =>
    obtain ⟨hagreed, hname⟩ := h.openOrCreate
    refine hagreed.move ?_
    intro i hi
    cases hi
    exact hname
  | granted hs | unlock hs =>
    exact Agreed.move (d := d.setOwner _ _) h (fun i hi => h _ i (by rw [hs]; exact hi))
  | refused | fault | leaves => exact h.move (fun i hi => by cases hi)
  | writePid hs | removePid hs =>
    exact Agreed.move (d := { d with pidFile := _ }) h (fun i hi => h _ i (by rw [hs]; exact hi))
  | @unlinkFile p i hs removed =>
    cases removed with
    | false => exact Agreed.move (d := { d with lockFile := _ }) h (fun i hi => by cases hi)
    | true =>
      intro q j hj
      by_cases hq : q = p
      · subst hq
        rw [setStage_same] at hj
        cases hj
      · rw [setStage_of_ne _ hq] at hj
        have hout := halone q hq
        exact absurd (hout.symm.trans hj) (by simp)
  | dies => exact Agreed.move (d := d.setOwner _ _) h (fun i hi => by cases hi)

theorem Agreed.exclusive {d : Dir P} (h : d.Agreed) (hsound : d.Sound) : d.Exclusive := by
  intro p q i j hp hq
  have hi := h p i (by rw [hp]; rfl)
  have hj := h q j (by rw [hq]; rfl)
  obtain rfl : i = j := Option.some.inj (hi.symm.trans hj)
  have hpi := (hsound.owned p i).2 (by rw [hp]; rfl)
  have hqi := (hsound.owned q i).2 (by rw [hq]; rfl)
  exact Option.some.inj (hpi.symm.trans hqi)

/-! ## Schedules with two holders -/

section Broken

open Interleave

variable [DecidableEq P] {d : Dir P} {p q : P}

variable {last : Option DaemonLockError} {i : Nat}

theorem step_flock_free (hp : d.stage p = .opened i) (hfree : d.flockOwner i = none) :
    d.step (.flock p) = some ((d.setOwner i (some p)).setStage p (.locked i)) := by
  simp only [step, hp, hfree]

variable (h : d.Sound)
include h

section
variable (hp : d.stage p = .outside last)
include hp

/-- Once the name is gone the next process gets the lock on a new file, whoever holds the old one. -/
theorem acquire_nameless (hname : d.lockFile = none) :
    ∃ d', run step d [.openFile p, .flock p, .writePid p none] = some d' ∧ d'.Sound ∧
      d'.stage p = .holding d.nextInode ∧ ∀ r, r ≠ p → d'.stage r = d.stage r := by
  have hcreate : d.openOrCreate =
      (d.nextInode, { d with lockFile := some d.nextInode, nextInode := d.nextInode + 1 }) := by
    rw [openOrCreate, hname]
  have hopen : d.step (.openFile p) = some (d.openOrCreate.2.setStage p (.opened d.nextInode)) := by
    rw [step, hp, hcreate]
  have hfree : (d.openOrCreate.2.setStage p (.opened d.nextInode)).flockOwner d.nextInode = none := by
    rw [hcreate]
    exact h.next_free
  have hkept : ∀ r, r ≠ p → d.openOrCreate.2.stage r = d.stage r := by
    intro r _
    rw [hcreate]
  have hsound := h.step hopen
  generalize hd₁ : d.openOrCreate.2.setStage p (.opened d.nextInode) = d₁ at hopen hfree hsound
  have hp₁ : d₁.stage p = .opened d.nextInode := by
    rw [← hd₁, setStage_same]
  have hlock := step_flock_free hp₁ hfree
  have hsound₂ := hsound.step hlock
  generalize hd₂ : (d₁.setOwner d.nextInode (some p)).setStage p (.locked d.nextInode) = d₂
    at hlock hsound₂
  have hp₂ : d₂.stage p = .locked d.nextInode := by
    rw [← hd₂, setStage_same]
  have hwrite : d₂.step (.writePid p none) =
      some ({ d₂ with pidFile := Option.or none d₂.pidFile }.setStage p (.holding d.nextInode)) := by
    rw [step, hp₂]
  refine ⟨_, ?_, hsound₂.step hwrite, setStage_same .., ?_⟩
  · rw [run_cons_of_step hopen, run_cons_of_step hlock, run_cons_of_step hwrite, run_nil]
  · intro r hr
    rw [setStage_of_ne _ hr, ← hd₂, setStage_of_ne _ hr, ← hd₁]
    show (d.openOrCreate.2.setStage p (.opened d.nextInode)).stage r = _
    rw [setStage_of_ne _ hr, hkept r hr]

theorem broken_of_holding (hq : d.stage q = .holding i) (hname : d.lockFile = none) :
    ∃ es d', run step d es = some d' ∧ ¬ d'.Exclusive := by
  have hne : q ≠ p := by
    rintro rfl
    rw [hp] at hq
    cases hq
  obtain ⟨d', hrun, -, hp', hkept⟩ := acquire_nameless h hp hname
  refine ⟨_, d', hrun, fun hex => hne ?_⟩
  exact hex q p i d.nextInode ((hkept q hne).trans hq) hp'

theorem broken_of_locked (hq : d.stage q = .locked i) (hname : d.lockFile = none) :
    ∃ es d', run step d es = some d' ∧ ¬ d'.Exclusive := by
  have hne : p ≠ q := by
    rintro rfl
    rw [hp] at hq
    cases hq
  have hwrite : d.step (.writePid q none) =
      some ({ d with pidFile := Option.or none d.pidFile }.setStage q (.holding i)) := by
    rw [step, hq]
  obtain ⟨es, d', hrun, hbroken⟩ := broken_of_holding (h.step hwrite)
    (by rw [setStage_of_ne _ hne]; exact hp) (setStage_same ..) hname
  exact ⟨_, d', (run_cons_of_step hwrite es).trans hrun, hbroken⟩

theorem broken_of_unlocked (hq : d.stage q = .unlocked i) (hname : d.lockFile = none) :
    ∃ es d', run step d es = some d' ∧ ¬ d'.Exclusive := by
  have hne : q ≠ p := by
    rintro rfl
    rw [hp] at hq
    cases hq
  obtain ⟨d₁, hrun₁, hsound₁, hp₁, hkept⟩ := acquire_nameless h hp hname
  have hunlink : d₁.step (.unlinkFile q true) =
      some ({ d₁ with lockFile := none }.setStage q (.outside none)) := by
    rw [step, hkept q hne, hq]
    rfl
  obtain ⟨es, d', hrun, hbroken⟩ := broken_of_holding (q := p) (hsound₁.step hunlink)
    (setStage_same ..) (by rw [setStage_of_ne _ hne.symm]; exact hp₁) rfl
  refine ⟨[.openFile p, .flock p, .writePid p none] ++ .unlinkFile q true :: es, d', ?_, hbroken⟩
  rw [run_append hrun₁, run_cons_of_step hunlink, hrun]

theorem broken_of_leaving (hq : d.stage q = .leaving i) (hname : d.lockFile = none) :
    ∃ es d', run step d es = some d' ∧ ¬ d'.Exclusive := by
  have hne : p ≠ q := by
    rintro rfl
    rw [hp] at hq
    cases hq
  have hunlock : d.step (.unlock q) = some ((d.setOwner i none).setStage q (.unlocked i)) := by
    rw [step, hq]
  obtain ⟨es, d', hrun, hbroken⟩ := broken_of_unlocked (h.step hunlock)
    (by rw [setStage_of_ne _ hne]; exact hp) (setStage_same ..) hname
  exact ⟨_, d', (run_cons_of_step hunlock es).trans hrun, hbroken⟩

theorem broken_of_flocked (hq : (d.stage q).flocked = some i) (hname : d.lockFile = none) :
    ∃ es d', run step d es = some d' ∧ ¬ d'.Exclusive := by
  cases hstage : d.stage q with
  | locked => exact broken_of_locked h hp hstage hname
  | holding => exact broken_of_holding h hp hstage hname
  | leaving => exact broken_of_leaving h hp hstage hname
  | outside | opened | unlocked =>
    rw [hstage] at hq
    cases hq

/-- A process that has only opened the lost file gets its lock, unless another one has it. -/
theorem broken_of_opened (hq : d.stage q = .opened i) (hname : d.lockFile = none) :
    ∃ es d', run step d es = some d' ∧ ¬ d'.Exclusive := by
  have hne : p ≠ q := by
    rintro rfl
    rw [hp] at hq
    cases hq
  cases howner : d.flockOwner i with
  | some r => exact broken_of_flocked h hp ((h.owned r i).1 howner) hname
  | none =>
    have hlock := step_flock_free hq howner
    obtain ⟨es, d', hrun, hbroken⟩ := broken_of_locked (h.step hlock)
      (by rw [setStage_of_ne _ hne]; exact hp) (setStage_same ..) hname
    exact ⟨_, d', (run_cons_of_step hlock es).trans hrun, hbroken⟩

theorem broken_of_inode (hq : (d.stage q).inode = some i) (hname : d.lockFile = none) :
    ∃ es d', run step d es = some d' ∧ ¬ d'.Exclusive := by
  cases hstage : d.stage q with
  | outside =>
    rw [hstage] at hq
    cases hq
  | opened => exact broken_of_opened h hp hstage hname
  | locked => exact broken_of_locked h hp hstage hname
  | holding => exact broken_of_holding h hp hstage hname
  | leaving => exact broken_of_leaving h hp hstage hname
  | unlocked => exact broken_of_unlocked h hp hstage hname

end

theorem broken_of_unlink (hstep : d.step c = some d')
    (hnot : ¬ d.UnlinksAlone c) : ∃ es t, run step d' es = some t ∧ ¬ t.Exclusive := by
  have hsound := h.step hstep
  cases does_of_step hstep with
  | @unlinkFile p i hs removed =>
    cases removed with
    | false => exact absurd trivial hnot
    | true =>
      obtain ⟨q, hq⟩ := not_forall.1 hnot
      obtain ⟨hne, hin⟩ := Classical.not_imp.1 hq
      obtain ⟨j, hj⟩ := Option.ne_none_iff_exists'.1 hin
      refine broken_of_inode hsound (q := q) (i := j) (setStage_same ..) ?_ rfl
      rw [setStage_of_ne _ hne]
      exact hj
  | _ => exact absurd trivial hnot

end Broken

open Interleave in
/-- From a directory at rest, no two processes ever hold the lock on a schedule whose unlinks
all find the other processes outside; and once an unlink does not, the schedule can go on to
two holders. -/
theorem exclusive_while_unlinksAlone [DecidableEq P] (d : Dir P) (hrest : d.AtRest) :
    (∀ calls d', run step d calls = some d' → Along step UnlinksAlone d calls → d'.Exclusive) ∧
    (∀ calls d₁ c d₂, run step d calls = some d₁ → d₁.step c = some d₂ → ¬ d₁.UnlinksAlone c →
      ∃ more d', run step d₂ more = some d' ∧ ¬ d'.Exclusive) := by
  have hsound : d.Sound := .ofAtRest hrest
  constructor
  · intro calls d' hrun halone
    have hagreed : d.Agreed := by
      intro p i hi
      rw [hrest.outside p] at hi
      cases hi
    obtain ⟨hsound', hagreed'⟩ := halone.invariant (I := fun d => d.Sound ∧ d.Agreed)
      (fun s c s' hI hC hs => ⟨hI.1.step hs, hI.2.step hC hs⟩) ⟨hsound, hagreed⟩ hrun
    exact hagreed'.exclusive hsound'
  · intro calls d₁ c d₂ hrun hstep hnot
    have hsound₁ : d₁.Sound := run_invariant (fun s c s' hI hs => hI.step hs) hsound hrun
    exact broken_of_unlink hsound₁ hstep hnot

def fresh (P : Type) : Dir P where
  lockFile := none
  nextInode := 0
  flockOwner := fun _ => none
  pidFile := none
  stage := fun _ => .outside none

theorem fresh_atRest : (fresh P).AtRest where
  named := by
    intro i hi
    cases hi
  free := fun _ => rfl
  outside := fun _ => rfl

/-- Two processes take the lock one after the other, the second once refused. -/
def handover : List (Call Bool) :=
  [.openFile false, .flock false, .writePid false none, .openFile true, .flock true,
    .removePid false true, .unlock false, .unlinkFile false true,
    .openFile true, .flock true, .writePid true (some ⟨7, none⟩)]

theorem exclusive_handover :
    ∃ d', Interleave.run step (fresh Bool) handover = some d' ∧ d'.stage true = .holding 1 ∧ d'.Exclusive :=
  ⟨_, rfl, rfl, (exclusive_while_unlinksAlone _ fresh_atRest).1 handover _ rfl (by decide)⟩

/-- The second process opens the file between the unlock and the unlink of the first, which
then makes a file of its own. -/
def overtaken : List (Call Bool) :=
  [.openFile false, .flock false, .writePid false none, .removePid false true, .unlock false,
    .openFile true, .flock true, .writePid true none, .unlinkFile false true,
    .openFile false, .flock false, .writePid false none]

theorem two_holders :
    ∃ d', Interleave.run step (fresh Bool) overtaken = some d' ∧
      d'.stage true = .holding 0 ∧ d'.stage false = .holding 1 ∧ ¬ d'.Exclusive := by
  refine ⟨_, rfl, rfl, rfl, ?_⟩
  intro hex
  have heq : (true : Bool) = false := hex true false 0 1 rfl rfl
  cases heq

end Dir

end DaemonLock

end Ferry
