import Ferry.Lib.Interleave
import Ferry.Store.Codec
import Ferry.Store.Fields
import Mathlib.Data.Fintype.Basic
import Mathlib.Logic.Function.Basic

/-!
# Starting a pin

`PinStore::start` reads `pin-state.json`, writes its own record to a temp file of its
own name, reads the state file once more and renames the temp file over it.  The
calls of several processes are interleaved at these file operations.
-/

namespace Ferry

namespace PinStore

/-! ## The record -/

def pinFormatVersion : Nat := 1

structure PinRecord where
  formatVersion : Nat
  deviceId : String
  pid : Nat
  startedSec : Int
  startedNsec : Nat
  expiresSec : Option Int
  paths : List String
  released : Bool
  baseAgreements : List (String × String)
  procStartToken : Option Nat
deriving DecidableEq

inductive Liveness where
  | alive
  | stale
deriving DecidableEq

/-- What a process can ask the host at one moment. -/
structure Host where
  nowUnix : Int
  /-- The start time the kernel has for a process. -/
  token : Nat → Option Nat
  /-- `kill(pid, 0)` finds the process, or may not signal it. -/
  kill : Nat → Bool

namespace Host

def processStartToken (h : Host) (pid : Nat) : Option Nat :=
  if pid = 0 then none else h.token pid

def pidAlive (h : Host) (pid : Nat) : Bool :=
  if pid = 0 then true
  -- `pid_t::try_from`
  else if 2 ^ 31 ≤ pid then false
  else h.kill pid

end Host

namespace PinRecord

def liveness (rec : PinRecord) (h : Host) : Liveness :=
  if rec.pid = 0 then .alive
  else
    match rec.procStartToken with
    | some stamped =>
      match h.processStartToken rec.pid with
      | some actual => if actual = stamped then .alive else .stale
      | none => if h.pidAlive rec.pid then .alive else .stale
    | none => if h.pidAlive rec.pid then .alive else .stale

def expired (rec : PinRecord) (h : Host) : Bool :=
  match rec.expiresSec with
  | some exp => exp ≤ h.nowUnix
  | none => false

def holding (rec : PinRecord) (h : Host) : Bool :=
  if rec.released then false
  else if rec.expired h then false
  else rec.liveness h = .alive

/-- The record as `start` writes it, in a process whose id is `self`. -/
def stamp (self : Nat) (h : Host) (rec : PinRecord) : PinRecord :=
  { rec with
    formatVersion := pinFormatVersion
    procStartToken := if rec.pid = self then h.processStartToken rec.pid else rec.procStartToken }

end PinRecord

/-! ## The state file -/

inductive PinFile where
  | state
  | tmp
  | dir
  | ledger
deriving DecidableEq

inductive PinError where
  | io (path : PinFile)
  | corrupt (reason : String)
  | pinActive (pid : Nat)
  | ledgerCorrupt (line : Nat) (reason : String)
deriving DecidableEq

/-- `serde_json` on pin records. -/
structure Codec where
  toStringPretty : PinRecord → String
  fromStr : String → Except String PinRecord

variable (json : Codec)

def unsupported (version : Nat) : String :=
  "format_version " ++ toString version ++ " unsupported (this build understands " ++
    toString pinFormatVersion ++ ")"

/-- `PinStore::load` on the content of the state file, none where there is no file. -/
def load : Option Bytes → Except PinError (Option PinRecord)
  | none => .ok none
  | some bytes =>
    match fromUtf8 bytes with
    -- `read_to_string` refuses the bytes
    | none => .error (.io .state)
    | some text =>
      match json.fromStr text with
      | .error reason => .error (.corrupt reason)
      | .ok rec =>
        if rec.formatVersion = pinFormatVersion then .ok (some rec)
        else .error (.corrupt (unsupported rec.formatVersion))

/-- The check `start` makes twice: no pin on record holds. -/
def check (file : Option Bytes) (h : Host) : Except PinError Unit :=
  match load json file with
  | .error e => .error e
  | .ok none => .ok ()
  | .ok (some existing) => if existing.holding h then .error (.pinActive existing.pid) else .ok ()

/-! ## Interleaved calls -/

/-- How far a call of `start` is. -/
inductive Stage where
  | before
  | checked
  | written (body : Bytes)
  /-- The second load let the call go on; the state file it read. -/
  | rechecked (body : Bytes) (seen : Option Bytes)
  | done (result : Except PinError Unit)

/-- What the callers of `start` bring: the record, and the id of the process. -/
structure Caller where
  record : PinRecord
  self : Nat

variable {P : Type}

/-- The state directory.  The temp file's name holds the process id and a sequence number,
so that its content is kept with the call. -/
structure Dir (P : Type) where
  state : Option Bytes
  stage : P → Stage

/-- The file operations of `start`, each with the host it finds. -/
inductive Op (P : Type) where
  | load (p : P) (h : Host)
  | writeTmp (p : P) (h : Host)
  | reload (p : P) (h : Host)
  | rename (p : P)
  /-- An operation that fails with an I/O error. -/
  | fault (p : P) (path : PinFile)

def Op.host : Op P → Option Host
  | .load _ h | .writeTmp _ h | .reload _ h => some h
  | .rename _ | .fault _ _ => none

def body (caller : Caller) (h : Host) : Bytes :=
  strBytes (json.toStringPretty (caller.record.stamp caller.self h))

namespace Dir

section Steps

variable [DecidableEq P] (callers : P → Caller)

def setStage (d : Dir P) (p : P) (stage : Stage) : Dir P :=
  { d with stage := Function.update d.stage p stage }

/-- One file operation, undefined where the call is not at that point of the code. -/
def step (d : Dir P) : Op P → Option (Dir P)
  | .load p h =>
    match d.stage p with
    | .before =>
      match check json d.state h with
      | .ok () => some (d.setStage p .checked)
      | .error e => some (d.setStage p (.done (.error e)))
    | _ => none
  | .writeTmp p h =>
    match d.stage p with
    | .checked => some (d.setStage p (.written (body json (callers p) h)))
    | _ => none
  | .reload p h =>
    match d.stage p with
    | .written body =>
      match check json d.state h with
      | .ok () => some (d.setStage p (.rechecked body d.state))
      | .error e => some (d.setStage p (.done (.error e)))
    | _ => none
  | .rename p =>
    match d.stage p with
    | .rechecked body _ => some ({ d with state := some body }.setStage p (.done (.ok ())))
    | _ => none
  | .fault p path =>
    match d.stage p with
    | .done _ => none
    | _ => some (d.setStage p (.done (.error (.io path))))

@[simp] theorem setStage_same (d : Dir P) (p : P) (stage : Stage) :
    (d.setStage p stage).stage p = stage := Function.update_self ..

@[simp] theorem setStage_of_ne (d : Dir P) {p q : P} (h : q ≠ p) (stage : Stage) :
    (d.setStage p stage).stage q = d.stage q := Function.update_of_ne h ..

/-- The operations that can happen, each with the point of the code it stands at. -/
inductive Does (d : Dir P) : Op P → Dir P → Prop
  | passes {p : P} {h : Host} (hs : d.stage p = .before) (hok : check json d.state h = .ok ()) :
      Does d (.load p h) (d.setStage p .checked)
  | writes {p : P} (h : Host) (hs : d.stage p = .checked) :
      Does d (.writeTmp p h) (d.setStage p (.written (body json (callers p) h)))
  | passesAgain {p : P} {h : Host} {body : Bytes} (hs : d.stage p = .written body)
      (hok : check json d.state h = .ok ()) :
      Does d (.reload p h) (d.setStage p (.rechecked body d.state))
  | renames {p : P} {body : Bytes} {seen : Option Bytes} (hs : d.stage p = .rechecked body seen) :
      Does d (.rename p) ({ d with state := some body }.setStage p (.done (.ok ())))
  | fails {p : P} {op : Op P} (e : PinError) (hs : ∀ r, d.stage p ≠ .done r)
      (hop : ∀ q, op ≠ .rename q) :
      Does d op (d.setStage p (.done (.error e)))

/-- The cases of a step. -/
theorem does_of_step {d d' : Dir P} {op : Op P} (h : d.step json callers op = some d') :
    Does json callers d op d' := by
  cases op with
  | load =>
    rw [step] at h
    split at h
    · next hs =>
      split at h
      · next hok => cases h; exact .passes hs hok
      · next e he => cases h; exact .fails e (by simp [hs]) (by simp)
    · cases h
  | writeTmp p h' =>
    rw [step] at h
    split at h
    · next hs => cases h; exact .writes h' hs
    · cases h
  | reload =>
    rw [step] at h
    split at h
    · next body hs =>
      split at h
      · next hok => cases h; exact .passesAgain hs hok
      · next e he => cases h; exact .fails e (by simp [hs]) (by simp)
    · cases h
  | rename =>
    rw [step] at h
    split at h
    · next hs => cases h; exact .renames hs
    · cases h
  | fault =>
    rw [step] at h
    split at h
    · cases h
    · next hnot => cases h; exact .fails _ hnot (by simp)

end Steps

end Dir

/-! ## Pins that hold -/

section Holding

variable (hosts : Host → Prop)

/-- The owner of the pin lives at every host of the run, under the token it had when the pin was
stamped, and the pin is neither released nor expired. -/
structure OwnerAlive (caller : Caller) : Prop where
  unreleased : caller.record.released = false
  unexpired : ∀ h, hosts h → ∀ exp, caller.record.expiresSec = some exp → h.nowUnix < exp
  alive : ∀ h, hosts h → h.pidAlive caller.record.pid = true
  sameToken : ∀ h h', hosts h → hosts h' →
    h.processStartToken caller.record.pid = h'.processStartToken caller.record.pid
  /-- A record that is not stamped again brings the token of its owner, if any. -/
  ownToken : caller.record.pid ≠ caller.self → ∀ token, caller.record.procStartToken = some token →
    ∀ h, hosts h → h.processStartToken caller.record.pid = some token

/-- `serde_json` reads back the records the caller writes. -/
def ReadsBack (caller : Caller) : Prop :=
  ∀ h, hosts h → json.fromStr (json.toStringPretty (caller.record.stamp caller.self h)) =
    .ok (caller.record.stamp caller.self h)

variable {hosts} {caller : Caller} {h h' : Host}

theorem OwnerAlive.stamped (ha : OwnerAlive hosts caller) (hh : hosts h) (hh' : hosts h') {token : Nat}
    (htoken : (caller.record.stamp caller.self h).procStartToken = some token) :
    h'.processStartToken caller.record.pid = some token := by
  by_cases hself : caller.record.pid = caller.self
  · have hat : h.processStartToken caller.record.pid = some token := by
      simpa [PinRecord.stamp, hself] using htoken
    rw [← ha.sameToken h h' hh hh', hat]
  · have hown : caller.record.procStartToken = some token := by
      simpa [PinRecord.stamp, hself] using htoken
    exact ha.ownToken hself token hown h' hh'

theorem PinRecord.liveness_alive {rec : PinRecord} (halive : h.pidAlive rec.pid = true)
    (htoken : ∀ token, rec.procStartToken = some token → h.processStartToken rec.pid = some token) :
    rec.liveness h = .alive := by
  rw [liveness]
  by_cases hzero : rec.pid = 0
  · exact if_pos hzero
  rw [if_neg hzero]
  cases hstamped : rec.procStartToken with
  | none => exact if_pos halive
  | some token =>
    simp only [htoken token hstamped, if_true]

theorem OwnerAlive.holding (ha : OwnerAlive hosts caller) (hh : hosts h) (hh' : hosts h') :
    (caller.record.stamp caller.self h).holding h' = true := by
  have hexpired : (caller.record.stamp caller.self h).expired h' = false := by
    rw [PinRecord.expired]
    cases hexp : caller.record.expiresSec with
    | none => simp [PinRecord.stamp, hexp]
    | some exp =>
      have hlt := ha.unexpired h' hh' exp hexp
      simp [PinRecord.stamp, hexp, hlt]
  have hlive : (caller.record.stamp caller.self h).liveness h' = .alive :=
    PinRecord.liveness_alive (ha.alive h' hh') (fun _ htoken => ha.stamped hh hh' htoken)
  rw [PinRecord.holding, hexpired, hlive]
  simp [PinRecord.stamp, ha.unreleased]

theorem check_body (ha : OwnerAlive hosts caller) (hread : ReadsBack json hosts caller) (hh : hosts h)
    (hh' : hosts h') :
    check json (some (body json caller h)) h' = .error (.pinActive caller.record.pid) := by
  have htext : fromUtf8 (body json caller h) =
      some (json.toStringPretty (caller.record.stamp caller.self h)) := fromUtf8_eq_some.2 rfl
  have hload : load json (some (body json caller h)) = .ok (some (caller.record.stamp caller.self h)) := by
    simp only [load, htext, hread h hh]
    exact if_pos rfl
  simp only [check, hload, ha.holding hh hh']
  rfl

end Holding

namespace Dir

/-- At most one of the calls has returned `Ok`. -/
def AtMostOne (d : Dir P) : Prop :=
  ∀ p q, d.stage p = .done (.ok ()) → d.stage q = .done (.ok ()) → p = q

/-- A rename finds the state file its call's second load read. -/
def Unchanged (d : Dir P) : Op P → Prop
  | .rename p => ∀ body seen, d.stage p = .rechecked body seen → d.state = seen
  | _ => True

variable {seen : Option Bytes}

theorem unchanged_rename {d : Dir P} {p : P} {b : Bytes}
    (hp : d.stage p = .rechecked b seen) : d.Unchanged (.rename p) ↔ d.state = seen := by
  refine ⟨fun hall => hall b seen hp, fun hsame b' seen' hp' => ?_⟩
  rw [hp] at hp'
  cases hp'
  exact hsame

theorem unchanged_of_not_rechecked {d : Dir P} {p : P}
    (hp : ∀ b seen, d.stage p ≠ .rechecked b seen) : d.Unchanged (.rename p) :=
  fun b seen h => absurd h (hp b seen)

instance (d : Dir P) : (op : Op P) → Decidable (d.Unchanged op)
  | .rename p =>
    match hp : d.stage p with
    | .rechecked _ seen => decidable_of_iff (d.state = seen) (unchanged_rename hp).symm
    | .before | .checked | .written _ | .done _ =>
      .isTrue (unchanged_of_not_rechecked (by simp [hp]))
  | .load _ _ | .writeTmp _ _ | .reload _ _ | .fault _ _ => .isTrue trivial

section Runs

variable [DecidableEq P] (callers : P → Caller) (hosts : Host → Prop)

structure Inv (d : Dir P) : Prop where
  written : ∀ p b, d.stage p = .written b → ∃ h, hosts h ∧ b = body json (callers p) h
  rechecked : ∀ p b seen, d.stage p = .rechecked b seen →
    (∃ h, hosts h ∧ b = body json (callers p) h) ∧ (∃ h, hosts h ∧ check json seen h = .ok ()) ∧
      (d.state = seen ∨ ∃ q, d.stage q = .done (.ok ()))
  pinned : ∀ p, d.stage p = .done (.ok ()) → ∃ q h, hosts h ∧ d.state = some (body json (callers q) h)

variable {json callers hosts} {d d' : Dir P} {p : P} {op : Op P}

section
variable (hd : d.Inv json callers hosts)
include hd

/-- A caller that does not return keeps the invariant. -/
theorem Inv.move {stage : Stage} (hp : d.stage p ≠ .done (.ok ())) (hdone : stage ≠ .done (.ok ()))
    (hwritten : ∀ b, stage = .written b → ∃ h, hosts h ∧ b = body json (callers p) h)
    (hrechecked : ∀ b seen, stage = .rechecked b seen →
      (∃ h, hosts h ∧ b = body json (callers p) h) ∧ (∃ h, hosts h ∧ check json seen h = .ok ()) ∧
        d.state = seen) :
    (d.setStage p stage).Inv json callers hosts where
  written := by
    intro q b hq
    by_cases hqp : q = p
    · subst hqp
      exact hwritten b ((setStage_same d q stage).symm.trans hq)
    · rw [setStage_of_ne d hqp] at hq
      exact hd.written q b hq
  rechecked := by
    intro q b seen hq
    by_cases hqp : q = p
    · subst hqp
      obtain ⟨hb, hpassed, hseen⟩ := hrechecked b seen ((setStage_same d q stage).symm.trans hq)
      exact ⟨hb, hpassed, .inl hseen⟩
    rw [setStage_of_ne d hqp] at hq
    obtain ⟨hb, hpassed, hstate⟩ := hd.rechecked q b seen hq
    refine ⟨hb, hpassed, hstate.imp id ?_⟩
    rintro ⟨r, hr⟩
    have hrp : r ≠ p := by
      rintro rfl
      exact hp hr
    exact ⟨r, (setStage_of_ne d hrp stage).trans hr⟩
  pinned := by
    intro q hq
    by_cases hqp : q = p
    · subst hqp
      exact absurd ((setStage_same d q stage).symm.trans hq) hdone
    · rw [setStage_of_ne d hqp] at hq
      exact hd.pinned q hq

theorem Inv.rename {b : Bytes} (hp : d.stage p = .rechecked b seen) :
    (({ d with state := some b } : Dir P).setStage p (.done (.ok ()))).Inv json callers hosts := by
  obtain ⟨⟨h, hh, hb⟩, -, -⟩ := hd.rechecked p b seen hp
  constructor
  · intro q b' hq
    by_cases hqp : q = p
    · subst hqp
      rw [setStage_same] at hq
      cases hq
    · rw [setStage_of_ne _ hqp] at hq
      exact hd.written q b' hq
  · intro q b' seen' hq
    by_cases hqp : q = p
    · subst hqp
      rw [setStage_same] at hq
      cases hq
    · rw [setStage_of_ne _ hqp] at hq
      obtain ⟨hb', hpassed, -⟩ := hd.rechecked q b' seen' hq
      exact ⟨hb', hpassed, .inr ⟨p, setStage_same ..⟩⟩
  · intro q _
    exact ⟨p, h, hh, by rw [hb]; rfl⟩

/-- The step lemma: at most one caller has succeeded unless a rename went over a changed file. -/
theorem Inv.step (hhost : ∀ h, op.host = some h → hosts h)
    (hstep : d.step json callers op = some d') : d'.Inv json callers hosts := by
  cases does_of_step json callers hstep with
  | passes hs => exact hd.move (by simp [hs]) (by simp) (by simp) (by simp)
  | writes h hs =>
    refine hd.move (by simp [hs]) (by simp) ?_ (by simp)
    intro b hb
    cases hb
    exact ⟨h, hhost h rfl, rfl⟩
  | @passesAgain p h b hs hok =>
    refine hd.move (by simp [hs]) (by simp) (by simp) ?_
    intro b' seen hb'
    cases hb'
    exact ⟨hd.written p b hs, ⟨h, hhost h rfl, hok⟩, rfl⟩
  | renames hs => exact hd.rename hs
  | fails e hs => exact hd.move (hs _) (by simp) (by simp) (by simp)

end

omit [DecidableEq P] in
theorem Inv.start (hd : ∀ p, d.stage p = .before) : d.Inv json callers hosts where
  written := by
    intro p b hp
    rw [hd p] at hp
    cases hp
  rechecked := by
    intro p b seen hp
    rw [hd p] at hp
    cases hp
  pinned := by
    intro p hp
    rw [hd p] at hp
    cases hp

theorem done_step {r : Except PinError Unit} (hp : d.stage p = .done r)
    (hstep : d.step json callers op = some d') : d'.stage p = .done r := by
  cases does_of_step json callers hstep with
  | @passes q h hs hok | @writes q h hs | @passesAgain q h b hs hok =>
    rw [setStage_of_ne d (by rintro rfl; simp [hp] at hs), hp]
  | @renames q b seen hs =>
    rw [setStage_of_ne _ (by rintro rfl; simp [hp] at hs), hp]
  | @fails q _ e hs hop =>
    rw [setStage_of_ne d (by rintro rfl; exact hs r hp), hp]

theorem ok_of_setStage {stage : Stage} (hdone : stage ≠ .done (.ok ())) {q : P}
    (hq : (d.setStage p stage).stage q = .done (.ok ())) : d.stage q = .done (.ok ()) := by
  by_cases hqp : q = p
  · subst hqp
    exact absurd ((setStage_same d q stage).symm.trans hq) hdone
  · exact (setStage_of_ne d hqp stage).symm.trans hq

theorem ok_of_step (hstep : d.step json callers op = some d') {q : P} (hq : d'.stage q = .done (.ok ())) :
    d.stage q = .done (.ok ()) ∨ ∃ b seen, op = .rename q ∧ d.stage q = .rechecked b seen := by
  cases does_of_step json callers hstep with
  | passes | writes | passesAgain | fails =>
    exact .inl (ok_of_setStage (by simp) hq)
  | @renames r b seen hs =>
    by_cases hqr : q = r
    · subst hqr
      exact .inr ⟨b, seen, rfl, hs⟩
    · rw [setStage_of_ne _ hqr] at hq
      exact .inl hq

omit [DecidableEq P] in
theorem Inv.none_ok (hd : d.Inv json callers hosts) (halive : ∀ p, OwnerAlive hosts (callers p))
    (hread : ∀ p, ReadsBack json hosts (callers p)) {b : Bytes}
    (hp : d.stage p = .rechecked b seen) (hsame : d.state = seen) (q : P) :
    d.stage q ≠ .done (.ok ()) := by
  intro hq
  obtain ⟨r, h, hh, hstate⟩ := hd.pinned q hq
  obtain ⟨-, ⟨h', hh', hpassed⟩, -⟩ := hd.rechecked p b seen hp
  rw [← hsame, hstate, check_body json (halive r) (hread r) hh hh'] at hpassed
  cases hpassed

theorem AtMostOne.step (hone : d.AtMostOne) (hd : d.Inv json callers hosts)
    (halive : ∀ p, OwnerAlive hosts (callers p)) (hread : ∀ p, ReadsBack json hosts (callers p))
    (hsame : d.Unchanged op) (hstep : d.step json callers op = some d') : d'.AtMostOne := by
  intro p q hp hq
  rcases ok_of_step hstep hp with hp₀ | ⟨b, seen, rfl, hp₀⟩
  · rcases ok_of_step hstep hq with hq₀ | ⟨b, seen, rfl, hq₀⟩
    · exact hone p q hp₀ hq₀
    · exact absurd hp₀ (hd.none_ok halive hread hq₀ (hsame b seen hq₀) p)
  · rcases ok_of_step hstep hq with hq₀ | ⟨b', seen', heq, -⟩
    · exact absurd hq₀ (hd.none_ok halive hread hp₀ (hsame b seen hp₀) q)
    · exact (Op.rename.inj heq)

theorem Inv.second_ok (hd : d.Inv json callers hosts) (hmiss : ¬ d.Unchanged op)
    (hstep : d.step json callers op = some d') :
    ∃ p q, p ≠ q ∧ d'.stage p = .done (.ok ()) ∧ d'.stage q = .done (.ok ()) := by
  have hkept : ∀ q, d.stage q = .done (.ok ()) → d'.stage q = .done (.ok ()) :=
    fun q hq => done_step hq hstep
  cases does_of_step json callers hstep with
  | @renames p b seen hs =>
    have hchanged : d.state ≠ seen := fun heq => hmiss ((unchanged_rename hs).2 heq)
    obtain ⟨-, -, hseen⟩ := hd.rechecked p b seen hs
    obtain ⟨q, hq⟩ := hseen.resolve_left hchanged
    refine ⟨p, q, ?_, setStage_same .., hkept q hq⟩
    rintro rfl
    rw [hs] at hq
    cases hq
  | passes | writes | passesAgain => exact absurd trivial hmiss
  | fails e hs hop =>
    refine absurd ?_ hmiss
    cases op with
    | rename q => exact absurd rfl (hop q)
    | _ => exact trivial

open Interleave in
/-- On any schedule of calls whose owners stay alive, at most one call returns `Ok` exactly if each
rename finds the state file that its call's second load read. -/
theorem atMostOne_iff_unchanged (json : Codec) (callers : P → Caller) (hosts : Host → Prop)
    (halive : ∀ p, OwnerAlive hosts (callers p)) (hread : ∀ p, ReadsBack json hosts (callers p))
    (d d' : Dir P) (hstart : ∀ p, d.stage p = .before) (ops : List (Op P))
    (hhosts : ∀ op ∈ ops, ∀ h, op.host = some h → hosts h)
    (hrun : run (step json callers) d ops = some d') :
    d'.AtMostOne ↔ Along (step json callers) Unchanged d ops := by
  have hinv : d.Inv json callers hosts := .start hstart
  have hops : Along (step json callers) (fun _ op => ∀ h, op.host = some h → hosts h) d ops :=
    along_of_forall hhosts d
  constructor
  · intro hone
    by_contra hmiss
    obtain ⟨before, op, after, d₁, d₂, rfl, hbefore, -, hstep, hchanged, hafter⟩ :=
      exists_of_not_along hrun hmiss
    have hinv₁ : d₁.Inv json callers hosts := by
      refine Along.invariant (I := fun d => d.Inv json callers hosts)
        (fun s e s' hI hC hs => hI.step hC hs) hinv hbefore (along_of_forall ?_ d)
      intro e he
      exact hhosts e (List.mem_append_left _ he)
    obtain ⟨p, q, hne, hp, hq⟩ := hinv₁.second_ok hchanged hstep
    -- what a call has returned stays
    have hkept : d'.stage p = .done (.ok ()) ∧ d'.stage q = .done (.ok ()) :=
      run_invariant (I := fun d => d.stage p = .done (.ok ()) ∧ d.stage q = .done (.ok ()))
        (fun s e s' hI hs => ⟨done_step hI.1 hs, done_step hI.2 hs⟩) ⟨hp, hq⟩ hafter
    exact hne (hone p q hkept.1 hkept.2)
  · intro hsame
    have hone : d.AtMostOne := by
      intro p q hp
      rw [hstart p] at hp
      cases hp
    exact ((hops.and hsame).invariant (I := fun d => d.Inv json callers hosts ∧ d.AtMostOne)
      (fun s e s' hI hC hs =>
        ⟨hI.1.step hC.1 hs, hI.2.step hI.1 halive hread hC.2 hs⟩) ⟨hinv, hone⟩ hrun).2

end Runs

end Dir

/-! ## Two processes -/

def sampleHost : Host where
  nowUnix := 0
  token := fun _ => none
  kill := fun _ => true

def sampleRecord (pid : Nat) : PinRecord where
  formatVersion := pinFormatVersion
  deviceId := ""
  pid := pid
  startedSec := 0
  startedNsec := 0
  expiresSec := none
  paths := ["*"]
  released := false
  baseAgreements := []
  procStartToken := none

def sampleCaller (second : Bool) : Caller :=
  let pid := if second then 42 else 41
  ⟨sampleRecord pid, pid⟩

def sampleCodec : Codec where
  toStringPretty rec := if rec.pid = 41 then "a" else "b"
  fromStr text := .ok (sampleRecord (if text = "a" then 41 else 42))

theorem sampleCaller_alive (p : Bool) : OwnerAlive (· = sampleHost) (sampleCaller p) where
  unreleased := rfl
  unexpired := by
    intro h _ exp hexp
    cases hexp
  alive := by
    rintro h rfl
    cases p <;> rfl
  sameToken := by
    rintro h h' rfl rfl
    rfl
  ownToken := by
    intro _ token htoken
    cases htoken

theorem sampleCaller_readsBack (p : Bool) :
    ReadsBack sampleCodec (· = sampleHost) (sampleCaller p) := by
  rintro h rfl
  cases p <;> rfl

namespace Dir

def unpinned : Dir Bool := ⟨none, fun _ => .before⟩

/-- Both calls pass both checks, then both rename. -/
def racing : List (Op Bool) :=
  [.load false sampleHost, .load true sampleHost, .writeTmp false sampleHost, .writeTmp true sampleHost,
    .reload false sampleHost, .reload true sampleHost, .rename false, .rename true]

theorem two_pins_hold : (∀ p, OwnerAlive (· = sampleHost) (sampleCaller p)) ∧
      (∀ p, ReadsBack sampleCodec (· = sampleHost) (sampleCaller p)) ∧
      (∀ op ∈ racing, ∀ h, op.host = some h → h = sampleHost) ∧
      ∃ d', Interleave.run (step sampleCodec sampleCaller) unpinned racing = some d' ∧ ¬ d'.AtMostOne := by
  refine ⟨sampleCaller_alive, sampleCaller_readsBack, ?_, _, rfl, ?_⟩
  · simp [racing, Op.host]
  · intro hone
    have heq : false = true := hone false true rfl rfl
    cases heq

/-- The second call checks again after the first has renamed. -/
def inTurn : List (Op Bool) :=
  [.load false sampleHost, .load true sampleHost, .writeTmp false sampleHost, .writeTmp true sampleHost,
    .reload false sampleHost, .rename false, .reload true sampleHost]

theorem one_pin_holds :
    ∃ d', Interleave.run (step sampleCodec sampleCaller) unpinned inTurn = some d' ∧
      d'.stage false = .done (.ok ()) ∧ d'.stage true = .done (.error (.pinActive 41)) ∧
      d'.AtMostOne := by
  refine ⟨_, rfl, rfl, rfl, ?_⟩
  refine (atMostOne_iff_unchanged sampleCodec sampleCaller (· = sampleHost) sampleCaller_alive
    sampleCaller_readsBack unpinned _ (fun _ => rfl) inTurn ?_ rfl).2 ?_
  · simp [inTurn, Op.host]
  · decide

end Dir

end PinStore

end Ferry
