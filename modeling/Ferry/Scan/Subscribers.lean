import Mathlib.Data.List.Induction

/-! # Subscribers of the scan engine

Every event of the scan engine is offered to each subscriber through a channel
that holds one event. An event that finds the channel full stays in a slot of the
sender, and the next offer writes over the slot before it looks at the channel.
-/

namespace Ferry

open List

/-! ## Channels -/

/-- `std::sync::mpsc::sync_channel`: a bounded queue whose receiving end may be gone. -/
structure SyncChannel (α : Type) where
  bound : Nat
  queue : List α
  connected : Bool

inductive TrySendError where
  | full
  | disconnected
  deriving DecidableEq

namespace SyncChannel

variable {α : Type}

def trySend (c : SyncChannel α) (a : α) : Except TrySendError (SyncChannel α) :=
  if c.connected = false then .error .disconnected
  else if c.bound ≤ c.queue.length then .error .full
  else .ok { c with queue := c.queue ++ [a] }

def tryRecv (c : SyncChannel α) : Option (α × SyncChannel α) :=
  match c.queue with
  | [] => none
  | a :: rest => some (a, { c with queue := rest })

end SyncChannel

/-! ## Subscribers -/

def subChannelBound : Nat := 1

structure Subscriber (α : Type) where
  tx : SyncChannel α
  staged : Option α

namespace Subscriber

variable {α : Type}

/-- `subscribe`: the sender's end of a channel that is new. -/
def new : Subscriber α := ⟨⟨subChannelBound, [], true⟩, none⟩

/-- `offer`; the answer says whether the subscriber stays. -/
def offer (sub : Subscriber α) (ev : α) : Subscriber α × Bool :=
  match sub.tx.trySend ev with
  | .ok tx => (⟨tx, none⟩, true)
  | .error .full => ({ sub with staged := some ev }, true)
  | .error .disconnected => ({ sub with staged := some ev }, false)

/-- `Parts::deliver`. -/
def deliver (subs : List (Subscriber α)) (ev : α) : List (Subscriber α) :=
  subs.filterMap fun sub => if (sub.offer ev).2 then some (sub.offer ev).1 else none

/-- What a delivery does to one subscriber does not depend on the others. -/
theorem deliver_eq_flatMap (subs : List (Subscriber α)) (ev : α) :
    deliver subs ev = subs.flatMap fun sub => deliver [sub] ev := by
  induction subs with
  | nil => rfl
  | cons sub subs ih =>
    rw [flatMap_cons, ← ih]
    exact filterMap_append (l := [sub]) ..

theorem deliver_of_room {sub : Subscriber α} (hopen : sub.tx.connected) (ev : α)
    (hroom : sub.tx.queue.length < sub.tx.bound) :
    deliver [sub] ev = [⟨{ sub.tx with queue := sub.tx.queue ++ [ev] }, none⟩] := by
  simp [deliver, offer, SyncChannel.trySend, hopen, Nat.not_le.2 hroom]

theorem deliver_of_full {sub : Subscriber α} (hopen : sub.tx.connected) (ev : α)
    (hfull : sub.tx.bound ≤ sub.tx.queue.length) : deliver [sub] ev = [{ sub with staged := some ev }] := by
  simp [deliver, offer, SyncChannel.trySend, hopen, hfull]

end Subscriber

/-! ## Deliveries and receives -/

/-- One subscriber, with what was delivered and what its reader has received. An event carries the
number of its delivery. -/
structure Feed (α : Type) where
  sub : Subscriber (Nat × α)
  delivered : List (Nat × α)
  received : List (Nat × α)

inductive FeedAct (α : Type) where
  | deliver (ev : α)
  | recv

namespace Feed

variable {α : Type}

def new : Feed α := ⟨.new, [], []⟩

def step (f : Feed α) : FeedAct α → Feed α
  | .deliver ev => ⟨(Subscriber.deliver [f.sub] (f.delivered.length, ev)).headD f.sub,
      f.delivered ++ [(f.delivered.length, ev)], f.received⟩
  | .recv =>
    match f.sub.tx.tryRecv with
    | none => f
    | some (ev, tx) => ⟨{ f.sub with tx := tx }, f.delivered, f.received ++ [ev]⟩

def run (acts : List (FeedAct α)) : Feed α := acts.foldl step new

def Drained (f : Feed α) : Prop := f.sub.tx.queue = []

/-- The event received last is the one delivered last. -/
def CaughtUp (f : Feed α) : Prop := f.received.getLast? = f.delivered.getLast?

/-- Events come in the order of their numbers. The slot is empty as long as the last one was sent;
otherwise it holds that event, and nothing that was sent is as new. -/
structure Wf (f : Feed α) : Prop where
  connected : f.sub.tx.connected
  bound : f.sub.tx.bound = subChannelBound
  numbered : ∀ e ∈ f.received ++ f.sub.tx.queue, e.1 < f.delivered.length
  sent : f.sub.staged = none → (f.received ++ f.sub.tx.queue).getLast? = f.delivered.getLast?
  waiting : ∀ e, f.sub.staged = some e → f.delivered.getLast? = some e ∧
    ∀ e' ∈ f.received ++ f.sub.tx.queue, e'.1 < e.1

theorem wf_new : Wf (new : Feed α) where
  connected := rfl
  bound := rfl
  numbered _ he := nomatch he
  sent _ := rfl
  waiting _ he := nomatch he

/-- The step lemma for an event: it finds room or waits in the slot. -/
theorem Wf.deliver {f : Feed α} (h : f.Wf) (ev : α) : (f.step (.deliver ev)).Wf := by
  by_cases hroom : f.sub.tx.queue.length < f.sub.tx.bound
  · have hdeliver := Subscriber.deliver_of_room h.connected (f.delivered.length, ev) hroom
    refine ⟨?_, ?_, ?_, ?_, ?_⟩
    · simpa [step, hdeliver] using h.connected
    · simpa [step, hdeliver] using h.bound
    · intro e he
      simp only [step, hdeliver, headD_cons, length_append] at he ⊢
      rw [← append_assoc, mem_append, mem_singleton] at he
      rcases he with he | rfl
      · exact Nat.lt_succ_of_lt (h.numbered e he)
      · exact Nat.lt_succ_self _
    · intro _
      simp [step, hdeliver]
    · intro e he
      simp [step, hdeliver] at he
  · have hdeliver := Subscriber.deliver_of_full h.connected (f.delivered.length, ev) (Nat.le_of_not_lt hroom)
    refine ⟨?_, ?_, ?_, ?_, ?_⟩
    · simpa [step, hdeliver] using h.connected
    · simpa [step, hdeliver] using h.bound
    · intro e he
      simp only [step, hdeliver, headD_cons, length_append] at he ⊢
      exact Nat.lt_succ_of_lt (h.numbered e he)
    · intro he
      simp [step, hdeliver] at he
    · intro e he
      simp only [step, hdeliver, headD_cons, Option.some.injEq] at he ⊢
      subst he
      exact ⟨getLast?_concat, h.numbered⟩

theorem Wf.recv {f : Feed α} (h : f.Wf) : (f.step .recv).Wf := by
  cases hq : f.sub.tx.queue with
  | nil =>
    have hstep : f.step .recv = f := by simp [step, SyncChannel.tryRecv, hq]
    rw [hstep]
    exact h
  | cons ev rest =>
    have hstep : f.step .recv =
        ⟨{ f.sub with tx := { f.sub.tx with queue := rest } }, f.delivered, f.received ++ [ev]⟩ := by
      simp [step, SyncChannel.tryRecv, hq]
    -- the event moves from the channel to the reader; together they hold what they held
    have hsame : f.received ++ [ev] ++ rest = f.received ++ f.sub.tx.queue := by simp [hq]
    rw [hstep]
    refine ⟨h.connected, h.bound, ?_, ?_, ?_⟩
    · rw [hsame]
      exact h.numbered
    · rw [hsame]
      exact h.sent
    · rw [hsame]
      exact h.waiting

theorem Wf.step {f : Feed α} (h : f.Wf) (a : FeedAct α) : (f.step a).Wf := by
  cases a with
  | deliver ev => exact h.deliver ev
  | recv => exact h.recv

theorem run_concat (acts : List (FeedAct α)) (a : FeedAct α) : run (acts ++ [a]) = (run acts).step a := by
  simp [run]

theorem wf_run (acts : List (FeedAct α)) : (run acts).Wf := by
  induction acts using List.reverseRecOn with
  | nil => exact wf_new
  | append_singleton acts a ih =>
    rw [run_concat]
    exact ih.step a

/-- The delivery after which only receives follow found the channel empty. -/
def LastFoundRoom (acts : List (FeedAct α)) : Prop :=
  ∀ before ev after, acts = before ++ .deliver ev :: after → (∀ a ∈ after, a = .recv) → (run before).Drained

theorem lastFoundRoom_recv {acts : List (FeedAct α)} :
    LastFoundRoom (acts ++ [.recv]) ↔ LastFoundRoom acts := by
  constructor
  · intro h before ev after hacts hafter
    refine h before ev (after ++ [.recv]) (by simp [hacts]) fun a ha => ?_
    rcases mem_append.1 ha with ha | ha
    · exact hafter a ha
    · exact mem_singleton.1 ha
  · intro h before ev after hacts hafter
    -- the run ends with a receive, so what follows the delivery does too
    cases after using List.reverseRecOn with
    | nil =>
      have hlast := congrArg List.getLast? hacts
      simp at hlast
    | append_singleton after =>
      rw [← cons_append, ← append_assoc] at hacts
      exact h before ev after (append_inj_left' hacts rfl)
        fun a' ha' => hafter a' (mem_append_left _ ha')

theorem lastFoundRoom_deliver {acts : List (FeedAct α)} {ev : α} :
    LastFoundRoom (acts ++ [.deliver ev]) ↔ (run acts).Drained := by
  constructor
  · intro h
    exact h acts ev [] rfl fun a ha => nomatch ha
  · intro h before ev' after hacts hafter
    cases after using List.reverseRecOn with
    | nil =>
      rw [append_inj_left' hacts.symm rfl]
      exact h
    | append_singleton after a =>
      rw [← cons_append, ← append_assoc] at hacts
      have ha : FeedAct.deliver ev = a := by simpa using append_inj_right' hacts rfl
      have hrecv := hafter a (by simp)
      rw [← ha] at hrecv
      cases hrecv

/-- Nothing waits in the slot exactly if the last event found room. -/
theorem staged_run_eq_none_iff (acts : List (FeedAct α)) :
    (run acts).sub.staged = none ↔ LastFoundRoom acts := by
  induction acts using List.reverseRecOn with
  | nil =>
    refine ⟨fun _ before ev after hacts => ?_, fun _ => rfl⟩
    simp at hacts
  | append_singleton acts a ih =>
    rw [run_concat]
    cases a with
    | recv =>
      rw [lastFoundRoom_recv, ← ih]
      rw [step]
      cases (run acts).sub.tx.tryRecv with
      | none | some => exact Iff.rfl
    | deliver =>
      have hwf := wf_run acts
      rw [lastFoundRoom_deliver, Drained]
      by_cases hroom : (run acts).sub.tx.queue.length < (run acts).sub.tx.bound
      · have hempty : (run acts).sub.tx.queue = [] := by
          rw [hwf.bound, subChannelBound] at hroom
          exact eq_nil_of_length_eq_zero (by omega)
        simp [step, Subscriber.deliver_of_room hwf.connected _ hroom, hempty]
      have hne : (run acts).sub.tx.queue ≠ [] := by
        intro hempty
        rw [hwf.bound, hempty] at hroom
        exact hroom Nat.zero_lt_one
      simp [step, Subscriber.deliver_of_full hwf.connected _ (Nat.le_of_not_lt hroom), hne]

/-- With an empty channel the reader has the event delivered last exactly if the slot is empty. -/
theorem Wf.caughtUp_iff {f : Feed α} (h : f.Wf) (hdrained : f.Drained) :
    f.CaughtUp ↔ f.sub.staged = none := by
  unfold CaughtUp
  have hall : f.received ++ f.sub.tx.queue = f.received := by rw [hdrained, append_nil]
  cases hstaged : f.sub.staged with
  | none =>
    have hsent := h.sent hstaged
    rw [hall] at hsent
    simp [hsent]
  | some e =>
    obtain ⟨hlast, holder⟩ := h.waiting e hstaged
    rw [hall] at holder
    rw [hlast]
    refine iff_of_false (fun hrec => ?_) (by simp)
    exact Nat.lt_irrefl _ (holder e (mem_of_getLast? hrec))

end Feed

/-- After any interleaving of deliveries and receives that leaves the channel empty, the reader has
the event delivered last if and only if that delivery found the channel empty. -/
theorem feed_caughtUp_iff {α : Type} (acts : List (FeedAct α)) (hdrained : (Feed.run acts).Drained) :
    (Feed.run acts).CaughtUp ↔ Feed.LastFoundRoom acts := by
  rw [(Feed.wf_run acts).caughtUp_iff hdrained, Feed.staged_run_eq_none_iff]

/-- Two events, each of them received before the next is delivered. -/
theorem feed_caughtUp_alternating : (Feed.run [FeedAct.deliver "a", .recv, .deliver "b", .recv]).Drained ∧
      (Feed.run [FeedAct.deliver "a", .recv, .deliver "b", .recv]).CaughtUp := by
  have hdrained : (Feed.run [FeedAct.deliver "a", .recv, .deliver "b", .recv]).Drained := rfl
  refine ⟨hdrained, (feed_caughtUp_iff _ hdrained).2 ?_⟩
  rw [show [FeedAct.deliver "a", .recv, .deliver "b", .recv] =
      [FeedAct.deliver "a", .recv, .deliver "b"] ++ [.recv] from rfl, Feed.lastFoundRoom_recv,
    show [FeedAct.deliver "a", .recv, .deliver "b"] =
      [FeedAct.deliver "a", .recv] ++ [.deliver "b"] from rfl, Feed.lastFoundRoom_deliver]
  rfl

/-- Two events in a row: the reader empties its channel and does not get the second one. -/
theorem feed_not_caughtUp : (Feed.run [FeedAct.deliver "a", .deliver "b", .recv]).Drained ∧
      ¬ (Feed.run [FeedAct.deliver "a", .deliver "b", .recv]).CaughtUp := by
  refine ⟨rfl, ?_⟩
  unfold Feed.CaughtUp
  decide

end Ferry
