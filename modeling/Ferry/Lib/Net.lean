import Ferry.Lib.Dialogue

/-! # Nets of two dialogues

Each side of a net is sequential and the queues keep the order of the frames, so
moves of the two sides commute, and one schedule that stops speaks for all of
them.
-/

namespace Ferry.Lib

namespace Dialogue

variable {F ε α β : Type}

/-! ## Telling programs apart -/

variable {p p' : Dialogue F ε α} {accepts : F → Bool} {k : F → Dialogue F ε α} {i out i' : List F} {e : ε}

theorem send_bind_inj {f g : F} {q : Dialogue F ε α}
    (h : (send f >>= fun _ => p) = (send g >>= fun _ => q)) : f = g ∧ p = q := by
  have hrun : ∀ xs, (⟨f :: (p.run xs).sent, (p.run xs).status⟩ : Transcript F ε α) =
      ⟨g :: (q.run xs).sent, (q.run xs).status⟩ := fun xs => congrArg (fun d => d.run xs) h
  refine ⟨?_, Dialogue.ext (funext fun xs => ?_)⟩
  · have := congrArg Transcript.sent (hrun [])
    exact (List.cons.inj this).1
  · have hsent := congrArg Transcript.sent (hrun xs)
    have hstatus := congrArg Transcript.status (hrun xs)
    exact Transcript.ext (List.cons.inj hsent).2 hstatus

theorem recv_bind_inj {accepts' : F → Bool} {e' : ε} {k' : F → Dialogue F ε α}
    (h : (recv accepts e >>= k) = (recv accepts' e' >>= k')) :
    accepts = accepts' ∧ e = e' ∧ ∀ f, accepts f = true → k f = k' f := by
  have hwait : (⟨[], .waits accepts e⟩ : Transcript F ε α) = ⟨[], .waits accepts' e'⟩ :=
    congrArg (fun d => d.run []) h
  obtain ⟨rfl, rfl⟩ : accepts = accepts' ∧ e = e' := by simpa using hwait
  refine ⟨rfl, rfl, fun f hf => Dialogue.ext (funext fun xs => ?_)⟩
  have hrun := congrArg (fun d => d.run (f :: xs)) h
  have hboth : ((k f).run xs).sent = ((k' f).run xs).sent ∧
      ((k f).run xs).status = ((k' f).run xs).status := by
    simpa [recv, andThen, hf] using hrun
  exact Transcript.ext hboth.1 hboth.2

theorem send_bind_ne_recv {f : F}
    : (send f >>= fun _ => p) ≠ (recv accepts e >>= k) := by
  intro h
  have := congrArg (fun d => (d.run []).sent) h
  simp [send, recv, andThen] at this

theorem send_bind_ne_pure {f : F} {a : α} : (send f >>= fun _ => p) ≠ pure a := by
  intro h
  have := congrArg (fun d => (d.run []).sent) h
  simp [send, andThen] at this

theorem send_bind_ne_fail {f : F} : (send f >>= fun _ => p) ≠ fail e := by
  intro h
  have := congrArg (fun d => (d.run []).sent) h
  simp [send, fail, andThen] at this

theorem recv_bind_ne_pure {a : α} : (recv accepts e >>= k) ≠ pure a := by
  intro h
  have := congrArg (fun d => (d.run []).status) h
  simp [recv, andThen] at this

theorem recv_bind_ne_fail {e' : ε} : (recv accepts e >>= k) ≠ fail e' := by
  intro h
  have := congrArg (fun d => (d.run []).status) h
  simp [recv, fail, andThen] at this

theorem pure_ne_fail {a : α} : (pure a : Dialogue F ε α) ≠ fail e := by
  intro h
  have := congrArg (fun d => (d.run []).status) h
  simp [fail] at this

/-! ## Moves -/

theorem Move.cases_eq (h : Move p i p' i' out) : (∃ f, p = (send f >>= fun _ => p') ∧ i' = i ∧ out = [f]) ∨
      ∃ accepts e k f, accepts f = true ∧ p = (recv accepts e >>= k) ∧ i = f :: i' ∧ p' = k f ∧ out = [] := by
  cases h with
  | sends f => exact .inl ⟨f, rfl, rfl, rfl⟩
  | receives unexpected k inbox hf => exact .inr ⟨_, unexpected, k, _, hf, rfl, rfl, rfl, rfl⟩

theorem Move.unique {p₁ p₂ : Dialogue F ε α} {i₁ i₂ o₁ o₂ : List F} (h₁ : Move p i p₁ i₁ o₁)
    (h₂ : Move p i p₂ i₂ o₂) : p₁ = p₂ ∧ i₁ = i₂ ∧ o₁ = o₂ := by
  obtain ⟨f, hp, rfl, rfl⟩ | ⟨accepts, e, k, f, hf, hp, hi, rfl, rfl⟩ := h₁.cases_eq
  · obtain ⟨g, hq, rfl, rfl⟩ | ⟨accepts, e, k, g, hg, hq, hi, rfl, rfl⟩ := h₂.cases_eq
    · obtain ⟨rfl, rfl⟩ := send_bind_inj (hp.symm.trans hq)
      exact ⟨rfl, rfl, rfl⟩
    · exact absurd (hp.symm.trans hq) send_bind_ne_recv
  obtain ⟨g, hq, rfl, rfl⟩ | ⟨accepts', e', k', g, hg, hq, hi', rfl, rfl⟩ := h₂.cases_eq
  · exact absurd (hq.symm.trans hp) send_bind_ne_recv
  · obtain ⟨rfl, rfl⟩ := List.cons.inj (hi.symm.trans hi')
    obtain ⟨rfl, rfl, hk⟩ := recv_bind_inj (hp.symm.trans hq)
    exact ⟨hk f hf, rfl, rfl⟩

theorem Move.append (h : Move p i p' i' out) (later : List F) : Move p (i ++ later) p' (i' ++ later) out := by
  cases h with
  | sends f => exact .sends f p' (i ++ later)
  | receives unexpected k inbox hf => exact .receives unexpected k (i' ++ later) hf

theorem not_move_pure {a : α} :
    ¬ Move (pure a) i p' i' out := by
  intro h
  obtain ⟨f, hp, -, -⟩ | ⟨accepts, e, k, f, -, hp, -, -, -⟩ := h.cases_eq
  · exact send_bind_ne_pure hp.symm
  · exact recv_bind_ne_pure hp.symm

theorem not_move_fail :
    ¬ Move (fail e) i p' i' out := by
  intro h
  obtain ⟨f, hp, -, -⟩ | ⟨accepts, e, k, f, -, hp, -, -, -⟩ := h.cases_eq
  · exact send_bind_ne_fail hp.symm
  · exact recv_bind_ne_fail hp.symm

theorem Waits.move (hw : Waits p accepts) (h : Move p i p' i' out) : ∃ f, accepts f = true ∧ i = f :: i' := by
  obtain ⟨e, k, rfl⟩ := hw
  obtain ⟨f, hp, -, -⟩ | ⟨accepts', e', k', f, hf, hp, hi, -, -⟩ := h.cases_eq
  · exact absurd hp.symm send_bind_ne_recv
  · obtain ⟨rfl, -, -⟩ := recv_bind_inj hp
    exact ⟨f, hf, hi⟩

end Dialogue

open Dialogue

variable {F ε α β : Type}

/-! ## Nets -/

structure Net (F ε α β : Type) where
  left : Dialogue F ε α
  right : Dialogue F ε β
  toLeft : List F
  toRight : List F

namespace Net

variable {α' β' : Type}

inductive Moves : Net F ε α β → Net F ε α β → Prop where
  | left {p p' : Dialogue F ε α} {q : Dialogue F ε β} {i i' j out : List F}
      (h : Move p i p' i' out) : Moves ⟨p, q, i, j⟩ ⟨p', q, i', j ++ out⟩
  | right {p : Dialogue F ε α} {q q' : Dialogue F ε β} {i j j' out : List F}
      (h : Move q j q' j' out) : Moves ⟨p, q, i, j⟩ ⟨p, q', i ++ out, j'⟩

/-- One step: a side moves, or meets a frame that it does not accept and fails. -/
inductive Step : Net F ε α β → Net F ε α β → Prop where
  | moves {n m : Net F ε α β} (h : Moves n m) : Step n m
  | leftRefuses {accepts : F → Bool} {e : ε} {k : F → Dialogue F ε α} {q : Dialogue F ε β} {f : F}
      {i j : List F} (h : accepts f = false) :
      Step ⟨recv accepts e >>= k, q, f :: i, j⟩ ⟨fail e, q, i, j⟩
  | rightRefuses {accepts : F → Bool} {e : ε} {k : F → Dialogue F ε β} {p : Dialogue F ε α} {f : F}
      {i j : List F} (h : accepts f = false) :
      Step ⟨p, recv accepts e >>= k, i, f :: j⟩ ⟨p, fail e, i, j⟩

abbrev Runs : Net F ε α β → Net F ε α β → Prop := Relation.ReflTransGen Moves

/-! ## Moves commute -/

/-- Two moves from one state can be joined: neither takes anything from the other. -/
theorem Moves.diamond {n a b : Net F ε α β} (ha : Moves n a) (hb : Moves n b) :
    a = b ∨ ∃ c, Moves a c ∧ Moves b c := by
  cases ha with
  | left ha =>
    generalize hn : (⟨_, _, _, _⟩ : Net F ε α β) = n' at hb
    cases hb with
    | left hb =>
      cases hn
      obtain ⟨rfl, rfl, rfl⟩ := ha.unique hb
      exact .inl rfl
    | right hb =>
      cases hn
      exact .inr ⟨_, .right (hb.append _), .left (ha.append _)⟩
  | right ha =>
    generalize hn : (⟨_, _, _, _⟩ : Net F ε α β) = n' at hb
    cases hb with
    | left hb =>
      cases hn
      exact .inr ⟨_, .left (hb.append _), .right (ha.append _)⟩
    | right hb =>
      cases hn
      obtain ⟨rfl, rfl, rfl⟩ := ha.unique hb
      exact .inl rfl

/-- A refusal by one side and a move of the other can be joined. -/
theorem Moves.refuses {n a b : Net F ε α β} (ha : Moves n a) (hb : Step n b) (hne : ¬ Moves n b) :
    ∃ c, Step a c ∧ Moves b c := by
  cases hb with
  | moves h => exact absurd h hne
  | leftRefuses h =>
    generalize hn : (⟨_, _, _, _⟩ : Net F ε α β) = n at ha
    cases ha with
    | left hmove =>
      cases hn
      obtain ⟨g, hg, hi⟩ := Waits.move ⟨_, _, rfl⟩ hmove
      cases hi
      rw [h] at hg
      cases hg
    | right hmove =>
      cases hn
      exact ⟨_, .leftRefuses h, .right hmove⟩
  | rightRefuses h =>
    generalize hn : (⟨_, _, _, _⟩ : Net F ε α β) = n at ha
    cases ha with
    | left hmove =>
      cases hn
      exact ⟨_, .rightRefuses h, .left hmove⟩
    | right hmove =>
      cases hn
      obtain ⟨g, hg, hi⟩ := Waits.move ⟨_, _, rfl⟩ hmove
      cases hi
      rw [h] at hg
      cases hg

/-! ## Ends that no schedule can avoid -/

def Settled (n : Net F ε α β) : Prop := ∀ m, ¬ Step n m

/-- Every schedule is finite and stops at `m`. -/
inductive Inevitable (m : Net F ε α β) : Net F ε α β → Prop where
  | here (h : Settled m) : Inevitable m m
  | step {n n' : Net F ε α β} (hn : Step n n') (h : ∀ {k}, Step n k → Inevitable m k) : Inevitable m n

theorem Inevitable.of_moves {m a : Net F ε α β} (h : Inevitable m a) {n k : Net F ε α β}
    (hna : Moves n a) (hnk : Step n k) : Inevitable m k := by
  induction h generalizing n k with
  | here hm =>
    by_cases hmove : Moves n k
    · obtain rfl | ⟨c, hc, -⟩ := hna.diamond hmove
      · exact .here hm
      · exact absurd (.moves hc) (hm c)
    · obtain ⟨c, hc, -⟩ := hna.refuses hnk hmove
      exact absurd hc (hm c)
  | @step a a' ha h ih =>
    by_cases hmove : Moves n k
    · obtain rfl | ⟨c, hc, hkc⟩ := hna.diamond hmove
      · exact .step ha h
      · exact .step (.moves hkc) fun hk => ih (.moves hc) hkc hk
    · obtain ⟨c, hc, hkc⟩ := hna.refuses hnk hmove
      exact .step (.moves hkc) fun hk => ih hc hkc hk

/-- As moves commute, one schedule that stops speaks for all of them. -/
theorem Runs.inevitable {n m : Net F ε α β} (h : Runs n m) (hm : Settled m) : Inevitable m n := by
  induction h using Relation.ReflTransGen.head_induction_on with
  | refl => exact .here hm
  | head hstep _ ih => exact .step (.moves hstep) fun hk => ih.of_moves hstep hk

theorem Inevitable.unique {n m m' : Net F ε α β} (h : Inevitable m n) (h' : Inevitable m' n) :
    m = m' := by
  induction h with
  | here hm =>
    cases h' with
    | here => rfl
    | step hn => exact absurd hn (hm _)
  | @step n n' hn _ ih =>
    cases h' with
    | here hm' => exact absurd hn (hm' _)
    | step _ h' => exact ih hn (h' hn)

/-- A party that has ended and one that waits for a frame can do nothing more. -/
theorem settled_of_waits {p : Dialogue F ε α} {q : Dialogue F ε β} {accepts : F → Bool} {i : List F}
    (hp : (∃ a, p = pure a) ∨ Failed p) (hq : Waits q accepts) : Settled ⟨p, q, i, []⟩ := by
  intro m hm
  have hnotMove : ∀ {p' i' out}, ¬ Move p i p' i' out := by
    intro p' i' out hmove
    rcases hp with ⟨a, rfl⟩ | ⟨e, rfl⟩
    · exact not_move_pure hmove
    · exact not_move_fail hmove
  generalize hn : (⟨p, q, i, []⟩ : Net F ε α β) = n at hm
  cases hm with
  | moves h =>
    cases h with
    | left h =>
      cases hn
      exact hnotMove h
    | right h =>
      cases hn
      obtain ⟨f, -, hinbox⟩ := hq.move h
      cases hinbox
  | leftRefuses =>
    have hleft := congrArg Net.left hn
    rcases hp with ⟨a, rfl⟩ | ⟨e, rfl⟩
    · exact recv_bind_ne_pure hleft.symm
    · exact recv_bind_ne_fail hleft.symm
  | rightRefuses => cases hn

/-! ## Changing sides -/

def swap (n : Net F ε α β) : Net F ε β α := ⟨n.right, n.left, n.toRight, n.toLeft⟩

theorem Moves.swap {n m : Net F ε α β} (h : Moves n m) : Moves n.swap m.swap := by
  cases h with
  | left h => exact .right h
  | right h => exact .left h

theorem Runs.swap {n m : Net F ε α β} (h : Runs n m) : Runs n.swap m.swap :=
  Relation.ReflTransGen.lift Net.swap (fun _ _ => Moves.swap) _ _ h

/-! ## Following a run -/

variable {p : Dialogue F ε α} {q : Dialogue F ε β} {i j : List F} {m : Net F ε α β}

theorem Runs.send_left {f : F} {k : Unit → Dialogue F ε α} (h : Runs ⟨k (), q, i, j ++ [f]⟩ m) :
    Runs ⟨send f >>= k, q, i, j⟩ m :=
  .head (.left (.sends f (k ()) i)) h

theorem Runs.recv_left {accepts : F → Bool} {e : ε} {k : F → Dialogue F ε α} {f : F}
    (hf : accepts f = true) (h : Runs ⟨k f, q, i, j⟩ m) :
    Runs ⟨recv accepts e >>= k, q, f :: i, j⟩ m :=
  .head (.left (.receives e k i hf)) (by rwa [List.append_nil])

theorem Runs.sendAll_left {fs : List F} {k : Unit → Dialogue F ε α}
    (h : Runs ⟨k (), q, i, j ++ fs⟩ m) : Runs ⟨sendAll fs >>= k, q, i, j⟩ m := by
  induction fs generalizing j with
  | nil =>
    rwa [List.append_nil] at h
  | cons f fs ih =>
    rw [sendAll_cons, bind_assoc]
    apply Runs.send_left
    apply ih
    rwa [List.append_assoc]

theorem Runs.loop_left {σ τ : Type} {accepts : F → Bool} {e : ε}
    {body : σ → F → Dialogue F ε (σ ⊕ τ)} {s : σ} {k : τ → Dialogue F ε α} {f : F}
    (hf : accepts f = true)
    (h : Runs ⟨body s f >>= fun r => next accepts e body r >>= k, q, i, j⟩ m) :
    Runs ⟨loop accepts e body s >>= k, q, f :: i, j⟩ m := by
  rw [loop_eq, bind_assoc]
  apply Runs.recv_left hf
  rwa [bind_assoc]

theorem Runs.of_swap {n : Net F ε α β} (h : Runs n.swap m.swap) : Runs n m := h.swap

theorem Runs.send_right {f : F} {k : Unit → Dialogue F ε β} (h : Runs ⟨p, k (), i ++ [f], j⟩ m) :
    Runs ⟨p, send f >>= k, i, j⟩ m :=
  Runs.of_swap (Runs.send_left h.swap)

theorem Runs.recv_right {accepts : F → Bool} {e : ε} {k : F → Dialogue F ε β} {f : F}
    (hf : accepts f = true) (h : Runs ⟨p, k f, i, j⟩ m) :
    Runs ⟨p, recv accepts e >>= k, i, f :: j⟩ m :=
  Runs.of_swap (Runs.recv_left hf h.swap)

theorem Runs.sendAll_right {fs : List F} {k : Unit → Dialogue F ε β}
    (h : Runs ⟨p, k (), i ++ fs, j⟩ m) : Runs ⟨p, sendAll fs >>= k, i, j⟩ m :=
  Runs.of_swap (Runs.sendAll_left h.swap)

end Net

end Ferry.Lib
