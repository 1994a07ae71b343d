import Mathlib.Data.List.Basic
import Mathlib.Logic.Relation

/-! # Dialogues

A dialogue is a program that sends frames and waits for frames. It is given by
what it does on the frames it has received so far: what it has sent, and whether
it waits for more, has failed or has returned. Two dialogues that are joined by
a pair of queues make a net, and its two sides may run in any order.
-/

namespace Ferry.Lib

/-! ## Programs -/

inductive Status (F ε α : Type) where
  | waits (accepts : F → Bool) (unexpected : ε)
  | failed (e : ε)
  | returned (a : α) (rest : List F)

@[ext] structure Transcript (F ε α : Type) where
  sent : List F
  status : Status F ε α

/-- A program that exchanges frames: its progress on every list of received
frames. What it has not read when it returns is the end of that list. -/
@[ext] structure Dialogue (F ε α : Type) where
  run : List F → Transcript F ε α
  leaves : ∀ xs a rest, (run xs).status = .returned a rest → rest <:+ xs

namespace Dialogue

variable {F ε α β γ : Type}

def andThen (p : Transcript F ε α) (k : α → List F → Transcript F ε β) : Transcript F ε β :=
  match p.status with
  | .waits accepts unexpected => ⟨p.sent, .waits accepts unexpected⟩
  | .failed e => ⟨p.sent, .failed e⟩
  | .returned a rest => ⟨p.sent ++ (k a rest).sent, (k a rest).status⟩

protected def pure (a : α) : Dialogue F ε α where
  run xs := ⟨[], .returned a xs⟩
  leaves := by
    rintro xs b rest h
    cases h
    exact List.suffix_rfl

protected def bind (p : Dialogue F ε α) (k : α → Dialogue F ε β) : Dialogue F ε β where
  run xs := andThen (p.run xs) fun a rest => (k a).run rest
  leaves := by
    intro xs b rest h
    unfold andThen at h
    cases hp : (p.run xs).status with
    | waits | failed => simp [hp] at h
    | returned a mid =>
      simp only [hp] at h
      exact ((k a).leaves mid b rest h).trans (p.leaves xs a mid hp)

instance : Monad (Dialogue F ε) where
  pure := Dialogue.pure
  bind := Dialogue.bind

@[simp] theorem run_pure (a : α) (xs : List F) :
    (pure a : Dialogue F ε α).run xs = ⟨[], .returned a xs⟩ := rfl

@[simp] theorem run_bind (p : Dialogue F ε α) (k : α → Dialogue F ε β) (xs : List F) :
    (p >>= k).run xs = andThen (p.run xs) fun a rest => (k a).run rest := rfl

theorem andThen_congr {p : Transcript F ε α} {k l : α → List F → Transcript F ε β}
    (h : ∀ a rest, p.status = .returned a rest → k a rest = l a rest) : andThen p k = andThen p l := by
  cases p with
  | mk sent status =>
    cases status with
    | waits | failed => rfl
    | returned a rest => simp only [andThen, h a rest rfl]

theorem andThen_pure (p : Transcript F ε α) :
    andThen p (fun a rest => ⟨[], .returned a rest⟩) = p := by
  cases p with
  | mk sent status => cases status <;> simp [andThen]

theorem andThen_assoc (p : Transcript F ε α) (k : α → List F → Transcript F ε β)
    (l : β → List F → Transcript F ε γ) :
    andThen (andThen p k) l = andThen p fun a rest => andThen (k a rest) l := by
  cases p with
  | mk sent status =>
    cases status with
    | waits | failed => rfl
    | returned a rest =>
      dsimp only [andThen]
      cases (k a rest).status <;> simp

instance : LawfulMonad (Dialogue F ε) :=
  LawfulMonad.mk' _ (fun x => Dialogue.ext (funext fun xs => andThen_pure (x.run xs)))
    (fun _ _ => rfl)
    (fun x _ _ => Dialogue.ext (funext fun xs => andThen_assoc (x.run xs) _ _))

def fail (e : ε) : Dialogue F ε α where
  run _ := ⟨[], .failed e⟩
  leaves := by
    intro xs a rest h
    cases h

def send (f : F) : Dialogue F ε Unit where
  run xs := ⟨[f], .returned () xs⟩
  leaves := by
    rintro xs a rest h
    cases h
    exact List.suffix_rfl

/-- Waits for the next frame; one that is not accepted is an error. -/
def recv (accepts : F → Bool) (unexpected : ε) : Dialogue F ε F where
  run
    | [] => ⟨[], .waits accepts unexpected⟩
    | f :: rest => if accepts f then ⟨[], .returned f rest⟩ else ⟨[], .failed unexpected⟩
  leaves := by
    intro xs a rest h
    cases xs with
    | nil => cases h
    | cons =>
      dsimp only at h
      split at h
      · cases h
        exact List.suffix_cons ..
      · cases h

def ofExcept : Except ε α → Dialogue F ε α
  | .ok a => pure a
  | .error e => fail e

def sendAll (fs : List F) : Dialogue F ε Unit := fs.forM send

theorem sendAll_cons (f : F) (fs : List F) :
    (sendAll (f :: fs) : Dialogue F ε Unit) = send f >>= fun _ => sendAll fs := rfl

/-! ## Loops -/

/-- Rounds of a loop whose body starts by waiting for a frame; each of them
uses up a frame, so as many rounds as there are frames are enough. -/
def rounds (accepts : F → Bool) (unexpected : ε) (body : β → F → Dialogue F ε (β ⊕ α)) :
    Nat → β → List F → Transcript F ε α
  | 0, _, _ => ⟨[], .waits accepts unexpected⟩
  | n + 1, b, xs =>
    andThen ((recv accepts unexpected >>= body b).run xs) fun
      | .inl b', rest => rounds accepts unexpected body n b' rest
      | .inr a, rest => ⟨[], .returned a rest⟩

variable {body : β → F → Dialogue F ε (β ⊕ α)} {accepts : F → Bool} {unexpected : ε}

theorem rounds_leaves (n : Nat) : ∀ b xs a rest,
      (rounds accepts unexpected body n b xs).status = .returned a rest → rest <:+ xs := by
  induction n with
  | zero =>
    intro b xs a rest h
    cases h
  | succ n ih =>
    intro b xs a rest h
    rw [rounds, andThen] at h
    cases hr : ((recv accepts unexpected >>= body b).run xs).status with
    | waits | failed =>
      simp only [hr] at h
      cases h
    | returned r mid =>
      have hmid := (recv accepts unexpected >>= body b).leaves xs r mid hr
      simp only [hr] at h
      cases r with
      | inl b' => exact (ih b' mid a rest h).trans hmid
      | inr =>
        cases h
        exact hmid

/-- `loop { let f = recv()?; .. }`: the body goes on with `inl` and breaks with `inr`. -/
def loop (accepts : F → Bool) (unexpected : ε) (body : β → F → Dialogue F ε (β ⊕ α)) (b : β) :
    Dialogue F ε α where
  run xs := rounds accepts unexpected body (xs.length + 1) b xs
  leaves := fun xs => rounds_leaves _ b xs

theorem length_lt_of_round {k : F → Dialogue F ε α}
    {xs rest : List F} {a : α} (h : ((recv accepts unexpected >>= k).run xs).status = .returned a rest) :
    rest.length < xs.length := by
  cases xs with
  | nil => simp [recv, andThen] at h
  | cons f xs =>
    by_cases hf : accepts f
    · simp only [run_bind, recv, if_pos hf] at h
      exact Nat.lt_succ_of_le ((k f).leaves xs a rest h).length_le
    · simp [recv, andThen, hf] at h

theorem rounds_fuel (n : Nat) : ∀ m b xs, xs.length < n → xs.length < m →
      rounds accepts unexpected body n b xs = rounds accepts unexpected body m b xs := by
  induction n with
  | zero =>
    omega
  | succ n ih =>
    intro m b xs hn hm
    obtain ⟨m, rfl⟩ : ∃ m', m = m' + 1 := ⟨m - 1, by omega⟩
    apply andThen_congr
    intro r mid hr
    have hlt := length_lt_of_round hr
    cases r with
    | inl b' => exact ih m b' mid (by omega) (by omega)
    | inr => rfl

def next (accepts : F → Bool) (unexpected : ε) (body : β → F → Dialogue F ε (β ⊕ α)) :
    β ⊕ α → Dialogue F ε α
  | .inl b => loop accepts unexpected body b
  | .inr a => pure a

theorem loop_eq (accepts : F → Bool) (unexpected : ε) (body : β → F → Dialogue F ε (β ⊕ α)) (b : β) :
    loop accepts unexpected body b =
      recv accepts unexpected >>= fun f => body b f >>= next accepts unexpected body := by
  rw [← bind_assoc]
  apply Dialogue.ext
  funext xs
  apply andThen_congr
  intro r mid hr
  have hlt := length_lt_of_round hr
  cases r with
  | inl b' => exact rounds_fuel xs.length (mid.length + 1) b' mid hlt (by omega)
  | inr => rfl

theorem run_loop_cons {b : β} {f : F} (hf : accepts f = true) (xs : List F) :
    (loop accepts unexpected body b).run (f :: xs) = (body b f >>= next accepts unexpected body).run xs := by
  rw [loop_eq]
  simp [recv, hf, andThen]

@[simp] theorem run_send_bind (f : F) (k : Unit → Dialogue F ε α) (xs : List F) :
    (send f >>= k).run xs = ⟨f :: ((k ()).run xs).sent, ((k ()).run xs).status⟩ := rfl

theorem run_sendAll_bind (fs : List F) (k : Unit → Dialogue F ε α) (xs : List F) :
    (sendAll fs >>= k).run xs = ⟨fs ++ ((k ()).run xs).sent, ((k ()).run xs).status⟩ := by
  induction fs with
  | nil => rfl
  | cons f fs ih =>
    rw [sendAll_cons, bind_assoc, run_send_bind, ih]
    rfl

/-! ## Moves of one side -/

/-- One move of a program with the given inbox: the frames it emits stand last. -/
inductive Move : Dialogue F ε α → List F → Dialogue F ε α → List F → List F → Prop where
  | sends (f : F) (p : Dialogue F ε α) (inbox : List F) :
      Move (send f >>= fun _ => p) inbox p inbox [f]
  | receives {accepts : F → Bool} (unexpected : ε) (k : F → Dialogue F ε α) {f : F} (inbox : List F)
      (h : accepts f = true) :
      Move (recv accepts unexpected >>= k) (f :: inbox) (k f) inbox []

def Waits (p : Dialogue F ε α) (accepts : F → Bool) : Prop :=
  ∃ unexpected k, p = recv accepts unexpected >>= k

def Failed (p : Dialogue F ε α) : Prop := ∃ e, p = fail e

end Dialogue

end Ferry.Lib
