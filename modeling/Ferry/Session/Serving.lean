import Ferry.Lib.Net
import Ferry.Session.Transfer

/-! # A pull and the stage that serves it

The side that serves answers every request with batches and a terminator and is
then back where it was, so a pull is a sequence of exchanges with it. What comes
of a pull is a relation between the states of the puller before and after.
-/

namespace Ferry

open Lib Session Net List

section
variable [SessionEnv]

variable {α β : Type} {post : α → β → Prop}

/-! ## Stores that took over blobs -/

/-- `st'` is `st` with some of the blobs of `srv`. -/
structure Store.Grown (st srv st' : Store) : Prop where
  keeps : ∀ kind id b, st.get kind id = .ok b → st'.get kind id = .ok b
  source : ∀ kind id b, st'.get kind id = .ok b → st.get kind id = .ok b ∨ srv.get kind id = .ok b
  present : ∀ kind id, st.present kind id → st'.present kind id
  /-- What is new can be read. -/
  whole : ∀ kind id, st'.present kind id → st.present kind id ∨ (st'.get kind id).isOk

theorem Store.Grown.refl (st srv : Store) : Grown st srv st :=
  ⟨fun _ _ _ h => h, fun _ _ _ h => .inl h, fun _ _ h => h, fun _ _ h => .inl h⟩

theorem Store.Grown.isOk {st srv st' : Store} (h : Grown st srv st') {kind : BlobKind} {id : BlobId}
    (hok : (st.get kind id).isOk) : (st'.get kind id).isOk := by
  cases hget : st.get kind id with
  | error =>
    rw [hget] at hok
    cases hok
  | ok b =>
    rw [h.keeps kind id b hget]
    rfl

theorem Store.Grown.trans {st srv st₁ st₂ : Store} (h₁ : Grown st srv st₁) (h₂ : Grown st₁ srv st₂) :
    Grown st srv st₂ where
  keeps kind id b h := h₂.keeps kind id b (h₁.keeps kind id b h)
  source kind id b h := by
    rcases h₂.source kind id b h with h | h
    · exact h₁.source kind id b h
    · exact .inr h
  present kind id h := h₂.present kind id (h₁.present kind id h)
  whole kind id h := by
    rcases h₂.whole kind id h with h | h
    · exact (h₁.whole kind id h).imp_right h₂.isOk
    · exact .inr h

theorem Store.Grown.withBlob {st srv : Store} {kind : BlobKind} {bytes : Bytes}
    (hsrv : srv.get kind (Env.blake3 bytes) = .ok bytes) (hnew : ¬ st.present kind (Env.blake3 bytes)) :
    Grown st srv (st.withBlob kind bytes) where
  keeps k i b hb := by
    have hne : ¬ (k = kind ∧ i = Env.blake3 bytes) := by
      rintro ⟨rfl, rfl⟩
      exact hnew (st.present_of_get _ _ b hb)
    exact (if_neg hne).trans hb
  source k i b hb := by
    by_cases heq : k = kind ∧ i = Env.blake3 bytes
    · obtain ⟨rfl, rfl⟩ := heq
      have hb' : (Except.ok bytes : Except StoreError Bytes) = .ok b := (if_pos ⟨rfl, rfl⟩).symm.trans hb
      cases hb'
      exact .inr hsrv
    · exact .inl ((if_neg heq).symm.trans hb)
  present k i h := by simp [Store.withBlob, h]
  whole k i h := by
    by_cases heq : k = kind ∧ i = Env.blake3 bytes
    · right
      simp only [Store.withBlob, if_pos heq]
      rfl
    · left
      simpa [Store.withBlob, heq] using h

/-! ## Batches -/

omit [SessionEnv] in
theorem chunksOf_ne_nil {γ : Type} {n : Nat} (hn : 0 < n) {l g : List γ} (h : g ∈ chunksOf n l) :
    g ≠ [] := by
  unfold chunksOf at h
  obtain ⟨i, hi, rfl⟩ := mem_map.1 h
  have hi' : i * n < l.length := by
    have hlt := mem_range.1 hi
    rw [Nat.lt_div_iff_mul_lt hn] at hlt
    have hmul : i * n = n * i := Nat.mul_comm i n
    omega
  intro hnil
  have hlen := congrArg List.length hnil
  simp only [length_take, length_drop, length_nil] at hlen
  omega

/-- No batch is empty. -/
theorem itemBatches_ne_nil {st : Store} {items : List (BlobKind × BlobId)} {acc : ItemBatch} {size : Nat}
    (hsize : acc = [] → size = 0) : ∀ b ∈ itemBatches st items acc size, b ≠ [] := by
  induction items generalizing acc size with
  | nil =>
    intro b hb
    unfold itemBatches at hb
    split at hb
    · simp at hb
    · rw [mem_singleton] at hb
      subst hb
      assumption
  | cons item rest ih =>
    obtain ⟨kind, id⟩ := item
    intro b hb
    unfold itemBatches at hb
    cases hget : st.get kind id with
    | ok =>
      simp only [hget] at hb
      split at hb
      · rcases mem_cons.1 hb with rfl | hb
        · simp
        · exact ih (fun _ => rfl) b hb
      · exact ih (by simp) b hb
    | error =>
      simp only [hget] at hb
      split at hb
      · rename_i hfull
        rcases mem_cons.1 hb with rfl | hb
        · intro hnil
          subst hnil
          rw [hsize rfl] at hfull
          revert hfull
          decide
        · exact ih (fun _ => rfl) b hb
      · exact ih hsize b hb

/-! ## Answers -/

theorem serve_items_runs {srv : Exchange} {req : RequestItems} {p : Session α} {i j : List Frame}
    {m : Net Frame SessionError α Unit} (hf : req.folderId = srv.folderId) (hne : req.items ≠ [])
    (h : Runs ⟨p, (itemBatches srv.store req.items [] 0).forM sendBatch >>=
      fun _ => Dialogue.send terminator >>= fun _ => servePeerStage srv, i, j⟩ m) :
    Runs ⟨p, servePeerStage srv, i, .requestItems req :: j⟩ m := by
  unfold servePeerStage loopOn
  rw [Dialogue.loop_eq]
  apply Runs.recv_right (by rfl)
  rw [serveStep, if_neg hne, serveItems, if_neg (not_not.2 hf)]
  simp only [bind_assoc]
  exact h

end

end Ferry
