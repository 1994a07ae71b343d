import Ferry.Store.Manifest

/-! # The blob store as its clients see it

A store answers `get` by blob kind and id and verifies the content hash before
it returns bytes. How the bytes lie in packs is below this level: a client sees
a partial map whose every answer hashes to the id it was asked for. `put` only
asks whether a pack that should hold the blob is there.
-/

namespace Ferry

inductive StoreError where
  | emptyBlob
  | notFound (kind : BlobKind) (id : BlobId)
  | unreadable (detail : String)
  deriving DecidableEq

section
variable [Env]

structure Store where
  get : BlobKind → BlobId → Except StoreError Bytes
  /-- Some pack that is there, whole or not, is said to hold the blob. -/
  present : BlobKind → BlobId → Bool
  get_hash : ∀ kind id b, get kind id = .ok b → Env.blake3 b = id
  present_of_get : ∀ kind id b, get kind id = .ok b → present kind id

/-- The store after `bytes` became readable under its own hash. -/
def Store.withBlob (s : Store) (kind : BlobKind) (bytes : Bytes) : Store where
  get k id := if k = kind ∧ id = Env.blake3 bytes then .ok bytes else s.get k id
  present k id := (k = kind ∧ id = Env.blake3 bytes) || s.present k id
  get_hash := by
    intro k id b h
    split at h
    · rename_i hk
      cases h
      exact hk.2.symm
    · exact s.get_hash k id b h
  present_of_get := by
    intro k id b h
    split at h
    · rename_i hk
      simp [hk]
    · simp [s.present_of_get k id b h]

/-- `put_blob`: an empty blob is refused, one that a pack is said to hold is not stored again. -/
def Store.putBlob (s : Store) (kind : BlobKind) (bytes : Bytes) :
    Except StoreError (BlobId × Store) :=
  if bytes = [] then .error .emptyBlob
  else if s.present kind (Env.blake3 bytes) then .ok (Env.blake3 bytes, s)
  else .ok (Env.blake3 bytes, s.withBlob kind bytes)

/-- `put_blob` stores the bytes, or leaves it at what a pack is said to hold. -/
theorem Store.putBlob_cases (st : Store) (kind : BlobKind) {bytes : Bytes} (hne : bytes ≠ []) :
    (st.present kind (Env.blake3 bytes) ∧ st.putBlob kind bytes = .ok (Env.blake3 bytes, st)) ∨
      (¬ st.present kind (Env.blake3 bytes) ∧
        st.putBlob kind bytes = .ok (Env.blake3 bytes, st.withBlob kind bytes)) := by
  unfold Store.putBlob
  rw [if_neg hne]
  by_cases h : st.present kind (Env.blake3 bytes) = true
  · exact .inl ⟨h, if_pos h⟩
  · exact .inr ⟨h, if_neg h⟩

end

end Ferry
