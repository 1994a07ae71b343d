import Ferry.Lib.Except
import Ferry.Store.Diff

/-! # The diff on two devices

Two stores that never hold different bytes under one id give the same diff of
two trees, whenever both can read them. One of them may hold more than the other,
and may have been given more fuel.
-/

namespace Ferry

open Lib

section
variable [Env]

/-- No id has different bytes in the two stores. -/
def Store.Agrees (st₁ st₂ : Store) : Prop :=
  ∀ kind id b₁ b₂, st₁.get kind id = .ok b₁ → st₂.get kind id = .ok b₂ → b₁ = b₂

theorem Store.Agrees.refl (st : Store) : st.Agrees st := by
  intro kind id b₁ b₂ h₁ h₂
  rw [h₁] at h₂
  exact Except.ok.inj h₂

def DiffCall.Agrees (call₁ call₂ : DiffCall) : Prop :=
  ∀ older newer pre out, Agree (call₁ older newer pre out) (call₂ older newer pre out)

variable {st₁ st₂ : Store}

theorem Store.Agrees.loadNode (h : st₁.Agrees st₂) (id : BlobId) :
    Agree (loadNode st₁ id) (loadNode st₂ id) := by
  unfold Ferry.loadNode
  cases h₁ : st₁.get .treeNode id with
  | error => exact .error_left _ _
  | ok =>
    cases h₂ : st₂.get .treeNode id with
    | error => exact .error_right _ _
    | ok =>
      rw [h _ _ _ _ h₁ h₂]
      exact .refl _

theorem Store.Agrees.loadEntries (h : st₁.Agrees st₂) (id : Option BlobId) :
    Agree (loadEntries st₁ id) (loadEntries st₂ id) := by
  cases id with
  | none => exact .refl _
  | some id => exact (h.loadNode id).bind fun _ => .refl _

section
variable {call₁ call₂ : DiffCall} (h : call₁.Agrees call₂)
include h

omit [Env] in
theorem DiffCall.Agrees.flattenAddedEntry (e : TreeEntry) (pre : CompPath) (out : ChangeSet) :
    Agree (flattenAddedEntry call₁ e pre out) (flattenAddedEntry call₂ e pre out) := by
  unfold Ferry.flattenAddedEntry
  cases e.payload with
  | dir => exact h _ _ _ _
  | file | symlink => exact .refl _

omit [Env] in
theorem DiffCall.Agrees.flattenRemovedEntry (e : TreeEntry) (pre : CompPath) (out : ChangeSet) :
    Agree (flattenRemovedEntry call₁ e pre out) (flattenRemovedEntry call₂ e pre out) := by
  unfold Ferry.flattenRemovedEntry
  cases e.payload with
  | dir => exact h _ _ _ _
  | file | symlink => exact .refl _

omit [Env] in
theorem DiffCall.Agrees.compareEntry (ea eb : TreeEntry) (pre : CompPath) (out : ChangeSet) :
    Agree (compareEntry call₁ ea eb pre out) (compareEntry call₂ ea eb pre out) := by
  unfold Ferry.compareEntry
  dsimp only
  split
  · split
    · exact h _ _ _ _
    · exact .refl _
  · exact .refl _
  · exact .refl _
  · exact .refl _

omit [Env] in
theorem DiffCall.Agrees.diffNodes (pre : CompPath) (rounds : Nat) (as bs : List TreeEntry) (out : ChangeSet) :
    Agree (diffNodes call₁ pre rounds as bs out) (diffNodes call₂ pre rounds as bs out) := by
  induction rounds generalizing as bs out with
  | zero => exact .refl _
  | succ rounds ih =>
    cases as with
    | nil =>
      cases bs with
      | nil => exact .refl _
      | cons eb bs => exact (h.flattenAddedEntry eb pre out).bind fun out => ih [] bs out
    | cons ea as =>
      cases bs with
      | nil => exact (h.flattenRemovedEntry ea pre out).bind fun out => ih as [] out
      | cons eb bs =>
        rw [Ferry.diffNodes, Ferry.diffNodes]
        split
        · exact (h.flattenRemovedEntry ea pre out).bind fun out => ih as (eb :: bs) out
        · split
          · exact (h.flattenAddedEntry eb pre out).bind fun out => ih (ea :: as) bs out
          · exact (h.compareEntry ea eb pre out).bind fun out => ih as bs out

end

theorem diffTreeIds_agrees (h : st₁.Agrees st₂) (fuel₁ fuel₂ : Nat) :
    DiffCall.Agrees (diffTreeIds st₁ fuel₁) (diffTreeIds st₂ fuel₂) := by
  induction fuel₁ generalizing fuel₂ with
  | zero => exact fun _ _ _ _ => .error_left _ _
  | succ fuel₁ ih =>
    cases fuel₂ with
    | zero => exact fun _ _ _ _ => .error_right _ _
    | succ fuel₂ =>
      intro older newer pre out
      rw [diffTreeIds, diffTreeIds]
      split
      · exact .refl _
      · exact (h.loadEntries older).bind fun ta => (h.loadEntries newer).bind fun tb =>
          (ih fuel₂).diffNodes pre _ ta tb out

theorem diffRoots_agree (h : st₁.Agrees st₂) (fuel₁ fuel₂ : Nat) (older newer : BlobId) :
    Agree (diffRoots st₁ fuel₁ older newer) (diffRoots st₂ fuel₂ older newer) :=
  (diffTreeIds_agrees h fuel₁ fuel₂ _ _ _ _).bind fun _ => .refl _

end

end Ferry
