import Ferry.Lib.PathTree
import Ferry.Store.Diff

/-! # Flattened trees

`flat st id` is the map from every path of the tree rooted at `id` to its
`EntryState`. It is computed along the path, one node for each component, and
is the reading of a tree that every later statement is about.
-/

namespace Ferry

open Lib List

def EntryState.IsDir (s : EntryState) : Prop := s.kind = .dir

instance (s : EntryState) : Decidable s.IsDir := inferInstanceAs (Decidable (_ = _))

section
variable [Env]

def findEntry (st : Store) : List TreeEntry → CompPath → Option TreeEntry
  | _, [] => none
  | entries, [c] => entries.find? (·.name = c)
  | entries, c :: c' :: rest =>
    match entries.find? (·.name = c) with
    | some ⟨_, _, _, _, .dir child⟩ =>
      match loadNode st child with
      | .ok node => findEntry st node.entries (c' :: rest)
      | .error _ => none
    | _ => none

/-- The entry at `path` of the tree rooted at `id`. -/
def entryAt (st : Store) (id : BlobId) (path : CompPath) : Option TreeEntry :=
  match loadNode st id with
  | .ok node => findEntry st node.entries path
  | .error _ => none

/-- The flattened reading of a list of siblings. -/
def flatEntries (st : Store) (entries : List TreeEntry) (path : CompPath) : Option EntryState :=
  (findEntry st entries path).map .of

/-- `flat(T)`: the state at every path of the tree rooted at `id`. -/
def flat (st : Store) (id : BlobId) (path : CompPath) : Option EntryState :=
  (entryAt st id path).map .of

/-- An optional root; no root is the tree without entries. -/
def flatOpt (st : Store) : Option BlobId → CompPath → Option EntryState
  | none, _ => none
  | some id, path => flat st id path

variable {st : Store} {node : TreeNode}

theorem flat_eq_flatEntries {id : BlobId}
    (h : loadNode st id = .ok node) : flat st id = flatEntries st node.entries := by
  funext path
  simp [flat, entryAt, h, flatEntries]

@[simp] theorem flatEntries_nil_path (st : Store) (entries : List TreeEntry) :
    flatEntries st entries [] = none := by
  simp [flatEntries, findEntry]

@[simp] theorem flatEntries_nil (st : Store) (path : CompPath) : flatEntries st [] path = none := by
  rcases path with _ | ⟨c, _ | ⟨c', rest⟩⟩ <;> simp [flatEntries, findEntry]

def flatBelow (st : Store) : EntryPayload → CompPath → Option EntryState
  | .dir child, path => flat st child path
  | _, _ => none

def flatEntry (st : Store) (e : TreeEntry) : CompPath → Option EntryState
  | [] => some (.of e)
  | rest => flatBelow st e.payload rest

theorem flatEntries_cons (st : Store) (entries : List TreeEntry) (c : String) (rest : CompPath) :
    flatEntries st entries (c :: rest) =
      (entries.find? (·.name = c)).bind (fun e => flatEntry st e rest) := by
  cases rest with
  | nil =>
    simp only [flatEntries, findEntry]
    cases entries.find? (·.name = c) <;> rfl
  | cons =>
    simp only [flatEntries, findEntry, flatEntry]
    cases hf : entries.find? (·.name = c) with
    | none => rfl
    | some e =>
      obtain ⟨name, exec, sec, nsec, payload⟩ := e
      cases payload with
      | file | symlink => rfl
      | dir =>
        simp only [Option.bind_some, flatBelow, flat, entryAt]

/-! ## The reading of a tree is a tree -/

/-- The flat view of a node is a tree: what lies below something lies below a directory. -/
theorem flatEntries_isTree (st : Store) (entries : List TreeEntry) :
    IsTree EntryState.IsDir (flatEntries st entries) := by
  refine ⟨flatEntries_nil_path st entries, ?_⟩
  intro d p hd habove hsome
  induction d generalizing entries p with
  | nil => exact absurd rfl hd
  | cons c d ih =>
    obtain ⟨c', r, rfl⟩ := habove
    rw [cons_append, flatEntries_cons] at hsome
    cases hf : entries.find? (·.name = c) with
    | none => simp [hf] at hsome
    | some e =>
      simp only [hf, Option.bind_some] at hsome
      cases hp : e.payload with
      | file | symlink => cases d <;> simp [flatEntry, flatBelow, hp] at hsome
      | dir child =>
        cases d with
        | nil =>
          refine ⟨.of e, ?_, by simp [EntryState.IsDir, EntryState.of, hp, EntryKind.fromPayload]⟩
          simp [flatEntries_cons, hf, flatEntry]
        | cons c₁ d =>
          cases hl : loadNode st child with
          | error => simp [flatEntry, flatBelow, hp, flat, entryAt, hl] at hsome
          | ok node =>
            have hsome' : flatEntries st node.entries (c₁ :: d ++ c' :: r) ≠ none := by
              rw [← flat_eq_flatEntries hl]
              simpa [flatEntry, flatBelow, hp] using hsome
            obtain ⟨a, ha, hdir⟩ :=
              ih node.entries (by simp) ⟨c', r, rfl⟩ hsome'
            refine ⟨a, ?_, hdir⟩
            rw [flatEntries_cons, hf]
            simpa [flatEntry, flatBelow, hp, flat_eq_flatEntries hl] using ha

theorem flat_isTree (st : Store) (id : BlobId) : IsTree EntryState.IsDir (flat st id) := by
  cases hl : loadNode st id with
  | error =>
    refine ⟨by simp [flat, entryAt, hl], ?_⟩
    intro d p _ _ hsome
    simp [flat, entryAt, hl] at hsome
  | ok node =>
    rw [flat_eq_flatEntries hl]
    exact flatEntries_isTree st node.entries

/-! ## Finite, fully present trees -/

/-- Every node of the tree rooted at `id` is present and parses, and the tree
has at most `n` levels. A hash-addressed tree cannot contain itself, so a fully
present tree has such a bound. -/
def LoadsWithin (st : Store) : Nat → BlobId → Prop
  | 0, _ => False
  | n + 1, id => ∃ node, loadNode st id = .ok node ∧
      ∀ e ∈ node.entries, ∀ child, e.payload = .dir child → LoadsWithin st n child

def EntryPayload.childTree : EntryPayload → Option BlobId
  | .dir child => some child
  | _ => none

omit [Env] in
theorem EntryPayload.childTree_eq_some {p : EntryPayload} {child : BlobId} :
    p.childTree = some child ↔ p = .dir child := by
  cases p <;> simp [childTree]

def TreeNode.children (node : TreeNode) : List BlobId :=
  node.entries.filterMap fun e => e.payload.childTree

omit [Env] in
theorem TreeNode.mem_children {child : BlobId} :
    child ∈ node.children ↔ ∃ e ∈ node.entries, e.payload = .dir child := by
  simp [children, EntryPayload.childTree_eq_some]

instance decidableLoadsWithin (st : Store) : ∀ n id, Decidable (LoadsWithin st n id)
  | 0, _ => isFalse id
  | n + 1, id =>
    have := decidableLoadsWithin st n
    match h : loadNode st id with
    | .error e => isFalse (by rintro ⟨node, hl, -⟩; simp [h] at hl)
    | .ok node =>
      decidable_of_iff (∀ child ∈ node.children, LoadsWithin st n child) <| by
        simp only [TreeNode.mem_children, LoadsWithin, h, Except.ok.injEq, exists_eq_left']
        exact ⟨fun hall e he child hp => hall child ⟨e, he, hp⟩,
          fun hall child ⟨e, he, hp⟩ => hall e he child hp⟩

theorem loadNode_valid {id : BlobId} (h : loadNode st id = .ok node) : node.Valid := by
  unfold loadNode at h
  split at h
  · cases h
  split at h
  · cases h
  · rename_i hparse
    cases h
    exact parseTreeNode_valid hparse

theorem entryAt_valid {id : BlobId} {path : CompPath} {e : TreeEntry}
    (h : entryAt st id path = some e) : e.Valid := by
  induction path generalizing id with
  | nil =>
    unfold entryAt at h
    split at h <;> simp [findEntry] at h
  | cons c rest ih =>
    unfold entryAt at h
    split at h
    · rename_i node hl
      cases rest with
      | nil =>
        exact (loadNode_valid hl).entry e (mem_of_find?_eq_some (by simpa [findEntry] using h))
      | cons =>
        simp only [findEntry] at h
        split at h
        · rename_i child hf
          exact ih (by simpa [entryAt] using h)
        · cases h
    · cases h

theorem entryAt_names {id : BlobId} {path : CompPath} {e : TreeEntry}
    (h : entryAt st id path = some e) : ∀ c ∈ path, validateName c = .ok () := by
  induction path generalizing id with
  | nil => simp
  | cons c rest ih =>
    unfold entryAt at h
    split at h
    · rename_i node hl
      have hname : ∀ e', node.entries.find? (·.name = c) = some e' → validateName c = .ok () := by
        intro e' hf
        have hmem := mem_of_find?_eq_some hf
        have hc : e'.name = c := by simpa using find?_some hf
        exact hc ▸ ((loadNode_valid hl).entry e' hmem).name
      cases rest with
      | nil => simpa using hname e (by simpa [findEntry] using h)
      | cons =>
        simp only [findEntry] at h
        split at h
        · rename_i hf
          intro x hx
          rcases mem_cons.1 hx with rfl | hx
          · exact hname _ hf
          · exact ih (by simpa [entryAt] using h) x hx
        · cases h
    · cases h

end

end Ferry
