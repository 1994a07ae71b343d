import Ferry.Materialize.Content
import Ferry.Store.DiffSpec

/-! # The expected tree

What the guard reads of the tree it was given, path by path, and when an entry of
that tree records what stands on disk.
-/

namespace Ferry

open Lib List

/-! ## Joined paths -/

/-- A component that joining keeps apart from its neighbours. -/
def NoSlash (p : CompPath) : Prop := ∀ c ∈ p, '/' ∉ c.toList

variable {p : CompPath}

theorem splitOn_joinPath (h : NoSlash p) (hp : p ≠ []) :
    ((joinPath p).toList.splitOn '/').map String.ofList = p := by
  have hslash : ∀ l ∈ p.map String.toList, '/' ∉ l := by
    intro l hl
    obtain ⟨c, hc, rfl⟩ := mem_map.1 hl
    exact h c hc
  rw [joinPath, String.toList_intercalate]
  show (List.splitOn '/' (['/'].intercalate (p.map String.toList))).map String.ofList = p
  rw [splitOn_intercalate '/' hslash (by simpa using hp)]
  simp

theorem joinPath_inj {q : CompPath} (hp : NoSlash p) (hq : NoSlash q) (hpn : p ≠ []) (hqn : q ≠ [])
    (h : joinPath p = joinPath q) : p = q := by
  rw [← splitOn_joinPath hp hpn, h, splitOn_joinPath hq hqn]

section
variable [Env]

/-! ## Reading the expected tree -/

variable {e : TreeEntry} {st : Store} {id : BlobId} {n : Nat} {node : TreeNode}

/-- `Base` and the diff read a node alike; only their errors differ. -/
theorem baseNode_eq_ok_iff :
    baseNode st id = .ok node ↔ loadNode st id = .ok node := by
  unfold baseNode loadNode
  cases st.get .treeNode id with
  | error => simp
  | ok bytes => cases h : parseTreeNode bytes <;> simp [h]

theorem findEntry_cons_cons {entries : List TreeEntry} {c c' : String} {rest : CompPath} :
    findEntry st entries (c :: c' :: rest) =
      (entries.find? (·.name = c)).bind fun e => e.payload.childTree.bind fun child =>
        entryAt st child (c' :: rest) := by
  simp only [findEntry]
  cases entries.find? (·.name = c) with
  | none => rfl
  | some e =>
    obtain ⟨name, exec, sec, nsec, payload⟩ := e
    cases payload <;> rfl

/-- What the tree at an entry has strictly below it. -/
def entryBelow (st : Store) (e : TreeEntry) (r : CompPath) : Option TreeEntry :=
  e.payload.childTree.bind fun child => entryAt st child r

theorem entryAt_nil (st : Store) (id : BlobId) : entryAt st id [] = none := by
  unfold entryAt
  split <;> rfl

theorem find?_name_eq_some (hv : node.Valid) {c : String} :
    node.entries.find? (·.name = c) = some e ↔ e ∈ node.entries ∧ e.name = c := by
  constructor
  · intro h
    exact ⟨mem_of_find?_eq_some h, by simpa using find?_some h⟩
  · rintro ⟨hmem, rfl⟩
    obtain ⟨e', he'⟩ : ∃ e', node.entries.find? (·.name = e.name) = some e' := by
      rw [← Option.isSome_iff_exists, find?_isSome]
      exact ⟨e, hmem, by simp⟩
    have hname : e'.name = e.name := by simpa using find?_some he'
    have hnodup : (node.entries.map (·.name)).Nodup :=
      (pairwise_map.2 hv.sorted).imp fun h => h.ne
    rw [he', inj_on_of_nodup_map hnodup (mem_of_find?_eq_some he') hmem hname]

/-- An entry of a tree is one of its root node, or lies below one of them. -/
theorem entryAt_eq_some_iff (hl : loadNode st id = .ok node) {r : CompPath} {e' : TreeEntry} :
    entryAt st id r = some e' ↔ ∃ e ∈ node.entries, (r = [e.name] ∧ e' = e) ∨
      ∃ r', r = e.name :: r' ∧ entryBelow st e r' = some e' := by
  have hv := loadNode_valid hl
  have hat : entryAt st id r = findEntry st node.entries r := by simp [entryAt, hl]
  rw [hat]
  rcases r with _ | ⟨c, _ | ⟨c', rest⟩⟩
  · simp [findEntry]
  · simp only [findEntry, find?_name_eq_some hv]
    constructor
    · rintro ⟨hmem, rfl⟩
      exact ⟨e', hmem, .inl ⟨rfl, rfl⟩⟩
    · rintro ⟨e, hmem, ⟨hc, rfl⟩ | ⟨r', hr, hbelow⟩⟩
      · exact ⟨hmem, by simpa [eq_comm] using hc⟩
      · obtain ⟨rfl, rfl⟩ : c = e.name ∧ r' = [] := by simpa [eq_comm] using hr
        cases hp : e.payload <;> simp [entryBelow, entryAt_nil] at hbelow
  · rw [findEntry_cons_cons]
    constructor
    · intro h
      obtain ⟨e, hf, hbelow⟩ := Option.bind_eq_some_iff.1 h
      obtain ⟨hmem, rfl⟩ := (find?_name_eq_some hv).1 hf
      exact ⟨e, hmem, .inr ⟨c' :: rest, rfl, hbelow⟩⟩
    · rintro ⟨e, hmem, ⟨hc, -⟩ | ⟨r', hr, hbelow⟩⟩
      · simp at hc
      · obtain ⟨rfl, rfl⟩ : c = e.name ∧ c' :: rest = r' := by simpa using hr
        rw [(find?_name_eq_some hv).2 ⟨hmem, rfl⟩]
        exact hbelow

/-- A lookup may be cut at any entry on its way. -/
theorem entryAt_append {r : CompPath}
    (h : entryAt st id p = some e) (hr : r ≠ []) : entryAt st id (p ++ r) = entryBelow st e r := by
  induction p generalizing id with
  | nil => simp [entryAt_nil] at h
  | cons c p ih =>
    cases hl : loadNode st id with
    | error => simp [entryAt, hl] at h
    | ok node =>
      have hat : ∀ q, entryAt st id q = findEntry st node.entries q := fun q => by
        simp [entryAt, hl]
      obtain ⟨c', rest, hcr⟩ : ∃ c' rest, p ++ r = c' :: rest := by
        cases hpr : p ++ r with
        | nil => exact absurd (append_eq_nil_iff.1 hpr).2 hr
        | cons c' rest => exact ⟨c', rest, rfl⟩
      rw [hat] at h
      rw [hat, cons_append, hcr, findEntry_cons_cons, ← hcr]
      cases p with
      | nil =>
        have hf : node.entries.find? (·.name = c) = some e := h
        rw [hf]
        rfl
      | cons =>
        rw [findEntry_cons_cons] at h
        obtain ⟨e₁, hf, hbelow⟩ := Option.bind_eq_some_iff.1 h
        obtain ⟨child, hchild, hat'⟩ := Option.bind_eq_some_iff.1 hbelow
        rw [hf, Option.bind_some, hchild]
        exact ih hat'

theorem storedPath_of_entryAt (h : entryAt st id p = some e) : StoredPath p := by
  intro c hc
  obtain ⟨-, h₁, h₂, h₃, hnfc⟩ := validateName_ok (entryAt_names h c hc)
  exact ⟨hnfc, h₁, h₂, h₃⟩

theorem noSlash_of_entryAt (h : entryAt st id p = some e) : NoSlash p := fun c hc =>
  (validateName_ok (entryAt_names h c hc)).1

/-! ## Entries against the disk -/

/-- The entry records what is seen, times aside. -/
def MatchesEntry (st : Store) (e : TreeEntry) (x : Seen) : Prop :=
  ∃ y, see st (.of e) = some y ∧ Settled (some x) y

theorem MatchesEntry.kind {i : Inode} (h : MatchesEntry st e i.seen) :
    i.kind = (ExpectedState.of e).kind := by
  obtain ⟨y, hsee, hset⟩ := h
  cases hp : e.payload with
  | dir =>
    simp only [see, EntryState.of, hp, EntryKind.fromPayload, Option.some.injEq] at hsee
    subst hsee
    cases i <;> simp_all [Settled, Inode.kind, ExpectedState.of, EntryKind.fromPayload]
  | symlink =>
    simp only [see, EntryState.of, hp, EntryKind.fromPayload, Option.some.injEq] at hsee
    subst hsee
    cases i <;> simp_all [Settled, Inode.seen, Inode.kind, ExpectedState.of, EntryKind.fromPayload]
  | file =>
    simp only [EntryState.of, hp] at hsee
    obtain ⟨b, -, rfl⟩ := Option.map_eq_some_iff.1 hsee
    cases i <;> simp_all [Settled, Inode.seen, Inode.kind, ExpectedState.of, EntryKind.fromPayload]

omit [Env] in
theorem Disk.mem_below {d : Disk} {q sub : CompPath} :
    sub ∈ d.below q ↔ sub ≠ [] ∧ d.get (q ++ sub) ≠ none := by
  unfold Disk.below
  rw [mem_map]
  constructor
  · rintro ⟨p, hp, rfl⟩
    rw [mem_filter] at hp
    obtain ⟨c, r, rfl⟩ : Above q p := by simpa using hp.2
    refine ⟨by simp, ?_⟩
    rw [drop_left]
    exact fun hnone => AList.lookup_eq_none.1 hnone hp.1
  · rintro ⟨hne, hget⟩
    refine ⟨q ++ sub, ?_, by simp⟩
    rw [mem_filter]
    refine ⟨?_, by simpa using above_append hne⟩
    by_contra hmem
    exact hget (AList.lookup_eq_none.2 hmem)

end

end Ferry
