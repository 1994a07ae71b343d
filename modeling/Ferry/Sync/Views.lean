import Ferry.Materialize.Guard
import Ferry.Sync.Reconcile

/-! # What the decision loop sees

Over three readings of a tree, the base and one for each side, every path gets
the three states the loop decides on. A side whose diff does not list a path
counts as unchanged there, also below a split, where its tree differs from the
base without being listed.
-/

namespace Ferry

open Lib List

/-- A reading of a tree: the state of every path. -/
abbrev Tree := CompPath → Option EntryState

/-- Every path of the tree can be told from its joined form. -/
def Slashless (f : Tree) : Prop := ∀ p, f p ≠ none → NoSlash p

/-- The diff of the two readings lists the path. -/
def Lists (B S : Tree) (p : CompPath) : Prop := classify (B p) (S p) ≠ none ∧ ¬ Hidden B S p

variable {p : CompPath}

theorem Lists.ne_none {B S : Tree} (h : Lists B S p) : B p ≠ none ∨ S p ≠ none := by
  by_contra hnone
  simp only [not_or, not_not] at hnone
  exact h.1 (by rw [hnone.1, hnone.2]; rfl)

theorem Lists.ne {B S : Tree} (h : Lists B S p) : S p ≠ B p := by
  intro heq
  exact h.1 (by rw [heq, classify_self])

open Classical in
/-- The state the loop takes a side to have at a path. -/
noncomputable def sideAt (B S : Tree) (p : CompPath) : Option EntryState :=
  if Lists B S p then S p else B p

theorem sideAt_of_lists {B S : Tree} (h : Lists B S p) : sideAt B S p = S p := if_pos h

theorem sideAt_of_not_lists {B S : Tree} (h : ¬ Lists B S p) : sideAt B S p = B p :=
  if_neg h

theorem sideAt_ne_iff {B S : Tree} : sideAt B S p ≠ B p ↔ Lists B S p := by
  by_cases h : Lists B S p
  · rw [sideAt_of_lists h]
    exact iff_of_true h.ne h
  · rw [sideAt_of_not_lists h]
    simp [h]

/-! ## The index of a change set -/

def Change.insertInto (map : ViewMap) (c : Change) : ViewMap :=
  map.insert (joinPath c.path) (c.path, ⟨c.before, c.after⟩)

theorem indexChangeSet_eq (cs : ChangeSet) :
    indexChangeSet cs = cs.changes.foldl Change.insertInto ∅ := by
  simp only [indexChangeSet, ChangeSet.changes, foldl_append, foldl_map]
  rfl

section
variable {B S : Tree} {cs : ChangeSet}

theorem Exact.lists_of_mem (h : Exact B S [] cs) {c : Change} (hc : c ∈ cs.changes) :
    Lists B S c.path ∧ c.before = B c.path ∧ c.after = S c.path := by
  obtain ⟨tag, p, b, a⟩ := c
  obtain ⟨rfl, rfl, hcl, hh⟩ := h.mem_iff.1 hc
  exact ⟨⟨by simp [hcl], hh⟩, rfl, rfl⟩

theorem Exact.mem_of_lists (h : Exact B S [] cs) (hp : Lists B S p) :
    ∃ tag, ⟨tag, p, B p, S p⟩ ∈ cs.changes := by
  obtain ⟨tag, htag⟩ := Option.ne_none_iff_exists'.1 hp.1
  exact ⟨tag, h.mem_iff.2 ⟨rfl, rfl, htag, hp.2⟩⟩

variable (hB : IsTree EntryState.IsDir B) (hS : IsTree EntryState.IsDir S)
  (hBs : Slashless B) (hSs : Slashless S)
include hB hS hBs hSs

omit hB hS in
theorem Lists.noSlash (h : Lists B S p) : NoSlash p := h.ne_none.elim (hBs p) (hSs p)

omit hBs hSs in
theorem Lists.ne_nil (h : Lists B S p) : p ≠ [] := by
  rintro rfl
  exact h.ne_none.elim (fun hb => hb hB.root) (fun hs => hs hS.root)

theorem Exact.keys_nodup (h : Exact B S [] cs) : (cs.changes.map fun c => joinPath c.path).Nodup := by
  have hcomp : cs.changes.map (fun c => joinPath c.path) = (cs.changes.map (·.path)).map joinPath := by
    simp
  rw [hcomp]
  refine h.nodup.map_on ?_
  intro p hp q hq heq
  obtain ⟨c, hc, rfl⟩ := mem_map.1 hp
  obtain ⟨c', hc', rfl⟩ := mem_map.1 hq
  have hc := (h.lists_of_mem hc).1
  have hc' := (h.lists_of_mem hc').1
  exact joinPath_inj (hc.noSlash hBs hSs) (hc'.noSlash hBs hSs) (hc.ne_nil hB hS)
    (hc'.ne_nil hB hS) heq

theorem Exact.lookup_index (h : Exact B S [] cs) {k : String} {v : CompPath × SideView} :
    (indexChangeSet cs).lookup k = some v ↔ ∃ p, Lists B S p ∧ joinPath p = k ∧ v = (p, ⟨B p, S p⟩) := by
  rw [indexChangeSet_eq]
  have hfill := lookup_foldl_insert (g := fun c : Change => (c.path, SideView.mk c.before c.after))
    (h.keys_nodup hB hS hBs hSs) (∅ : ViewMap) (k := k) (b := v)
  refine Iff.trans hfill ?_
  constructor
  · rintro (⟨c, hc, hk, rfl⟩ | ⟨-, hnone⟩)
    · obtain ⟨hl, hb, ha⟩ := h.lists_of_mem hc
      exact ⟨c.path, hl, hk, by rw [hb, ha]⟩
    · simp at hnone
  · rintro ⟨p, hp, rfl, rfl⟩
    obtain ⟨tag, hc⟩ := h.mem_of_lists hp
    exact .inl ⟨_, hc, rfl, rfl⟩

end

end Ferry
