import Mathlib.Data.List.AList
import Ferry.Lib.PathTree

/-! # Finite maps from paths

A file system is a finite association of paths with entries. On top of
Mathlib's `AList` this adds what a directory tree needs: the names directly
below a path and the removal of a whole subtree. The second half says when an
update keeps a partial map a tree.
-/

namespace Ferry.Lib

open List Function

variable {κ α : Type}

/-! ## Association lists keyed by paths -/

section
variable [DecidableEq κ]

def eraseTree (d : List κ) (m : AList (fun _ : List κ => α)) : AList (fun _ : List κ => α) :=
  ⟨m.entries.filter (fun e => ¬ d <+: e.1), m.nodupKeys.sublist filter_sublist⟩

theorem lookup_eraseTree (d p : List κ) (m : AList (fun _ : List κ => α)) :
    (eraseTree d m).lookup p = if d <+: p then none else m.lookup p := by
  apply Option.ext
  intro a
  rw [← Option.mem_def, AList.mem_lookup_iff]
  simp only [eraseTree, mem_filter]
  rw [← AList.mem_lookup_iff]
  split <;> simp_all

def namesBelow (d : List κ) (m : AList (fun _ : List κ => α)) : List κ :=
  m.keys.filterMap fun p => if p.dropLast = d then p.getLast? else none

theorem mem_namesBelow {d : List κ} {m : AList (fun _ : List κ => α)} {c : κ} :
    c ∈ namesBelow d m ↔ m.lookup (d ++ [c]) ≠ none := by
  rw [← Option.isSome_iff_ne_none, AList.lookup_isSome]
  simp only [namesBelow, mem_filterMap, Option.ite_none_right_eq_some]
  constructor
  · rintro ⟨p, hp, rfl, hc⟩
    rwa [dropLast_append_getLast? c hc]
  · intro h
    exact ⟨_, h, by simp, by simp⟩

theorem nodup_namesBelow (d : List κ) (m : AList (fun _ : List κ => α)) : (namesBelow d m).Nodup := by
  refine List.Nodup.filterMap ?_ m.keys_nodup
  intro p q c hp hq
  simp only [Option.mem_def, Option.ite_none_right_eq_some] at hp hq
  rw [← dropLast_append_getLast? c hp.2, ← dropLast_append_getLast? c hq.2, hp.1, hq.1]

end

/-! ## Filling an association list -/

/-- Inserting a list without repeated keys: the new entries, and the old ones under other keys. -/
theorem lookup_foldl_insert {ι β : Type} [DecidableEq ι] {f : α → ι} {g : α → β} {l : List α}
    (hl : (l.map f).Nodup) (m : AList (fun _ : ι => β)) {k : ι} {b : β} :
    (l.foldl (fun m a => m.insert (f a) (g a)) m).lookup k = some b ↔
      (∃ a ∈ l, f a = k ∧ g a = b) ∨ ((∀ a ∈ l, f a ≠ k) ∧ m.lookup k = some b) := by
  induction l generalizing m with
  | nil => simp
  | cons a l ih =>
    rw [map_cons, nodup_cons] at hl
    rw [foldl_cons, ih hl.2]
    by_cases hk : f a = k
    · subst hk
      have hne : ∀ x ∈ l, f x ≠ f a := fun x hx heq => hl.1 (mem_map.2 ⟨x, hx, heq⟩)
      simp only [AList.lookup_insert, Option.some.injEq, mem_cons, exists_eq_or_imp, true_and]
      constructor
      · rintro (⟨x, hx, hxk, -⟩ | ⟨-, hb⟩)
        · exact absurd hxk (hne x hx)
        · exact .inl (.inl hb)
      · rintro ((hb | ⟨x, hx, hxk, -⟩) | ⟨hall, -⟩)
        · exact .inr ⟨hne, hb⟩
        · exact absurd hxk (hne x hx)
        · exact absurd rfl (hall a (.inl rfl))
    · rw [AList.lookup_insert_ne (Ne.symm hk)]
      simp [hk]

/-! ## Updates that keep a tree -/

def cut [DecidableEq κ] (d : List κ) (f : List κ → Option α) : List κ → Option α :=
  fun p => if d <+: p then none else f p

variable {isDir : α → Prop} {f : List κ → Option α}

theorem IsTree.dirs_above (h : IsTree isDir f) {parent : List κ} {c : κ}
    (hp : parent = [] ∨ ∃ a, f parent = some a ∧ isDir a) {d : List κ} (hd : d ≠ [])
    (habove : Above d (parent ++ [c])) : ∃ a, f d = some a ∧ isDir a := by
  rcases above_iff_isPrefix.1 habove with ⟨hpre, hne⟩
  have hpar : d <+: parent := by
    rcases prefix_concat_iff.1 (by simpa using hpre) with heq | hpre
    · exact absurd (by simpa using heq) hne
    · exact hpre
  by_cases heq : d = parent
  · subst heq
    exact hp.resolve_left hd
  · rcases hp with rfl | ⟨a, ha, hdir⟩
    · exact absurd (prefix_nil.1 hpar) hd
    · exact h.parent hd (above_iff_isPrefix.2 ⟨hpar, heq⟩) (by simp [ha])

variable [DecidableEq κ]

theorem IsTree.update (h : IsTree isDir f) {p : List κ} {a : α} (hp : p ≠ [])
    (hdirs : ∀ d, d ≠ [] → Above d p → ∃ b, f d = some b ∧ isDir b)
    (hbelow : isDir a ∨ ∀ q, Above p q → f q = none) :
    IsTree isDir (update f p (some a)) := by
  refine ⟨by rw [update_of_ne hp.symm]; exact h.root, ?_⟩
  intro d q hd habove hq
  by_cases hdp : d = p
  · subst hdp
    refine ⟨a, by simp, hbelow.resolve_right fun hnone => ?_⟩
    rw [update_of_ne habove.ne.symm] at hq
    exact hq (hnone q habove)
  rw [update_of_ne hdp]
  by_cases hqp : q = p
  · subst hqp
    exact hdirs d hd habove
  · rw [update_of_ne hqp] at hq
    exact h.parent hd habove hq

theorem IsTree.cut (h : IsTree isDir f) (d : List κ) : IsTree isDir (cut d f) := by
  refine ⟨?_, ?_⟩
  · unfold Lib.cut
    split
    · rfl
    · exact h.root
  · intro e q he habove hq
    unfold Lib.cut at hq ⊢
    split at hq
    · exact absurd rfl hq
    · rename_i hdq
      rw [if_neg fun hde => hdq (hde.trans (above_iff_isPrefix.1 habove).1)]
      exact h.parent he habove hq

end Ferry.Lib
