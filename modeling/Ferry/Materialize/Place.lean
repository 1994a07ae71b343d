import Ferry.Disk.Frame
import Ferry.Materialize.ReadOnly

/-! # Acts at a place to which no link leads

What the steps of an act do to the disk and to the remembered listings, as one
specification for each step. A step that fails leaves everything as it was, except
that a temporary entry may have changed the time of its directory.
-/

namespace Ferry

open Lib List Function

/-- A file or link stands at the path. -/
def Disk.LeafAt (d : Disk) (q : CompPath) : Prop := d.get q ≠ none ∧ d.get q ≠ some .dir

instance (d : Disk) (q : CompPath) : Decidable (d.LeafAt q) := inferInstanceAs (Decidable (_ ∧ _))

section
variable [Env]

/-- The entry at `abs` is gone, with everything below it, and taken out of the listings. -/
def Exec.without (s : Exec) (abs : CompPath) (deep : Bool) : Exec :=
  { s with disk := s.disk.removeTree abs, fold := s.fold.noteRemoved abs deep }

/-- What `clearDir` leaves. -/
def Cleared (abs : CompPath) (s s₁ : Exec) : Prop :=
  (s₁ = s ∧ s.disk.get abs ≠ some .dir) ∨ (s₁ = s.without abs true ∧ s.disk.get abs = some .dir)

/-- What a removal leaves that does not fail. -/
def Removal (rm : PlannedRemove) (abs : CompPath) (s s₁ : Exec) : Prop :=
  s₁ = s ∨ ∃ md : Inode, s.disk.get abs = some md ∧ (md = .dir → rm.deep = true ∨ s.disk.names abs = []) ∧
    s₁ = s.without abs (rm.deep || decide (md = .dir))

section
variable {ap : Applier} {s : Exec} {abs : CompPath} {fold : FoldCache}

theorem Cleared.noLink {s₁ : Exec} (h : Cleared abs s s₁) (hno : s.disk.NoLink abs) : s₁.disk.NoLink abs := by
  rcases h with ⟨rfl, -⟩ | ⟨rfl, -⟩
  · exact hno
  · exact (Disk.acted_removeTree abs s.disk).noLink le_rfl hno

theorem Cleared.get_eq_none {s₁ : Exec} (h : Cleared abs s s₁) {q : CompPath} (hq : s.disk.get q = none) :
    s₁.disk.get q = none := by
  rcases h with ⟨rfl, -⟩ | ⟨rfl, -⟩
  · exact hq
  · show (s.disk.removeTree abs).get q = none
    rw [Disk.get_removeTree, cut]
    split
    · rfl
    · exact hq

section
variable (hne : abs ≠ []) (hplain : PlainPath abs) (hno : s.disk.NoLink abs)
include hne hplain hno

omit [Env] in
theorem triple_removeDirChildrenFirst : Triple (· = s) (removeDirChildrenFirst abs)
    (fun _ s' => s' = { s with disk := s.disk.removeTree abs }) (fun _ s' => s' = s) := by
  refine Triple.bind (Q := fun r s' => s' = s ∧ r = abs) (triple_look ?_) fun r => .of_fact fun hr => ?_
  · rintro _ rfl r hr
    exact ⟨rfl, Disk.locate_self hne hplain hno hr⟩
  · subst hr
    rintro _ rfl
    rfl

omit [Env] in
theorem triple_removeFile : Triple (· = s) (change abs (·.removeFile abs))
    (fun _ s' => s' = { s with disk := s.disk.removeTree abs }) (fun _ s' => s' = s) := by
  refine triple_change ?_ fun _ h _ => h
  rintro _ rfl d hd
  rw [Disk.removeFile_self hne hplain hno hd]

theorem triple_clearDir : Triple (· = s) (clearDir abs) (fun _ => Cleared abs s) (fun _ s' => s' = s) := by
  refine Triple.get_bind fun s' hs => ?_
  subst hs
  split
  · rename_i hmd
    have hget := (Disk.symlinkMetadata_eq_ok hne hplain hno).1 hmd
    refine Triple.bind (triple_removeDirChildrenFirst hne hplain hno) fun _ => Triple.modify fun _ h => ?_
    exact .inr ⟨by rw [h]; rfl, hget⟩
  · rename_i hmd
    refine Triple.pure fun _ h => .inl ⟨h, fun hget => ?_⟩
    exact hmd ((Disk.symlinkMetadata_eq_ok hne hplain hno).2 hget)

theorem triple_clearLeaf : Triple (· = s) (clearLeaf abs)
    (fun _ s' => s' = s ∨ (s' = s.without abs false ∧ s.disk.LeafAt abs)) (fun _ s' => s' = s) := by
  refine Triple.get_bind fun s' hs => ?_
  subst hs
  split
  · exact Triple.pure fun _ h => .inl h
  · exact Triple.throw fun _ h => h
  · exact Triple.pure fun _ h => .inl h
  · rename_i md hnot hmd
    have hget := (Disk.symlinkMetadata_eq_ok hne hplain hno).1 hmd
    refine Triple.bind (triple_removeFile hne hplain hno) fun _ => Triple.modify fun _ h => .inr ⟨by rw [h]; rfl, ?_⟩
    exact ⟨by simp [hget], fun hdir => hnot (Option.some.inj (hget.symm.trans hdir))⟩

omit [Env] in
theorem triple_ensureDir : Triple (· = s) (ensureDir abs)
    (fun _ s' => (s' = s ∧ s.disk.get abs ≠ none) ∨
      (s.disk.get abs = none ∧ ∃ h, s' = { s with disk := s.disk.place abs .dir h })) (fun _ s' => s' = s) := by
  refine triple_change ?_ fun _ h _ => h
  rintro _ rfl d hd
  split at hd
  · rename_i hexists
    cases hd
    exact .inl ⟨rfl, Disk.createDir_exists hne hplain hno hexists⟩
  · obtain ⟨hnone, hcan, rfl⟩ := Disk.createDir_self hne hplain hno hd
    exact .inr ⟨hnone, hcan, rfl⟩

/-- With the temporary name free, what is written stands at the place, or nothing has changed there. -/
theorem triple_place {rel : CompPath} (htemp : s.disk.get (tempPath abs rel) = none) {Ok : Inode → Prop}
    {m : ExecM Unit} (hm : s.disk.Vacant (tempPath abs rel) → Triple (· = s) m
      (fun _ s' => ∃ i d, Ok i ∧ s.disk.renameOnto abs i = .ok d ∧ s' = { s with disk := d })
      (fun _ s' => ∃ d : Disk, d.inodes = s.disk.inodes ∧ s' = { s with disk := d })) :
    Triple (· = s) m
      (fun _ s' => s.disk.get abs ≠ some .dir ∧ ∃ i h, Ok i ∧ s' = { s with disk := s.disk.place abs i h })
      (fun _ s' => ∃ d : Disk, d.inodes = s.disk.inodes ∧ s' = { s with disk := d }) := by
  refine (hm fun q hq => ?_).weaken (fun _ h => h) ?_ fun _ _ h => h
  · rw [Disk.locate_beside hne hplain hno hq]
    exact htemp
  · rintro _ s' ⟨i, d, hok, hon, rfl⟩
    obtain ⟨hdir, hcan, rfl⟩ := Disk.renameOnto_self hne hplain hno hon
    exact ⟨hdir, i, hcan, hok, rfl⟩

end

theorem resolve_eq_ok {p : CompPath} (hres : resolveFrom .refuse s.disk ap.target p s.fold = .ok (abs, fold)) :
    ap.resolve s p = .ok abs := by
  rw [Applier.resolve, hres]
  rfl

/-- An act whose path does not resolve has done nothing. -/
theorem triple_of_resolved {p : CompPath} {f : CompPath → ExecM Unit} {Q : PUnit → Exec → Prop}
    {X : MaterializeError → Exec → Prop} (herror : ∀ e, X e s)
    (h : ∀ abs fold, resolveFrom .refuse s.disk ap.target p s.fold = .ok (abs, fold) →
      Triple (· = s) (ap.abs p >>= f) Q X) : Triple (· = s) (ap.abs p >>= f) Q X := by
  cases hres : resolveFrom .refuse s.disk ap.target p s.fold with
  | error e => exact triple_resolve_bind (fun e _ => herror e) fun _ _ h => by cases hres.symm.trans h
  | ok r => exact h r.1 r.2 hres

/-- A removal, at the place that its path leads to. -/
theorem triple_executeRemove {rm : PlannedRemove}
    (hres : resolveFrom .refuse s.disk ap.target rm.path s.fold = .ok (abs, fold)) (hne : abs ≠ [])
    (hplain : PlainPath abs) (hno : s.disk.NoLink abs) :
    Triple (· = s) (ap.executeRemove rm)
      (fun _ => Removal rm abs { s with fold := fold }) (fun _ s' => s' = { s with fold := fold }) := by
  refine triple_resolve_bind (fun e h => by cases hres.symm.trans h) fun abs' fold' h => ?_
  cases hres.symm.trans h
  refine Triple.get_bind fun s' hs => ?_
  subst hs
  dsimp only
  split
  · exact Triple.pure fun _ h => .inl h
  · exact Triple.throw fun _ h => h
  rename_i md hmd
  have hget := (Disk.symlinkMetadata_eq_ok hne hplain hno).1 hmd
  have hgone : ∀ {m : ExecM Unit}, (md = .dir → rm.deep = true ∨ s.disk.names abs = []) →
      Triple (· = { s with fold := fold }) m (fun _ s' => s' = { s with fold := fold, disk := s.disk.removeTree abs })
        (fun _ s' => s' = { s with fold := fold }) →
      Triple (· = { s with fold := fold }) (m >>= fun _ => noteRemoved abs (rm.deep || decide (md = .dir)))
        (fun _ => Removal rm abs { s with fold := fold }) fun _ s' => s' = { s with fold := fold } :=
    fun hempty hm => Triple.bind hm fun _ => Triple.modify fun _ h => .inr ⟨md, hget, hempty, by rw [h]; rfl⟩
  split
  · split
    · rename_i hdeep
      exact hgone (fun _ => .inl hdeep) (triple_removeDirChildrenFirst (s := { s with fold := fold }) hne hplain hno)
    · by_cases hempty : s.disk.names abs = []
      · refine hgone (fun _ => .inr hempty) (triple_change ?_ fun _ h _ => h)
        rintro _ rfl d hd
        rw [(Disk.removeDir_self hne hplain hno hd).1]
      · refine Triple.bind (Q := fun _ _ => False) (triple_change ?_ fun _ h _ => h) fun _ _ h => h.elim
        rintro _ rfl d hd
        exact hempty (Disk.removeDir_self hne hplain hno hd).2
  · rename_i hdir
    exact hgone (fun h => absurd h hdir) (triple_removeFile (s := { s with fold := fold }) hne hplain hno)

end

end

end Ferry
