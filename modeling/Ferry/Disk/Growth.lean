import Ferry.Disk.Calls

/-! # Disks that only grow

What others may do to a folder while a program works on it, when they only create
entries: all that is there stays as it is. A path that could be resolved before is
resolved to the same place afterwards. Times of directories are left out, since
the kernel moves them with every new entry.
-/

namespace Ferry

open Lib List

namespace Disk

/-- Every entry is still there, and has not been touched. -/
def Grows (d d' : Disk) : Prop := ∀ p i, d.get p = some i → d'.get p = some i

variable {d d' d'' : Disk}

theorem Grows.refl (d : Disk) : d.Grows d := fun _ _ h => h

theorem Grows.trans (h : d.Grows d') (h' : d'.Grows d'') : d.Grows d'' := fun p i hp => h' p i (h p i hp)

variable {p : CompPath}

theorem Grows.dirAt (h : d.Grows d') (hp : d.DirAt p) : d'.DirAt p :=
  hp.imp_right fun hdir => h p .dir hdir

theorem grows_of_update {i : Inode} (hnew : d.get p = none) (hget : d'.get = Function.update d.get p (some i)) :
    d.Grows d' := by
  intro q j hq
  have hne : q ≠ p := by
    rintro rfl
    rw [hnew] at hq
    cases hq
  rwa [hget, Function.update_of_ne hne]

theorem grows_place {i : Inode} (hnew : d.get p = none) (h : d.CanPlace p i) : d.Grows (d.place p i h) :=
  grows_of_update hnew (get_place h)

/-! ## Paths -/

/-- A walk that succeeds goes the same way on a disk that has grown. -/
theorem Grows.walkWith (h : d.Grows d') {f f' : CompPath → CompPath → Except Errno CompPath}
    (hf : ∀ cur comps q, f cur comps = .ok q → f' cur comps = .ok q) {cur comps q : CompPath}
    (hq : d.walkWith f cur comps = .ok q) : d'.walkWith f' cur comps = .ok q := by
  induction comps generalizing cur with
  | nil => exact hq
  | cons c rest ih =>
    rw [Disk.walkWith] at hq ⊢
    split at hq
    · rename_i hskip
      rw [if_pos hskip]
      exact ih hq
    rename_i hskip
    rw [if_neg hskip]
    split at hq
    · rename_i hup
      rw [if_pos hup]
      exact ih hq
    rename_i hup
    rw [if_neg hup]
    cases hget : d.get (cur ++ [c]) with
    | none =>
      rw [hget] at hq
      cases hq
    | some i =>
      rw [hget] at hq
      rw [h _ i hget]
      cases i with
      | file => exact hq
      | dir => exact ih hq
      | symlink => exact hf _ _ _ hq

theorem Grows.walk (h : d.Grows d') (budget : Nat) {cur comps q : CompPath}
    (hq : d.walk budget cur comps = .ok q) : d'.walk budget cur comps = .ok q := by
  induction budget generalizing cur comps q with
  | zero => exact h.walkWith (fun _ _ _ hq => by cases hq) hq
  | succ budget ih => exact h.walkWith (fun _ _ _ hq => ih hq) hq

theorem Grows.locate (h : d.Grows d') {q : CompPath} (hq : d.locate p = .ok q) : d'.locate p = .ok q := by
  unfold Disk.locate at hq ⊢
  split at hq
  · exact hq
  split at hq
  · cases hq
  rename_i q' hfollow
  have hfollow' : d'.follow p.dropLast = .ok q' := h.walk 40 hfollow
  rw [hfollow']
  split at hq
  · rename_i hdir
    dsimp only
    rw [if_pos (h.dirAt hdir)]
    exact hq
  · cases hq

/-! ## Calls that create -/

theorem createDir_grows (h : d.createDir p = .ok d') : d.Grows d' := by
  unfold createDir at h
  split at h
  · cases h
  split at h
  · rename_i hnew
    cases h
    exact grows_place hnew.2.1 hnew.2.2
  · cases h

theorem createDirAll_grows {fuel : Nat} (h : createDirAll fuel d p = .ok d') :
    d.Grows d' := by
  induction fuel generalizing d d' p with
  | zero => cases h
  | succ fuel ih =>
    rw [createDirAll] at h
    split at h
    · rename_i hmade
      cases h
      exact createDir_grows hmade
    · split at h
      · cases h
      · rename_i hparents
        exact (ih hparents).trans (createDir_grows h)
    · split at h
      · split at h
        · cases h
          exact .refl d
        · cases h
      · cases h

theorem linkNew_ok {i : Inode} (h : d.linkNew p i = .ok d') :
    ∃ q, d.locate p = .ok q ∧ d.get q = none ∧ d'.get = Function.update d.get q (some i) ∧ d.Grows d' := by
  unfold linkNew at h
  split at h
  · cases h
  rename_i q hloc
  split at h
  · rename_i hnew
    cases h
    exact ⟨q, hloc, hnew.1, get_place hnew.2, grows_place hnew.1 hnew.2⟩
  · cases h

/-! ## A temporary entry among the others -/

/-- What stands under the name and is no directory. -/
def strays (d : Disk) (p : CompPath) : List Inode :=
  match d.locate p with
  | .error _ => []
  | .ok q => match d.get q with
    | none | some .dir => []
    | some i => [i]

theorem get_of_strays {q : CompPath} (h : d.strays p = []) (hloc : d.locate p = .ok q) :
    d.get q = none ∨ d.get q = some .dir := by
  cases hget : d.get q with
  | none => exact .inl rfl
  | some i =>
    cases i with
    | dir => exact .inr rfl
    | file | symlink => simp [strays, hloc, hget] at h

theorem removeFile_of_strays (h : d.strays p = []) : (d.removeFile p).toOption.getD d = d := by
  unfold removeFile
  cases hloc : d.locate p with
  | error => rfl
  | ok q =>
    rcases get_of_strays h hloc with hget | hget
    · simp [hget, Except.toOption]
    · simp [hget, Except.toOption]

theorem createPlace_of_strays {budget : Nat} {q : CompPath} (h : d.strays p = [])
    (hq : d.createPlace budget p = .ok q) : d.locate p = .ok q ∧ (d.get q = none ∨ d.get q = some .dir) := by
  cases budget with
  | zero => cases hq
  | succ budget =>
    unfold createPlace at hq
    cases hloc : d.locate p with
    | error =>
      rw [hloc] at hq
      cases hq
    | ok q' =>
      have hget := get_of_strays h hloc
      rw [hloc] at hq
      rcases hget with hget | hget
      · simp only [hget] at hq
        exact ⟨hq, .inl (Except.ok.inj hq ▸ hget)⟩
      · simp only [hget] at hq
        exact ⟨hq, .inr (Except.ok.inj hq ▸ hget)⟩

theorem putFile_ok {bytes : Bytes} {exec : Bool} {t : Int} (h : d.putFile p bytes exec (some t) = .ok d') :
    d.get p ≠ some .dir ∧ d'.get = Function.update d.get p (some (.file bytes exec t)) := by
  unfold putFile at h
  split at h
  · rename_i hcan
    cases h
    exact ⟨hcan.1, get_place hcan.2⟩
  · split at h
    · cases h
    · cases h

theorem locate_beside_ok {q : CompPath} {c : String} (name : String) (h : d.locate (p ++ [c]) = .ok q) :
    ∃ q', d.locate (p ++ [name]) = .ok q' := by
  have hsib := locate_sibling (d := d) (p := p ++ [c]) (by simp) name
  rw [h, dropLast_concat] at hsib
  exact ⟨_, hsib⟩

/-- The entries of `K` are there, and none of them is the temporary one. -/
def Has (d : Disk) (out : Option CompPath) (K : CompPath → Inode → Prop) : Prop :=
  ∀ p i, K p i → d.get p = some i ∧ out ≠ some p

section
variable {out : Option CompPath} {K : CompPath → Inode → Prop} {i : Inode}

theorem Has.grows (h : d.Has out K) (hd : d.Grows d') : d'.Has out K :=
  fun p j hp => ⟨hd p j (h p j hp).1, (h p j hp).2⟩

theorem Has.made (h : d.Has none K) (hnew : d.get p = none) (hget : d'.get = Function.update d.get p (some i)) :
    d'.Has (some p) K := by
  refine fun q j hq => ⟨grows_of_update hnew hget q j (h q j hq).1, fun heq => ?_⟩
  have hthere := (h q j hq).1
  rw [← Option.some.inj heq, hnew] at hthere
  cases hthere

theorem Has.removed (h : d.Has (some p) K) (hp : d.get p = some i) (hi : i ≠ .dir) : (d.removeTree p).Has none K := by
  intro q j hq
  obtain ⟨hthere, hne⟩ := h q j hq
  refine ⟨?_, by simp⟩
  rw [get_removeTree, cut, if_neg]
  · exact hthere
  · intro hpre
    rw [d.isTree.none_below hp hi (above_iff_isPrefix.2 ⟨hpre, fun heq => hne (congrArg some heq)⟩)] at hthere
    cases hthere

end

end Disk

end Ferry
