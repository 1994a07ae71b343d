import Ferry.Disk.Calls

/-! # What a call leaves alone

A call that writes acts on one physical path. Away from it the disk keeps its
entries, except that a removal takes what lies below, and the times of all
directories but the one that holds the entry.
-/

namespace Ferry

open Lib Function

def Inode.bare : Inode → Inode
  | .file bytes exec _ => .file bytes exec 0
  | .dir => .dir
  | .symlink target _ => .symlink target 0

@[simp] theorem Inode.bare_eq_dir {i : Inode} : i.bare = .dir ↔ i = .dir := by
  cases i <;> simp [bare]

namespace Disk

def LinkAt (d : Disk) (q : CompPath) : Prop := ∃ t m, d.get q = some (.symlink t m)

instance (d : Disk) (q : CompPath) : Decidable (d.LinkAt q) :=
  decidable_of_iff ((d.get q).map Inode.kind = some .symlink) <| by
    unfold LinkAt
    cases d.get q with
    | none => simp
    | some i => cases i <;> simp [Inode.kind]

instance (d : Disk) (p : CompPath) : Decidable (d.NoLink p) :=
  decidable_of_iff (∀ e ∈ p.inits, e ≠ [] → e ≠ p → ¬ d.LinkAt e) <| by
    simp only [NoLink, LinkAt, List.mem_inits, above_iff_isPrefix, not_exists]
    exact ⟨fun h e he ha => h e ha.1 he ha.2, fun h e hp he ha => h e he ⟨hp, ha⟩⟩

/-- `d'` is what a call on the physical path `a` may leave of `d`. -/
structure Acted (a : CompPath) (d d' : Disk) : Prop where
  others : ∀ q, q ≠ a → d'.get q = d.get q ∨ (Above a q ∧ d'.get q = none)
  times : ∀ q, q ≠ a → q ≠ a.dropLast → d'.dirTime q = d.dirTime q

variable {a : CompPath} {d d' : Disk}

theorem Acted.refl (a : CompPath) (d : Disk) : Acted a d d := ⟨fun _ _ => .inl rfl, fun _ _ _ => rfl⟩

theorem acted_place {i : Inode} (h : d.CanPlace a i) : Acted a d (d.place a i h) where
  others q hq := .inl (by rw [get_place, update_of_ne hq])
  times q _ hq := update_of_ne hq _ _

theorem acted_retimed {i : Inode} (h : d.CanPlace a i) :
    Acted a d { d.place a i h with dirTime := d.dirTime } where
  others := (acted_place h).others
  times _ _ _ := rfl

theorem acted_removeTree (a : CompPath) (d : Disk) : Acted a d (d.removeTree a) where
  others q hq := by
    rw [get_removeTree, cut]
    split
    · exact .inr ⟨above_iff_isPrefix.2 ⟨‹_›, Ne.symm hq⟩, rfl⟩
    · exact .inl rfl
  times q _ hq := update_of_ne hq _ _

theorem acted_dirTime (a : CompPath) (d : Disk) (t : Int) :
    Acted a d { d with dirTime := update d.dirTime a t } where
  others _ _ := .inl rfl
  times _ hq _ := update_of_ne hq _ _

/-- A call leaves the links above another path alone that is not longer. -/
theorem Acted.noLink {b : CompPath} (h : Acted b d d') (hlen : a.length ≤ b.length) (hno : d.NoLink a) :
    d'.NoLink a := by
  intro e he habove t m hget
  have hshort : e.length < b.length := habove.length_lt.trans_le hlen
  rcases h.others e (by rintro rfl; exact hshort.false) with hsame | ⟨hbelow, -⟩
  · exact hno e he habove t m (hsame ▸ hget)
  · exact absurd hbelow.length_lt hshort.asymm

/-! ## The calls -/

section
variable (hne : a ≠ []) (hplain : PlainPath a) (hno : d.NoLink a)
include hne hplain hno

theorem locate_self {q : CompPath} (h : d.locate a = .ok q) : q = a := by
  rcases locate_noLink hne hplain hno with ⟨hok, -⟩ | ⟨herr | herr, -⟩
  · rw [hok] at h
    cases h
    rfl
  · rw [herr] at h
    cases h
  · rw [herr] at h
    cases h

/-- The same for the temporary name beside the path. -/
theorem locate_beside {q : CompPath} {c : String} (h : d.locate (a.dropLast ++ [c]) = .ok q) :
    q = a.dropLast ++ [c] := by
  rw [locate_sibling hne] at h
  cases hloc : d.locate a with
  | error e =>
    rw [hloc] at h
    cases h
  | ok r =>
    rw [hloc] at h
    obtain rfl := locate_self hne hplain hno hloc
    exact (Except.ok.inj h).symm

theorem removeFile_self (h : d.removeFile a = .ok d') : d' = d.removeTree a := by
  unfold removeFile at h
  (repeat' split at h) <;> cases h
  obtain rfl := locate_self hne hplain hno ‹_›
  rfl

theorem removeDir_self (h : d.removeDir a = .ok d') : d' = d.removeTree a ∧ d.names a = [] := by
  unfold removeDir at h
  (repeat' split at h) <;> cases h
  obtain rfl := locate_self hne hplain hno ‹_›
  exact ⟨rfl, ‹_›⟩

theorem renameOnto_self {i : Inode} (h : d.renameOnto a i = .ok d') :
    d.get a ≠ some .dir ∧ ∃ hcan, d' = d.place a i hcan := by
  unfold renameOnto at h
  (repeat' split at h) <;> cases h
  rename_i hcan
  obtain rfl := locate_self hne hplain hno ‹_›
  exact ⟨hcan.1, hcan.2, rfl⟩

theorem createDir_self (h : d.createDir a = .ok d') : d.get a = none ∧ ∃ hcan, d' = d.place a .dir hcan := by
  unfold createDir at h
  (repeat' split at h) <;> cases h
  rename_i hcan
  obtain rfl := locate_self hne hplain hno ‹_›
  exact ⟨hcan.2.1, hcan.2.2, rfl⟩

/-- A directory that cannot be made because something stands there already. -/
theorem createDir_exists (h : d.createDir a = .error .alreadyExists) : d.get a ≠ none := by
  intro hnone
  unfold createDir at h
  rcases locate_noLink hne hplain hno with ⟨hloc, hdir⟩ | ⟨hloc | hloc, -⟩
  · rw [hloc] at h
    dsimp only at h
    split at h
    · cases h
    · rename_i hcan
      exact hcan ⟨hne, hnone, hne, hdir, .inl rfl, trivial⟩
  · rw [hloc] at h
    cases h
  · rw [hloc] at h
    cases h

theorem setTimesNoFollow_acted {t : Int} (h : d.setTimesNoFollow a t = .ok d') : Acted a d d' := by
  unfold setTimesNoFollow at h
  split at h
  · cases h
  rename_i q hloc
  obtain rfl := locate_self hne hplain hno hloc
  (repeat' split at h) <;> cases h
  · exact acted_retimed _
  · exact acted_retimed _
  · exact acted_dirTime _ d t

omit hne in
/-- `set_times` follows a final link, so that there must be none. -/
theorem setTimes_acted (hself : ¬ d.LinkAt a) {t : Int} (h : d.setTimes a t = .ok d') : Acted a d d' := by
  have hfollow := follow_noLinks hplain hno fun t m hget => hself ⟨t, m, hget⟩
  unfold setTimes at h
  split at h
  · cases h
  rename_i q hq
  obtain rfl : a = q := by
    rcases hfollow with hf | hf | hf
    · exact Except.ok.inj (hf.symm.trans hq)
    · cases hf.symm.trans hq
    · cases hf.symm.trans hq
  (repeat' split at h) <;> cases h
  · exact acted_retimed _
  · exact acted_dirTime _ d t

end

section
variable {c : String} (hne : a ≠ []) (hplain : PlainPath a) (hno : d.NoLink a)
include hne hplain hno

theorem removeFile_beside (h : d.removeFile (a.dropLast ++ [c]) = .ok d') : Acted (a.dropLast ++ [c]) d d' := by
  unfold removeFile at h
  (repeat' split at h) <;> cases h
  obtain rfl := locate_beside hne hplain hno ‹_›
  exact acted_removeTree _ d

theorem linkNew_beside {i : Inode} (h : d.linkNew (a.dropLast ++ [c]) i = .ok d') :
    Acted (a.dropLast ++ [c]) d d' := by
  unfold linkNew at h
  (repeat' split at h) <;> cases h
  obtain rfl := locate_beside hne hplain hno ‹_›
  exact acted_place _

/-- A file is created where its name says if no link has that name. -/
theorem createPlace_beside (hself : ¬ d.LinkAt (a.dropLast ++ [c])) {budget : Nat} {q : CompPath}
    (h : d.createPlace budget (a.dropLast ++ [c]) = .ok q) : q = a.dropLast ++ [c] := by
  unfold createPlace at h
  split at h
  · cases h
  split at h
  · cases h
  rename_i r hloc
  obtain rfl := locate_beside hne hplain hno hloc
  split at h
  · rename_i hget
    exact absurd ⟨_, _, hget⟩ hself
  · exact (Except.ok.inj h).symm

/-- The entry leaves its old name and takes the new one. -/
theorem rename_beside (h : d.rename (a.dropLast ++ [c]) a = .ok d') :
    ∃ d₁, Acted (a.dropLast ++ [c]) d d₁ ∧ Acted a d₁ d' := by
  unfold rename at h
  split at h
  · cases h
  · cases h
  rename_i q r hq hr
  obtain rfl := locate_beside hne hplain hno hq
  obtain rfl := locate_self hne hplain hno hr
  (repeat' split at h) <;> cases h
  · exact ⟨d, .refl _ _, .refl _ _⟩
  · exact ⟨_, acted_removeTree _ d, acted_place _⟩

end

theorem putFile_acted {bytes : Bytes} {exec : Bool} {mtime : Option Int} (h : d.putFile a bytes exec mtime = .ok d') :
    Acted a d d' := by
  unfold putFile at h
  split at h
  · rename_i hcan
    cases h
    refine ⟨(acted_place hcan.2).others, fun q _ hq => ?_⟩
    show (if d.get a = none then d.stamp a else d.dirTime) q = _
    split
    · exact update_of_ne hq _ _
    · rfl
  · split at h <;> cases h

/-! ## Times -/

def TimesOnly (d d' : Disk) : Prop := ∀ q, (d'.get q).map Inode.bare = (d.get q).map Inode.bare

theorem timesOnly_place {q : CompPath} {i j : Inode} (h : d.CanPlace q i)
    (hget : d.get q = some j) (hbare : i.bare = j.bare) (times : CompPath → Int) :
    d.TimesOnly { d.place q i h with dirTime := times } := by
  intro q'
  show ((d.place q i h).get q').map Inode.bare = _
  rw [get_place]
  by_cases hq : q' = q
  · subst hq
    simp [hget, hbare]
  · rw [update_of_ne hq]

theorem setTimes_timesOnly {p : CompPath} {t : Int} (h : d.setTimes p t = .ok d') :
    d.TimesOnly d' := by
  unfold setTimes at h
  split at h
  · cases h
  split at h
  · rename_i hget
    split at h
    · rename_i hcan
      cases h
      exact timesOnly_place hcan hget rfl _
    · cases h
  · split at h
    · cases h
      exact fun q => rfl
    · cases h

theorem setTimesNoFollow_timesOnly {p : CompPath} {t : Int}
    (h : d.setTimesNoFollow p t = .ok d') : d.TimesOnly d' := by
  unfold setTimesNoFollow at h
  split at h
  · cases h
  split at h
  · rename_i hget
    split at h
    · rename_i hcan
      cases h
      exact timesOnly_place hcan hget rfl _
    · cases h
  · rename_i hget
    split at h
    · rename_i hcan
      cases h
      exact timesOnly_place hcan hget rfl _
    · cases h
  · cases h
    exact fun q => rfl
  · cases h

theorem TimesOnly.get_eq_none (h : d.TimesOnly d') (q : CompPath) : d'.get q = none ↔ d.get q = none := by
  have hq := h q
  cases hd : d.get q <;> cases hd' : d'.get q <;> simp_all

theorem TimesOnly.linkAt (h : d.TimesOnly d') {q : CompPath} (hat : d'.LinkAt q) : d.LinkAt q := by
  obtain ⟨t, m, hget⟩ := hat
  have hq := h q
  rw [hget] at hq
  cases hd : d.get q with
  | none => simp [hd] at hq
  | some i =>
    cases i with
    | symlink t' m' => exact ⟨t', m', hd⟩
    | file | dir => simp [hd, Inode.bare] at hq

/-! ## Inside a folder -/

/-- From `d` to `d'` entries below the folder changed only, and times of directories in it. -/
structure Inside (folder : CompPath) (d d' : Disk) : Prop where
  entries : ∀ q, d'.get q ≠ d.get q → Above folder q
  times : ∀ q, d'.dirTime q ≠ d.dirTime q → q = folder ∨ Above folder q

variable {folder : CompPath}

theorem Inside.refl (folder : CompPath) (d : Disk) : Inside folder d d :=
  ⟨fun _ h => absurd rfl h, fun _ h => absurd rfl h⟩

variable {p : CompPath}

theorem Inside.trans {d'' : Disk} (h : Inside folder d d') (h' : Inside folder d' d'') :
    Inside folder d d'' where
  entries q hq := by
    by_cases heq : d''.get q = d'.get q
    · exact h.entries q (heq ▸ hq)
    · exact h'.entries q heq
  times q hq := by
    by_cases heq : d''.dirTime q = d'.dirTime q
    · exact h.times q (heq ▸ hq)
    · exact h'.times q heq

theorem Acted.inside (h : Acted (folder ++ p) d d') (hp : p ≠ []) :
    Inside folder d d' where
  entries q hq := by
    have hself : Above folder (folder ++ p) := above_append hp
    by_cases heq : q = folder ++ p
    · exact heq ▸ hself
    · rcases h.others q heq with hsame | ⟨habove, -⟩
      · exact absurd hsame hq
      · exact hself.trans habove
  times q hq := by
    by_cases heq : q = folder ++ p
    · exact .inr (heq ▸ above_append hp)
    have hparent : q = folder ++ p.dropLast := by
      by_contra hne
      exact hq (h.times q heq (by rwa [List.dropLast_append_of_ne_nil hp]))
    subst hparent
    by_cases hnil : p.dropLast = []
    · exact .inl (by rw [hnil, List.append_nil])
    · exact .inr (above_append hnil)

end Disk

end Ferry
