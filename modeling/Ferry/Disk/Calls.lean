import Ferry.Disk.Fs

/-! # System calls on plain paths

A plain path has ordinary names only. When no link stands above it, a call acts
on the written path itself; the lemmas below say what it then reports and what
it leaves.
-/

namespace Ferry

open Lib List

/-- An ordinary file name: not empty and not one of the two dot entries. -/
def PlainName (c : String) : Prop := c ≠ "" ∧ c ≠ "." ∧ c ≠ ".."

instance (c : String) : Decidable (PlainName c) := inferInstanceAs (Decidable (_ ∧ _ ∧ _))

def PlainPath (p : CompPath) : Prop := ∀ c ∈ p, PlainName c

instance (p : CompPath) : Decidable (PlainPath p) := inferInstanceAs (Decidable (∀ c ∈ p, PlainName c))

variable {p : CompPath}

theorem PlainPath.append {q : CompPath} (hp : PlainPath p) (hq : PlainPath q) :
    PlainPath (p ++ q) := by
  intro c hc
  rcases mem_append.1 hc with hc | hc
  · exact hp c hc
  · exact hq c hc

theorem PlainPath.of_prefix {q : CompPath} (hq : PlainPath q) (h : p <+: q) : PlainPath p :=
  fun c hc => hq c (h.subset hc)

namespace Disk

variable {d : Disk}

variable {follow : CompPath → CompPath → Except Errno CompPath} {cur comps : CompPath} {c : String}

theorem walkWith_cons {rest : CompPath} (hc : PlainName c) : d.walkWith follow cur (c :: rest) =
      match d.get (cur ++ [c]) with
      | none => .error .notFound
      | some .dir => d.walkWith follow (cur ++ [c]) rest
      | some (.file ..) => if rest = [] then .ok (cur ++ [c]) else .error .notADirectory
      | some (.symlink target _) =>
        follow (if target.toList.head? = some '/' then [] else cur) (splitTarget target ++ rest) := by
  have hkept : ¬ (c = "" ∨ c = ".") := by
    rintro (h | h)
    exacts [hc.1 h, hc.2.1 h]
  exact (if_neg hkept).trans (if_neg hc.2.2)

theorem walkWith_dirs (hplain : PlainPath comps)
    (hdirs : ∀ e, e ≠ [] → e <+: comps → d.get (cur ++ e) = some .dir) :
    d.walkWith follow cur comps = .ok (cur ++ comps) := by
  induction comps generalizing cur with
  | nil => simp [walkWith]
  | cons c rest ih =>
    have hc := hdirs [c] (by simp) ⟨rest, rfl⟩
    rw [walkWith_cons (hplain c (by simp)), hc]
    rw [ih (fun x hx => hplain x (by simp [hx])), append_assoc, singleton_append]
    intro e he hpre
    rw [append_assoc]
    exact hdirs (c :: e) (by simp) (cons_prefix_cons.2 ⟨rfl, hpre⟩)

/-- A path of directories on which something is missing is not found. -/
theorem walkWith_missing (hplain : PlainPath comps)
    (hopen : ∀ e, e ≠ [] → e <+: comps → d.get (cur ++ e) = some .dir ∨ d.get (cur ++ e) = none)
    (hmiss : ∃ e, e ≠ [] ∧ e <+: comps ∧ d.get (cur ++ e) = none) :
    d.walkWith follow cur comps = .error .notFound := by
  induction comps generalizing cur with
  | nil =>
    obtain ⟨e, he, hpre, -⟩ := hmiss
    exact absurd (prefix_nil.1 hpre) he
  | cons c rest ih =>
    rw [walkWith_cons (hplain c (by simp))]
    rcases hopen [c] (by simp) ⟨rest, rfl⟩ with hc | hc
    · rw [hc]
      refine ih (fun x hx => hplain x (by simp [hx])) ?_ ?_
      · intro e he hpre
        rw [append_assoc]
        exact hopen (c :: e) (by simp) (cons_prefix_cons.2 ⟨rfl, hpre⟩)
      obtain ⟨e, he, hpre, hnone⟩ := hmiss
      rcases e with _ | ⟨x, e⟩
      · exact absurd rfl he
      obtain ⟨rfl, hpre'⟩ := cons_prefix_cons.1 hpre
      refine ⟨e, ?_, hpre', by simpa using hnone⟩
      rintro rfl
      rw [hc] at hnone
      cases hnone
    · rw [hc]

theorem DirAt.of_prefix {e : CompPath} (h : d.DirAt p) (he : e ≠ []) (hpre : e <+: p) :
    d.get e = some .dir := by
  rcases h with rfl | hp
  · exact absurd (prefix_nil.1 hpre) he
  · by_cases heq : e = p
    · rwa [heq]
    · obtain ⟨i, hi, hdir⟩ := d.isTree.parent he (above_iff_isPrefix.2 ⟨hpre, heq⟩) (by simp [hp])
      rw [hi, hdir]

theorem follow_of_dirAt (hplain : PlainPath p) (h : d.DirAt p) :
    d.follow p = .ok p := by
  exact walkWith_dirs hplain fun e he hpre => h.of_prefix he hpre

theorem walkWith_file (hplain : PlainPath comps) (hne : comps ≠ [])
    (hdirs : ∀ e, e ≠ [] → Above e comps → d.get (cur ++ e) = some .dir)
    {bytes : Bytes} {exec : Bool} {m : Int} (hfile : d.get (cur ++ comps) = some (.file bytes exec m)) :
    d.walkWith follow cur comps = .ok (cur ++ comps) := by
  induction comps generalizing cur with
  | nil => exact absurd rfl hne
  | cons c rest ih =>
    rw [walkWith_cons (hplain c (by simp))]
    by_cases hrest : rest = []
    · subst hrest
      rw [hfile]
      simp
    rw [hdirs [c] (by simp) (by simpa using above_append (d := [c]) hrest)]
    rw [ih (fun x hx => hplain x (by simp [hx])) hrest ?_ (by simpa using hfile),
      append_assoc, singleton_append]
    intro e he habove
    rw [append_assoc]
    exact hdirs (c :: e) (by simp) (above_cons_cons.2 ⟨rfl, habove⟩)

theorem follow_of_file (hplain : PlainPath p) {bytes : Bytes} {exec : Bool} {m : Int}
    (h : d.get p = some (.file bytes exec m)) : d.follow p = .ok p := by
  refine walkWith_file hplain (d.isTree.ne_nil h) ?_ h
  intro e he habove
  obtain ⟨i, hi, hdir⟩ := d.isTree.parent he habove (by simp [h])
  rw [nil_append, hi, hdir]

theorem locate_append_singleton : d.locate (p ++ [c]) = match d.follow p with
    | .error e => .error e
    | .ok q => if d.DirAt q then .ok (q ++ [c]) else .error .notADirectory := by
  cases hfollow : d.follow p with
  | error | ok => simp [locate, hfollow]

theorem locate_of_dirAt (hplain : PlainPath p) (h : d.DirAt p) :
    d.locate (p ++ [c]) = .ok (p ++ [c]) := by
  rw [locate_append_singleton, follow_of_dirAt hplain h]
  simp [h]

/-- What lies above `p` are directories, as far as it exists. -/
def Open (d : Disk) (p : CompPath) : Prop :=
  ∀ e, e ≠ [] → Above e p → d.get e = some .dir ∨ d.get e = none

theorem open_of_get {i : Inode} (h : d.get p = some i) : d.Open p := by
  intro e he habove
  obtain ⟨j, hj, hdir⟩ := d.isTree.parent he habove (by simp [h])
  exact .inl (by rw [hj, hdir])

theorem Open.dirAt_of_ne_none (h : d.get (p ++ [c]) ≠ none) :
    d.DirAt p := by
  by_cases hp : p = []
  · exact .inl hp
  · obtain ⟨i, hi, hdir⟩ := d.isTree.parent hp ⟨c, [], rfl⟩ h
    exact .inr (by rw [hi, hdir])

/-- Where the parents are directories, the metadata is what the disk has at the path. -/
theorem symlinkMetadata_open (hne : p ≠ []) (hplain : PlainPath p) (h : d.Open p) :
    d.symlinkMetadata p = match d.get p with
      | none => .error .notFound
      | some i => .ok i := by
  obtain ⟨q, c, rfl⟩ : ∃ q c, p = q ++ [c] := ⟨_, _, (dropLast_append_getLast hne).symm⟩
  have hq : PlainPath q := hplain.of_prefix (prefix_append q [c])
  by_cases hdir : d.DirAt q
  · have hsplit : ∃ x r, q ++ [c] = x :: r := by
      cases q <;> simp
    obtain ⟨x, r, hxr⟩ := hsplit
    have hloc : d.locate (x :: r) = .ok (x :: r) := hxr ▸ locate_of_dirAt hq hdir
    rw [hxr]
    cases hget : d.get (x :: r) with
    | none | some => simp only [symlinkMetadata, hloc, hget]
  · -- some directory above is missing
    have hnone : d.get (q ++ [c]) = none := by
      by_contra hsome
      exact hdir (Open.dirAt_of_ne_none hsome)
    have hqne : q ≠ [] := fun h => hdir (.inl h)
    have hqnone : d.get q = none :=
      (h q hqne ⟨c, [], rfl⟩).resolve_left fun h => hdir (.inr h)
    have hfollow : d.follow q = .error .notFound := by
      refine walkWith_missing hq ?_ ⟨q, hqne, prefix_refl q, by simpa using hqnone⟩
      intro e he hpre
      obtain ⟨t, rfl⟩ := hpre
      simpa using h e he ⟨(t ++ [c]).head (by simp), (t ++ [c]).tail, by simp⟩
    rw [symlinkMetadata, locate_append_singleton, hfollow, hnone]

/-! ### Paths without links above them -/

def NoLink (d : Disk) (p : CompPath) : Prop :=
  ∀ e, e ≠ [] → Above e p → ∀ t m, d.get e ≠ some (.symlink t m)

/-- Without links on it a walk ends where it says, or at what is missing or no directory. -/
theorem walkWith_noLinks (hplain : PlainPath comps)
    (hno : ∀ e, e ≠ [] → e <+: comps → ∀ t m, d.get (cur ++ e) ≠ some (.symlink t m)) :
    d.walkWith follow cur comps = .ok (cur ++ comps) ∨ d.walkWith follow cur comps = .error .notFound ∨
      d.walkWith follow cur comps = .error .notADirectory := by
  induction comps generalizing cur with
  | nil => exact .inl (by simp [walkWith])
  | cons c rest ih =>
    rw [walkWith_cons (hplain c (by simp))]
    cases hc : d.get (cur ++ [c]) with
    | none => exact .inr (.inl rfl)
    | some i =>
      cases i with
      | symlink t m => exact absurd hc (hno [c] (by simp) ⟨rest, rfl⟩ t m)
      | file =>
        by_cases hrest : rest = []
        · exact .inl (by simp [hrest])
        · exact .inr (.inr (by simp [hrest]))
      | dir =>
        have hno' : ∀ e, e ≠ [] → e <+: rest → ∀ t m, d.get (cur ++ [c] ++ e) ≠ some (.symlink t m) := by
          intro e he hpre
          rw [append_assoc]
          exact hno (c :: e) (by simp) (cons_prefix_cons.2 ⟨rfl, hpre⟩)
        simpa using ih (fun x hx => hplain x (by simp [hx])) hno'

theorem follow_noLinks (hplain : PlainPath p) (hno : d.NoLink p)
    (hself : ∀ t m, d.get p ≠ some (.symlink t m)) :
    d.follow p = .ok p ∨ d.follow p = .error .notFound ∨ d.follow p = .error .notADirectory := by
  refine walkWith_noLinks hplain ?_
  intro e he hpre
  by_cases heq : e = p
  · exact heq ▸ hself
  · exact hno e he (above_iff_isPrefix.2 ⟨hpre, heq⟩)

theorem readDir_noLinks (hplain : PlainPath p) (hno : d.NoLink p)
    (hself : ∀ t m, d.get p ≠ some (.symlink t m)) {names : List String}
    (h : d.readDir p = .ok names) : d.DirAt p ∧ names = d.names p := by
  unfold readDir at h
  rcases follow_noLinks hplain hno hself with hf | hf | hf
  · rw [hf] at h
    dsimp only at h
    split at h
    · cases h
      exact ⟨‹_›, rfl⟩
    · cases h
  · simp [hf] at h
  · simp [hf] at h

theorem locate_noLink (hne : p ≠ []) (hplain : PlainPath p) (hno : d.NoLink p) :
    (d.locate p = .ok p ∧ d.DirAt p.dropLast) ∨
      ((d.locate p = .error .notFound ∨ d.locate p = .error .notADirectory) ∧ d.get p = none) := by
  obtain ⟨q, c, rfl⟩ : ∃ q c, p = q ++ [c] := ⟨_, _, (dropLast_append_getLast hne).symm⟩
  have hq : PlainPath q := hplain.of_prefix (prefix_append q [c])
  rw [dropLast_concat]
  by_cases hdir : d.DirAt q
  · exact .inl ⟨locate_of_dirAt hq hdir, hdir⟩
  right
  have hnone : d.get (q ++ [c]) = none := by
    by_contra hsome
    exact hdir (Open.dirAt_of_ne_none hsome)
  refine ⟨?_, hnone⟩
  have hqne : q ≠ [] := fun h => hdir (.inl h)
  have habove : Above q (q ++ [c]) := ⟨c, [], rfl⟩
  have hfollow := follow_noLinks hq (fun e he hab => hno e he (hab.trans habove)) (hno q hqne habove)
  rw [locate_append_singleton]
  rcases hfollow with hf | hf | hf
  · exact .inr (by simp [hf, hdir])
  · exact .inl (by simp [hf])
  · exact .inr (by simp [hf])

theorem symlinkMetadata_eq_ok (hne : p ≠ []) (hplain : PlainPath p) (hno : d.NoLink p)
    {i : Inode} : d.symlinkMetadata p = .ok i ↔ d.get p = some i := by
  unfold symlinkMetadata
  rcases locate_noLink hne hplain hno with ⟨hloc, -⟩ | ⟨hloc, hnone⟩
  · obtain ⟨c, r, rfl⟩ : ∃ c r, p = c :: r := by
      cases p with
      | nil => exact absurd rfl hne
      | cons c r => exact ⟨c, r, rfl⟩
    rw [hloc]
    dsimp only
    cases d.get (c :: r) <;> simp
  · rcases hloc with hloc | hloc <;> simp [hloc, hnone]

theorem locate_sibling {d : Disk} (hne : p ≠ []) (c : String) :
    d.locate (p.dropLast ++ [c]) = (d.locate p).map fun q => q.dropLast ++ [c] := by
  obtain ⟨x, a, rfl⟩ : ∃ x a, p = x ++ [a] := ⟨_, _, (dropLast_append_getLast hne).symm⟩
  rw [dropLast_concat, locate_append_singleton, locate_append_singleton]
  cases d.follow x with
  | error => rfl
  | ok q =>
    by_cases hdir : d.DirAt q
    · simp [hdir, Except.map]
    · simp [hdir, Except.map]

theorem removeFile_eq {q : CompPath} {i : Inode} (hloc : d.locate p = .ok q) (hget : d.get q = some i) (hi : i ≠ .dir) :
    d.removeFile p = .ok (d.removeTree q) := by
  cases i with
  | dir => exact absurd rfl hi
  | file | symlink => simp [removeFile, hloc, hget]

theorem hardLink_eq {q dst : CompPath} {i : Inode} (hloc : d.locate p = .ok q) (hget : d.get q = some i)
    (hi : i ≠ .dir) : d.hardLink p dst = d.linkNew dst i := by
  cases i with
  | dir => exact absurd rfl hi
  | file | symlink => simp [hardLink, hloc, hget]

theorem setTimes_of_dirAt (hplain : PlainPath p) (h : d.DirAt p) (t : Int) :
    d.setTimes p t = .ok { d with dirTime := Function.update d.dirTime p t } := by
  rw [setTimes, follow_of_dirAt hplain h]
  dsimp only
  rcases h with rfl | hdir
  · rw [show d.get [] = none from d.isTree.root]
    exact if_pos (.inl rfl)
  · rw [hdir]
    exact if_pos (.inr hdir)

end Disk

end Ferry
