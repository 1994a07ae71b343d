import Ferry.Disk.Frame
import Ferry.Materialize.Place

/-! # Writing inside the folder

A run resolves every path against the disk, component by component, and the
system follows whatever link it meets on the way. An act that meets none writes
below the folder. `Straight` is what it must find when its turn comes: no link above
the place that its path leads to, and none where a file is opened for writing.
-/

namespace Ferry

open Lib List Function

section
variable [Env]

/-! ## Whole change sets -/

def finalDisk (r : EStateM.Result MaterializeError Exec Unit) : Disk :=
  match r with
  | .ok _ s => s.disk
  | .error _ s => s.disk

omit [Env] in
theorem finalDisk_of_triple {P : Exec → Prop} {Q : Disk → Prop} {m : ExecM Unit} {s : Exec}
    (h : Triple P m (fun _ s => Q s.disk) (fun _ s => Q s.disk)) (hs : P s) : Q (finalDisk (m s)) := by
  have hrun := h s hs
  unfold finalDisk
  cases hr : m s with
  | ok | error =>
    rw [hr] at hrun
    exact hrun

omit [Env] in
theorem Disk.createDirAll_of_dirAt {d : Disk} {p : CompPath} (hplain : PlainPath p) (h : d.DirAt p)
    (fuel : Nat) : createDirAll (fuel + 1) d p = .ok d := by
  have hloc : d.locate p = .ok p := by
    rcases eq_nil_or_concat p with rfl | ⟨q, c, rfl⟩
    · rfl
    · rw [concat_eq_append] at hplain h ⊢
      refine locate_of_dirAt (fun x hx => hplain x (by simp [hx])) ?_
      have hget := h.of_prefix (by simp) (prefix_refl _)
      exact Open.dirAt_of_ne_none (c := c) (by simp [hget])
  have hcreate : d.createDir p = .error .alreadyExists := by
    unfold createDir
    rw [hloc]
    dsimp only
    rw [dif_neg]
    rintro ⟨hne, hnone, -⟩
    rw [h.resolve_left hne] at hnone
    cases hnone
  simp [createDirAll, hcreate, follow_of_dirAt hplain h, h]

section
variable {ap : Applier} {cs : ChangeSet} {s : Exec} (hplain : PlainPath ap.target) (hroot : s.disk.DirAt ap.target)
include hplain hroot

/-- A change set for a folder that is there is refused for its paths, or it is run. -/
theorem applyChangeSet_cases (cs : ChangeSet) : (∃ e, ap.applyChangeSet cs s = .error e s) ∨
    ap.applyChangeSet cs s = ap.run cs.removes cs.upserts s := by
  unfold Applier.applyChangeSet
  rw [run_bind_ok (run_change (Disk.createDirAll_of_dirAt hplain hroot _))]
  cases hvalid : (cs.removes.map (·.path) ++ cs.upserts.map (·.path)).forM validateComponents with
  | error e => exact .inl ⟨e, rfl⟩
  | ok => exact .inr rfl

theorem finalDisk_applyChangeSet {Q : Disk → Prop} (hself : Q s.disk)
    (hrun : Triple (· = s) (ap.run cs.removes cs.upserts) (fun _ s => Q s.disk) (fun _ s => Q s.disk)) :
    Q (finalDisk (ap.applyChangeSet cs s)) := by
  rcases applyChangeSet_cases hplain hroot cs with ⟨e, h⟩ | h
  · rw [h]
    exact hself
  · rw [h]
    exact finalDisk_of_triple hrun rfl

end

/-! ## Acts that meet no link -/

/-- Nothing that the act does at `abs` follows a link, and it does not act on the folder itself. -/
def ApplierAct.Direct (d : Disk) (abs : CompPath) : ApplierAct → Prop
  | .look _ | .touch _ => True
  | .remove rm => rm.path ≠ []
  | .upsert up => (up.mutation.isMutation → up.path ≠ []) ∧
    match up.mutation with
    | .restoreMtime .. => ¬ d.LinkAt abs
    | .writeFile .. => ¬ d.LinkAt (tempPath abs up.path)
    | _ => True

/-- At its turn the path of the act leads through no link. -/
def Straight (ap : Applier) (s : Exec) (a : ApplierAct) : Prop :=
  match ap.resolve s a.path with
  | .error _ => True
  | .ok abs => PlainPath abs ∧ s.disk.NoLink abs ∧ a.Direct s.disk abs

instance {d : Disk} {abs : CompPath} : (a : ApplierAct) → Decidable (a.Direct d abs)
  | .look _ | .touch _ => isTrue trivial
  | .remove rm => inferInstanceAs (Decidable (rm.path ≠ []))
  | .upsert ⟨_, .skip⟩ | .upsert ⟨_, .mkdir ..⟩ | .upsert ⟨_, .writeSymlink ..⟩
  | .upsert ⟨_, .restoreSymlinkMtime ..⟩ | .upsert ⟨_, .restoreMtime ..⟩ | .upsert ⟨_, .writeFile ..⟩ =>
    inferInstanceAs (Decidable (_ ∧ _))

instance {ap : Applier} {s : Exec} {a : ApplierAct} : Decidable (Straight ap s a) := by
  unfold Straight
  exact match ap.resolve s a.path with
    | .error _ => isTrue trivial
    | .ok _ => inferInstance

theorem resolveFrom_append {policy : AmbiguityPolicy} {d : Disk} {cur rel a : CompPath} {cache cache' : FoldCache}
    (h : resolveFrom policy d cur rel cache = .ok (a, cache')) : ∃ q, a = cur ++ q ∧ q.length = rel.length := by
  induction rel generalizing cur cache with
  | nil =>
    cases h
    exact ⟨[], by simp, rfl⟩
  | cons comp rest ih =>
    have hnext : ∀ {name : String} {cache₁ : FoldCache},
        resolveFrom policy d (cur ++ [name]) rest cache₁ = .ok (a, cache') →
        ∃ q, a = cur ++ q ∧ q.length = (comp :: rest).length := by
      intro name cache₁ hrun
      obtain ⟨q, rfl, hq⟩ := ih hrun
      exact ⟨name :: q, by simp, by simp [hq]⟩
    unfold resolveFrom at h
    split at h
    · exact hnext h
    split at h
    · cases h
    · exact hnext h
    · exact hnext h

theorem resolve_append {ap : Applier} {s : Exec} {p abs : CompPath} (h : ap.resolve s p = .ok abs) :
    ∃ q, abs = ap.target ++ q ∧ q.length = p.length := by
  unfold Applier.resolve at h
  cases hr : resolveFrom .refuse s.disk ap.target p s.fold with
  | error =>
    rw [hr] at h
    cases h
  | ok r =>
    obtain ⟨a, cache'⟩ := r
    rw [hr] at h
    cases h
    exact resolveFrom_append hr

theorem resolve_place {ap : Applier} {s : Exec} {p abs : CompPath} (h : ap.resolve s p = .ok abs) (hp : p ≠ []) :
    ∃ q, abs = ap.target ++ q ∧ q ≠ [] := by
  obtain ⟨q, rfl, hlen⟩ := resolve_append h
  refine ⟨q, rfl, ?_⟩
  rintro rfl
  exact hp (length_eq_zero_iff.1 hlen.symm)

/-- What calls at a place `a` inside the folder leave of the disk: the links above `a` stay as they are. -/
structure ActedWithin (folder a : CompPath) (d d' : Disk) : Prop where
  inside : Disk.Inside folder d d'
  above : d.NoLink a → d'.NoLink a

section
variable {folder a b q : CompPath} {d d' : Disk}

omit [Env] in
theorem ActedWithin.trans {d'' : Disk} (h : ActedWithin folder a d d') (h' : ActedWithin folder a d' d'') :
    ActedWithin folder a d d'' :=
  ⟨h.inside.trans h'.inside, fun hno => h'.above (h.above hno)⟩

omit [Env] in
theorem Disk.Acted.within (h : Disk.Acted (folder ++ q) d d') (hq : q ≠ []) (hlen : a.length ≤ (folder ++ q).length) :
    ActedWithin folder a d d' := ⟨h.inside hq, h.noLink hlen⟩

/-- The states of an act at `a`, inside the folder: it wrote below the folder, and no link stands above `a`. -/
def At (folder a : CompPath) (d₀ : Disk) (s : Exec) : Prop :=
  Disk.Inside folder d₀ s.disk ∧ s.disk.NoLink a

variable {d₀ : Disk} {at_ : CompPath}

omit [Env] in
theorem keeps_within {call : Disk → Except Errno Disk}
    (h : ∀ d d', d.NoLink a → call d = .ok d' → ActedWithin folder a d d') : Keeps (At folder a d₀) (change at_ call) :=
  keeps_change fun _ hs _ hrun =>
    have hw := h _ _ hs.2 hrun
    ⟨hs.1.trans hw.inside, hw.above hs.2⟩

omit [Env] in
theorem keeps_orUnlink {tmp : CompPath} {P : Exec → Prop} {m : ExecM Unit}
    (h : ∀ d d', d.NoLink a → d.removeFile tmp = .ok d' → ActedWithin folder a d d')
    (hm : Triple P m (fun _ => At folder a d₀) fun _ => At folder a d₀) :
    Triple P (orUnlink tmp m) (fun _ => At folder a d₀) fun _ => At folder a d₀ := by
  intro s hs
  have hrun := hm s hs
  unfold orUnlink
  cases hms : m s with
  | ok =>
    rw [hms] at hrun
    exact hrun
  | error e s' =>
    rw [hms] at hrun
    obtain ⟨hin, hno⟩ := hrun
    show At folder a d₀ { s' with disk := (s'.disk.removeFile tmp).toOption.getD s'.disk }
    cases hrm : s'.disk.removeFile tmp with
    | error => exact ⟨hin, hno⟩
    | ok d =>
      have hw := h _ _ hno hrm
      exact ⟨hin.trans hw.inside, hw.above hno⟩

end

section
variable {folder q : CompPath} {d₀ : Disk} {at_ : CompPath} (hne : q ≠ []) (hplain : PlainPath (folder ++ q))
include hne

omit [Env] hne in
theorem temp_append (hne : q ≠ []) (c : String) : (folder ++ q).dropLast ++ [c] = folder ++ (q.dropLast ++ [c]) := by
  rw [dropLast_append_of_ne_nil hne, append_assoc]

omit [Env] in
theorem within_at {d d' : Disk} (h : Disk.Acted (folder ++ q) d d') : ActedWithin folder (folder ++ q) d d' :=
  h.within hne le_rfl

omit [Env] in
theorem within_beside {d d' : Disk} {c : String} (h : Disk.Acted ((folder ++ q).dropLast ++ [c]) d d') :
    ActedWithin folder (folder ++ q) d d' := by
  rw [temp_append hne] at h
  refine h.within (by simp) ?_
  have hpos := length_pos_iff.2 hne
  simp only [length_append, length_dropLast, length_cons, length_nil]
  omega

include hplain

omit [Env] in
theorem keeps_removeDirChildrenFirst : Keeps (At folder (folder ++ q) d₀) (removeDirChildrenFirst (folder ++ q)) := by
  refine Triple.bind (Q := fun r s => At folder (folder ++ q) d₀ s ∧ r = folder ++ q)
    (triple_look fun s hs r hloc => ⟨hs, Disk.locate_self (by simp [hne]) hplain hs.2 hloc⟩)
    fun r => .of_fact fun hr => ?_
  subst hr
  refine keeps_within fun d d' _ hrun => within_at hne ?_
  cases hrun
  exact Disk.acted_removeTree _ d

/-- Nothing that is removed gives way to a link. -/
theorem keeps_clearDir_noLink (d₀ : Disk) (c : String) : Keeps (fun s => At folder (folder ++ q) d₀ s ∧
    ¬ s.disk.LinkAt ((folder ++ q).dropLast ++ [c])) (clearDir (folder ++ q)) := by
  refine keeps_clearDir ?_ fun deep => Triple.modify fun _ hs => hs
  refine Triple.bind (Q := fun r s => (At folder (folder ++ q) d₀ s ∧
    ¬ s.disk.LinkAt ((folder ++ q).dropLast ++ [c])) ∧ r = folder ++ q)
    (triple_look fun s hs r hloc => ⟨hs, Disk.locate_self (by simp [hne]) hplain hs.1.2 hloc⟩)
    fun r => .of_fact fun hr => ?_
  subst hr
  refine keeps_change fun s hs d hrun => ?_
  cases hrun
  have hw := within_at hne (Disk.acted_removeTree (folder ++ q) s.disk)
  refine ⟨⟨hs.1.1.trans hw.inside, hw.above hs.1.2⟩, ?_⟩
  rintro ⟨t, m, hget⟩
  rw [Disk.get_removeTree, cut] at hget
  split at hget
  · cases hget
  · exact hs.2 ⟨t, m, hget⟩

omit [Env] in
theorem keeps_removeFile : Keeps (At folder (folder ++ q) d₀) (change at_ (·.removeFile (folder ++ q))) :=
  keeps_within fun _ _ hno hrun => within_at hne
    (Disk.removeFile_self (by simp [hne]) hplain hno hrun ▸ Disk.acted_removeTree _ _)

omit [Env] in
theorem keeps_setTimesNoFollow {t : Int} :
    Keeps (At folder (folder ++ q) d₀) (change at_ (·.setTimesNoFollow (folder ++ q) t)) :=
  keeps_within fun _ _ hno hrun => within_at hne (Disk.setTimesNoFollow_acted (by simp [hne]) hplain hno hrun)

/-- The temporary entry is made, renamed or removed beside the place. -/
theorem keeps_land {rel : CompPath} {P : Exec → Prop} {make : ExecM Unit}
    (hmake : Triple P make (fun _ => At folder (folder ++ q) d₀) fun _ => At folder (folder ++ q) d₀) :
    Triple P (orUnlink (tempPath (folder ++ q) rel) do
        make
        change (folder ++ q) (·.rename (tempPath (folder ++ q) rel) (folder ++ q)))
      (fun _ => At folder (folder ++ q) d₀) fun _ => At folder (folder ++ q) d₀ := by
  have hnil : folder ++ q ≠ [] := by simp [hne]
  refine keeps_orUnlink (fun d d' hno hrun => within_beside hne (Disk.removeFile_beside hnil hplain hno hrun)) ?_
  refine hmake.bind fun _ => keeps_within fun d d' hno hrun => ?_
  obtain ⟨d₁, h₁, h₂⟩ := Disk.rename_beside hnil hplain hno hrun
  exact (within_beside hne h₁).trans (within_at hne h₂)

omit [Env] in
theorem keeps_makeSymlink {target : String} {c : String} :
    Keeps (At folder (folder ++ q) d₀) (makeSymlink target ((folder ++ q).dropLast ++ [c])) :=
  (keeps_look _ _).bind fun _ => keeps_within fun _ _ hno hrun =>
    within_beside hne (Disk.linkNew_beside (by simp [hne]) hplain hno hrun)

theorem triple_writeTemp {ap : Applier} {c disp : String} {exec : Bool} {sec : Int} {nsec : Nat} {chunks : Chunks} :
    Triple (fun s => At folder (folder ++ q) d₀ s ∧ ¬ s.disk.LinkAt ((folder ++ q).dropLast ++ [c]))
      (ap.writeTemp ((folder ++ q).dropLast ++ [c]) disp exec sec nsec chunks)
      (fun _ => At folder (folder ++ q) d₀) fun _ => At folder (folder ++ q) d₀ := by
  refine Triple.bind (Q := fun r s => At folder (folder ++ q) d₀ s ∧ r = (folder ++ q).dropLast ++ [c])
    (Triple.fails (triple_look fun s hs r hr => ⟨hs.1, ?_⟩) fun _ _ h => h.1) fun r => .of_fact fun hr => ?_
  · exact Disk.createPlace_beside (by simp [hne]) hplain hs.1.2 hs.2 hr
  subst hr
  refine Keeps.bind (keeps_within fun d d' _ hrun => within_beside hne (Disk.putFile_acted hrun)) fun _ => ?_
  exact (keeps_liftExcept _).bind fun _ => keeps_liftExcept _

end

/-! ## The acts -/

section
variable {ap : Applier} {d₀ : Disk} {s : Exec}

/-- The invariant of a run. -/
abbrev Kept (ap : Applier) (d₀ : Disk) (s : Exec) : Prop := Disk.Inside ap.target d₀ s.disk

/-- An act that meets no link writes inside the folder, wherever it stops. -/
theorem kept_of_at {p : CompPath} {f : CompPath → ExecM Unit} {s : Exec} (hs : Kept ap d₀ s) (hp : p ≠ [])
    (hf : ∀ q, ap.resolve s p = .ok (ap.target ++ q) → q ≠ [] → ∀ fold,
      Triple (fun s' => At ap.target (ap.target ++ q) d₀ s' ∧ s' = { s with fold := fold }) (f (ap.target ++ q))
        (fun _ => At ap.target (ap.target ++ q) d₀) fun _ => At ap.target (ap.target ++ q) d₀)
    (hno : ∀ abs, ap.resolve s p = .ok abs → s.disk.NoLink abs) :
    Triple (· = s) (ap.abs p >>= f) (fun _ => Kept ap d₀) fun _ => Kept ap d₀ := by
  refine triple_abs_bind (fun _ _ => hs) fun abs fold hres => ?_
  obtain ⟨q, rfl, hq⟩ := resolve_place hres hp
  refine (hf q hres hq fold).weaken ?_ (fun _ _ h => h.1) fun _ _ h => h.1
  rintro _ rfl
  exact ⟨⟨hs, hno _ hres⟩, rfl⟩

theorem kept_executeRemove {rm : PlannedRemove} :
    Triple (fun s => Kept ap d₀ s ∧ Straight ap s (.remove rm)) (ap.executeRemove rm) (fun _ => Kept ap d₀)
      fun _ => Kept ap d₀ := by
  refine .of_each fun s ⟨hs, hstraight⟩ => triple_of_resolved (fun _ => hs) fun abs fold hres => ?_
  unfold Straight at hstraight
  rw [show ap.resolve s (ApplierAct.remove rm).path = _ from resolve_eq_ok hres] at hstraight
  obtain ⟨hplain, hno, hne⟩ := hstraight
  obtain ⟨q, rfl, hq⟩ := resolve_place (resolve_eq_ok hres) hne
  refine (triple_executeRemove hres (by simp [hq]) hplain hno).weaken (fun _ h => h) ?_ fun _ _ h => h ▸ hs
  rintro _ s' (rfl | ⟨md, -, -, rfl⟩)
  · exact hs
  · exact hs.trans ((Disk.acted_removeTree _ s.disk).inside hq)

/-- One case for each mutation; only a file write looks through its temporary name. -/
theorem kept_executeUpsert {up : PlannedUpsert} :
    Triple (fun s => Kept ap d₀ s ∧ Straight ap s (.upsert up)) (ap.executeUpsert up) (fun _ => Kept ap d₀)
      fun _ => Kept ap d₀ := by
  refine .of_each fun s ⟨hs, hstraight⟩ => ?_
  obtain ⟨path, mutation⟩ := up
  by_cases hskip : mutation = .skip
  · subst hskip
    exact triple_abs_bind (fun _ _ => hs) fun abs fold _ => Triple.pure fun _ h => h ▸ hs
  have hmut : mutation.isMutation := by
    cases mutation <;> first | rfl | exact absurd rfl hskip
  unfold Straight at hstraight
  cases hres : ap.resolve s (ApplierAct.upsert ⟨path, mutation⟩).path with
  | error e =>
    exact triple_abs_bind (fun _ _ => hs) fun abs fold hok => by cases hok.symm.trans hres
  | ok abs =>
    rw [hres] at hstraight
    obtain ⟨hplain, hno, hne, hdirect⟩ := hstraight
    refine kept_of_at hs (hne hmut) (fun q hq hqne fold => ?_) fun abs' h => Except.ok.inj (hres.symm.trans h) ▸ hno
    obtain rfl : abs = ap.target ++ q := Except.ok.inj (hres.symm.trans hq)
    have hcreated : Keeps (At ap.target (ap.target ++ q) d₀) (noteCreatedAt (ap.target ++ q)) :=
      Triple.modify fun _ h => h
    have hremoved : ∀ deep, Keeps (At ap.target (ap.target ++ q) d₀) (noteRemoved (ap.target ++ q) deep) :=
      fun _ => Triple.modify fun _ h => h
    have hkeep : ∀ {m : ExecM Unit}, Keeps (At ap.target (ap.target ++ q) d₀) m →
        Triple (fun s' => At ap.target (ap.target ++ q) d₀ s' ∧ s' = { s with fold := fold }) m
          (fun _ => At ap.target (ap.target ++ q) d₀) fun _ => At ap.target (ap.target ++ q) d₀ :=
      fun h => Triple.weaken h (fun _ h => h.1) (fun _ _ h => h) fun _ _ h => h
    cases mutation with
    | skip => exact absurd rfl hskip
    | mkdir =>
      refine hkeep ((keeps_clearLeaf (keeps_removeFile hqne hplain) hremoved).bind fun _ => ?_)
      refine Keeps.bind (keeps_within fun d d' hno hrun => within_at hqne ?_) fun _ => hcreated.bind fun _ => ?_
      · split at hrun
        · cases hrun
          exact .refl _ _
        · obtain ⟨-, hcan, rfl⟩ := Disk.createDir_self (by simp [hqne]) hplain hno hrun
          exact Disk.acted_place hcan
      · exact Triple.modify fun _ h => h
    | restoreMtime sec nsec =>
      refine triple_change ?_ fun _ h _ => h.1
      rintro _ ⟨⟨hin, hno⟩, rfl⟩ d hrun
      have hw := within_at hqne (Disk.setTimes_acted hplain hno hdirect hrun)
      exact ⟨hin.trans hw.inside, hw.above hno⟩
    | restoreSymlinkMtime => exact hkeep (keeps_setTimesNoFollow hqne hplain)
    | writeSymlink target times =>
      refine hkeep ?_
      dsimp only
      split
      · exact .throw _
      refine (keeps_clearDir (keeps_removeDirChildrenFirst hqne hplain) hremoved).bind fun _ => ?_
      refine Keeps.bind (keeps_land hqne hplain (keeps_makeSymlink hqne hplain)) fun _ => hcreated.bind fun _ => ?_
      split
      · exact keeps_setTimesNoFollow hqne hplain
      · exact .pure _
    | writeFile =>
      refine Triple.bind (Triple.weaken (keeps_clearDir_noLink hqne hplain d₀
        (tempNameFor (joinPath path) (Env.freshEntropy (joinPath path) 0))) ?_ (fun _ _ h => h) fun _ _ h => h.1)
        fun _ => Triple.bind ?_ fun _ => hcreated
      · rintro _ ⟨hat, rfl⟩
        exact ⟨hat, hdirect⟩
      unfold Applier.writeFileAtomically
      dsimp only
      split
      · exact Triple.throw fun _ h => h.1
      · exact keeps_land hqne hplain (triple_writeTemp hqne hplain)

/-- Setting the time of a directory changes no entry. -/
theorem kept_executeTouch {t : PlannedTouch} :
    Triple (fun s => Kept ap d₀ s ∧ Straight ap s (.touch t)) (ap.executeTouch t) (fun _ => Kept ap d₀)
      fun _ => Kept ap d₀ := by
  refine .of_each fun s ⟨hs, hstraight⟩ => triple_abs_bind (fun _ _ => hs) fun abs fold hres => ?_
  unfold Straight at hstraight
  rw [show ap.resolve s (ApplierAct.touch t).path = _ from hres] at hstraight
  obtain ⟨hplain, hno, -⟩ := hstraight
  obtain ⟨q, rfl, -⟩ := resolve_append hres
  refine Triple.get_bind fun s' hs' => ?_
  subst hs'
  dsimp only
  split
  · exact Triple.pure fun _ h => h ▸ hs
  · exact Triple.throw fun _ h => h ▸ hs
  rename_i md hmd
  split
  · exact Triple.pure fun _ h => h ▸ hs
  rename_i hdir
  -- what is touched is a directory, so no link is followed
  have hat : s.disk.DirAt (ap.target ++ q) := by
    by_cases hnil : ap.target ++ q = []
    · exact .inl hnil
    · rw [not_not.1 hdir] at hmd
      exact .inr ((Disk.symlinkMetadata_eq_ok hnil hplain hno).1 hmd)
  refine Triple.bind ((keeps_look _ _).weaken (fun _ h => h) (fun _ _ h => h) fun _ _ h => h ▸ hs) fun r => ?_
  split
  · exact Triple.pure fun _ h => h ▸ hs
  rintro _ rfl
  rw [run_change (Disk.setTimes_of_dirAt hplain hat _)]
  refine hs.trans ⟨fun _ hr => absurd rfl hr, fun r hr => ?_⟩
  obtain rfl : r = ap.target ++ q := by
    by_contra hne
    exact hr (update_of_ne hne _ _)
  by_cases hq : q = []
  · exact .inl (by rw [hq, append_nil])
  · exact .inr (above_append hq)

end

/-! ## The run -/

/-- From the folder down to `q` there are real directories. -/
def RealChain (d : Disk) (folder q : CompPath) : Prop := ∀ e, folder <+: e → Above e q → d.DirAt e

/-- Every entry that came, went or changed lies below the folder, and what leads to it from there
are real directories; of other directories not even the times changed. -/
structure OnlyInside (folder : CompPath) (d d' : Disk) : Prop where
  entries : ∀ q, d'.get q ≠ d.get q → Above folder q ∧ (RealChain d folder q ∨ RealChain d' folder q)
  times : ∀ q, d'.dirTime q ≠ d.dirTime q → q = folder ∨ Above folder q

variable {d : Disk}

omit [Env] in
theorem realChain_of_get {q : CompPath} (h : d.get q ≠ none) (folder : CompPath) :
    RealChain d folder q := by
  intro e _ habove
  by_cases he : e = []
  · exact .inl he
  · obtain ⟨i, hi, hdir⟩ := d.isTree.parent he habove h
    exact .inr (by rw [hi, hdir])

omit [Env] in
theorem Disk.Inside.onlyInside {folder : CompPath} {d' : Disk} (h : Disk.Inside folder d d') :
    OnlyInside folder d d' where
  entries q hq := by
    refine ⟨h.entries q hq, ?_⟩
    by_cases hd : d.get q = none
    · exact .inr (realChain_of_get (fun hd' => hq (hd'.trans hd.symm)) folder)
    · exact .inl (realChain_of_get hd folder)
  times := h.times

/-- A change set writes inside its folder if every act of its run leads through no link when its turn comes. -/
theorem applyChangeSet_inside {ap : Applier} {cs : ChangeSet} {s : Exec} (hplain : PlainPath ap.target)
    (hroot : s.disk.DirAt ap.target) (hturns : ap.Turns (Straight ap) cs.removes cs.upserts s) :
    OnlyInside ap.target s.disk (finalDisk (ap.applyChangeSet cs s)) := by
  refine finalDisk_applyChangeSet hplain hroot (Disk.Inside.refl _ _).onlyInside ?_
  have hprep : Triple (· = s) (ap.prepare cs.removes cs.upserts) (fun _ => Kept ap s.disk) fun _ => Kept ap s.disk := by
    refine (triple_prepare ap cs.removes cs.upserts s.disk).weaken (fun _ h => h ▸ rfl) ?_ ?_
    · rintro _ s' ⟨h, -⟩
      exact (show s.disk = s'.disk from h.symm) ▸ Disk.Inside.refl _ _
    · intro _ s' h
      exact (show s.disk = s'.disk from h.symm) ▸ Disk.Inside.refl _ _
  have hrun := triple_run (C := Straight ap) (J := Kept ap s.disk) hprep (fun planned => Along.keeps fun a ha => ?_)
    fun t => kept_executeTouch
  · exact hrun.weaken (fun s' h => ⟨h, h ▸ hturns⟩) (fun _ _ h => h.onlyInside) fun _ _ h => h.onlyInside
  · rcases mem_runActs.1 ha with ⟨rm, -, rfl⟩ | ⟨up, -, rfl⟩
    · exact kept_executeRemove
    · exact kept_executeUpsert

end

/-! ### A directory that became a link -/

namespace Sample

/-- The applier that expects the tree of `node` in the folder `t`. -/
def expecting (node : TreeNode) : Applier := ⟨fileDirStore, ["t"], .expect (manifestOf node), 2⟩

/-- The folder `t`, where `d` is a link to the directory `o` beside it. -/
def linkedExec : Exec :=
  ⟨((Disk.empty.withEntry ["t"] .dir).withEntry ["o"] .dir).withEntry ["t", "d"] (.symlink "/o" 3),
    fun _ => none, []⟩

def addNew (path : CompPath) : ChangeSet := { added := [⟨path, .of (emptyFile "new")⟩] }

end Sample

open Sample in
/-- A file is added beside the link. -/
theorem applyChangeSet_inside_sample :
    OnlyInside ["t"] linkedExec.disk (finalDisk ((expecting rootDir).applyChangeSet (addNew ["new"]) linkedExec)) :=
  @applyChangeSet_inside _ (expecting rootDir) _ linkedExec (by decide) (by decide +kernel) (by decide +kernel)

open Sample in
/-- The guard passes, and the file is written outside the folder. -/
theorem applyChangeSet_writes_outside :
    ¬ OnlyInside ["t"] linkedExec.disk
      (finalDisk ((expecting rootDir).applyChangeSet (addNew ["d", "new"]) linkedExec)) := by
  intro h
  have hnew : (finalDisk ((expecting rootDir).applyChangeSet (addNew ["d", "new"]) linkedExec)).get ["o", "new"] ≠
      linkedExec.disk.get ["o", "new"] := by decide +kernel
  obtain ⟨c, r, heq⟩ := (h.entries _ hnew).1
  simp at heq

end Ferry
