import Ferry.Store.Codec
import Ferry.Store.DiffExact

/-! # The diff lists exactly the visible changes

Each step of the walk that returns has appended an exact list for the entries it
consumed; the merge of two sibling lists and the recursion over levels put the
lists together. What the sorted result misses are the paths below a split and
links that differ in their exec flag only. The walk returns whenever both trees
are fully present.
-/

namespace Ferry

open Lib List

/-! ## The walk lists exactly the changes -/

section
variable [Env]

/-- A step of the walk that returns has only appended, and what it appended is exact. -/
def Emits (act : ChangeSet → Except DiffError ChangeSet) (fb fa : CompPath → Option EntryState)
    (pre : CompPath) : Prop :=
  ∀ out res, act out = .ok res → ∃ delta, res = out ++ delta ∧ Exact fb fa pre delta

def CallExact (st : Store) (call : DiffCall) (older newer : Option BlobId) : Prop :=
  ∀ pre, Emits (call older newer pre) (flatOpt st older) (flatOpt st newer) pre

theorem flat_nil (st : Store) (id : BlobId) : flat st id [] = none := (flat_isTree st id).root

@[simp] theorem flatOpt_nil (st : Store) (id : Option BlobId) : flatOpt st id [] = none := by
  cases id with
  | none => rfl
  | some id => exact flat_nil st id

variable {rest act : ChangeSet → Except DiffError ChangeSet} {e : TreeEntry} {as bs l : List TreeEntry}
  {c : String} {gb ga : CompPath → Option EntryState}

theorem below_flatEntry_dir {st : Store} {child : BlobId}
    (h : e.payload = .dir child) : below (flatEntry st e) = flatOpt st (some child) := by
  funext q
  cases q with
  | nil => simp [below]
  | cons => simp [below, flatEntry, h, flatBelow, flatOpt]

theorem below_flatEntry_leaf {st : Store} (h : ∀ child, e.payload ≠ .dir child) :
    below (flatEntry st e) = fun _ => none := by
  funext q
  cases q with
  | nil => rfl
  | cons =>
    cases hp : e.payload with
    | dir child => exact absurd hp (h child)
    | file | symlink => simp [below, flatEntry, flatBelow]

omit [Env] in
theorem emits_ok {fb fa : CompPath → Option EntryState} {pre : CompPath}
    (h : ∀ q, classify (fb q) (fa q) = none) : Emits .ok fb fa pre := by
  intro out res hrun
  cases hrun
  exact ⟨{}, (ChangeSet.append_empty out).symm, Exact.empty h⟩

omit [Env] in
theorem Emits.entry {own : ChangeSet} {pre : CompPath}
    (hown : own.changes = match classify (gb []) (ga []) with
      | some tag => [⟨tag, pre ++ [c], gb [], ga []⟩]
      | none => [])
    (hsplit : ¬ Split (gb []) (ga [])) (hact : Emits act (below gb) (below ga) (pre ++ [c])) :
    Emits (fun out => act (out ++ own)) (under c gb) (under c ga) pre := by
  intro out res hrun
  obtain ⟨sub, rfl, hsub⟩ := hact _ res hrun
  exact ⟨_, ChangeSet.append_assoc _ _ _, Exact.entry hown (fun h => absurd h hsplit) fun _ => hsub⟩

theorem flattenAddedEntry_emits {st : Store} {call : DiffCall} (pre : CompPath)
    (hcall : ∀ child, e.payload = .dir child → CallExact st call none (some child)) :
    Emits (flattenAddedEntry call e pre) (under e.name (fun _ => none))
      (under e.name (flatEntry st e)) pre := by
  by_cases hdir : ∃ child, e.payload = .dir child
  · obtain ⟨child, hp⟩ := hdir
    have hact : flattenAddedEntry call e pre = fun out => call none (some child) (pre ++ [e.name])
        (out ++ ({ added := [⟨pre ++ [e.name], .of e⟩] } : ChangeSet)) := by
      funext out
      simp [flattenAddedEntry, hp, childPath, ChangeSet.append_eq]
    rw [hact]
    refine Emits.entry rfl (not_split_none_left _) ?_
    rw [below_none, below_flatEntry_dir hp]
    exact hcall child hp _
  · have hact : flattenAddedEntry call e pre = fun out =>
        .ok (out ++ ({ added := [⟨pre ++ [e.name], .of e⟩] } : ChangeSet)) := by
      funext out
      cases hp : e.payload <;> simp_all [flattenAddedEntry, childPath, ChangeSet.append_eq]
    rw [hact]
    refine Emits.entry rfl (not_split_none_left _) ?_
    rw [below_none, below_flatEntry_leaf fun child hp => hdir ⟨child, hp⟩]
    exact emits_ok fun _ => rfl

theorem flattenRemovedEntry_emits {st : Store} {call : DiffCall} (pre : CompPath)
    (hcall : ∀ child, e.payload = .dir child → CallExact st call (some child) none) :
    Emits (flattenRemovedEntry call e pre) (under e.name (flatEntry st e))
      (under e.name (fun _ => none)) pre := by
  by_cases hdir : ∃ child, e.payload = .dir child
  · obtain ⟨child, hp⟩ := hdir
    have hact : flattenRemovedEntry call e pre = fun out => call (some child) none (pre ++ [e.name])
        (out ++ ({ removed := [⟨pre ++ [e.name], .of e⟩] } : ChangeSet)) := by
      funext out
      simp [flattenRemovedEntry, hp, childPath, ChangeSet.append_eq]
    rw [hact]
    refine Emits.entry rfl (not_split_none_right _) ?_
    rw [below_none, below_flatEntry_dir hp]
    exact hcall child hp _
  · have hact : flattenRemovedEntry call e pre = fun out =>
        .ok (out ++ ({ removed := [⟨pre ++ [e.name], .of e⟩] } : ChangeSet)) := by
      funext out
      cases hp : e.payload <;> simp_all [flattenRemovedEntry, childPath, ChangeSet.append_eq]
    rw [hact]
    refine Emits.entry rfl (not_split_none_right _) ?_
    rw [below_none, below_flatEntry_leaf fun child hp => hdir ⟨child, hp⟩]
    exact emits_ok fun _ => rfl

/-- The one element a pair of entries at `path` contributes, by its tag. -/
def ownDelta (path : CompPath) (b a : EntryState) : ChangeSet :=
  match classify (some b) (some a) with
  | some .content => { contentModified := [⟨path, b, a⟩] }
  | some .metadata => { metadataModified := [⟨path, b, a⟩] }
  | some .type => { typeChanged := [⟨path, b, a⟩] }
  | _ => {}

omit [Env] in
theorem ownDelta_changes (path : CompPath) (b a : EntryState) :
    (ownDelta path b a).changes = match classify (some b) (some a) with
      | some tag => [⟨tag, path, some b, some a⟩]
      | none => [] := by
  unfold ownDelta
  cases h : classify (some b) (some a) with
  | none => rfl
  | some =>
    rcases classify_some_some h with rfl | rfl | rfl <;> rfl

omit [Env] in
theorem compareEntry_of_not_both_dir {call : DiffCall} {ea eb : TreeEntry} (pre : CompPath)
    (hboth : ∀ a b, ea.payload = .dir a → eb.payload ≠ .dir b) (out : ChangeSet) :
    compareEntry call ea eb pre out = .ok (out ++ ownDelta (pre ++ [ea.name]) (.of ea) (.of eb)) := by
  cases ha : ea.payload <;> cases hb : eb.payload
  case dir.dir a b => exact absurd hb (hboth a b ha)
  all_goals
    simp only [compareEntry, ha, hb, ownDelta, classify, EntryState.of, EntryKind.fromPayload]
    split_ifs <;> simp_all [ChangeSet.append_eq, childPath]

omit [Env] in
theorem EntryState.isDir_of : (EntryState.of e).IsDir ↔ ∃ child, e.payload = .dir child := by
  cases hp : e.payload <;> simp [EntryState.IsDir, EntryState.of, EntryKind.fromPayload, hp]

/-- Two entries of one name: the cases of `compare_entry`. -/
theorem compareEntry_emits {st : Store} {call : DiffCall} {ea eb : TreeEntry} (pre : CompPath)
    (hcall : ∀ a b, ea.payload = .dir a → eb.payload = .dir b → CallExact st call (some a) (some b)) :
    Emits (compareEntry call ea eb pre) (under ea.name (flatEntry st ea))
      (under ea.name (flatEntry st eb)) pre := by
  intro out res hrun
  by_cases hboth : ∃ a b, ea.payload = .dir a ∧ eb.payload = .dir b
  · obtain ⟨a, b, ha, hb⟩ := hboth
    have hdir : (EntryState.of ea).IsDir ∧ (EntryState.of eb).IsDir :=
      ⟨EntryState.isDir_of.2 ⟨a, ha⟩, EntryState.isDir_of.2 ⟨b, hb⟩⟩
    have hnone : classify (some (EntryState.of ea)) (some (EntryState.of eb)) = none := by
      have ha' : (EntryState.of ea).kind = .dir := hdir.1
      have hb' : (EntryState.of eb).kind = .dir := hdir.2
      simp [classify, ha', hb']
    have key : ∀ sub, Exact (flatOpt st (some a)) (flatOpt st (some b)) (pre ++ [ea.name]) sub →
        Exact (under ea.name (flatEntry st ea)) (under ea.name (flatEntry st eb)) pre sub := by
      intro sub hsub
      rw [← ChangeSet.empty_append sub]
      refine Exact.entry (by simp [flatEntry, hnone, ChangeSet.changes]) ?_ (fun _ => ?_)
      · rintro ⟨sb, sa, hsb, hsa, hne⟩
        cases hsb
        cases hsa
        exact absurd (iff_of_true hdir.1 hdir.2) hne
      · rwa [below_flatEntry_dir ha, below_flatEntry_dir hb]
    by_cases hab : a = b
    · subst hab
      refine ⟨{}, ?_, key {} (Exact.empty fun q => classify_self _)⟩
      simpa [compareEntry, ha, hb, eq_comm] using hrun
    · obtain ⟨sub, hres, hsub⟩ := hcall a b ha hb (pre ++ [ea.name]) out res
        (by simpa [compareEntry, ha, hb, hab, childPath] using hrun)
      exact ⟨sub, hres, key sub hsub⟩
  · have hnot : ∀ a b, ea.payload = .dir a → eb.payload ≠ .dir b :=
      fun a b ha hb => hboth ⟨a, b, ha, hb⟩
    rw [compareEntry_of_not_both_dir pre hnot out, Except.ok.injEq] at hrun
    refine ⟨_, hrun.symm, ?_⟩
    rw [← ChangeSet.append_empty (ownDelta _ _ _)]
    refine Exact.entry (ownDelta_changes _ _ _) (fun _ => rfl) (fun hsplit => ?_)
    -- not both directories and not split: neither is a directory
    have hleaf : (∀ a, ea.payload ≠ .dir a) ∧ ∀ b, eb.payload ≠ .dir b := by
      have hiff : (EntryState.of ea).IsDir ↔ (EntryState.of eb).IsDir := by
        by_contra hne
        exact hsplit ⟨_, _, rfl, rfl, hne⟩
      rw [EntryState.isDir_of, EntryState.isDir_of] at hiff
      refine ⟨fun a ha => ?_, fun b hb => ?_⟩
      · obtain ⟨b, hb⟩ := hiff.1 ⟨a, ha⟩
        exact hnot a b ha hb
      · obtain ⟨a, ha⟩ := hiff.2 ⟨b, hb⟩
        exact hnot a b ha hb
    rw [below_flatEntry_leaf hleaf.1, below_flatEntry_leaf hleaf.2]
    exact exact_none _

/-! ### The merge of two sibling lists -/

theorem flatEntries_eq_none {st : Store}
    (h : ∀ e ∈ l, e.name ≠ c) (r : CompPath) : flatEntries st l (c :: r) = none := by
  rw [flatEntries_cons, find?_eq_none.2 (by simpa using h)]
  rfl

theorem flatEntries_cons_eq_overlay (st : Store) (e : TreeEntry) (l : List TreeEntry) :
    flatEntries st (e :: l) = overlay e.name (flatEntry st e) (flatEntries st l) := by
  funext q
  cases q with
  | nil => simp [overlay]
  | cons c =>
    by_cases hc : e.name = c
    · subst hc
      simp [flatEntries_cons, overlay]
    · simp [flatEntries_cons, overlay, hc, Ne.symm hc]

theorem overlay_flatEntries {st : Store}
    (h : ∀ e ∈ l, e.name ≠ c) : overlay c (fun _ => none) (flatEntries st l) = flatEntries st l :=
  overlay_eq_self (flatEntries_nil_path st l) (flatEntries_eq_none h)

theorem Emits.siblings {st : Store} {pre : CompPath} (h₁ : Emits act (under c gb) (under c ga) pre)
    (h₂ : Emits rest (flatEntries st as) (flatEntries st bs) pre)
    (has : ∀ x ∈ as, c < x.name) (hbs : ∀ x ∈ bs, c < x.name) :
    Emits (fun out => act out >>= rest) (overlay c gb (flatEntries st as))
      (overlay c ga (flatEntries st bs)) pre := by
  intro out res hrun
  obtain ⟨mid, hrun₁, hrun₂⟩ := bind_eq_ok.1 hrun
  obtain ⟨d₁, rfl, hd₁⟩ := h₁ out mid hrun₁
  obtain ⟨d₂, rfl, hd₂⟩ := h₂ _ res hrun₂
  refine ⟨d₁ ++ d₂, ChangeSet.append_assoc _ _ _, hd₁.cons hd₂ ?_ ?_⟩
  · exact ⟨flatEntries_nil_path st as, flatEntries_eq_none fun x hx => (has x hx).ne'⟩
  · exact ⟨flatEntries_nil_path st bs, flatEntries_eq_none fun x hx => (hbs x hx).ne'⟩

omit [Env] in
theorem sorted_lt (h : (e :: l).Pairwise (fun x y => x.name < y.name)) : ∀ x ∈ l, e.name < x.name :=
  (pairwise_cons.1 h).1

section
variable {st : Store} {call : DiffCall} {pre : CompPath} (hcall : ∀ a b, CallExact st call a b)
include hcall

theorem emits_removed_head
    (has : (e :: as).Pairwise (fun x y => x.name < y.name)) (hbs : ∀ x ∈ bs, e.name < x.name)
    (hrest : Emits rest (flatEntries st as) (flatEntries st bs) pre) :
    Emits (fun out => flattenRemovedEntry call e pre out >>= rest)
      (flatEntries st (e :: as)) (flatEntries st bs) pre := by
  rw [flatEntries_cons_eq_overlay, ← overlay_flatEntries fun x hx => (hbs x hx).ne']
  exact (flattenRemovedEntry_emits pre fun child _ => hcall _ _).siblings hrest (sorted_lt has) hbs

theorem emits_added_head
    (hbs : (e :: bs).Pairwise (fun x y => x.name < y.name)) (has : ∀ x ∈ as, e.name < x.name)
    (hrest : Emits rest (flatEntries st as) (flatEntries st bs) pre) :
    Emits (fun out => flattenAddedEntry call e pre out >>= rest)
      (flatEntries st as) (flatEntries st (e :: bs)) pre := by
  rw [flatEntries_cons_eq_overlay, ← overlay_flatEntries fun x hx => (has x hx).ne']
  exact (flattenAddedEntry_emits pre fun child _ => hcall _ _).siblings hrest has (sorted_lt hbs)

theorem emits_compared_head {ea eb : TreeEntry} (has : (ea :: as).Pairwise (fun x y => x.name < y.name))
    (hbs : (eb :: bs).Pairwise (fun x y => x.name < y.name)) (hname : ea.name = eb.name)
    (hrest : Emits rest (flatEntries st as) (flatEntries st bs) pre) :
    Emits (fun out => compareEntry call ea eb pre out >>= rest)
      (flatEntries st (ea :: as)) (flatEntries st (eb :: bs)) pre := by
  rw [flatEntries_cons_eq_overlay, flatEntries_cons_eq_overlay, ← hname]
  exact (compareEntry_emits pre fun a b _ _ => hcall _ _).siblings hrest (sorted_lt has)
    (hname ▸ sorted_lt hbs)

/-- The merge of two nodes, by induction on the rounds. -/
theorem diffNodes_emits (rounds : Nat)
    (hrounds : as.length + bs.length ≤ rounds) (has : as.Pairwise (fun x y => x.name < y.name))
    (hbs : bs.Pairwise (fun x y => x.name < y.name)) :
    Emits (diffNodes call pre rounds as bs) (flatEntries st as) (flatEntries st bs) pre := by
  have hdone : Emits .ok (flatEntries st []) (flatEntries st []) pre := emits_ok fun q => by simp [classify]
  induction rounds generalizing as bs with
  | zero =>
    obtain rfl : as = [] := eq_nil_of_length_eq_zero (by omega)
    obtain rfl : bs = [] := eq_nil_of_length_eq_zero (by omega)
    exact hdone
  | succ rounds ih =>
    cases as with
    | nil =>
      cases bs with
      | nil => exact hdone
      | cons =>
        exact emits_added_head hcall hbs (by simp)
          (ih (by simpa using hrounds) .nil hbs.tail)
    | cons =>
      cases bs with
      | nil =>
        exact emits_removed_head hcall has (by simp)
          (ih (by simpa using hrounds) has.tail .nil)
      | cons =>
        simp only [length_cons] at hrounds
        intro out
        rw [diffNodes]
        split_ifs with h₁ h₂
        · refine emits_removed_head hcall has ?_ (ih (by simp; omega) has.tail hbs) out
          intro x hx
          rcases mem_cons.1 hx with rfl | hx
          · exact h₁
          · exact h₁.trans (sorted_lt hbs x hx)
        · refine emits_added_head hcall hbs ?_ (ih (by simp; omega) has hbs.tail) out
          intro x hx
          rcases mem_cons.1 hx with rfl | hx
          · exact h₂
          · exact h₂.trans (sorted_lt has x hx)
        · exact emits_compared_head hcall has hbs (le_antisymm (not_lt.1 h₂) (not_lt.1 h₁))
            (ih (by omega) has.tail hbs.tail) out

end

theorem loadEntries_ok {st : Store} {o : Option BlobId} (h : loadEntries st o = .ok l) :
    l.Pairwise (fun x y => x.name < y.name) ∧ flatOpt st o = flatEntries st l := by
  cases o with
  | none =>
    cases h
    exact ⟨.nil, by funext q; simp [flatOpt]⟩
  | some =>
    obtain ⟨node, hl, hnode⟩ := bind_eq_ok.1 h
    cases hnode
    refine ⟨(loadNode_valid hl).sorted, ?_⟩
    funext q
    simp [flatOpt, flat_eq_flatEntries hl]

theorem diffTreeIds_callExact (st : Store) (fuel : Nat) (older newer : Option BlobId) :
    CallExact st (diffTreeIds st fuel) older newer := by
  induction fuel generalizing older newer with
  | zero =>
    intro pre out res hrun
    cases hrun
  | succ fuel ih =>
    intro pre out res hrun
    rw [diffTreeIds] at hrun
    split at hrun
    · rename_i heq
      subst heq
      exact emits_ok (fun q => classify_self _) out res hrun
    obtain ⟨as, hla, hrun⟩ := bind_eq_ok.1 hrun
    obtain ⟨bs, hlb, hrun⟩ := bind_eq_ok.1 hrun
    obtain ⟨has, hfa⟩ := loadEntries_ok hla
    obtain ⟨bs', hfb⟩ := loadEntries_ok hlb
    rw [hfa, hfb]
    exact diffNodes_emits ih _ le_rfl has bs' out res hrun

/-! ### The walk returns on trees that are present -/

/-- An optional tree that is fully present within `n` levels. -/
def LoadsOpt (st : Store) (n : Nat) (o : Option BlobId) : Prop := ∀ id, o = some id → LoadsWithin st n id

omit [Env] in
/-- The merge returns if the calls below it do. -/
theorem diffNodes_returns {call : DiffCall} {pre : CompPath} (rounds : Nat)
    (hcall : ∀ a b, a ≠ b → (∀ x, a = some x → ∃ e ∈ as, e.payload = .dir x) →
      (∀ y, b = some y → ∃ e ∈ bs, e.payload = .dir y) → ∀ p out, ∃ res, call a b p out = .ok res)
    (out : ChangeSet) : ∃ res, diffNodes call pre rounds as bs out = .ok res := by
  induction rounds generalizing as bs out with
  | zero => exact ⟨out, rfl⟩
  | succ rounds ih =>
    have hremoved : ∀ {e as'}, as = e :: as' → ∃ res, flattenRemovedEntry call e pre out = .ok res := by
      rintro e as' rfl
      unfold flattenRemovedEntry
      split
      · rename_i child hp
        exact hcall _ _ (by simp) (by simpa using Or.inl hp) (by simp) _ _
      · exact ⟨_, rfl⟩
    have hadded : ∀ {e bs'}, bs = e :: bs' → ∃ res, flattenAddedEntry call e pre out = .ok res := by
      rintro e bs' rfl
      unfold flattenAddedEntry
      split
      · rename_i child hp
        exact hcall _ _ (by simp) (by simp) (by simpa using Or.inl hp) _ _
      · exact ⟨_, rfl⟩
    have hmono : ∀ as' bs', as' ⊆ as → bs' ⊆ bs → ∀ out, ∃ res,
        diffNodes call pre rounds as' bs' out = .ok res := by
      intro as' bs' ha hb out
      refine ih (fun a b hab hx hy => hcall a b hab ?_ ?_) out
      · exact fun x h => (hx x h).imp fun e he => ⟨ha he.1, he.2⟩
      · exact fun y h => (hy y h).imp fun e he => ⟨hb he.1, he.2⟩
    cases as with
    | nil =>
      cases bs with
      | nil => exact ⟨out, rfl⟩
      | cons =>
        obtain ⟨mid, hmid⟩ := hadded rfl
        simp only [diffNodes, hmid, ok_bind]
        exact hmono _ _ (List.Subset.refl _) (subset_cons_self _ _) mid
    | cons ea =>
      cases bs with
      | nil =>
        obtain ⟨mid, hmid⟩ := hremoved rfl
        simp only [diffNodes, hmid, ok_bind]
        exact hmono _ _ (subset_cons_self _ _) (List.Subset.refl _) mid
      | cons eb =>
        rw [diffNodes]
        split_ifs
        · obtain ⟨mid, hmid⟩ := hremoved rfl
          rw [hmid, ok_bind]
          exact hmono _ _ (subset_cons_self _ _) (List.Subset.refl _) mid
        · obtain ⟨mid, hmid⟩ := hadded rfl
          rw [hmid, ok_bind]
          exact hmono _ _ (List.Subset.refl _) (subset_cons_self _ _) mid
        · obtain ⟨mid, hmid⟩ : ∃ mid, compareEntry call ea eb pre out = .ok mid := by
            by_cases hboth : ∃ a b, ea.payload = .dir a ∧ eb.payload = .dir b
            · obtain ⟨a, b, ha, hb⟩ := hboth
              by_cases hab : a = b
              · exact ⟨out, by simp [compareEntry, ha, hb, hab]⟩
              · simp only [compareEntry, ha, hb, ne_eq, hab, not_false_eq_true, if_true]
                exact hcall _ _ (by simpa using hab) (by simpa using Or.inl ha)
                  (by simpa using Or.inl hb) _ _
            · exact ⟨_, compareEntry_of_not_both_dir pre (fun a b ha hb => hboth ⟨a, b, ha, hb⟩) out⟩
          rw [hmid, ok_bind]
          exact hmono _ _ (subset_cons_self _ _) (subset_cons_self _ _) mid

theorem loadEntries_present {st : Store} {n : Nat} {o : Option BlobId} (h : LoadsOpt st (n + 1) o) :
    ∃ l, loadEntries st o = .ok l ∧ ∀ e ∈ l, ∀ child, e.payload = .dir child → LoadsWithin st n child := by
  cases o with
  | none => exact ⟨[], rfl, by simp⟩
  | some id =>
    obtain ⟨node, hl, hc⟩ := h id rfl
    exact ⟨node.entries, by simp [loadEntries, hl], hc⟩

/-- With fuel for the depth of both trees the walk returns. -/
theorem diffTreeIds_returns {st : Store} {n fuel : Nat} (hfuel : n ≤ fuel)
    {older newer : Option BlobId} (hne : older ≠ newer) (ho : LoadsOpt st n older)
    (hn : LoadsOpt st n newer) (pre : CompPath) (out : ChangeSet) :
    ∃ res, diffTreeIds st fuel older newer pre out = .ok res := by
  induction n generalizing fuel older newer pre out with
  | zero =>
    -- no tree loads within zero levels, so both sides are absent and equal
    cases older with
    | some id => exact (ho id rfl).elim
    | none =>
      cases newer with
      | some id => exact (hn id rfl).elim
      | none => exact absurd rfl hne
  | succ n ih =>
    obtain ⟨f, rfl⟩ : ∃ f, fuel = f + 1 := ⟨fuel - 1, by omega⟩
    obtain ⟨as, hla, has⟩ := loadEntries_present ho
    obtain ⟨bs, hlb, hbs⟩ := loadEntries_present hn
    simp only [diffTreeIds, if_neg hne, hla, hlb]
    refine diffNodes_returns _ (fun a b hab hx hy p out => ?_) out
    refine ih (by omega) hab ?_ ?_ p out
    · intro x hax
      obtain ⟨e, he, hp⟩ := hx x hax
      exact has e he x hp
    · intro y hby
      obtain ⟨e, he, hp⟩ := hy y hby
      exact hbs e he y hp

end

end Ferry
