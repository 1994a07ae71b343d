import Ferry.Packs.Shared

/-! # Reading what has been accepted

A blob that `put_blob` has accepted is in the pools, or in the table, or a task
has it on its way from the one to the other. `get` looks into the pools and then,
in a section of its own, into the table: a blob that is on its way while it looks
is found in neither.
-/

namespace Ferry

open Lib List

section
variable [PackEnv]

variable {moves : List FolderMove} {t : StoreTask}

namespace SharedFolder

variable {B F : Set Bytes} {w w' : SharedFolder} {n j : Nat} {kind : BlobKind} {id : BlobId} {b : Bytes}

/-! ## Where a blob is -/

def Staged (w : SharedFolder) (n : Nat) (kind : BlobKind) (id : BlobId) : Prop :=
  ∃ h, w.handles[n]? = some h ∧ h.store.staging.contains kind id

def Carried (w : SharedFolder) (n : Nat) (kind : BlobKind) (id : BlobId) : Prop :=
  ∃ (i : Nat) (t : StoreTask), w.tasks[i]? = some (n, t) ∧ t.Carries kind id

def Located (w : SharedFolder) (n : Nat) (kind : BlobKind) (id : BlobId) : Prop :=
  ∃ h, w.handles[n]? = some h ∧ h.store.locations.Has kind id

/-- A task has the blob on its way, and it is not in the table. -/
def InTransit (w : SharedFolder) (n : Nat) (kind : BlobKind) (id : BlobId) : Prop :=
  w.Carried n kind id ∧ ¬ w.Located n kind id

def Known (w : SharedFolder) (n : Nat) (kind : BlobKind) (id : BlobId) : Prop :=
  w.Staged n kind id ∨ w.Carried n kind id ∨ w.Located n kind id

/-! ## One move -/

variable {i : Nat}

omit [PackEnv] in
theorem getElem?_set_of_some {α : Type} {l : List α} {a a' : α} (h : l[i]? = some a) :
    (l.set i a')[i]? = some a' :=
  List.getElem?_set_self (List.getElem?_eq_some_iff.1 h).1

omit [PackEnv] in
theorem getElem?_append_of_some {α : Type} {l l' : List α} {a : α} (h : l[i]? = some a) :
    (l ++ l')[i]? = some a :=
  (List.getElem?_append_left (List.getElem?_eq_some_iff.1 h).1).trans h

omit [PackEnv] in
theorem getElem?_append_some {α : Type} {l l' : List α} {a : α} (h : (l ++ l')[i]? = some a) :
    l[i]? = some a ∨ a ∈ l' := by
  by_cases hi : i < l.length
  · exact .inl ((getElem?_append_left hi).symm.trans h)
  · exact .inr (mem_of_getElem? ((getElem?_append_right (not_lt.1 hi)).symm.trans h))

/-- What a move does: it adds a handle or a task, or one task takes a step or waits. -/
inductive Change (B F : Set Bytes) (w : SharedFolder) : FolderMove → SharedFolder → Prop
  | adds {m : FolderMove} {w' : SharedFolder} (hm : ∀ i, m ≠ .step i)
      (handles : ∀ (n : Nat) h, w.handles[n]? = some h → w'.handles[n]? = some h)
      (tasks : ∀ (i : Nat) p, w.tasks[i]? = some p → w'.tasks[i]? = some p)
      (started : ∀ (i : Nat) p, w'.tasks[i]? = some p →
        w.tasks[i]? = some p ∨ ∃ call : SharedCall, p.2 = call.task) :
      Change B F w m w'
  | waits {i : Nat} (hwaits : ∀ n t h, w.tasks[i]? = some (n, t) → w.handles[n]? = some h →
      t.step (w.view h) = none) : Change B F w (.step i) w
  | acts {i n : Nat} {t t' : StoreTask} {h h' : StoreHandle} (htask : w.tasks[i]? = some (n, t))
      (hhandle : w.handles[n]? = some h) (hstep : t.step (w.view h) = some (t', h'))
      (heffect : StepEffect B F w.fmk t (w.view h) t' h') :
      Change B F w (.step i) { w with
        disk := h'.store.disk
        handles := w.handles.set n h'
        tasks := w.tasks.set i (n, t') }

/-- What one move does to the tasks and to the blobs on their way. -/
theorem Good.change (laws : CipherLaws) (hseals : CipherSeals) (hF : F.InjOn packNameOf) (hw : w.Good B F)
    {m : FolderMove} (hfits : w.MoveFits B F m) : Change B F w m (w.move m) := by
  cases m with
  | «open» draw =>
    rw [SharedFolder.move]
    cases openStore w.disk w.fmk draw with
    | error =>
      exact .adds (fun _ hm => by cases hm) (fun _ _ => id) (fun _ _ => id) (fun _ _ hin => .inl hin)
    | ok =>
      exact .adds (fun _ hm => by cases hm) (fun _ _ hin => getElem?_append_of_some hin) (fun _ _ => id)
        (fun _ _ hin => .inl hin)
  | start n call =>
    rw [SharedFolder.move]
    split
    · refine .adds (fun _ hm => by cases hm) (fun _ _ => id) (fun _ _ hin => getElem?_append_of_some hin)
        (fun i p hin => (getElem?_append_some hin).imp (fun hin => hin) fun hnew => ?_)
      exact ⟨call, by rw [mem_singleton.1 hnew]⟩
    · exact .adds (fun _ hm => by cases hm) (fun _ _ => id) (fun _ _ => id) (fun _ _ hin => .inl hin)
  | step i =>
    have hmoved := w.stepped i
    generalize w.move (.step i) = w' at hmoved ⊢
    cases hmoved with
    | waits hwaits => exact .waits hwaits
    | acts htask hhandle hstep => exact .acts htask hhandle hstep (hw.effect laws hseals hF hfits htask hhandle hstep)

namespace Change

variable {m : FolderMove} (hm : Change B F w m w')
include hm

theorem located (hin : w.Located n kind id) : w'.Located n kind id := by
  obtain ⟨h₁, hh₁, hhas⟩ := hin
  cases hm with
  | adds hno handles => exact ⟨h₁, handles n h₁ hh₁, hhas⟩
  | waits => exact ⟨h₁, hh₁, hhas⟩
  | @acts i n₀ t t' h h' htask hhandle hstep heffect =>
    by_cases hn : n₀ = n
    · subst hn
      rw [hhandle] at hh₁
      cases hh₁
      exact ⟨h', getElem?_set_of_some hhandle, heffect.located kind id hhas⟩
    · exact ⟨h₁, (getElem?_set_ne hn).trans hh₁, hhas⟩

theorem staged (hin : w.Staged n kind id) : w'.Staged n kind id ∨ w'.Carried n kind id := by
  obtain ⟨h₁, hh₁, hhas⟩ := hin
  cases hm with
  | adds hno handles => exact .inl ⟨h₁, handles n h₁ hh₁, hhas⟩
  | waits => exact .inl ⟨h₁, hh₁, hhas⟩
  | @acts i n₀ t t' h h' htask hhandle hstep heffect =>
    by_cases hn : n₀ = n
    · subst hn
      rw [hhandle] at hh₁
      cases hh₁
      rcases heffect.staged kind id hhas with hin | hin
      · exact .inl ⟨h', getElem?_set_of_some hhandle, hin⟩
      · exact .inr ⟨i, t', getElem?_set_of_some htask, hin⟩
    · exact .inl ⟨h₁, (getElem?_set_ne hn).trans hh₁, hhas⟩

theorem carried (hin : w.Carried n kind id) : w'.Carried n kind id ∨ w'.Located n kind id := by
  obtain ⟨i₁, t₁, ht₁, hhas⟩ := hin
  cases hm with
  | adds hno handles tasks => exact .inl ⟨i₁, t₁, tasks i₁ _ ht₁, hhas⟩
  | waits => exact .inl ⟨i₁, t₁, ht₁, hhas⟩
  | @acts i n₀ t t' h h' htask hhandle hstep heffect =>
    by_cases hi : i = i₁
    · subst hi
      rw [htask] at ht₁
      cases ht₁
      rcases heffect.carried kind id hhas with hin | hin
      · exact .inl ⟨i, t', getElem?_set_of_some htask, hin⟩
      · exact .inr ⟨h', getElem?_set_of_some hhandle, hin⟩
    · exact .inl ⟨i₁, t₁, (getElem?_set_ne hi).trans ht₁, hhas⟩

theorem known (hin : w.Known n kind id) : w'.Known n kind id := by
  rcases hin with hin | hin | hin
  · exact (hm.staged hin).elim .inl (.inr ∘ .inl)
  · exact .inr (hm.carried hin)
  · exact .inr (.inr (hm.located hin))

theorem others {p : Nat × StoreTask} (hp : w.tasks[i]? = some p) (hi : m ≠ .step i) :
    w'.tasks[i]? = some p := by
  cases hm with
  | adds hno handles tasks => exact tasks i p hp
  | waits => exact hp
  | @acts i₁ n₀ t t' h h' htask hhandle hstep heffect =>
    exact (getElem?_set_ne fun heq => hi (by rw [heq])).trans hp

theorem own (ht : w.tasks[i]? = some (n, t)) (hi : m = .step i) :
    (w' = w ∧ ∀ h, w.handles[n]? = some h → t.step (w.view h) = none) ∨
      ∃ h t' h', w.handles[n]? = some h ∧ t.step (w.view h) = some (t', h') ∧
        StepEffect B F w.fmk t (w.view h) t' h' ∧ w'.tasks[i]? = some (n, t') := by
  cases hm with
  | adds hno => exact absurd hi (hno i)
  | waits hwaits =>
    cases hi
    exact .inl ⟨rfl, fun h hh => hwaits n t h ht hh⟩
  | @acts i₁ n₀ t₁ t' h h' htask hhandle hstep heffect =>
    cases hi
    rw [htask] at ht
    cases ht
    exact .inr ⟨h, t', h', hhandle, hstep, heffect, getElem?_set_of_some htask⟩

end Change

/-- What `put_blob` has accepted, or is about to, is known to the handle. -/
def Kept (B : Set Bytes) (w : SharedFolder) : Prop :=
  ∀ (i n : Nat) t kind b id, w.tasks[i]? = some (n, t) → t.Promises kind b id →
    (b ∈ B ∧ Env.blake3 b = id) ∧ w.Known n kind id

/-- What `put_blob` has promised stays known, whoever moves. -/
theorem Kept.change {m : FolderMove} (hk : w.Kept B) (hm : Change B F w m w') : w'.Kept B := by
  intro i₁ n₁ t₁ kind b id ht₁ hpromises
  have hold : ∀ t, w.tasks[i₁]? = some (n₁, t) → t.Promises kind b id →
      (b ∈ B ∧ Env.blake3 b = id) ∧ w'.Known n₁ kind id := by
    intro t ht hp
    obtain ⟨hid, hknown⟩ := hk i₁ n₁ t kind b id ht hp
    exact ⟨hid, hm.known hknown⟩
  cases hm with
  | adds hno handles tasks started =>
    rcases started i₁ _ ht₁ with ht | ⟨call, hcall⟩
    · exact hold t₁ ht hpromises
    · dsimp only at hcall
      subst hcall
      cases call <;> cases hpromises
  | waits => exact hold t₁ ht₁ hpromises
  | @acts i n₀ t t' h h' htask hhandle hstep heffect =>
    by_cases hi : i = i₁
    · subst hi
      have heq := (getElem?_set_of_some htask).symm.trans ht₁
      cases heq
      rcases heffect.promised kind b id hpromises with hp | ⟨hid, hin | hin | hin⟩
      · exact hold t htask hp
      · exact ⟨hid, .inl ⟨h', getElem?_set_of_some hhandle, hin⟩⟩
      · exact ⟨hid, .inr (.inl ⟨i, _, ht₁, hin⟩)⟩
      · exact ⟨hid, .inr (.inr ⟨h', getElem?_set_of_some hhandle, hin⟩)⟩
    · exact hold t₁ ((getElem?_set_ne hi).symm.trans ht₁) hpromises

/-! ## What a `get` finds -/

theorem Good.kept_after (laws : CipherLaws) (hseals : CipherSeals) (hF : F.InjOn packNameOf) (hw : w.Good B F)
    (hk : w.Kept B) (hfits : Fits B F moves w) : (w.after moves).Kept B :=
  (Along.invariant (I := fun w => w.Good B F ∧ w.Kept B) hfits
    (fun _ _ hin hfits => ⟨hin.1.move laws hseals hF hfits, hin.2.change (hin.1.change laws hseals hF hfits)⟩)
    ⟨hw, hk⟩).2

/-- Whenever task `j`, a `get` of handle `n`, looks into the table, the blob is not on its way. -/
def LooksInTime (n j : Nat) (kind : BlobKind) (id : BlobId) : List FolderMove → SharedFolder → Prop :=
  Along fun w m => m = .step j → w.tasks[j]? = some (n, .getLocations kind id) → ¬ w.InTransit n kind id

section
variable (laws : CipherLaws) (hseals : CipherSeals) (hB : B.InjOn Env.blake3) (hF : F.InjOn packNameOf)
include laws hseals hF

theorem Good.reads_after (hw : w.Good B F) (hfits : Fits B F moves w)
    (ht : w.tasks[j]? = some (n, t)) (hreads : t.Reads kind id) :
    (∃ t', (w.after moves).tasks[j]? = some (n, t') ∧ t'.Reads kind id) ∧ LooksInTime n j kind id moves w := by
  induction moves generalizing w t with
  | nil => exact ⟨⟨t, ht, hreads⟩, trivial⟩
  | cons m moves ih =>
    have hgood := hw.move laws hseals hF hfits.1
    have hm := hw.change laws hseals hF hfits.1
    have hlooks : m = .step j → w.tasks[j]? = some (n, .getLocations kind id) → ¬ w.InTransit n kind id := by
      intro _ hlook
      rw [ht] at hlook
      cases hlook
      cases hreads
    obtain ⟨t', ht', hreads'⟩ : ∃ t', (w.move m).tasks[j]? = some (n, t') ∧ t'.Reads kind id := by
      by_cases hmj : m = .step j
      · rcases hm.own ht hmj with ⟨hstay, -⟩ | ⟨h, t', h', -, -, heffect, ht'⟩
        · exact ⟨t, by rw [hstay]; exact ht, hreads⟩
        · exact ⟨t', ht', heffect.reads kind id hreads⟩
      · exact ⟨t, hm.others ht hmj, hreads⟩
    obtain ⟨hdone, hrest⟩ := ih hgood hfits.2 ht' hreads'
    exact ⟨hdone, hlooks, hrest⟩

theorem Good.finished_after (hw : w.Good B F) (hfits : Fits B F moves w) {reply : Reply}
    (ht : w.tasks[j]? = some (n, .finished reply)) : (w.after moves).tasks[j]? = some (n, .finished reply) := by
  refine (Along.invariant (I := fun w => w.Good B F ∧ w.tasks[j]? = some (n, .finished reply)) hfits
    (fun w m hin hfits => ⟨hin.1.move laws hseals hF hfits, ?_⟩) ⟨hw, ht⟩).2
  have hm := hin.1.change laws hseals hF hfits
  by_cases hmj : m = .step j
  · rcases hm.own hin.2 hmj with ⟨hstay, -⟩ | ⟨h, t', h', -, hstep, -⟩
    · rw [hstay]
      exact hin.2
    · cases hstep
  · exact hm.others hin.2 hmj

variable {r : Except BlobError Bytes}

omit laws hseals hF in
include hB in
theorem Good.eq_ok_of_reads (hw : w.Good B F) (hb : b ∈ B) (hid : Env.blake3 b = id)
    (ht : w.tasks[j]? = some (n, .finished (.got kind id r)))
    (hreads : StoreTask.Reads kind id (.finished (.got kind id r))) : r = .ok b := by
  cases r with
  | error => cases hreads
  | ok b' =>
    obtain ⟨hb', hid'⟩ : b' ∈ B ∧ Env.blake3 b' = id := hw.tasks _ (mem_of_getElem? ht)
    rw [hB hb' hb (hid'.trans hid.symm)]

include hB in
/-- Once a task reads, its answer is settled and it does not look into the table again. -/
theorem Good.settled (hw : w.Good B F) (hfits : Fits B F moves w) (hb : b ∈ B)
    (hid : Env.blake3 b = id) (ht : w.tasks[j]? = some (n, t)) (hreads : t.Reads kind id)
    (hdone : (w.after moves).tasks[j]? = some (n, .finished (.got kind id r))) :
    r = .ok b ∧ LooksInTime n j kind id moves w := by
  obtain ⟨⟨t', ht', hreads'⟩, hlooks⟩ := hw.reads_after laws hseals hF hfits ht hreads
  rw [hdone] at ht'
  cases ht'
  exact ⟨(hw.after laws hseals hF hfits).eq_ok_of_reads hB hb hid hdone hreads', hlooks⟩

omit laws hseals hF in
theorem Good.handle (hw : w.Good B F) (ht : w.tasks[j]? = some (n, t)) :
    ∃ h, w.handles[n]? = some h :=
  ⟨_, getElem?_eq_getElem (hw.owned _ (mem_of_getElem? ht))⟩

include hB in
/-- A get that is to look into the table finds the blob exactly if it is not on its way then. -/
theorem Good.looks_iff (hw : w.Good B F) (hfits : Fits B F moves w) (hb : b ∈ B)
    (hid : Env.blake3 b = id) (ht : w.tasks[j]? = some (n, .getLocations kind id))
    (hknown : w.Carried n kind id ∨ w.Located n kind id)
    (hdone : (w.after moves).tasks[j]? = some (n, .finished (.got kind id r))) :
    r = .ok b ↔ LooksInTime n j kind id moves w := by
  induction moves generalizing w with
  | nil =>
    have heq := ht.symm.trans hdone
    cases heq
  | cons m moves ih =>
    have hgood := hw.move laws hseals hF hfits.1
    have hm := hw.change laws hseals hF hfits.1
    have hknown' : (w.move m).Carried n kind id ∨ (w.move m).Located n kind id :=
      hknown.elim hm.carried (.inr ∘ hm.located)
    by_cases hmj : m = .step j
    · obtain ⟨h, hhandle⟩ := hw.handle ht
      rcases hm.own ht hmj with ⟨-, hwaits⟩ | ⟨h₁, t', h', hhandle₁, hstep, heffect, ht'⟩
      · have hnone := hwaits h hhandle
        rw [StoreTask.step] at hnone
        split at hnone <;> cases hnone
      rw [hhandle] at hhandle₁
      cases hhandle₁
      have hlocated : w.Located n kind id ↔ h.store.locations.Has kind id := by
        constructor
        · rintro ⟨h₁, hh₁, hhas⟩
          rw [hhandle] at hh₁
          cases hh₁
          exact hhas
        · exact fun hhas => ⟨h, hhandle, hhas⟩
      rw [StoreTask.step] at hstep
      cases hcandidates : h.store.locations.candidates kind id with
      | nil =>
        have hno : ¬ w.Located n kind id := by
          rw [hlocated]
          rintro ⟨e, he, hkey⟩
          have hin : e ∈ h.store.locations.candidates kind id :=
            mem_filter.2 ⟨he, by simpa using hkey⟩
          rw [hcandidates] at hin
          cases hin
        have hmissed : (view w h).store.locations.candidates kind id = [] := hcandidates
        rw [hmissed] at hstep
        cases hstep
        have hfin := hgood.finished_after laws hseals hF hfits.2 ht'
        have heq := hfin.symm.trans hdone
        cases heq
        refine iff_of_false (fun hr => by cases hr) fun hlooks => ?_
        exact hlooks.1 hmj ht ⟨hknown.resolve_right hno, hno⟩
      | cons e todo =>
        have hfound : (view w h).store.locations.candidates kind id = e :: todo := hcandidates
        rw [hfound] at hstep
        cases hstep
        have hyes : w.Located n kind id := by
          have hin : e ∈ h.store.locations.candidates kind id := by simp [hcandidates]
          obtain ⟨he, hkey⟩ := mem_filter.1 hin
          exact hlocated.2 ⟨e, he, by simpa using hkey⟩
        obtain ⟨hr, hlooks⟩ := hgood.settled laws hseals hB hF hfits.2 hb hid ht' ⟨rfl, rfl⟩ hdone
        exact iff_of_true hr ⟨fun _ _ htransit => htransit.2 hyes, hlooks⟩
    · rw [ih hgood hfits.2 (hm.others ht hmj) hknown' hdone]
      exact ⟨fun hrest => ⟨fun heq => absurd heq hmj, hrest⟩, fun hall => hall.2⟩

include hB in
/-- The same for a get that has yet to look at what is staged. -/
theorem Good.starts_iff (hw : w.Good B F) (hfits : Fits B F moves w) (hb : b ∈ B)
    (hid : Env.blake3 b = id) (ht : w.tasks[j]? = some (n, .getStaged kind id)) (hknown : w.Known n kind id)
    (hdone : (w.after moves).tasks[j]? = some (n, .finished (.got kind id r))) :
    r = .ok b ↔ LooksInTime n j kind id moves w := by
  induction moves generalizing w with
  | nil =>
    have heq := ht.symm.trans hdone
    cases heq
  | cons m moves ih =>
    have hgood := hw.move laws hseals hF hfits.1
    have hm := hw.change laws hseals hF hfits.1
    have hlater : LooksInTime n j kind id moves (w.move m) ↔ LooksInTime n j kind id (m :: moves) w := by
      refine ⟨fun hrest => ⟨fun _ hlook => ?_, hrest⟩, fun hall => hall.2⟩
      have heq := ht.symm.trans hlook
      cases heq
    by_cases hmj : m = .step j
    · rcases hm.own ht hmj with ⟨hstay, -⟩ | ⟨h, t', h', hhandle, hstep, heffect, ht'⟩
      · rw [← hlater]
        exact ih hgood hfits.2 (by rw [hstay]; exact ht) (hm.known hknown) hdone
      have hslim := (hw.handles h (mem_of_getElem? hhandle)).slim
      rw [StoreTask.step] at hstep
      cases hstaged : h.store.staging.stagedBytes kind id with
      | some b' =>
        have hfound : (view w h).store.staging.stagedBytes kind id = some b' := hstaged
        rw [hfound] at hstep
        dsimp only at hstep
        rw [if_neg (not_not.2 (hslim.of_stagedBytes hstaged).2)] at hstep
        cases hstep
        obtain ⟨hr, hlooks⟩ := hgood.settled laws hseals hB hF hfits.2 hb hid ht' ⟨rfl, rfl⟩ hdone
        exact iff_of_true hr (hlater.1 hlooks)
      | none =>
        have hmissed : (view w h).store.staging.stagedBytes kind id = none := hstaged
        rw [hmissed] at hstep
        cases hstep
        have hno : ¬ w.Staged n kind id := by
          rintro ⟨h₁, hh₁, hcontains⟩
          rw [hhandle] at hh₁
          cases hh₁
          obtain ⟨b', -, hsome, -⟩ := hslim.stagedBytes hcontains
          rw [hstaged] at hsome
          cases hsome
        have hknown' := (hknown.resolve_left hno).elim hm.carried (.inr ∘ hm.located)
        rw [← hlater]
        exact hgood.looks_iff laws hseals hB hF hfits.2 hb hid ht' hknown' hdone
    · rw [ih hgood hfits.2 (hm.others ht hmj) (hm.known hknown) hdone, hlater]

end

end SharedFolder

/-! ## Every `get` returns -/

namespace SharedFolder

variable {B F : Set Bytes} {w : SharedFolder} {n j : Nat} {kind : BlobKind} {id : BlobId} {b : Bytes}

/-- A get returns if it is given enough turns, by induction on the steps left. -/
theorem get_returns {h : StoreHandle} (ht : w.tasks[j]? = some (n, t)) (hget : t.IsGet kind id)
    (hh : w.handles[n]? = some h) :
    ∃ k r, (w.after (List.replicate k (.step j))).tasks[j]? = some (n, .finished (.got kind id r)) := by
  induction hleft : t.left h using Nat.strong_induction_on generalizing w t h with
  | _ bound ih =>
    rcases t.get_step hget (w.view h) with ⟨r, rfl⟩ | ⟨t', h', hstep, hget', hless⟩
    · exact ⟨0, r, ht⟩
    have hmove : w.move (.step j) = { w with
        disk := h'.store.disk
        handles := w.handles.set n h'
        tasks := w.tasks.set j (n, t') } := by
      rw [move, ht]
      dsimp only
      rw [hh]
      dsimp only
      rw [hstep]
    have hbound : t'.left h' < bound := by
      rw [← hleft]
      exact hless
    obtain ⟨k, r, hdone⟩ := ih (t'.left h') hbound
      (w := w.move (.step j)) (by rw [hmove]; exact getElem?_set_of_some ht) hget'
      (by rw [hmove]; exact getElem?_set_of_some hh) rfl
    exact ⟨k + 1, r, hdone⟩

theorem Good.isGet_after (laws : CipherLaws) (hseals : CipherSeals) (hF : F.InjOn packNameOf) (hw : w.Good B F)
    (hfits : Fits B F moves w) (ht : w.tasks[j]? = some (n, t))
    (hget : t.IsGet kind id) : ∃ t', (w.after moves).tasks[j]? = some (n, t') ∧ t'.IsGet kind id := by
  refine (Along.invariant (I := fun w => w.Good B F ∧ ∃ t', w.tasks[j]? = some (n, t') ∧ t'.IsGet kind id) hfits
    (fun w m hin hfits => ⟨hin.1.move laws hseals hF hfits, ?_⟩) ⟨hw, t, ht, hget⟩).2
  obtain ⟨hgood, t, ht, hget⟩ := hin
  have hm := hgood.change laws hseals hF hfits
  by_cases hmj : m = .step j
  · rcases hm.own ht hmj with ⟨hstay, -⟩ | ⟨h, t', h', -, hstep, -, ht'⟩
    · exact ⟨t, by rw [hstay]; exact ht, hget⟩
    rcases t.get_step hget (w.view h) with ⟨r, rfl⟩ | ⟨t₁, h₁, hstep₁, hget₁, -⟩
    · cases hstep
    · rw [hstep] at hstep₁
      cases hstep₁
      exact ⟨t', ht', hget₁⟩
  · exact ⟨t, hm.others ht hmj, hget⟩

theorem kept_closed {fmk : ByteArr 32} {disk : PackDisk} : (closed fmk disk).Kept B :=
  fun _ _ _ _ _ _ hin => nomatch hin

/-- A `get` that starts when a `put_blob` of the bytes has returned comes to its end whatever the others do,
and it returns the bytes exactly if the blob is not on its way when it looks into the table. -/
theorem get_accepted_iff (laws : CipherLaws) (hseals : CipherSeals) (hB : B.InjOn Env.blake3)
    (hF : F.InjOn packNameOf) {fmk : ByteArr 32} {disk : PackDisk} (hfiles : disk.FilesIn F)
    (hintact : disk.Intact fmk B) {moves moves' : List FolderMove}
    (hfits : Fits B F (moves ++ .start n (.get kind id) :: moves') (closed fmk disk)) {i : Nat} {w' : SharedFolder}
    (hbefore : (closed fmk disk).after moves = w)
    (hput : w.tasks[i]? = some (n, .finished (.put kind b (.ok id))))
    (hafter : (w.move (.start n (.get kind id))).after moves' = w') :
    (∃ k r, (w'.after (List.replicate k (.step w.tasks.length))).tasks[w.tasks.length]? =
      some (n, .finished (.got kind id r))) ∧
    ∀ r, w'.tasks[w.tasks.length]? = some (n, .finished (.got kind id r)) →
      (r = .ok b ↔ LooksInTime n w.tasks.length kind id moves' (w.move (.start n (.get kind id)))) := by
  obtain ⟨hfits₁, hfits₂⟩ := Along.append hfits
  have hgood := (good_closed hfiles hintact).after laws hseals hF hfits₁
  have hkept := (good_closed hfiles hintact).kept_after laws hseals hF kept_closed hfits₁
  rw [hbefore] at hfits₂ hgood hkept
  obtain ⟨⟨hb, hid⟩, hknown⟩ := hkept i n _ kind b id hput rfl
  have hstart : (w.move (.start n (.get kind id))).tasks[w.tasks.length]? = some (n, .getStaged kind id) := by
    rw [move, if_pos (hgood.owned _ (mem_of_getElem? hput))]
    exact getElem?_concat_length
  have hgood₁ := hgood.move laws hseals hF hfits₂.1
  have hknown₁ := (hgood.change laws hseals hF hfits₂.1).known hknown
  constructor
  · obtain ⟨t, ht, hget⟩ := hgood₁.isGet_after laws hseals hF hfits₂.2 hstart ⟨rfl, rfl⟩
    obtain ⟨h, hh⟩ := (hgood₁.after laws hseals hF hfits₂.2).handle ht
    rw [hafter] at ht hh
    exact get_returns ht hget hh
  · intro r hdone
    rw [← hafter] at hdone
    exact hgood₁.starts_iff laws hseals hB hF hfits₂.2 hb hid hstart hknown₁ hdone

end SharedFolder

end

namespace Sample

def putThenDrained : List FolderMove :=
  [.open 0, .start 0 (.putBlob .dataChunk [7]), .step 0, .step 0, .step 0, .start 0 .flush, .step 1]

def onlyPut : List FolderMove := [.open 0, .start 0 (.putBlob .dataChunk [7]), .step 0, .step 0, .step 0]

theorem fits_onlyPut : SharedFolder.Fits {[7]} ∅ (onlyPut ++ [.start 0 (.get .dataChunk (Env.blake3 [7])), .step 1])
    (SharedFolder.closed zeroId emptyDisk) := by
  refine ⟨trivial, trivial, ?_, ?_, ?_, trivial, ?_, trivial⟩
  all_goals
    rintro n t h ht -
    cases ht
    trivial

end Sample

open Sample in
/-- The chunk has been accepted, and a `get` of it finds nothing. -/
theorem accepted_missed : ∃ moves moves' w w' e, (SharedFolder.closed zeroId emptyDisk).after moves = w ∧
    w.tasks[0]? = some (0, .finished (.put .dataChunk [7] (.ok (Env.blake3 [7])))) ∧
    (w.move (.start 0 (.get .dataChunk (Env.blake3 [7])))).after moves' = w' ∧
    w'.tasks[w.tasks.length]? = some (0, .finished (.got .dataChunk (Env.blake3 [7]) (.error e))) :=
  ⟨putThenDrained, [.step 2, .step 2], _, _, _, rfl, rfl, rfl, rfl⟩

open Sample in
/-- The chunk is still in the pools when it is read. -/
theorem get_accepted_iff_staged : ∃ w w', (SharedFolder.closed zeroId emptyDisk).after onlyPut = w ∧
    (w.move (.start 0 (.get .dataChunk (Env.blake3 [7])))).after [.step 1] = w' ∧
    ((∃ k r, (w'.after (List.replicate k (.step 1))).tasks[1]? =
      some (0, .finished (.got .dataChunk (Env.blake3 [7]) r))) ∧
    ∀ r, w'.tasks[1]? = some (0, .finished (.got .dataChunk (Env.blake3 [7]) r)) →
      (r = .ok [7] ↔ SharedFolder.LooksInTime 0 1 .dataChunk (Env.blake3 [7]) [.step 1]
        (w.move (.start 0 (.get .dataChunk (Env.blake3 [7])))))) :=
  ⟨_, _, rfl, rfl, SharedFolder.get_accepted_iff cipherLaws cipherSeals (Set.injOn_singleton ..) (Set.injOn_empty _)
    (emptyDisk_filesIn _) (emptyDisk_intact _) fits_onlyPut (i := 0) rfl rfl rfl⟩

end Ferry
