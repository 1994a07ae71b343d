import Ferry.Materialize.Inside

/-! # Remembered spellings

`resolve` looks a name up in the listing that the applier remembers of its
directory. An entry that is written into a directory not listed so far leaves a
listing with this entry alone, and from then on other spellings in it are not
found. `Steady` is what an act must find for the listings to stay complete: the
directory it writes into is listed, or every other name in it is in normal form.
Listings are kept by written path, so no link may lead to a listed directory.
-/

namespace Ferry

open Lib List Function

section
variable [Env]

/-! ## Looking without a memory -/

/-- What `resolve` answers if it lists every directory that it looks into. -/
def lookFrom (policy : AmbiguityPolicy) (d : Disk) : CompPath → CompPath → Except MaterializeError CompPath
  | cur, [] => .ok cur
  | cur, comp :: rest =>
    match d.symlinkMetadata (cur ++ [comp]) with
    | .ok _ => lookFrom policy d (cur ++ [comp]) rest
    | .error _ =>
      match pick (scanDirFold d cur) cur (Env.nfc comp) policy with
      | .error e => .error e
      | .ok live => lookFrom policy d (cur ++ [live.getD comp]) rest

/-- A name in `P` that is not there under its own spelling is found as in a fresh listing. -/
def Answers (d : Disk) (P : String → Prop) (cache : FoldCache) : Prop :=
  ∀ dir f, cache dir = some f → ∀ comp, P comp → ∀ e, d.symlinkMetadata (dir ++ [comp]) = .error e →
    pick f dir (Env.nfc comp) .refuse = pick (scanDirFold d dir) dir (Env.nfc comp) .refuse

variable {d : Disk} {P : String → Prop} {cache : FoldCache}

omit [Env] in
theorem update_eq_some {κ α : Type} [DecidableEq κ] {m : κ → Option α} {k k' : κ} {v v' : α}
    (h : update m k (some v) k' = some v') : (k' = k ∧ v' = v) ∨ (k' ≠ k ∧ m k' = some v') := by
  by_cases heq : k' = k
  · subst heq
    rw [update_self] at h
    exact .inl ⟨rfl, (Option.some.inj h).symm⟩
  · rw [update_of_ne heq] at h
    exact .inr ⟨heq, h⟩

theorem listing_eq_some {dir dir' : CompPath} {f : DirFold} (h : (cache.listing d dir).2 dir' = some f) :
    cache dir' = some f ∨ (dir' = dir ∧ f = scanDirFold d dir') := by
  unfold FoldCache.listing at h
  cases hc : cache dir with
  | some g =>
    rw [hc] at h
    exact .inl h
  | none =>
    rw [hc] at h
    rcases update_eq_some h with ⟨rfl, rfl⟩ | ⟨-, hold⟩
    · exact .inr ⟨rfl, rfl⟩
    · exact .inl hold

/-- The listings only change where `resolve` has to look, and the answer is that of a look without a memory. -/
theorem Answers.resolveFrom (h : Answers d P cache) (cur : CompPath) {rel : CompPath} (hrel : ∀ c ∈ rel, P c) :
    (∃ e, Ferry.resolveFrom .refuse d cur rel cache = .error e ∧ lookFrom .refuse d cur rel = .error e) ∨
      ∃ a cache', Ferry.resolveFrom .refuse d cur rel cache = .ok (a, cache') ∧
        lookFrom .refuse d cur rel = .ok a ∧ Answers d P cache' := by
  induction rel generalizing cur cache with
  | nil => exact .inr ⟨cur, cache, rfl, rfl, h⟩
  | cons comp rest ih =>
    obtain ⟨hcomp, hrest⟩ := forall_mem_cons.1 hrel
    unfold Ferry.resolveFrom lookFrom
    cases hmd : d.symlinkMetadata (cur ++ [comp]) with
    | ok => exact ih h _ hrest
    | error x =>
      have hpick : pick (cache.listing d cur).1 cur (Env.nfc comp) .refuse =
          pick (scanDirFold d cur) cur (Env.nfc comp) .refuse := by
        unfold FoldCache.listing
        cases hc : cache cur with
        | none => rfl
        | some f => exact h cur f hc comp hcomp x hmd
      have hnext : Answers d P (cache.listing d cur).2 := by
        intro dir f hf
        rcases listing_eq_some hf with hold | ⟨-, rfl⟩
        · exact h dir f hold
        · exact fun _ _ _ _ => rfl
      simp only [matchLive, hpick]
      cases pick (scanDirFold d cur) cur (Env.nfc comp) .refuse with
      | error e => exact .inl ⟨e, rfl, rfl⟩
      | ok live => cases live <;> exact ih hnext _ hrest

theorem Answers.resolve {ap : Applier} {s : Exec} (h : Answers s.disk P s.fold) {rel : CompPath}
    (hrel : ∀ c ∈ rel, P c) : ap.resolve s rel = lookFrom .refuse s.disk ap.target rel := by
  unfold Applier.resolve
  rcases h.resolveFrom ap.target hrel with ⟨e, hrun, hlook⟩ | ⟨a, c, hrun, hlook, -⟩
  · rw [hrun, hlook]
    rfl
  · rw [hrun, hlook]
    rfl

/-! ## The place that is found -/

/-- The two paths are spelled alike: component by component they have one normal form. -/
def Alike (p q : CompPath) : Prop := p.map Env.nfc = q.map Env.nfc

omit [Env] in
/-- A name is found only if it has one spelling. -/
theorem pick_refuse {fold : DirFold} {dir : CompPath} {want : String} {live : Option String}
    (h : pick fold dir want .refuse = .ok live) : fold want = live.toList := by
  unfold pick at h
  split at h
  · cases h
    assumption
  · cases h
    assumption
  · rename_i h₀ h₁
    split at h
    · cases h
    · rename_i heq
      cases heq
    · -- sorting keeps the two names
      rename_i hsort _
      exfalso
      have hlen := length_insertionSort (· ≤ ·) (fold want)
      cases hs : (fold want).insertionSort (· ≤ ·) with
      | nil =>
        rw [hs] at hlen
        exact h₀ (length_eq_zero_iff.1 hlen.symm)
      | cons x xs =>
        cases xs with
        | nil =>
          rw [hs] at hlen
          obtain ⟨y, hy⟩ := length_eq_one_iff.1 hlen.symm
          exact h₁ y hy
        | cons y ys => exact hsort x y ys hs rfl

theorem nfc_of_mem_scan {dir : CompPath} {key name : String} (h : name ∈ scanDirFold d dir key) :
    Env.nfc name = key := by
  unfold scanDirFold at h
  split at h
  · cases h
  · exact of_decide_eq_true (mem_filter.1 h).2

/-- A path resolves to one that is spelled alike, component by component. -/
theorem lookFrom_alike {cur rel a : CompPath} (h : lookFrom .refuse d cur rel = .ok a) :
    ∃ q, a = cur ++ q ∧ Alike q rel := by
  induction rel generalizing cur with
  | nil =>
    cases h
    exact ⟨[], by simp, rfl⟩
  | cons comp rest ih =>
    have hnext : ∀ {name : String}, Env.nfc name = Env.nfc comp → lookFrom .refuse d (cur ++ [name]) rest = .ok a →
        ∃ q, a = cur ++ q ∧ Alike q (comp :: rest) := by
      intro name hname hrun
      obtain ⟨q, rfl, hq⟩ := ih hrun
      refine ⟨name :: q, by simp, ?_⟩
      show _ :: _ = _ :: _
      rw [hname, show q.map Env.nfc = rest.map Env.nfc from hq]
    unfold lookFrom at h
    split at h
    · exact hnext rfl h
    split at h
    · cases h
    rename_i live hpick
    cases live with
    | none => exact hnext rfl h
    | some name =>
      have hmem : name ∈ scanDirFold d cur (Env.nfc comp) := by simp [pick_refuse hpick]
      exact hnext (nfc_of_mem_scan hmem) h

theorem lookFrom_append {policy : AmbiguityPolicy} {cur p rest : CompPath}
    (h : ∀ e, e ≠ [] → e <+: p → ∃ i, d.symlinkMetadata (cur ++ e) = .ok i) :
    lookFrom policy d cur (p ++ rest) = lookFrom policy d (cur ++ p) rest := by
  induction p generalizing cur with
  | nil => simp
  | cons c p ih =>
    obtain ⟨i, hi⟩ := h [c] (by simp) ⟨p, rfl⟩
    rw [cons_append, lookFrom, hi]
    dsimp only
    rw [ih, append_assoc, singleton_append]
    intro e he hpre
    rw [append_assoc]
    exact h (c :: e) (by simp) (cons_prefix_cons.2 ⟨rfl, hpre⟩)

/-! ## Complete listings -/

/-- A listing of the directory `dir`, to which no link leads. It holds every spelling of a name in normal form
but perhaps the name itself, which is found without it. -/
structure FullListing (d : Disk) (dir : CompPath) (f : DirFold) : Prop where
  plain : PlainPath dir
  noLink : d.NoLink dir
  self : ¬ d.LinkAt dir
  nodup : ∀ key, (f key).Nodup
  live : ∀ key, ∀ name ∈ f key, Env.nfc name = key ∧ d.get (dir ++ [name]) ≠ none
  complete : ∀ name, d.get (dir ++ [name]) ≠ none → Env.nfc name ≠ name → name ∈ f (Env.nfc name)

/-- Every listing that is remembered is complete. -/
def Remembers (d : Disk) (cache : FoldCache) : Prop := ∀ dir f, cache dir = some f → FullListing d dir f

/-- The answers are those of a fresh look at the directories. -/
def Exec.LooksFresh (ap : Applier) (s : Exec) : Prop :=
  ∀ rel, StoredPath rel → ap.resolve s rel = ap.resolve { s with fold := fun _ => none } rel

section
variable {dir a : CompPath} {f : DirFold} {name : String}

omit [Env] in
theorem noLink_concat (hno : d.NoLink dir) (hself : ¬ d.LinkAt dir) (c : String) : d.NoLink (dir ++ [c]) := by
  intro e he habove t m hget
  obtain ⟨hpre, hne⟩ := above_iff_isPrefix.1 habove
  rcases (prefix_concat_iff.1 hpre).resolve_left hne with hpre
  by_cases heq : e = dir
  · exact hself ⟨t, m, heq ▸ hget⟩
  · exact hno e he (above_iff_isPrefix.2 ⟨hpre, heq⟩) t m hget

theorem mem_scan (hplain : PlainPath dir) (hno : d.NoLink dir) (hself : ¬ d.LinkAt dir) {key : String} :
    name ∈ scanDirFold d dir key ↔ Env.nfc name = key ∧ d.get (dir ++ [name]) ≠ none := by
  unfold scanDirFold
  cases hread : d.readDir dir with
  | ok names =>
    obtain ⟨-, rfl⟩ := Disk.readDir_noLinks hplain hno (fun t m h => hself ⟨t, m, h⟩) hread
    simp [and_comm, Disk.mem_names]
  | error e =>
    simp only [not_mem_nil, false_iff, not_and, not_not]
    intro _
    by_contra hget
    have hdir : d.DirAt dir := Disk.Open.dirAt_of_ne_none hget
    simp [Disk.readDir, Disk.follow_of_dirAt hplain hdir, hdir] at hread

omit [Env] in
theorem nodup_scan [Env] (d : Disk) (dir : CompPath) (key : String) : (scanDirFold d dir key).Nodup := by
  unfold scanDirFold
  cases hread : d.readDir dir with
  | error => exact nodup_nil
  | ok names =>
    unfold Disk.readDir at hread
    (repeat' split at hread) <;> cases hread
    exact (nodup_namesBelow _ _).filter _

theorem listed_scan (hplain : PlainPath dir) (hno : d.NoLink dir) (hself : ¬ d.LinkAt dir) :
    FullListing d dir (scanDirFold d dir) where
  plain := hplain
  noLink := hno
  self := hself
  nodup := nodup_scan d dir
  live _ _ h := (mem_scan hplain hno hself).1 h
  complete _ hget _ := (mem_scan hplain hno hself).2 ⟨rfl, hget⟩

omit [Env] in
theorem pick_perm {f g : DirFold} {want : String} {policy : AmbiguityPolicy} (h : (f want).Perm (g want)) :
    pick f dir want policy = pick g dir want policy := by
  have hsort : (f want).insertionSort (· ≤ ·) = (g want).insertionSort (· ≤ ·) :=
    (((perm_insertionSort _ _).trans h).trans (perm_insertionSort _ _).symm).eq_of_pairwise'
      (pairwise_insertionSort _ _) (pairwise_insertionSort _ _)
  unfold pick
  rcases hf : f want with _ | ⟨x, _ | ⟨y, l⟩⟩
  · rw [hf] at h
    rw [nil_perm.1 h]
  · rw [hf] at h
    rw [singleton_perm.1 h]
  · rw [hf] at h
    have hlen := h.length_eq
    rcases hg : g want with _ | ⟨x', _ | ⟨y', l'⟩⟩
    · simp [hg] at hlen
    · simp [hg] at hlen
    · rw [hf, hg] at hsort
      simp only [hsort]

theorem Remembers.answers (h : Remembers d cache) :
    Answers d (fun c => Env.nfc c = c ∧ PlainName c) cache := by
  rintro dir f hf comp ⟨hnfc, hplain⟩ e herr
  have hl := h dir f hf
  rw [hnfc]
  refine pick_perm ((perm_ext_iff_of_nodup (hl.nodup comp) (nodup_scan d dir comp)).2 fun name => ?_)
  rw [mem_scan hl.plain hl.noLink hl.self]
  refine ⟨hl.live comp name, ?_⟩
  rintro ⟨rfl, hget⟩
  refine hl.complete name hget fun heq => ?_
  -- the name itself is not there
  rw [heq] at herr hplain
  obtain ⟨i, hi⟩ := Option.ne_none_iff_exists'.1 hget
  have hall : PlainPath (dir ++ [name]) := hl.plain.append (forall_mem_singleton.2 hplain)
  rw [(Disk.symlinkMetadata_eq_ok (by simp) hall (noLink_concat hl.noLink hl.self name)).2 hi] at herr
  cases herr

theorem Remembers.looksFresh {ap : Applier} {s : Exec} (h : Remembers s.disk s.fold) : s.LooksFresh ap := by
  intro rel hrel
  have hempty : Remembers s.disk fun _ => none := fun _ _ h => by cases h
  rw [h.answers.resolve hrel, Answers.resolve (s := { s with fold := fun _ => none }) hempty.answers hrel]

end

/-! ## What a step does to the listings -/

section
variable {a : CompPath} {d' : Disk}

/-- A path that leads through no link leaves complete listings of the directories on its way. -/
theorem Remembers.resolved (h : Remembers d cache) {cur rel : CompPath} {cache' : FoldCache}
    (hrun : resolveFrom .refuse d cur rel cache = .ok (a, cache')) (hplain : PlainPath a) (hno : d.NoLink a) :
    Remembers d cache' := by
  induction rel generalizing cur cache with
  | nil =>
    cases hrun
    exact h
  | cons comp rest ih =>
    unfold resolveFrom at hrun
    split at hrun
    · exact ih h hrun
    have hlist : ∀ {name : String},
        resolveFrom .refuse d (cur ++ [name]) rest (cache.listing d cur).2 = .ok (a, cache') → Remembers d cache' := by
      intro name hnext
      obtain ⟨q, rfl, -⟩ := resolveFrom_append hnext
      have habove : Above cur (cur ++ [name] ++ q) := by
        rw [append_assoc]
        exact above_append (by simp)
      refine ih (fun dir f hf => ?_) hnext
      rcases listing_eq_some hf with hold | ⟨rfl, rfl⟩
      · exact h dir f hold
      refine listed_scan (hplain.of_prefix (above_iff_isPrefix.1 habove).1)
        (fun e he hab => hno e he (hab.trans habove)) ?_
      rintro ⟨t, m, hget⟩
      exact hno dir (d.isTree.ne_nil hget) habove t m hget
    unfold matchLive at hrun
    dsimp only at hrun
    split at hrun
    · cases hrun
    · rename_i hm
      split at hm <;> cases hm
      exact hlist hrun
    · rename_i hm
      split at hm <;> cases hm
      exact hlist hrun

/-- Where no link appears on the way to the directory, only the names in it matter. -/
theorem FullListing.of_links {dir : CompPath} {f f' : DirFold} (h : FullListing d dir f)
    (hlink : ∀ e, e <+: dir → d'.LinkAt e → d.LinkAt e) (hnodup : ∀ key, (f' key).Nodup)
    (hlive : ∀ key, ∀ name ∈ f' key, Env.nfc name = key ∧ d'.get (dir ++ [name]) ≠ none)
    (hcomplete : ∀ name, d'.get (dir ++ [name]) ≠ none → Env.nfc name ≠ name → name ∈ f' (Env.nfc name)) :
    FullListing d' dir f' := by
  refine ⟨h.plain, fun e he habove t m hget => ?_, fun hd => h.self (hlink dir (prefix_refl _) hd), hnodup, hlive,
    hcomplete⟩
  obtain ⟨t', m', hget'⟩ := hlink e (above_iff_isPrefix.1 habove).1 ⟨t, m, hget⟩
  exact h.noLink e he habove t' m' hget'

/-- A disk with the same entries, up to what they hold. -/
theorem Remembers.same (h : Remembers d cache) (hnone : ∀ q, d'.get q = none ↔ d.get q = none)
    (hlink : ∀ q, d'.LinkAt q → d.LinkAt q) : Remembers d' cache := by
  intro dir f hf
  have hl := h dir f hf
  refine hl.of_links (fun e _ => hlink e) hl.nodup ?_ fun name hget => hl.complete name (mt (hnone _).2 hget)
  exact fun key name hn => (hl.live key name hn).imp_right fun hget => mt (hnone _).1 hget

/-- A listing that is left after a removal: an old one, without the name that went. -/
theorem noteRemoved_eq_some {p dir : CompPath} {c : String} {deep : Bool} {f' : DirFold}
    (h : cache.noteRemoved (p ++ [c]) deep dir = some f') : ¬ (deep = true ∧ p ++ [c] <+: dir) ∧
      ∃ f, cache dir = some f ∧ ((dir ≠ p ∧ f' = f) ∨
        (dir = p ∧ f' = update f (Env.nfc c) ((f (Env.nfc c)).filter (· ≠ c)))) := by
  have hp : ¬ (deep = true ∧ p ++ [c] <+: p) := fun hpre => by
    have := hpre.2.length_le
    simp at this
  simp only [FoldCache.noteRemoved, getLast?_concat, dropLast_concat, if_neg hp] at h
  have hkeep : ∀ {g : DirFold}, (if deep = true ∧ p ++ [c] <+: dir then none else cache dir) = some g →
      ¬ (deep = true ∧ p ++ [c] <+: dir) ∧ cache dir = some g := by
    intro g hg
    split at hg
    · cases hg
    · exact ⟨‹_›, hg⟩
  cases hparent : cache p with
  | none =>
    rw [hparent] at h
    obtain ⟨hnot, hold⟩ := hkeep h
    refine ⟨hnot, f', hold, .inl ⟨?_, rfl⟩⟩
    rintro rfl
    cases hparent.symm.trans hold
  | some g =>
    rw [hparent] at h
    rcases update_eq_some h with ⟨rfl, rfl⟩ | ⟨hdir, hold⟩
    · exact ⟨hp, g, hparent, .inr ⟨rfl, rfl⟩⟩
    · obtain ⟨hnot, hold⟩ := hkeep hold
      exact ⟨hnot, f', hold, .inl ⟨hdir, rfl⟩⟩

/-- What is removed is taken out of its listing; what is listed below a directory goes with it. -/
theorem Remembers.removed (h : Remembers d cache) (hne : a ≠ []) {deep : Bool}
    (hdeep : deep = true ∨ d.get a ≠ some .dir) : Remembers (d.removeTree a) (cache.noteRemoved a deep) := by
  obtain ⟨p, c, rfl⟩ : ∃ p c, a = p ++ [c] := ⟨_, _, (dropLast_append_getLast hne).symm⟩
  intro dir f' hf'
  obtain ⟨hnot, f, hf, hcase⟩ := noteRemoved_eq_some hf'
  have hl := h dir f hf
  have hmem : ∀ key name, name ∈ f' key ↔ name ∈ f key ∧ ¬ (dir = p ∧ name = c) := by
    intro key name
    rcases hcase with ⟨hdir, rfl⟩ | ⟨rfl, rfl⟩
    · simp [hdir]
    · by_cases hk : key = Env.nfc c
      · subst hk
        simp
      · rw [update_of_ne hk]
        refine ⟨fun hn => ⟨hn, ?_⟩, fun hn => hn.1⟩
        rintro ⟨-, rfl⟩
        exact hk (hl.live key name hn).1.symm
  have hnodup : ∀ key, (f' key).Nodup := by
    intro key
    rcases hcase with ⟨-, rfl⟩ | ⟨-, rfl⟩
    · exact hl.nodup key
    · by_cases hk : key = Env.nfc c
      · subst hk
        rw [update_self]
        exact (hl.nodup _).filter _
      · rw [update_of_ne hk]
        exact hl.nodup key
  have hget : ∀ q, (d.removeTree (p ++ [c])).get q = if p ++ [c] <+: q then none else d.get q := fun q => by
    rw [Disk.get_removeTree, cut]
  refine hl.of_links ?_ hnodup (fun key name hn => ?_) fun name hsome hnfc => (hmem _ _).2 ?_
  · rintro e - ⟨t, m, he⟩
    rw [hget] at he
    split at he
    · cases he
    · exact ⟨t, m, he⟩
  · obtain ⟨hn, hother⟩ := (hmem key name).1 hn
    obtain ⟨hnfc, hsome⟩ := hl.live key name hn
    refine ⟨hnfc, ?_⟩
    rw [hget, if_neg]
    · exact hsome
    intro hpre
    rcases prefix_concat_iff.1 hpre with heq | hpre'
    · obtain ⟨rfl, hc⟩ := append_inj' heq rfl
      exact hother ⟨rfl, (List.cons.inj hc).1.symm⟩
    -- a listing below a file or link that is left has no names
    · have hlt : Above (p ++ [c]) (dir ++ [name]) := above_iff_isPrefix.2 ⟨hpre, fun heq => by
        have := hpre'.length_le
        simp [heq] at this⟩
      obtain ⟨i, hi, hdir⟩ := d.isTree.parent (by simp) hlt hsome
      exact hdeep.elim (fun hd => hnot ⟨hd, hpre'⟩) fun hd => hd (by rw [hi, hdir])
  · rw [hget] at hsome
    split at hsome
    · exact absurd rfl hsome
    · rename_i hpre
      refine ⟨hl.complete name hsome hnfc, ?_⟩
      rintro ⟨rfl, rfl⟩
      exact hpre (prefix_refl _)

/-- The directory is listed, or every other name in it is in normal form. -/
def Known (d : Disk) (cache : FoldCache) (a : CompPath) : Prop :=
  (cache a.dropLast).isSome ∨ ∀ name ∈ d.names a.dropLast, name ≠ a.getLastD "" → Env.nfc name = name

/-- What is created joins its listing. -/
theorem Remembers.created (h : Remembers d cache) (hne : a ≠ []) (hplain : PlainPath a) (hno : d.NoLink a)
    (hknown : Known d cache a) (hsame : ∀ q, q ≠ a → d'.get q = d.get q) (hnew : d'.get a ≠ none)
    (hlink : d'.LinkAt a → d.LinkAt a ∨ ∀ dir, a <+: dir → cache dir = none) :
    Remembers d' (cache.noteCreatedAt a) := by
  obtain ⟨p, c, rfl⟩ : ∃ p c, a = p ++ [c] := ⟨_, _, (dropLast_append_getLast hne).symm⟩
  simp only [Known, dropLast_concat, getLastD_concat, Disk.mem_names] at hknown
  have hlinks : ∀ {dir : CompPath}, (cache dir).isSome → ∀ e, e <+: dir → d'.LinkAt e → d.LinkAt e := by
    intro dir hsome e hpre hat
    by_cases heq : e = p ++ [c]
    · subst heq
      rcases hlink hat with hold | hnone
      · exact hold
      · simp [hnone dir hpre] at hsome
    · obtain ⟨t, m, he⟩ := hat
      exact ⟨t, m, hsame e heq ▸ he⟩
  have hother : ∀ {name : String}, name ≠ c → d'.get (p ++ [name]) = d.get (p ++ [name]) := fun hname =>
    hsame _ fun heq => hname (by simpa using heq)
  intro dir f' hf'
  simp only [FoldCache.noteCreatedAt, getLast?_concat, dropLast_concat] at hf'
  rcases update_eq_some hf' with ⟨rfl, rfl⟩ | ⟨hdir, hf⟩
  swap
  · have hl := h dir f' hf
    have hout : ∀ name, d'.get (dir ++ [name]) = d.get (dir ++ [name]) := fun name =>
      hsame _ fun heq => hdir (append_inj' heq rfl).1
    refine hl.of_links (hlinks (by simp [hf])) hl.nodup (fun key name hn => ?_) fun name => ?_
    · rw [hout]
      exact hl.live key name hn
    · rw [hout]
      exact hl.complete name
  -- the listing that the new name joins
  generalize hg : (cache dir).getD (fun _ => []) = g
  have hmem : ∀ key name, name ∈ update g (Env.nfc c) (if c ∈ g (Env.nfc c) then g (Env.nfc c)
      else g (Env.nfc c) ++ [c]) key ↔ name ∈ g key ∨ (key = Env.nfc c ∧ name = c) := by
    intro key name
    by_cases hk : key = Env.nfc c
    · subst hk
      rw [update_self]
      split
      · refine ⟨.inl, ?_⟩
        rintro (hn | ⟨-, rfl⟩) <;> assumption
      · simp
    · rw [update_of_ne hk]
      simp [hk]
  have hnodup : (∀ key, (g key).Nodup) → ∀ key, (update g (Env.nfc c) (if c ∈ g (Env.nfc c) then g (Env.nfc c)
      else g (Env.nfc c) ++ [c]) key).Nodup := by
    intro hg key
    by_cases hk : key = Env.nfc c
    · subst hk
      rw [update_self]
      split
      · exact hg _
      · rename_i hnot
        exact (hg _).append (nodup_singleton c) (by simpa using hnot)
    · rw [update_of_ne hk]
      exact hg key
  cases hc : cache dir with
  | some g' =>
    rw [hc] at hg
    subst hg
    have hl := h dir g' hc
    refine hl.of_links (hlinks (by simp [hc])) (hnodup hl.nodup) (fun key name hn => ?_) fun name hsome hnfc => ?_
    · by_cases hname : name = c
      · subst hname
        refine ⟨?_, hnew⟩
        exact ((hmem key name).1 hn).elim (fun hn => (hl.live key name hn).1) fun hn => hn.1.symm
      · rw [hother hname]
        exact hl.live key name (((hmem key name).1 hn).resolve_right fun hn => hname hn.2)
    · by_cases hname : name = c
      · exact (hmem _ _).2 (.inr ⟨by rw [hname], hname⟩)
      · exact (hmem _ _).2 (.inl (hl.complete name (hother hname ▸ hsome) hnfc))
  | none =>
    rw [hc] at hg
    subst hg
    have hshort : ∀ e, e <+: dir → d'.get e = d.get e := fun e hpre => hsame e fun heq => by
      have := hpre.length_le
      simp [heq] at this
    have hup : ∀ e, e ≠ [] → e <+: dir → ¬ d'.LinkAt e := by
      rintro e he hpre ⟨t, m, hget⟩
      rw [hshort e hpre] at hget
      exact hno e he (above_iff_isPrefix.2 ⟨hpre.trans (prefix_append _ _), fun heq => by
        have := hpre.length_le
        simp [heq] at this⟩) t m hget
    refine ⟨hplain.of_prefix (prefix_append _ _), fun e he habove t m hget =>
      hup e he (above_iff_isPrefix.1 habove).1 ⟨t, m, hget⟩, fun hat => ?_, hnodup fun _ => nodup_nil, ?_, ?_⟩
    · obtain ⟨t, m, hget⟩ := hat
      exact hup dir (d'.isTree.ne_nil hget) (prefix_refl _) ⟨t, m, hget⟩
    · intro key name hn
      obtain ⟨rfl, rfl⟩ := ((hmem key name).1 hn).resolve_left (by simp)
      exact ⟨rfl, hnew⟩
    · intro name hsome hnfc
      by_cases hname : name = c
      · exact (hmem _ _).2 (.inr ⟨by rw [hname], hname⟩)
      · refine absurd ?_ hnfc
        exact (hknown.resolve_left (by simp [hc])) name (hother hname ▸ hsome) hname

end

/-! ## The acts -/

/-- An act at the place `abs` leaves the listings complete: it writes into a directory that is known, it finds
nothing under its temporary name, and it puts no link where a directory was listed. -/
def ApplierAct.Steady (d : Disk) (cache : FoldCache) (abs : CompPath) : ApplierAct → Prop
  | .look _ | .touch _ => True
  | .remove _ => abs ≠ []
  | .upsert up =>
    match up.mutation with
    | .mkdir .. => abs ≠ [] ∧ Known d cache abs
    | .writeFile .. => abs ≠ [] ∧ Known d cache abs ∧ d.get (tempPath abs up.path) = none
    | .writeSymlink .. => abs ≠ [] ∧ Known d cache abs ∧ d.get (tempPath abs up.path) = none ∧
      (d.get abs = some .dir ∨ ∀ dir, abs <+: dir → cache dir = none)
    | _ => True

/-- What the act finds at its turn, once its own path is resolved. -/
def Steady (ap : Applier) (s : Exec) (a : ApplierAct) : Prop :=
  match resolveFrom .refuse s.disk ap.target a.path s.fold with
  | .error _ => True
  | .ok (abs, fold) => PlainPath abs ∧ s.disk.NoLink abs ∧ a.Steady s.disk fold abs

section
variable {ap : Applier} {s : Exec} {abs : CompPath}

/-- The invariant of a run. -/
abbrev Mindful (s : Exec) : Prop := Remembers s.disk s.fold

theorem mindful_times {at_ : CompPath} {call : Disk → Except Errno Disk}
    (h : ∀ d d', call d = .ok d' → d.TimesOnly d') : Keeps Mindful (change at_ call) :=
  keeps_change fun _ hs _ hrun => Remembers.same hs (h _ _ hrun).get_eq_none fun _ => (h _ _ hrun).linkAt

/-- Clearing the place keeps its directory known. -/
theorem Known.without (h : Known s.disk s.fold abs) (hne : abs ≠ []) (deep : Bool) :
    Known (s.without abs deep).disk (s.without abs deep).fold abs := by
  obtain ⟨p, c, rfl⟩ : ∃ p c, abs = p ++ [c] := ⟨_, _, (dropLast_append_getLast hne).symm⟩
  have hp : ¬ (deep = true ∧ p ++ [c] <+: p) := fun hpre => by
    have := hpre.2.length_le
    simp at this
  refine h.imp (fun hsome => ?_) fun hnames name hname => hnames name (Disk.mem_names.2 fun hnone => ?_)
  · simp only [Exec.without, FoldCache.noteRemoved, getLast?_concat, dropLast_concat, if_neg hp] at hsome ⊢
    cases hc : s.fold p with
    | none => simp [hc] at hsome
    | some => simp
  · refine Disk.mem_names.1 hname ?_
    show (s.disk.removeTree _).get _ = none
    rw [Disk.get_removeTree, cut]
    split
    · rfl
    · exact hnone

section
variable (hs : Mindful s) (hne : abs ≠ []) (hplain : PlainPath abs) (hno : s.disk.NoLink abs)
  (hknown : Known s.disk s.fold abs)
include hs hne hplain hno hknown

theorem mindful_mkdir (t : PlannedTouch) : Triple (· = s) (do
      clearLeaf abs
      ensureDir abs
      noteCreatedAt abs
      pushTouch t) (fun _ => Mindful) fun _ => Mindful := by
  refine Triple.bind (Q := fun _ s₁ => Mindful s₁ ∧ s₁.disk.NoLink abs ∧ Known s₁.disk s₁.fold abs)
    (Triple.weaken (triple_clearLeaf hne hplain hno) (fun _ h => h) ?_ fun _ _ h => h ▸ hs) fun _ =>
      .of_each fun s₁ ⟨hs₁, hno₁, hknown₁⟩ => ?_
  · rintro _ s₁ (rfl | ⟨rfl, hleaf⟩)
    · exact ⟨hs, hno, hknown⟩
    · exact ⟨hs.removed hne (.inr hleaf.2), (Disk.acted_removeTree abs s.disk).noLink le_rfl hno,
        hknown.without hne false⟩
  refine Triple.bind ((triple_ensureDir hne hplain hno₁).fails fun _ _ h => h ▸ hs₁) fun _ => ?_
  refine Triple.bind (Q := fun _ => Mindful) (Triple.modify ?_) fun _ => Triple.modify fun _ h => h
  rintro s₂ (⟨rfl, hsome⟩ | ⟨-, hcan, rfl⟩)
  · exact hs₁.created hne hplain hno₁ hknown₁ (fun _ _ => rfl) hsome .inl
  · refine hs₁.created hne hplain hno₁ hknown₁ (fun q hq => by simp [hq]) (by simp) ?_
    rintro ⟨t, m, hget⟩
    simp at hget

/-- A file or link is written, and its name joins the listing. -/
theorem mindful_write {p : CompPath} (htemp : s.disk.get (tempPath abs p) = none) {Ok : Inode → Prop}
    (hlink : (∀ i t m, Ok i → i ≠ .symlink t m) ∨ s.disk.get abs = some .dir ∨ ∀ dir, abs <+: dir → s.fold dir = none)
    {m rest : ExecM Unit} (hm : ∀ s₁, s₁.disk.clock = s.disk.clock → s₁.disk.Vacant (tempPath abs p) →
      Triple (· = s₁) m
        (fun _ s' => ∃ i d, Ok i ∧ s₁.disk.renameOnto abs i = .ok d ∧ s' = { s₁ with disk := d })
        (fun _ s' => ∃ d : Disk, d.inodes = s₁.disk.inodes ∧ s' = { s₁ with disk := d }))
    (hrest : Keeps Mindful rest) :
    Triple (· = s) (do
      clearDir abs
      m
      noteCreatedAt abs
      rest) (fun _ => Mindful) fun _ => Mindful := by
  refine Triple.bind ((triple_clearDir hne hplain hno).fails fun _ _ h => h ▸ hs) fun _ => .of_each fun s₁ h₁ => ?_
  have hclock : s₁.disk.clock = s.disk.clock := by rcases h₁ with ⟨rfl, -⟩ | ⟨rfl, -⟩ <;> rfl
  have hs₁ : Mindful s₁ := by
    rcases h₁ with ⟨rfl, -⟩ | ⟨rfl, -⟩
    · exact hs
    · exact hs.removed hne (.inl rfl)
  have hknown₁ : Known s₁.disk s₁.fold abs := by
    rcases h₁ with ⟨rfl, -⟩ | ⟨rfl, -⟩
    · exact hknown
    · exact hknown.without hne true
  refine Triple.bind (Triple.fails (triple_place hne hplain (h₁.noLink hno) (h₁.get_eq_none htemp) (hm s₁ hclock)) ?_)
    fun _ => Triple.bind (Q := fun _ => Mindful) (Triple.modify ?_) fun _ => hrest
  · rintro _ s₂ ⟨d, hd, rfl⟩
    refine Remembers.same hs₁ (fun q => ?_) fun q => ?_
    · simp only [Disk.get, hd]
    · simp only [Disk.LinkAt, Disk.get, hd, imp_self]
  rintro s₂ ⟨-, i, hcan, hok, rfl⟩
  refine hs₁.created hne hplain (h₁.noLink hno) hknown₁ (fun q hq => by simp [hq]) (by simp) fun hat => .inr ?_
  rcases hlink with hnot | hlink
  · obtain ⟨t, m, hget⟩ := hat
    simp only [Disk.get_place, update_self, Option.some.injEq] at hget
    exact absurd hget (hnot i t m hok)
  -- what was listed below a directory is forgotten with it
  rcases h₁ with ⟨rfl, hdir⟩ | ⟨rfl, -⟩
  · exact hlink.resolve_left hdir
  · intro dir hpre
    obtain ⟨p', c, rfl⟩ : ∃ p c, abs = p ++ [c] := ⟨_, _, (dropLast_append_getLast hne).symm⟩
    by_contra hsome
    obtain ⟨f, hf⟩ := Option.ne_none_iff_exists'.1 hsome
    exact (noteRemoved_eq_some hf).1 ⟨rfl, hpre⟩

end

/-- The step lemma: a steady act keeps the remembered listings true. -/
theorem mindful_act {a : ApplierAct} : Triple (fun s => Mindful s ∧ Steady ap s a) (ap.act a) (fun _ => Mindful)
    fun _ => Mindful := by
  refine .of_each fun s ⟨hs, hsteady⟩ => ?_
  have hat : ∀ {f : CompPath → ExecM Unit}, (∀ abs fold, resolveFrom .refuse s.disk ap.target a.path s.fold =
      .ok (abs, fold) → Remembers s.disk fold → PlainPath abs → s.disk.NoLink abs → a.Steady s.disk fold abs →
      Triple (· = { s with fold := fold }) (f abs) (fun _ => Mindful) fun _ => Mindful) →
      Triple (· = s) (ap.abs a.path >>= f) (fun _ => Mindful) fun _ => Mindful := by
    refine fun hf => triple_resolve_bind (fun _ _ => hs) fun abs fold hres => ?_
    unfold Steady at hsteady
    rw [hres] at hsteady
    exact hf abs fold hres (hs.resolved hres hsteady.1 hsteady.2.1) hsteady.1 hsteady.2.1 hsteady.2.2
  cases a with
  | look => exact hat fun _ _ _ hfold _ _ _ => Triple.pure fun _ h => h ▸ hfold
  | touch t =>
    refine hat fun abs fold _ hfold _ _ _ => ?_
    refine Triple.weaken (P := Mindful) (Keeps.get_bind fun s' => ?_) (fun _ h => h ▸ hfold) (fun _ _ h => h)
      fun _ _ h => h
    dsimp only
    split
    · exact .pure _
    · exact .throw _
    split
    · exact .pure _
    refine (keeps_look _ _).bind fun _ => ?_
    split
    · exact .pure _
    · exact mindful_times fun _ _ h => Disk.setTimes_timesOnly h
  | remove rm =>
    refine triple_of_resolved (fun _ => hs) fun abs fold hres => ?_
    unfold Steady at hsteady
    rw [show resolveFrom .refuse s.disk ap.target (ApplierAct.remove rm).path s.fold = _ from hres] at hsteady
    obtain ⟨hplain, hno, hne⟩ := hsteady
    have hfold : Mindful { s with fold := fold } := hs.resolved hres hplain hno
    refine (triple_executeRemove hres hne hplain hno).weaken (fun _ h => h) ?_ fun _ _ h => h ▸ hfold
    rintro _ s' (rfl | ⟨md, hget, -, rfl⟩)
    · exact hfold
    · refine hfold.removed hne ?_
      by_cases hdir : md = .dir
      · exact .inl (by simp [hdir])
      · exact .inr fun h => hdir (Option.some.inj (hget.symm.trans h))
  | upsert up =>
    refine hat fun abs fold _ hfold hplain hno hsteady => ?_
    have hkeep : ∀ {m : ExecM Unit}, Keeps Mindful m → Triple (· = { s with fold := fold }) m (fun _ => Mindful)
        fun _ => Mindful := fun h => Triple.weaken h (fun _ h => h ▸ hfold) (fun _ _ h => h) fun _ _ h => h
    obtain ⟨path, mutation⟩ := up
    cases mutation with
    | skip => exact hkeep (.pure _)
    | restoreMtime => exact hkeep (mindful_times fun _ _ h => Disk.setTimes_timesOnly h)
    | restoreSymlinkMtime => exact hkeep (mindful_times fun _ _ h => Disk.setTimesNoFollow_timesOnly h)
    | mkdir =>
      obtain ⟨hne, hknown⟩ := hsteady
      exact mindful_mkdir (s := { s with fold := fold }) hfold hne hplain hno hknown _
    | writeSymlink target times =>
      obtain ⟨hne, hknown, htemp, hlink⟩ := hsteady
      dsimp only
      split
      · exact Triple.throw fun _ h => h ▸ hfold
      refine mindful_write (s := { s with fold := fold }) hfold hne hplain hno hknown htemp (.inr hlink)
        (fun s₁ hclock hfree => triple_land hne hfree (hclock ▸ makes_symlink)) ?_
      split
      · exact mindful_times fun _ _ h => Disk.setTimesNoFollow_timesOnly h
      · exact .pure _
    | writeFile =>
      obtain ⟨hne, hknown, htemp⟩ := hsteady
      refine mindful_write (s := { s with fold := fold }) hfold hne hplain hno hknown htemp (.inl ?_)
        (fun s₁ _ hfree => triple_writeFileAtomically hne hfree) (Triple.modify fun _ h => h)
      rintro i t m ⟨bytes, -, rfl⟩ h
      cases h

/-- In a run of lookups, removals and creations that are all steady at their turns, the remembered
listings never change an answer. -/
theorem resolve_looksFresh {acts : List ApplierAct} {s : Exec} (hfold : s.fold = fun _ => none)
    (hsteady : Along (Steady ap) ap.act acts s) :
    Triple (· = s) (acts.forM ap.act) (fun _ s => s.LooksFresh ap) (fun _ s => s.LooksFresh ap) := by
  refine (Along.keeps (I := Mindful) fun a _ => mindful_act).weaken (fun s' hs => ?_)
    (fun _ _ h => Remembers.looksFresh h) fun _ _ h => Remembers.looksFresh h
  subst hs
  have hnone : Mindful s' := fun _ _ h => by
    rw [hfold] at h
    cases h
  exact ⟨hnone, hsteady⟩

end

end

namespace Accent

/-- The composed and the decomposed spelling of one letter; all other names are in normal form. -/
scoped instance accentEnv : Env :=
  { Sample.sampleEnv with nfc := fun c => if c = "e\u0301" then "\u00e9" else c }

/-- A folder with two files, one of them under the decomposed spelling. -/
def accented : Exec :=
  ⟨(Disk.empty.withEntry ["b"] (.file [1] false 0)).withEntry ["e\u0301"] (.file [2] false 0), fun _ => none, []⟩

def rewriter : Applier := ⟨Store.empty, [], .always, 0⟩

def rewrite : ApplierAct := .upsert ⟨["b"], .writeFile false 0 0 0 []⟩

/-- The file is looked up under the composed spelling before the other one is rewritten. -/
def lookFirst : List ApplierAct := [.look ["\u00e9"], rewrite]

def rewritten : EStateM.Result MaterializeError Exec PUnit := [rewrite].forM rewriter.act accented

/-- The composed spelling is answered otherwise than by a fresh look. -/
def stale : EStateM.Result MaterializeError Exec PUnit → Bool
  | .ok _ s => (rewriter.resolve s ["\u00e9"]).toOption ≠
      (rewriter.resolve { s with fold := fun _ => none } ["\u00e9"]).toOption
  | .error .. => false

instance (s : Exec) (p : CompPath) : Decidable (Steady rewriter s (.look p)) := by
  unfold Steady
  split
  · infer_instance
  · dsimp only [ApplierAct.Steady]
    infer_instance

instance (s : Exec) : Decidable (Steady rewriter s rewrite) := by
  unfold Steady rewrite
  split
  · infer_instance
  · dsimp only [ApplierAct.Steady, Known]
    infer_instance

/-- The rewriting is steady. -/
def RewriteSteady (s : Exec) : Prop := Along (Steady rewriter) rewriter.act [rewrite] s

instance : DecidablePred RewriteSteady := fun s =>
  inferInstanceAs (Decidable (Steady rewriter s rewrite ∧ After (rewriter.act rewrite s) fun _ => True))

end Accent

open Accent in
theorem resolve_looksFresh_accent : Triple (· = accented) (lookFirst.forM rewriter.act)
    (fun _ s => s.LooksFresh rewriter) (fun _ s => s.LooksFresh rewriter) := by
  have hsteady : Steady rewriter accented (.look ["\u00e9"]) ∧ After (rewriter.act (.look ["\u00e9"]) accented)
      RewriteSteady := by decide +kernel
  exact resolve_looksFresh rfl hsteady

open Accent in
/-- A file is rewritten in place, so its folder is never listed; then the other file is not found under
the composed spelling. -/
theorem resolve_not_fresh : ∃ s, rewritten = .ok ⟨⟩ s ∧ ¬ s.LooksFresh rewriter := by
  have hstale : stale rewritten = true := by decide +kernel
  cases hrun : rewritten with
  | error =>
    rw [hrun] at hstale
    cases hstale
  | ok _ s =>
    rw [hrun] at hstale
    exact ⟨s, rfl, fun h => of_decide_eq_true hstale (by rw [h _ (by decide)])⟩

end Ferry
