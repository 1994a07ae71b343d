import Ferry.Store.Flat

/-! # Exact lists of changes

What it means for a change set to list the changes between two readings of a
tree: every path whose two readings classify as a change, unless the path lies
below a place where one tree has a directory and the other something else.
Exact lists compose one sibling at a time (`Exact.cons`) and one level at a
time (`Exact.entry`).
-/

namespace Ferry

open Lib List

/-! ## One list of tagged changes -/

inductive Tag where
  | added
  | removed
  | content
  | metadata
  | type
  deriving DecidableEq

structure Change where
  tag : Tag
  path : CompPath
  before : Option EntryState
  after : Option EntryState
  deriving DecidableEq

def Listed.toAdded (x : Listed) : Change := ⟨.added, x.path, none, some x.state⟩
def Listed.toRemoved (x : Listed) : Change := ⟨.removed, x.path, some x.state, none⟩
def Modified.toChange (tag : Tag) (m : Modified) : Change :=
  ⟨tag, m.path, some m.before, some m.after⟩

def ChangeSet.changes (cs : ChangeSet) : List Change :=
  cs.added.map Listed.toAdded ++ cs.removed.map Listed.toRemoved ++
    cs.contentModified.map (Modified.toChange .content) ++
    cs.metadataModified.map (Modified.toChange .metadata) ++
    cs.typeChanged.map (Modified.toChange .type)

def ChangeSet.append (a b : ChangeSet) : ChangeSet where
  added := a.added ++ b.added
  removed := a.removed ++ b.removed
  contentModified := a.contentModified ++ b.contentModified
  metadataModified := a.metadataModified ++ b.metadataModified
  typeChanged := a.typeChanged ++ b.typeChanged

instance : Append ChangeSet := ⟨ChangeSet.append⟩

theorem ChangeSet.append_eq (a b : ChangeSet) : a ++ b =
    ⟨a.added ++ b.added, a.removed ++ b.removed, a.contentModified ++ b.contentModified,
      a.metadataModified ++ b.metadataModified, a.typeChanged ++ b.typeChanged⟩ := rfl

theorem ChangeSet.append_assoc (a b c : ChangeSet) : a ++ b ++ c = a ++ (b ++ c) := by
  simp [append_eq]

@[simp] theorem ChangeSet.append_empty (a : ChangeSet) : a ++ ({} : ChangeSet) = a := by
  simp [append_eq]

@[simp] theorem ChangeSet.empty_append (a : ChangeSet) : ({} : ChangeSet) ++ a = a := by
  simp [append_eq]

theorem ChangeSet.changes_append (a b : ChangeSet) : (a ++ b).changes.Perm (a.changes ++ b.changes) := by
  simp only [append_eq, changes, map_append]
  refine perm_iff_count.2 fun x => ?_
  simp only [count_append]
  omega

/-- How the two readings of one path are listed, if at all. -/
def classify : Option EntryState → Option EntryState → Option Tag
  | none, none => none
  | none, some _ => some .added
  | some _, none => some .removed
  | some b, some a =>
    if b.kind ≠ a.kind then some .type
    else if b.kind = .dir then none
    else if b.chunks ≠ a.chunks ∨ b.target ≠ a.target then some .content
    else if (b.kind = .file ∧ b.exec ≠ a.exec) ∨ b.mtimeSec ≠ a.mtimeSec ∨
        b.mtimeNsec ≠ a.mtimeNsec then some .metadata
    else none

theorem classify_self (s : Option EntryState) : classify s s = none := by
  cases s with
  | none => rfl
  | some s => by_cases h : s.kind = .dir <;> simp [classify]

theorem classify_some_some {b a : EntryState} {tag : Tag}
    (h : classify (some b) (some a) = some tag) : tag = .content ∨ tag = .metadata ∨ tag = .type := by
  simp only [classify] at h
  split_ifs at h <;> cases h <;> simp

/-- One side has a directory here and the other a file or a link. -/
def Split (b a : Option EntryState) : Prop :=
  ∃ sb sa, b = some sb ∧ a = some sa ∧ ¬ (sb.IsDir ↔ sa.IsDir)

theorem not_split_none_left (a : Option EntryState) : ¬ Split none a := by
  rintro ⟨_, _, h, _⟩
  cases h

theorem not_split_none_right (b : Option EntryState) : ¬ Split b none := by
  rintro ⟨_, _, _, h, _⟩
  cases h

/-- `p` lies below a split, where the walk does not look. -/
def Hidden (fb fa : CompPath → Option EntryState) (p : CompPath) : Prop :=
  ∃ d, Above d p ∧ Split (fb d) (fa d)

/-! ## Exactness of a list of changes -/

/-- The change set lists, under the prefix `pre`, exactly the visible changes
between the readings `fb` (before) and `fa` (after), each path once. -/
structure Exact (fb fa : CompPath → Option EntryState) (pre : CompPath) (cs : ChangeSet) : Prop where
  mem : ∀ c, c ∈ cs.changes ↔ ∃ q, c.path = pre ++ q ∧ c.before = fb q ∧ c.after = fa q ∧
    classify (fb q) (fa q) = some c.tag ∧ ¬ Hidden fb fa q
  nodup : (cs.changes.map (·.path)).Nodup

variable {gb ga fb fa : CompPath → Option EntryState} {c : String}

theorem Exact.empty {pre : CompPath} (h : ∀ q, classify (fb q) (fa q) = none) : Exact fb fa pre {} := by
  refine ⟨fun c => ⟨fun hc => by simp [ChangeSet.changes] at hc, ?_⟩, by simp [ChangeSet.changes]⟩
  rintro ⟨q, -, -, -, hq, -⟩
  rw [h q] at hq
  cases hq

theorem exact_none (pre : CompPath) : Exact (fun _ => none) (fun _ => none) pre {} :=
  Exact.empty fun _ => rfl

/-- The reading that has `g` below the component `c` and `f` elsewhere. -/
def overlay (c : String) (g f : CompPath → Option EntryState) : CompPath → Option EntryState
  | [] => none
  | x :: r => if x = c then g r else f (x :: r)

theorem overlay_eq_self {f : CompPath → Option EntryState} (hnil : f [] = none)
    (h : ∀ r, f (c :: r) = none) : overlay c (fun _ => none) f = f := by
  funext q
  cases q with
  | nil => simp [overlay, hnil]
  | cons x =>
    by_cases hx : x = c
    · subst hx
      simp [overlay, h]
    · simp [overlay, hx]

def under (c : String) (g : CompPath → Option EntryState) : CompPath → Option EntryState :=
  overlay c g (fun _ => none)

theorem hidden_congr {p : CompPath}
    (h : ∀ d, Above d p → fb d = gb d ∧ fa d = ga d) : Hidden fb fa p ↔ Hidden gb ga p := by
  constructor
  · rintro ⟨d, hd, hs⟩
    exact ⟨d, hd, (h d hd).1 ▸ (h d hd).2 ▸ hs⟩
  · rintro ⟨d, hd, hs⟩
    exact ⟨d, hd, (h d hd).1.symm ▸ (h d hd).2.symm ▸ hs⟩

theorem hidden_overlay {x : String} {r : CompPath} :
    Hidden (overlay c gb fb) (overlay c ga fa) (x :: r) ↔
      if x = c then Hidden (under c gb) (under c ga) (x :: r) else
        Hidden (overlay c (fun _ => none) fb) (overlay c (fun _ => none) fa) (x :: r) := by
  split
  · rename_i hx
    subst hx
    apply hidden_congr
    rintro (_ | ⟨y, d⟩) hd
    · simp [under, overlay]
    · obtain rfl : y = x := (above_cons_cons.1 hd).1
      simp [under, overlay]
  · rename_i hx
    apply hidden_congr
    rintro (_ | ⟨y, d⟩) hd
    · simp [overlay]
    · obtain rfl : y = x := (above_cons_cons.1 hd).1
      simp [overlay, hx]

/-- One sibling after another: the changes below `c`, then those elsewhere. -/
theorem Exact.cons {pre : CompPath}
    {d₁ d₂ : ChangeSet} (h₁ : Exact (under c gb) (under c ga) pre d₁) (h₂ : Exact fb fa pre d₂)
    (hb : fb [] = none ∧ ∀ r, fb (c :: r) = none) (ha : fa [] = none ∧ ∀ r, fa (c :: r) = none) :
    Exact (overlay c gb fb) (overlay c ga fa) pre (d₁ ++ d₂) := by
  have hfb := overlay_eq_self hb.1 hb.2
  have hfa := overlay_eq_self ha.1 ha.2
  have hmem : ∀ x, x ∈ (d₁ ++ d₂).changes ↔ x ∈ d₁.changes ∨ x ∈ d₂.changes := fun x =>
    (ChangeSet.changes_append d₁ d₂).mem_iff.trans mem_append
  -- the head component tells which half a listed path comes from
  have head₁ : ∀ x ∈ d₁.changes, ∃ r, x.path = pre ++ c :: r := by
    intro x hx
    obtain ⟨q, hq, -, -, hc, -⟩ := (h₁.mem x).1 hx
    rcases q with _ | ⟨y, r⟩
    · simp [under, overlay, classify] at hc
    · by_cases hy : y = c
      · exact ⟨r, hy ▸ hq⟩
      · simp [under, overlay, hy, classify] at hc
  have head₂ : ∀ x ∈ d₂.changes, ∃ y r, x.path = pre ++ y :: r ∧ y ≠ c := by
    intro x hx
    obtain ⟨q, hq, -, -, hc, -⟩ := (h₂.mem x).1 hx
    rcases q with _ | ⟨y, r⟩
    · simp [hb.1, ha.1, classify] at hc
    · refine ⟨y, r, hq, ?_⟩
      rintro rfl
      simp [hb.2, ha.2, classify] at hc
  refine ⟨fun x => ?_, ?_⟩
  · rw [hmem]
    constructor
    · rintro (hx | hx)
      · obtain ⟨r, hr⟩ := head₁ x hx
        obtain ⟨q, hq, hbq, haq, hc, hh⟩ := (h₁.mem x).1 hx
        obtain rfl : q = c :: r := append_cancel_left (hq.symm.trans hr)
        refine ⟨c :: r, hr, ?_, ?_, ?_, ?_⟩
        · simpa [under, overlay] using hbq
        · simpa [under, overlay] using haq
        · simpa [under, overlay] using hc
        · rw [hidden_overlay]
          simpa using hh
      · obtain ⟨y, r, hr, hy⟩ := head₂ x hx
        obtain ⟨q, hq, hbq, haq, hc, hh⟩ := (h₂.mem x).1 hx
        obtain rfl : q = y :: r := append_cancel_left (hq.symm.trans hr)
        refine ⟨y :: r, hr, ?_, ?_, ?_, ?_⟩
        · simpa [overlay, hy] using hbq
        · simpa [overlay, hy] using haq
        · simpa [overlay, hy] using hc
        · rw [hidden_overlay]
          simpa [hy, hfb, hfa] using hh
    · rintro ⟨q, hq, hbq, haq, hc, hh⟩
      rcases q with _ | ⟨y, r⟩
      · simp [overlay, classify] at hc
      rw [hidden_overlay] at hh
      by_cases hy : y = c
      · subst hy
        left
        refine (h₁.mem x).2 ⟨y :: r, hq, ?_, ?_, ?_, ?_⟩
        · simpa [under, overlay] using hbq
        · simpa [under, overlay] using haq
        · simpa [under, overlay] using hc
        · simpa using hh
      · right
        refine (h₂.mem x).2 ⟨y :: r, hq, ?_, ?_, ?_, ?_⟩
        · simpa [overlay, hy] using hbq
        · simpa [overlay, hy] using haq
        · simpa [overlay, hy] using hc
        · simpa [hy, hfb, hfa] using hh
  · rw [((ChangeSet.changes_append d₁ d₂).map _).nodup_iff, map_append]
    refine List.Nodup.append h₁.nodup h₂.nodup ?_
    intro p hp₁ hp₂
    obtain ⟨x, hx, rfl⟩ := mem_map.1 hp₁
    obtain ⟨y, hy, hxy⟩ := mem_map.1 hp₂
    obtain ⟨r, hr⟩ := head₁ x hx
    obtain ⟨z, s, hs, hz⟩ := head₂ y hy
    have := append_cancel_left ((hs.symm.trans hxy).trans hr)
    simp only [List.cons.injEq] at this
    exact hz this.1

/-- The part of a reading strictly below its root. -/
def below (g : CompPath → Option EntryState) : CompPath → Option EntryState
  | [] => none
  | x :: r => g (x :: r)

@[simp] theorem below_none : below (fun _ => none) = fun _ => none := by
  funext q
  cases q <;> rfl

theorem hidden_under {r : CompPath} :
    Hidden (under c gb) (under c ga) (c :: r) ↔
      r ≠ [] ∧ (Split (gb []) (ga []) ∨ Hidden (below gb) (below ga) r) := by
  constructor
  · rintro ⟨d, hd, hs⟩
    rcases d with _ | ⟨y, d⟩
    · exact absurd hs (by simpa [under, overlay] using not_split_none_left none)
    obtain ⟨rfl, hd'⟩ := above_cons_cons.1 hd
    have hr : r ≠ [] := by
      rintro rfl
      exact not_above_nil d hd'
    refine ⟨hr, ?_⟩
    rcases d with _ | ⟨z, d⟩
    · exact .inl (by simpa [under, overlay] using hs)
    · exact .inr ⟨z :: d, hd', by simpa [under, overlay, below] using hs⟩
  · rintro ⟨hr, hs | ⟨d, hd, hs⟩⟩
    · exact ⟨[c], by simpa using nil_above hr, by simpa [under, overlay] using hs⟩
    · rcases d with _ | ⟨z, d⟩
      · exact absurd hs (by simpa [below] using not_split_none_left none)
      · exact ⟨c :: z :: d, by simpa using hd, by simpa [under, overlay, below] using hs⟩

/-- One level: the listing of the entry itself, then of what lies below it. A
split entry hides everything below. -/
theorem Exact.entry {pre : CompPath} {own sub : ChangeSet}
    (hown : own.changes = match classify (gb []) (ga []) with
      | some tag => [⟨tag, pre ++ [c], gb [], ga []⟩]
      | none => [])
    (hsplit : Split (gb []) (ga []) → sub = {})
    (hsub : ¬ Split (gb []) (ga []) → Exact (below gb) (below ga) (pre ++ [c]) sub) :
    Exact (under c gb) (under c ga) pre (own ++ sub) := by
  have hmem : ∀ x, x ∈ (own ++ sub).changes ↔ x ∈ own.changes ∨ x ∈ sub.changes := fun x =>
    (ChangeSet.changes_append own sub).mem_iff.trans mem_append
  have howns : ∀ x, x ∈ own.changes ↔ x.path = pre ++ [c] ∧ x.before = gb [] ∧ x.after = ga [] ∧
      classify (gb []) (ga []) = some x.tag := by
    intro x
    rw [hown]
    cases hcl : classify (gb []) (ga []) with
    | none => simp
    | some =>
      rw [mem_singleton]
      constructor
      · rintro rfl
        simp
      · obtain ⟨t, p, b, a⟩ := x
        rintro ⟨rfl, rfl, rfl, htag⟩
        cases htag
        rfl
  have hsubs : ∀ x ∈ sub.changes, ∃ y r, x.path = pre ++ [c] ++ y :: r := by
    intro x hx
    by_cases hs : Split (gb []) (ga [])
    · rw [hsplit hs] at hx
      simp [ChangeSet.changes] at hx
    · obtain ⟨q, hq, -, -, hc, -⟩ := ((hsub hs).mem x).1 hx
      rcases q with _ | ⟨y, r⟩
      · simp [below, classify] at hc
      · exact ⟨y, r, hq⟩
  refine ⟨fun x => ?_, ?_⟩
  · rw [hmem, howns]
    constructor
    · rintro (⟨hp, hb, ha, hc⟩ | hx)
      · refine ⟨[c], hp, by simpa [under, overlay] using hb, by simpa [under, overlay] using ha,
          by simpa [under, overlay] using hc, ?_⟩
        rw [hidden_under]
        simp
      by_cases hs : Split (gb []) (ga [])
      · rw [hsplit hs] at hx
        simp [ChangeSet.changes] at hx
      obtain ⟨y, r, hr⟩ := hsubs x hx
      obtain ⟨q, hq, hb, ha, hc, hh⟩ := ((hsub hs).mem x).1 hx
      obtain rfl : q = y :: r := append_cancel_left (hq.symm.trans hr)
      refine ⟨c :: y :: r, by simpa using hr, by simpa [under, overlay, below] using hb,
        by simpa [under, overlay, below] using ha,
        by simpa [under, overlay, below] using hc, ?_⟩
      rw [hidden_under]
      rintro ⟨-, h | h⟩
      · exact hs h
      · exact hh h
    · rintro ⟨q, hq, hb, ha, hc, hh⟩
      rcases q with _ | ⟨y, r⟩
      · simp [under, overlay, classify] at hc
      by_cases hy : y = c
      · subst hy
        rw [hidden_under] at hh
        rcases r with _ | ⟨z, r⟩
        · left
          exact ⟨hq, by simpa [under, overlay] using hb, by simpa [under, overlay] using ha,
            by simpa [under, overlay] using hc⟩
        right
        simp only [ne_eq, reduceCtorEq, not_false_eq_true, true_and, not_or] at hh
        exact ((hsub hh.1).mem x).2 ⟨z :: r, by simpa using hq, by simpa [under, overlay, below] using hb,
          by simpa [under, overlay, below] using ha,
          by simpa [under, overlay, below] using hc, hh.2⟩
      · simp [under, overlay, hy, classify] at hc
  · rw [((ChangeSet.changes_append own sub).map _).nodup_iff, map_append]
    refine List.Nodup.append ?_ ?_ ?_
    · rw [hown]
      cases classify (gb []) (ga []) <;> simp
    · by_cases hs : Split (gb []) (ga [])
      · simp [hsplit hs, ChangeSet.changes]
      · exact (hsub hs).nodup
    · intro p hp₁ hp₂
      obtain ⟨x, hx, rfl⟩ := mem_map.1 hp₁
      obtain ⟨y, hy, hxy⟩ := mem_map.1 hp₂
      obtain ⟨z, r, hr⟩ := hsubs y hy
      have hpath := hxy.symm.trans hr
      rw [((howns x).1 hx).1] at hpath
      simp at hpath

end Ferry
