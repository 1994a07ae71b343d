import Ferry.Store.DiffWalk

/-! # When the diff is exact

`diffRoots` on two fully present trees always returns a sorted change set whose
changes are the visible ones. It is the exact difference of the two trees if
and only if nothing lies below a path that is a directory in one tree only, and
no two links differ in the exec flag alone.
-/

namespace Ferry

open Lib List

/-! ## The sorted result -/

structure ChangeSet.Sorted (cs : ChangeSet) : Prop where
  added : cs.added.Pairwise (fun x y => x.path ≤ y.path)
  removed : cs.removed.Pairwise (fun x y => x.path ≤ y.path)
  contentModified : cs.contentModified.Pairwise (fun x y => x.path ≤ y.path)
  metadataModified : cs.metadataModified.Pairwise (fun x y => x.path ≤ y.path)
  typeChanged : cs.typeChanged.Pairwise (fun x y => x.path ≤ y.path)

theorem sortByPath_perm {α : Type} (path : α → CompPath) (l : List α) :
    (sortByPath path l).Perm l := perm_insertionSort _ l

theorem sortByPath_pairwise {α : Type} (path : α → CompPath) (l : List α) :
    (sortByPath path l).Pairwise (fun x y => path x ≤ path y) := by
  exact pairwise_insertionSort _ l

theorem ChangeSet.sortAll_sorted (cs : ChangeSet) : cs.sortAll.Sorted where
  added := sortByPath_pairwise _ _
  removed := sortByPath_pairwise _ _
  contentModified := sortByPath_pairwise _ _
  metadataModified := sortByPath_pairwise _ _
  typeChanged := sortByPath_pairwise _ _

theorem ChangeSet.changes_sortAll (cs : ChangeSet) : cs.sortAll.changes.Perm cs.changes := by
  refine List.Perm.append (List.Perm.append (List.Perm.append (List.Perm.append ?_ ?_) ?_) ?_) ?_
  all_goals exact (sortByPath_perm _ _).map _

variable {p : CompPath} {b a : EntryState} {c : Change} {fb fa : CompPath → Option EntryState}

theorem Exact.of_perm {pre : CompPath} {cs cs' : ChangeSet}
    (h : Exact fb fa pre cs) (hp : cs'.changes.Perm cs.changes) : Exact fb fa pre cs' :=
  ⟨fun c => hp.mem_iff.trans (h.mem c), (hp.map _).nodup_iff.2 h.nodup⟩

section
variable [Env]

/-- A diff that succeeds is sorted and lists exactly the visible changes. -/
theorem diffRoots_exact {st : Store} {fuel : Nat} {older newer : BlobId} {cs : ChangeSet}
    (h : diffRoots st fuel older newer = .ok cs) :
    Exact (flat st older) (flat st newer) [] cs ∧ cs.Sorted := by
  obtain ⟨delta, hrun, hcs⟩ := bind_eq_ok.1 h
  cases hcs
  obtain ⟨d, rfl, hex⟩ := diffTreeIds_callExact st fuel (some older) (some newer) [] {} delta hrun
  exact ⟨hex.of_perm d.changes_sortAll, d.sortAll_sorted⟩

theorem diffRoots_returns {st : Store} {n fuel : Nat} (hfuel : n ≤ fuel) {older newer : BlobId}
    (ho : LoadsWithin st n older) (hn : LoadsWithin st n newer) :
    ∃ cs, diffRoots st fuel older newer = .ok cs := by
  suffices h : ∃ cs, diffTreeIds st fuel (some older) (some newer) [] {} = .ok cs by
    obtain ⟨cs, hrun⟩ := h
    exact ⟨cs.sortAll, by simp [diffRoots, hrun]⟩
  by_cases heq : older = newer
  · subst heq
    obtain ⟨f, rfl⟩ : ∃ f, fuel = f + 1 := by
      cases fuel with
      | zero =>
        obtain rfl : n = 0 := by omega
        exact ho.elim
      | succ f => exact ⟨f, rfl⟩
    exact ⟨{}, by simp [diffTreeIds]⟩
  · exact diffTreeIds_returns hfuel (by simpa using heq) (fun id h => by cases h; exact ho)
      (fun id h => by cases h; exact hn) [] {}

end

/-! ## Membership by bucket -/

theorem mem_map_toAdded {l : List Listed} : c ∈ l.map Listed.toAdded ↔
    c.tag = .added ∧ c.before = none ∧ ∃ s, c.after = some s ∧ ⟨c.path, s⟩ ∈ l := by
  obtain ⟨t, p, b, a⟩ := c
  simp only [mem_map, Listed.toAdded, Change.mk.injEq]
  constructor
  · rintro ⟨⟨p, s⟩, h, rfl, rfl, rfl, rfl⟩
    exact ⟨rfl, rfl, s, rfl, h⟩
  · rintro ⟨rfl, rfl, s, rfl, h⟩
    exact ⟨_, h, rfl, rfl, rfl, rfl⟩

theorem mem_map_toRemoved {l : List Listed} : c ∈ l.map Listed.toRemoved ↔
    c.tag = .removed ∧ c.after = none ∧ ∃ s, c.before = some s ∧ ⟨c.path, s⟩ ∈ l := by
  obtain ⟨t, p, b, a⟩ := c
  simp only [mem_map, Listed.toRemoved, Change.mk.injEq]
  constructor
  · rintro ⟨⟨p, s⟩, h, rfl, rfl, rfl, rfl⟩
    exact ⟨rfl, rfl, s, rfl, h⟩
  · rintro ⟨rfl, rfl, s, rfl, h⟩
    exact ⟨_, h, rfl, rfl, rfl, rfl⟩

theorem mem_map_toChange {tag : Tag} {l : List Modified} :
    c ∈ l.map (Modified.toChange tag) ↔
      c.tag = tag ∧ ∃ b a, c.before = some b ∧ c.after = some a ∧ ⟨c.path, b, a⟩ ∈ l := by
  obtain ⟨t, p, b, a⟩ := c
  simp only [mem_map, Modified.toChange, Change.mk.injEq]
  constructor
  · rintro ⟨⟨p, b, a⟩, h, rfl, rfl, rfl, rfl⟩
    exact ⟨rfl, b, a, rfl, rfl, h⟩
  · rintro ⟨rfl, b, a, rfl, rfl, h⟩
    exact ⟨_, h, rfl, rfl, rfl, rfl⟩

theorem ChangeSet.mem_changes {cs : ChangeSet} : c ∈ cs.changes ↔
    c ∈ cs.added.map Listed.toAdded ∨ c ∈ cs.removed.map Listed.toRemoved ∨
      c ∈ cs.contentModified.map (Modified.toChange .content) ∨
      c ∈ cs.metadataModified.map (Modified.toChange .metadata) ∨
      c ∈ cs.typeChanged.map (Modified.toChange .type) := by
  simp only [changes, mem_append, or_assoc]

theorem ChangeSet.mem_added {cs : ChangeSet} {s : EntryState} :
    ⟨p, s⟩ ∈ cs.added ↔ ⟨.added, p, none, some s⟩ ∈ cs.changes := by
  simp [mem_changes, mem_map_toAdded, mem_map_toRemoved, mem_map_toChange]

theorem ChangeSet.mem_removed {cs : ChangeSet} {s : EntryState} :
    ⟨p, s⟩ ∈ cs.removed ↔ ⟨.removed, p, some s, none⟩ ∈ cs.changes := by
  simp [mem_changes, mem_map_toAdded, mem_map_toRemoved, mem_map_toChange]

theorem ChangeSet.mem_contentModified {cs : ChangeSet} :
    ⟨p, b, a⟩ ∈ cs.contentModified ↔ ⟨.content, p, some b, some a⟩ ∈ cs.changes := by
  simp [mem_changes, mem_map_toAdded, mem_map_toRemoved, mem_map_toChange]

theorem ChangeSet.mem_metadataModified {cs : ChangeSet} :
    ⟨p, b, a⟩ ∈ cs.metadataModified ↔ ⟨.metadata, p, some b, some a⟩ ∈ cs.changes := by
  simp [mem_changes, mem_map_toAdded, mem_map_toRemoved, mem_map_toChange]

theorem ChangeSet.mem_typeChanged {cs : ChangeSet} :
    ⟨p, b, a⟩ ∈ cs.typeChanged ↔ ⟨.type, p, some b, some a⟩ ∈ cs.changes := by
  simp [mem_changes, mem_map_toAdded, mem_map_toRemoved, mem_map_toChange]

theorem Exact.mem_iff {cs : ChangeSet} (h : Exact fb fa [] cs) {tag : Tag} {b a : Option EntryState} :
    ⟨tag, p, b, a⟩ ∈ cs.changes ↔ fb p = b ∧ fa p = a ∧ classify b a = some tag ∧ ¬ Hidden fb fa p := by
  rw [h.mem]
  constructor
  · rintro ⟨q, hq, rfl, rfl, hc, hh⟩
    obtain rfl : p = q := by simpa using hq
    exact ⟨rfl, rfl, hc, hh⟩
  · rintro ⟨rfl, rfl, hc, hh⟩
    exact ⟨p, rfl, rfl, rfl, hc, hh⟩

/-! ## The exact difference -/

/-- The change set is the exact difference of two readings of a tree. -/
structure DiffSpec (older newer : CompPath → Option EntryState) (cs : ChangeSet) : Prop where
  added : ∀ p s, ⟨p, s⟩ ∈ cs.added ↔ older p = none ∧ newer p = some s
  removed : ∀ p s, ⟨p, s⟩ ∈ cs.removed ↔ older p = some s ∧ newer p = none
  modified : ∀ p b a,
    ⟨p, b, a⟩ ∈ cs.contentModified ∨ ⟨p, b, a⟩ ∈ cs.metadataModified ∨ ⟨p, b, a⟩ ∈ cs.typeChanged ↔
      older p = some b ∧ newer p = some a ∧ b ≠ a ∧ ¬ (b.IsDir ∧ a.IsDir)
  once : (cs.changes.map (·.path)).Nodup
  sorted : cs.Sorted

/-- Nothing lies below a path that is a directory in one tree only. -/
def SplitsEmpty (older newer : CompPath → Option EntryState) : Prop :=
  ∀ d p, Split (older d) (newer d) → Above d p → older p = none ∧ newer p = none

/-- Links with equal target and time have equal exec flags. -/
def LinkFlagsAgree (older newer : CompPath → Option EntryState) : Prop :=
  ∀ p b a, older p = some b → newer p = some a → b.kind = .symlink → a.kind = .symlink →
    b.target = a.target → b.mtimeSec = a.mtimeSec → b.mtimeNsec = a.mtimeNsec → b.exec = a.exec

def ChunksOnFiles (f : CompPath → Option EntryState) : Prop :=
  ∀ p s, f p = some s → s.kind ≠ .file → s.chunks = []

theorem not_hidden_of_splitsEmpty {older newer : CompPath → Option EntryState}
    (h : SplitsEmpty older newer) (hp : older p ≠ none ∨ newer p ≠ none) :
    ¬ Hidden older newer p := by
  rintro ⟨d, hd, hs⟩
  obtain ⟨h₁, h₂⟩ := h d p hs hd
  rcases hp with hp | hp
  · exact hp h₁
  · exact hp h₂

theorem not_hidden_of_both {older newer : CompPath → Option EntryState}
    (ho : IsTree EntryState.IsDir older) (hn : IsTree EntryState.IsDir newer)
    (h₁ : older p ≠ none) (h₂ : newer p ≠ none) : ¬ Hidden older newer p := by
  rintro ⟨d, hd, sb, sa, hb, ha, hne⟩
  obtain ⟨b, hb', hbd⟩ := ho.parent (ho.ne_nil hb) hd h₁
  obtain ⟨a, ha', had⟩ := hn.parent (ho.ne_nil hb) hd h₂
  rw [hb] at hb'
  rw [ha] at ha'
  cases hb'
  cases ha'
  exact hne (iff_of_true hbd had)

theorem ChangeSet.mem_modified {cs : ChangeSet} :
    ⟨p, b, a⟩ ∈ cs.contentModified ∨ ⟨p, b, a⟩ ∈ cs.metadataModified ∨ ⟨p, b, a⟩ ∈ cs.typeChanged ↔
      ∃ tag, ⟨tag, p, some b, some a⟩ ∈ cs.changes := by
  rw [mem_contentModified, mem_metadataModified, mem_typeChanged]
  constructor
  · rintro (h | h | h) <;> exact ⟨_, h⟩
  · rintro ⟨tag, h⟩
    cases tag with
    | added | removed => simp [mem_changes, mem_map_toAdded, mem_map_toRemoved, mem_map_toChange] at h
    | content => exact .inl h
    | metadata => exact .inr (.inl h)
    | type => exact .inr (.inr h)

theorem classify_eq_none_iff :
    classify (some b) (some a) = none ↔ b = a ∨ (b.IsDir ∧ a.IsDir) ∨
      (b.kind = .symlink ∧ a.kind = .symlink ∧ b.chunks = a.chunks ∧ b.target = a.target ∧
        b.mtimeSec = a.mtimeSec ∧ b.mtimeNsec = a.mtimeNsec) := by
  obtain ⟨bk, be, bs, bn, bc, bt⟩ := b
  obtain ⟨ak, ae, as, an, ac, at'⟩ := a
  simp only [classify, EntryState.IsDir]
  cases bk <;> cases ak <;> simp <;> split_ifs <;> simp <;> tauto

section
variable {older newer : CompPath → Option EntryState} {cs : ChangeSet}

/-- A walk that is exact meets the specification where nothing is hidden below a type change. -/
theorem Exact.diffSpec (h : Exact older newer [] cs) (hs : cs.Sorted)
    (ho : IsTree EntryState.IsDir older) (hn : IsTree EntryState.IsDir newer)
    (hempty : SplitsEmpty older newer) (hflags : LinkFlagsAgree older newer) :
    DiffSpec older newer cs := by
  refine ⟨fun p s => ?_, fun p s => ?_, fun p b a => ?_, h.nodup, hs⟩
  · rw [ChangeSet.mem_added, h.mem_iff]
    constructor
    · rintro ⟨h₁, h₂, -, -⟩
      exact ⟨h₁, h₂⟩
    · rintro ⟨h₁, h₂⟩
      exact ⟨h₁, h₂, rfl, not_hidden_of_splitsEmpty hempty (.inr (by simp [h₂]))⟩
  · rw [ChangeSet.mem_removed, h.mem_iff]
    constructor
    · rintro ⟨h₁, h₂, -, -⟩
      exact ⟨h₁, h₂⟩
    · rintro ⟨h₁, h₂⟩
      exact ⟨h₁, h₂, rfl, not_hidden_of_splitsEmpty hempty (.inl (by simp [h₁]))⟩
  · rw [ChangeSet.mem_modified]
    simp only [h.mem_iff]
    constructor
    · rintro ⟨tag, h₁, h₂, hc, -⟩
      have hnone : ¬ classify (some b) (some a) = none := by simp [hc]
      rw [classify_eq_none_iff] at hnone
      simp only [not_or] at hnone
      exact ⟨h₁, h₂, hnone.1, hnone.2.1⟩
    · rintro ⟨h₁, h₂, hne, hdir⟩
      have hsome : classify (some b) (some a) ≠ none := by
        intro hc
        rcases classify_eq_none_iff.1 hc with heq | hd | ⟨hb, ha, hch, ht, hsec, hnsec⟩
        · exact hne heq
        · exact hdir hd
        · have hexec := hflags p b a h₁ h₂ hb ha ht hsec hnsec
          obtain ⟨⟩ := b
          obtain ⟨⟩ := a
          simp_all
      obtain ⟨tag, htag⟩ := Option.ne_none_iff_exists'.1 hsome
      exact ⟨tag, h₁, h₂, htag, not_hidden_of_both ho hn (by simp [h₁]) (by simp [h₂])⟩

theorem DiffSpec.splitsEmpty (hspec : DiffSpec older newer cs) (h : Exact older newer [] cs)
    (ho : IsTree EntryState.IsDir older) (hn : IsTree EntryState.IsDir newer) :
    SplitsEmpty older newer := by
  intro d p hsplit hd
  have hhid : Hidden older newer p := ⟨d, hd, hsplit⟩
  cases ho' : older p with
  | none =>
    cases hn' : newer p with
    | none => exact ⟨rfl, rfl⟩
    | some s =>
      have hmem := (hspec.added p s).2 ⟨ho', hn'⟩
      rw [ChangeSet.mem_added, h.mem_iff] at hmem
      exact absurd hhid hmem.2.2.2
  | some s =>
    cases hn' : newer p with
    | none =>
      have hmem := (hspec.removed p s).2 ⟨ho', hn'⟩
      rw [ChangeSet.mem_removed, h.mem_iff] at hmem
      exact absurd hhid hmem.2.2.2
    | some => exact absurd hhid (not_hidden_of_both ho hn (by simp [ho']) (by simp [hn']))

theorem DiffSpec.linkFlagsAgree (hspec : DiffSpec older newer cs) (h : Exact older newer [] cs)
    (ho : ChunksOnFiles older) (hn : ChunksOnFiles newer) : LinkFlagsAgree older newer := by
  intro p b a h₁ h₂ hb ha ht hsec hnsec
  by_contra hexec
  have hchunks : b.chunks = a.chunks :=
    (ho p b h₁ (by simp [hb])).trans (hn p a h₂ (by simp [ha])).symm
  have hmem := (hspec.modified p b a).2
    ⟨h₁, h₂, fun heq => hexec (by rw [heq]), fun hd => by simp [hb, EntryState.IsDir] at hd⟩
  rw [ChangeSet.mem_modified] at hmem
  obtain ⟨tag, htag⟩ := hmem
  have hc := (h.mem_iff.1 htag).2.2.1
  rw [classify_eq_none_iff.2 (.inr (.inr ⟨hb, ha, hchunks, ht, hsec, hnsec⟩))] at hc
  cases hc

end

section
variable [Env]

theorem flat_eq_of {st : Store} {id : BlobId} {s : EntryState}
    (h : flat st id p = some s) : ∃ e, entryAt st id p = some e ∧ EntryState.of e = s := by
  simpa [flat] using h

theorem flat_chunksOnFiles (st : Store) (id : BlobId) : ChunksOnFiles (flat st id) := by
  intro p s h hk
  obtain ⟨e, -, rfl⟩ := flat_eq_of h
  cases hp : e.payload with
  | file => simp [EntryState.of, EntryKind.fromPayload, hp] at hk
  | dir | symlink => simp [EntryState.of, hp]

/-- The diff of two fully present trees is their exact difference if and only
if nothing lies below a path that is a directory in one tree only and no two
links differ in the exec flag alone. -/
theorem diffRoots_diffSpec_iff {st : Store} {n fuel : Nat} (hfuel : n ≤ fuel)
    {older newer : BlobId} (ho : LoadsWithin st n older) (hn : LoadsWithin st n newer) :
    ∃ cs, diffRoots st fuel older newer = .ok cs ∧ (DiffSpec (flat st older) (flat st newer) cs ↔
        SplitsEmpty (flat st older) (flat st newer) ∧ LinkFlagsAgree (flat st older) (flat st newer)) := by
  obtain ⟨cs, hrun⟩ := diffRoots_returns hfuel ho hn
  obtain ⟨hex, hsorted⟩ := diffRoots_exact hrun
  have hto := flat_isTree st older
  have htn := flat_isTree st newer
  refine ⟨cs, hrun, fun hspec => ⟨hspec.splitsEmpty hex hto htn, ?_⟩, ?_⟩
  · exact hspec.linkFlagsAgree hex (flat_chunksOnFiles st older) (flat_chunksOnFiles st newer)
  · rintro ⟨hempty, hflags⟩
    exact hex.diffSpec hsorted hto htn hempty hflags

end

/-! ### A file that becomes a directory with content -/

namespace Sample

def emptyFile (name : String) : TreeEntry := ⟨name, false, 5, 0, .file 0 []⟩

def nodeX : TreeNode := ⟨[emptyFile "x"]⟩

def rootFile : TreeNode := ⟨[emptyFile "d"]⟩

def rootDir : TreeNode := ⟨[⟨"d", false, 7, 0, .dir (nodeId nodeX)⟩]⟩

def fileDirStore : Store := ((Store.empty.withNode nodeX).withNode rootFile).withNode rootDir

def manifestOf (node : TreeNode) : RootManifest :=
  ⟨ByteArr.fill 16 0, zeroId, 0, 0, nodeId node, zeroId⟩

end Sample

open Sample in
theorem diffRoots_diffSpec_iff_sample :
    ∃ cs, diffRoots fileDirStore 2 (nodeId rootFile) (nodeId rootDir) = .ok cs ∧
      (DiffSpec (flat fileDirStore (nodeId rootFile)) (flat fileDirStore (nodeId rootDir)) cs ↔
        SplitsEmpty (flat fileDirStore (nodeId rootFile)) (flat fileDirStore (nodeId rootDir)) ∧
          LinkFlagsAgree (flat fileDirStore (nodeId rootFile))
            (flat fileDirStore (nodeId rootDir))) :=
  diffRoots_diffSpec_iff (le_refl 2) (by decide +kernel) (by decide +kernel)

open Sample in
/-- `d/x` exists in the newer tree only and is not listed as added. -/
theorem diffRoots_misses_child :
    ¬ ∃ cs, diffRoots fileDirStore 2 (nodeId rootFile) (nodeId rootDir) = .ok cs ∧
      DiffSpec (flat fileDirStore (nodeId rootFile)) (flat fileDirStore (nodeId rootDir)) cs := by
  rintro ⟨cs, hrun, hspec⟩
  have hcs : diffRoots fileDirStore 2 (nodeId rootFile) (nodeId rootDir) =
      .ok { typeChanged := [⟨["d"], .of (emptyFile "d"), ⟨.dir, false, 7, 0, [], none⟩⟩] } := by
    decide +kernel
  rw [hcs] at hrun
  cases hrun
  have hmem := (hspec.added ["d", "x"] (.of (emptyFile "x"))).2
    ⟨by decide +kernel, by decide +kernel⟩
  simp at hmem

end Ferry
