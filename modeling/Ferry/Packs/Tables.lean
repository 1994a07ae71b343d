import Ferry.Packs.Compaction

/-! # Tables as they are kept

A table is written in one way only, and it can be read back as long as its number
of rows fits the `u32` in front of it. In memory the merged locations are kept in
three containers that refer to each other; together they are the list of the
locations in the order they came in.
-/

namespace Ferry

open Lib List Function

/-! ## On disk -/

/-- The rows are the entries in the order of their keys, the first one of each blob. -/
structure FirstOfEach (entries rows : List IndexEntry) : Prop where
  sorted : rows.Pairwise (·.key < ·.key)
  first : ∀ kind id, LocationTable.candidates rows kind id =
    (entries.find? fun e => e.kind = kind ∧ e.id = id).toList

theorem FirstOfEach.length_eq {entries rows : List IndexEntry} (h : FirstOfEach entries rows) :
    rows.length = (entries.map IndexEntry.key).dedup.length := by
  have hmem : ∀ (l : List IndexEntry) (e : IndexEntry),
      e.key ∈ l.map IndexEntry.key ↔ LocationTable.candidates l e.kind e.id ≠ [] := by
    simp [LocationTable.candidates, IndexEntry.key_eq_iff]
  have hkeys : ∀ e : IndexEntry, e.key ∈ rows.map IndexEntry.key ↔ e.key ∈ entries.map IndexEntry.key := by
    intro e
    rw [hmem, hmem, h.first, ← head?_filter, LocationTable.candidates]
    cases entries.filter _ <;> simp
  have hperm : (rows.map IndexEntry.key).Perm (entries.map IndexEntry.key).dedup := by
    refine (perm_ext_iff_of_nodup ?_ (nodup_dedup _)).2 fun key => ?_
    · exact (pairwise_map.2 h.sorted).imp ne_of_lt
    rw [mem_dedup]
    constructor
    · intro hkey
      obtain ⟨e, -, rfl⟩ := mem_map.1 hkey
      exact (hkeys e).1 hkey
    · intro hkey
      obtain ⟨e, -, rfl⟩ := mem_map.1 hkey
      exact (hkeys e).2 hkey
  rw [← hperm.length_eq, length_map]

theorem increasing_none {rows : List IndexEntry} : Increasing none rows ↔ rows.Pairwise (·.key < ·.key) := by
  rw [Increasing, Option.toList_none, nil_append, pairwise_map]

theorem tableParse_tablePlain_iff {entries : List IndexEntry} (htyped : ∀ e ∈ entries, e.Typed) :
    (∃ rows, tableParse (tablePlain entries) = .ok rows ∧ FirstOfEach entries rows) ↔
      (entries.map IndexEntry.key).dedup.length < 2 ^ 32 := by
  have hrows : FirstOfEach entries (tableRows entries) :=
    ⟨tableRows_pairwise entries, candidates_rows entries⟩
  constructor
  · rintro ⟨rows, hparse, h⟩
    rw [← h.length_eq]
    exact (tableParse_ok_iff.1 hparse).1
  · intro hcount
    rw [← hrows.length_eq] at hcount
    exact ⟨_, tableParse_ok_iff.2 ⟨hcount, increasing_none.2 hrows.sorted,
      fun e he => htyped e (tableRows_subset entries he), tablePlain_eq entries⟩, hrows⟩

theorem tablePlain_of_parse {b : Bytes} {rows : List IndexEntry} (h : tableParse b = .ok rows) :
    tablePlain rows = b := by
  obtain ⟨-, hinc, -, rfl⟩ := tableParse_ok_iff.1 h
  rw [increasing_none] at hinc
  have hsort : sortEntries rows = rows := List.Pairwise.insertionSort_eq (hinc.imp le_of_lt)
  have hrows : tableRows rows = rows := by
    rw [tableRows, hsort]
    refine destutter_of_isChain _ _ (List.Pairwise.isChain (hinc.imp ?_))
    exact fun hlt hsame => hlt.ne (IndexEntry.key_eq_iff.2 hsame)
  rw [tablePlain_eq, hrows]

/-! ## In memory -/

/-- `LocationTable` with its three containers. -/
structure LinkedTable where
  entries : List IndexEntry
  seen : IndexEntry → Bool
  byBlob : BlobKind × BlobId → List Nat

namespace LinkedTable

def empty : LinkedTable := ⟨[], fun _ => false, fun _ => []⟩

def add (t : LinkedTable) (e : IndexEntry) : LinkedTable :=
  if t.seen e then t
  else
    { entries := t.entries ++ [e]
      seen := update t.seen e true
      byBlob := update t.byBlob (e.kind, e.id) (t.byBlob (e.kind, e.id) ++ [t.entries.length]) }

def merge (t : LinkedTable) (incoming : List IndexEntry) : LinkedTable := incoming.foldl add t

def candidates (t : LinkedTable) (kind : BlobKind) (id : BlobId) : List IndexEntry :=
  (t.byBlob (kind, id)).filterMap (t.entries[·]?)

/-- The containers agree, and are the list of locations `l`. -/
structure Refines (t : LinkedTable) (l : LocationTable) : Prop where
  entries : t.entries = l
  seen : ∀ e, t.seen e ↔ e ∈ l
  inside : ∀ key, ∀ i ∈ t.byBlob key, i < l.length
  found : ∀ kind id, t.candidates kind id = l.candidates kind id

theorem refines_empty : empty.Refines [] where
  entries := rfl
  seen _ := by simp [empty]
  inside _ _ h := by cases h
  found _ _ := rfl

/-- The linked table refines the list: adding a location keeps their order. -/
theorem Refines.add {t : LinkedTable} {l : LocationTable} (h : t.Refines l) (e : IndexEntry) :
    (t.add e).Refines (l.add e) := by
  obtain ⟨entries, seen, byBlob⟩ := t
  obtain rfl : entries = l := h.entries
  unfold LinkedTable.add LocationTable.add
  by_cases he : e ∈ entries
  · rw [if_pos he, if_pos ((h.seen e).2 he)]
    exact h
  rw [if_neg he, if_neg (mt (h.seen e).1 he)]
  -- rows that were there are found as before, behind them there is one more
  have hold : ∀ key, (byBlob key).filterMap ((entries ++ [e])[·]?) = (byBlob key).filterMap (entries[·]?) :=
    fun key => filterMap_congr fun i hi => getElem?_append_left (h.inside key i hi)
  refine ⟨rfl, fun e' => ?_, fun key i hi => ?_, fun kind id => ?_⟩
  · by_cases heq : e' = e
    · simp [heq]
    · simpa [heq] using h.seen e'
  · rw [length_append]
    dsimp only at hi
    by_cases hkey : key = (e.kind, e.id)
    · subst hkey
      rw [update_self] at hi
      rcases mem_append.1 hi with hi | hi
      · exact Nat.lt_succ_of_lt (h.inside _ i hi)
      · rw [mem_singleton.1 hi]
        exact Nat.lt_succ_self _
    · rw [update_of_ne hkey] at hi
      exact Nat.lt_succ_of_lt (h.inside key i hi)
  · have hfound := h.found kind id
    unfold candidates LocationTable.candidates at hfound ⊢
    rw [filter_append, ← hfound]
    by_cases hkey : (kind, id) = (e.kind, e.id)
    · obtain ⟨rfl, rfl⟩ := Prod.mk.inj hkey
      dsimp only
      rw [update_self, filterMap_append, hold]
      simp
    have hother : ¬ (e.kind = kind ∧ e.id = id) := by
      rintro ⟨rfl, rfl⟩
      exact hkey rfl
    dsimp only
    rw [update_of_ne hkey, hold]
    simp [hother]

theorem Refines.merge {t : LinkedTable} {l : LocationTable} (h : t.Refines l) (incoming : List IndexEntry) :
    (t.merge incoming).Refines (l.merge incoming) := by
  induction incoming generalizing t l with
  | nil => exact h
  | cons e incoming ih => exact ih (h.add e)

end LinkedTable

namespace LocationTable

theorem merge_eq (t : LocationTable) (l : List IndexEntry) :
    t.merge l = t ++ (l.filter (· ∉ t)).eraseDups := by
  unfold merge
  induction l generalizing t with
  | nil => simp
  | cons e l ih =>
    rw [foldl_cons, ih, add]
    by_cases he : e ∈ t
    · rw [if_pos he, filter_cons_of_neg (by simpa using he)]
    rw [if_neg he, filter_cons_of_pos (by simpa using he), eraseDups_cons, append_assoc,
      singleton_append, filter_filter]
    congr 3
    refine filter_congr fun x _ => ?_
    by_cases hx : x = e <;> simp [hx]

theorem candidates_merge (t : LocationTable) (l : List IndexEntry) (kind : BlobKind) (id : BlobId) :
    (t.merge l).candidates kind id = merge (t.candidates kind id) (candidates l kind id) := by
  unfold merge
  induction l generalizing t with
  | nil => rfl
  | cons e l ih =>
    rw [foldl_cons, ih]
    by_cases hkey : e.kind = kind ∧ e.id = id
    · have hadd : (t.add e).candidates kind id = add (t.candidates kind id) e := by
        by_cases he : e ∈ t <;> simp [add, candidates, he, hkey]
      have hcons : candidates (e :: l) kind id = e :: candidates l kind id :=
        filter_cons_of_pos (decide_eq_true hkey)
      rw [hadd, hcons, foldl_cons]
    · have hadd : (t.add e).candidates kind id = t.candidates kind id := by
        by_cases he : e ∈ t <;> simp [add, candidates, he, hkey]
      have hcons : candidates (e :: l) kind id = candidates l kind id :=
        filter_cons_of_neg fun h => hkey (of_decide_eq_true h)
      rw [hadd, hcons]

end LocationTable

theorem candidates_merges (merges : List (List IndexEntry)) (kind : BlobKind) (id : BlobId) :
    (merges.foldl LinkedTable.merge .empty).candidates kind id =
      (merges.flatten.filter fun e => e.kind = kind ∧ e.id = id).eraseDups := by
  have hrun : ∀ (t : LinkedTable) (l : LocationTable), t.Refines l →
      (merges.foldl LinkedTable.merge t).Refines (l.merge merges.flatten) := by
    induction merges with
    | nil => exact fun t l h => h
    | cons incoming merges ih =>
      intro t l h
      rw [flatten_cons, LocationTable.merge, foldl_append]
      exact ih _ _ (h.merge incoming)
  rw [(hrun _ _ LinkedTable.refines_empty).found, LocationTable.candidates_merge, LocationTable.merge_eq,
    filter_eq_self.2 fun e _ => decide_eq_true (by simp [LocationTable.candidates])]
  rfl

/-- Tables are canonical, as long as they have fewer than 2^32 rows. -/
theorem tables_canonical_iff {entries : List IndexEntry} (htyped : ∀ e ∈ entries, e.Typed) :
    ((∃ rows, tableParse (tablePlain entries) = .ok rows ∧ FirstOfEach entries rows) ∧
      (∀ b rows, tableParse b = .ok rows → tablePlain rows = b) ∧
      ∀ (merges : List (List IndexEntry)) kind id, (merges.foldl LinkedTable.merge .empty).candidates kind id =
        (merges.flatten.filter fun e => e.kind = kind ∧ e.id = id).eraseDups) ↔
      (entries.map IndexEntry.key).dedup.length < 2 ^ 32 := by
  rw [tableParse_tablePlain_iff htyped]
  exact and_iff_left ⟨fun _ _ => tablePlain_of_parse, candidates_merges⟩

theorem tables_canonical_two : ∃ rows,
    tableParse (tablePlain [⟨.treeNode, zeroId, zeroId, 7, 3⟩, ⟨.dataChunk, zeroId, zeroId, 0, 5⟩]) = .ok rows ∧
      FirstOfEach [⟨.treeNode, zeroId, zeroId, 7, 3⟩, ⟨.dataChunk, zeroId, zeroId, 0, 5⟩] rows :=
  ((tables_canonical_iff (by simp [IndexEntry.Typed])).2
    ((dedup_sublist _).length_le.trans_lt (by decide))).1

def numberedId (w n : Nat) : ByteArr w := ⟨leBytes w n, leBytes_length w n⟩

def numberedEntry (n : Nat) : IndexEntry := ⟨.dataChunk, numberedId 32 n, zeroId, 0, 0⟩

/-- As many blobs as there are numbers of 32 bits: the number of rows is written as zero. -/
theorem tables_not_canonical : ∃ entries : List IndexEntry, (∀ e ∈ entries, e.Typed) ∧
    ¬ ∃ rows, tableParse (tablePlain entries) = .ok rows ∧ FirstOfEach entries rows := by
  have hinj : ∀ i j : Nat, i < 2 ^ 32 → j < 2 ^ 32 → leBytes 32 i = leBytes 32 j → i = j := by
    intro i j hi hj h
    have hval := congrArg leNat h
    rwa [leNat_leBytes _ _ (hi.trans (by decide)), leNat_leBytes _ _ (hj.trans (by decide))] at hval
  have htyped : ∀ e ∈ (List.range (2 ^ 32)).map numberedEntry, e.Typed := by
    intro e he
    obtain ⟨n, -, rfl⟩ := mem_map.1 he
    exact ⟨show 0 < 2 ^ 64 by decide, show 0 < 2 ^ 64 by decide⟩
  refine ⟨_, htyped, ?_⟩
  rw [tableParse_tablePlain_iff htyped, map_map, List.Nodup.dedup, length_map, length_range]
  · exact Nat.lt_irrefl _
  · refine List.Nodup.map_on (fun i hi j hj h => ?_) nodup_range
    exact hinj i j (mem_range.1 hi) (mem_range.1 hj)
      (congrArg Subtype.val (IndexEntry.key_eq_iff.1 h).2)

end Ferry
