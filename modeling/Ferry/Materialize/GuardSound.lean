import Ferry.Materialize.Guard
import Ferry.Materialize.Spelling

/-! # What a passed guard says about the disk

The guard resolves the paths of a run on the disk that the run finds. A check that
reports nothing has found, at the place that a path leads to, what the expected
tree records at the path: for a removal the entry itself and, if it is deep,
everything below it; for an upsert nothing, a recorded file or link, or a path where
a directory is expected. One thing goes unseen: an entry below a removed
directory is looked up under its normal form, and where another entry has that
name, the other one is checked.
-/

namespace Ferry

open Lib List

section
variable [Env]

/-! ## Reading the expected tree -/

/-- The lookup in the expected manifest is the lookup in its tree. -/
theorem baseLookup_ok {st : Store} {id : BlobId} {p : CompPath} {r : Option TreeEntry}
    (h : baseLookup st id p = .ok r) : entryAt st id p = r := by
  induction p generalizing id with
  | nil =>
    cases h
    exact entryAt_nil st id
  | cons c rest ih =>
    unfold baseLookup at h
    split at h
    · cases h
    rename_i node hb
    have hat : entryAt st id (c :: rest) = findEntry st node.entries (c :: rest) := by
      simp [entryAt, baseNode_eq_ok_iff.1 hb]
    rw [hat]
    cases rest with
    | nil =>
      cases hf : node.entries.find? (·.name = c) with
      | none | some =>
        rw [hf] at h
        cases h
        exact hf
    | cons =>
      rw [findEntry_cons_cons]
      cases hf : node.entries.find? (·.name = c) with
      | none =>
        rw [hf] at h
        cases h
        rfl
      | some e =>
        rw [hf] at h
        simp only [reduceCtorEq] at h
        cases hp : e.payload with
        | file | symlink =>
          rw [hp] at h
          cases h
          simp [hp, EntryPayload.childTree]
        | dir =>
          rw [hp] at h
          simpa [hp, EntryPayload.childTree] using ih h

variable {abs dirPath : CompPath} {e : TreeEntry} {chunks : Chunks}

/-- What an expected subtree lists are the entries below its directory. -/
theorem flattenBaseSubtree_mem {st : Store} {fuel : Nat}
    {l : List (String × ExpectedState)} (h : flattenBaseSubtree st fuel dirPath e = .ok l)
    {kv : String × ExpectedState} (hkv : kv ∈ l) :
    ∃ r e', entryBelow st e r = some e' ∧ kv = (joinPath (dirPath ++ r), ExpectedState.of e') := by
  induction fuel generalizing dirPath e l kv with
  | zero => cases h
  | succ fuel ih =>
    unfold flattenBaseSubtree at h
    split at h
    · rename_i child hp
      obtain ⟨node, hnode, h⟩ := bind_eq_ok.1 h
      obtain ⟨parts, hparts, h⟩ := bind_eq_ok.1 h
      cases h
      obtain ⟨part, hpart, hin⟩ := mem_flatten.1 hkv
      obtain ⟨x, hx, hrun⟩ := mapM_mem hparts hpart
      have hat : ∀ {r e'}, ((r = [x.name] ∧ e' = x) ∨
          ∃ r', r = x.name :: r' ∧ entryBelow st x r' = some e') → entryBelow st e r = some e' := by
        intro r e' hr
        simp only [entryBelow, hp]
        exact (entryAt_eq_some_iff (baseNode_eq_ok_iff.1 hnode)).2 ⟨x, hx, hr⟩
      unfold flattenBaseEntry at hrun
      split at hrun
      · obtain ⟨sub, hsub, hrun⟩ := bind_eq_ok.1 hrun
        cases hrun
        rcases mem_cons.1 hin with rfl | hin
        · exact ⟨[x.name], x, hat (.inl ⟨rfl, rfl⟩), rfl⟩
        · obtain ⟨r, e', hr, rfl⟩ := ih hsub hin
          exact ⟨x.name :: r, e', hat (.inr ⟨r, rfl, hr⟩), by simp⟩
      · cases hrun
        rw [mem_singleton.1 hin]
        exact ⟨[x.name], x, hat (.inl ⟨rfl, rfl⟩), rfl⟩
    · cases h
      cases hkv

/-- A file that passes the comparison begins with the bytes of the chunks. -/
theorem matchChunks_true {st : Store} {live : Bytes} (h : matchChunks st abs live chunks = .ok true) :
    ∃ bytes, chunkBytes st chunks = some bytes ∧ bytes <+: live := by
  induction chunks generalizing live with
  | nil => exact ⟨[], rfl, nil_prefix⟩
  | cons c rest ih =>
    obtain ⟨id, len⟩ := c
    unfold matchChunks at h
    split at h
    · cases h
    rename_i b hget
    split at h
    · cases h
    rename_i hlen
    split at h
    · cases h
    split at h
    · cases h
    rename_i hsame
    obtain ⟨tail, htail, hpre⟩ := ih h
    have hlen' : b.length = len := not_not.1 hlen
    have hsame' : live.take len = b := not_not.1 hsame
    refine ⟨b ++ tail, by simp [chunkBytes, hget, hlen', htail], ?_⟩
    rw [← take_append_drop len live, hsame']
    exact (prefix_append_right_inj b).2 hpre

/-! ## Checks on an unchanged disk -/

/-- The states of a run that has not written: what it remembers is fresh. -/
structure Looking (d : Disk) (s : Exec) : Prop where
  disk : s.disk = d
  fold : Answers d (fun _ => True) s.fold

/-- What `m` returns, started on the disk `d`; where it fails does not matter here. -/
def Finds {α : Type} (d : Disk) (m : ExecM α) (Q : α → Prop) : Prop :=
  Triple (Looking d) m (fun a s => Looking d s ∧ Q a) (fun _ _ => True)

section
variable {ap : Applier} {d : Disk} {p a : CompPath} {i : Inode} {α β : Type}

namespace Finds

variable {Q : α → Prop}

theorem pure {a : α} (h : Q a) : Finds d (Pure.pure a) Q := Triple.pure fun _ hs => ⟨hs, h⟩

theorem throw {e : MaterializeError} : Finds d (throw e) Q := Triple.throw fun _ _ => trivial

theorem bind {m : ExecM α} {f : α → ExecM β} {R : β → Prop} (h : Finds d m Q)
    (hf : ∀ a, Q a → Finds d (f a) R) : Finds d (m >>= f) R :=
  Triple.bind h fun a s hs => hf a hs.2 s hs.1

theorem get_bind {f : Exec → ExecM β} {R : β → Prop}
    (h : ∀ s, s.disk = d → Finds d (f s) R) : Finds d (get >>= f) R :=
  Triple.get_bind fun s hs => (h s hs.disk).weaken (fun _ h => h ▸ hs) (fun _ _ h => h) fun _ _ h => h

theorem mapM {f : α → ExecM β} {R : α → β → Prop} {l : List α}
    (h : ∀ a ∈ l, Finds d (f a) (R a)) : Finds d (l.mapM f) (List.Forall₂ R l) :=
  Triple.mapM l h

theorem weaken {m : ExecM α} {R : α → Prop} (h : Finds d m Q) (hR : ∀ a, Q a → R a) : Finds d m R :=
  Triple.weaken h (fun _ h => h) (fun a _ h => ⟨h.1, hR a h.2⟩) fun _ _ h => h

end Finds

omit [Env] in
theorem finds_liftExcept {x : Except MaterializeError α} [Env] :
    Finds d (liftExcept x) (fun a => x = .ok a) := by
  intro s hs
  cases x with
  | ok => exact ⟨hs, rfl⟩
  | error => trivial

theorem finds_look {at_ : CompPath} {call : Disk → Except Errno α} :
    Finds d (look at_ call) (fun a => call d = .ok a) := by
  intro s hs
  unfold look
  rw [hs.disk]
  cases call d with
  | ok => exact ⟨hs, rfl⟩
  | error => trivial

theorem finds_abs : Finds d (ap.abs p) (fun a => lookFrom .refuse d ap.target p = .ok a) := by
  rintro s ⟨rfl, hfold⟩
  unfold Applier.abs
  rcases hfold.resolveFrom ap.target (show ∀ c ∈ p, True from fun _ _ => trivial) with
    ⟨e, hrun, -⟩ | ⟨a, c, hrun, hlook, hc⟩
  · rw [hrun]
    trivial
  · rw [hrun]
    exact ⟨⟨rfl, hc⟩, hlook⟩

theorem finds_statOpt : Finds d (statOpt a) (fun md => md = (d.symlinkMetadata a).toOption) := by
  intro s hs
  unfold statOpt
  rw [hs.disk]
  cases d.symlinkMetadata a with
  | ok => exact ⟨hs, rfl⟩
  | error e => cases e <;> first | exact ⟨hs, rfl⟩ | trivial

theorem finds_contentMatches : Finds d (contentMatches ap.store a chunks) (fun same => same = true →
    ∃ live bytes, d.readFile a = .ok live ∧ chunkBytes ap.store chunks = some bytes ∧ bytes <+: live) := by
  refine finds_look.bind fun live hlive => finds_liftExcept.weaken fun same hsame heq => ?_
  rw [heq] at hsame
  obtain ⟨bytes, hbytes, hpre⟩ := matchChunks_true hsame
  exact ⟨live, bytes, hlive, hbytes, hpre⟩

omit [Env] in
/-- An entry is seen at its own place. -/
theorem symlinkMetadata_of_get (hplain : PlainPath a) (hget : d.get a = some i) : d.symlinkMetadata a = .ok i := by
  rw [Disk.symlinkMetadata_open (d.isTree.ne_nil hget) hplain (Disk.open_of_get hget), hget]

/-- A check that reports nothing has compared the entry at the place that the path leads to. -/
theorem finds_checkLiveMatches (hv : e.Valid) : Finds d (ap.checkLiveMatches p (.of e)) (fun ds => ds = [] →
    ∃ a, lookFrom .refuse d ap.target p = .ok a ∧
      ∀ i, PlainPath a → d.get a = some i → MatchesEntry ap.store e i.seen) := by
  refine finds_abs.bind fun a ha => finds_statOpt.bind fun md hmd => ?_
  have hseen : ∀ {i}, PlainPath a → d.get a = some i → md = some i := fun hplain hget => by
    rw [hmd, symlinkMetadata_of_get hplain hget]
    rfl
  cases md with
  | none => exact .pure fun h => by cases h
  | some i =>
    dsimp only
    split
    · exact .pure fun h => by cases h
    rename_i hkind
    have hk : i.kind = (ExpectedState.of e).kind := not_not.1 hkind
    cases i with
    | dir =>
      refine .pure fun _ => ⟨a, ha, fun j hplain hget => ?_⟩
      cases hseen hplain hget
      cases hpay : e.payload <;>
        simp_all [Inode.kind, ExpectedState.of, EntryKind.fromPayload, MatchesEntry, see,
          EntryState.of, Inode.seen, Settled]
    | symlink =>
      dsimp only
      split
      · exact .pure fun h => by cases h
      rename_i hfound
      refine .pure fun _ => ⟨a, ha, fun j hplain hget => ?_⟩
      cases hseen hplain hget
      cases hpay : e.payload <;>
        simp_all [Inode.kind, ExpectedState.of, EntryKind.fromPayload, MatchesEntry, see,
          EntryState.of, Inode.seen, Settled]
    | file live =>
      dsimp only
      split
      · exact .pure fun h => by cases h
      rename_i hsize
      split
      · exact .pure fun h => by cases h
      rename_i hexec
      refine finds_contentMatches.bind fun same hsame => ?_
      split
      · rename_i htrue
        refine .pure fun _ => ⟨a, ha, fun j hplain hget => ?_⟩
        cases hseen hplain hget
        have hread : d.readFile a = .ok live := by
          simp [Disk.readFile, Disk.follow_of_file hplain hget, hget]
        cases hpay : e.payload with
        | dir | symlink =>
          simp [Inode.kind, ExpectedState.of, EntryKind.fromPayload, hpay] at hk
        | file size chunks =>
          simp only [ExpectedState.of, hpay, ne_eq, not_not] at hsize hexec hsame
          obtain ⟨live', bytes, hlive, hbytes, hpre⟩ := hsame htrue
          cases hread.symm.trans hlive
          have hlt : live.length < 2 ^ 64 := d.creatable _ _ hget
          rw [hv.size size chunks hpay] at hsize
          obtain rfl := (prefix_and_length_iff hbytes hlt).1 ⟨hsize, hpre⟩
          refine ⟨.file bytes e.exec (unixNanos e.mtimeSec e.mtimeNsec), ?_, rfl, hexec⟩
          simp [see, EntryState.of, EntryKind.fromPayload, hpay, hbytes]
      · exact .pure fun h => by cases h

/-! ## A whole directory -/

/-- The entry at `p` is what the tree `root` records there. -/
def Recorded (st : Store) (root : BlobId) (p : CompPath) (i : Inode) : Prop :=
  ∃ e, entryAt st root p = some e ∧ MatchesEntry st e i.seen

/-- The tree records the entry at the place `q` below the folder, under the normal form of its path. -/
def Noted (ap : Applier) (root : BlobId) (q : CompPath) (i : Inode) : Prop :=
  ∃ rel p, q = ap.target ++ rel ∧ Alike rel p ∧ Recorded ap.store root p i

/-- A name that a file system has; joining keeps it and its normal form apart from others. -/
def RealName (c : String) : Prop := PlainName c ∧ '/' ∉ c.toList ∧ '/' ∉ (Env.nfc c).toList

instance (c : String) : Decidable (RealName c) := inferInstanceAs (Decidable (_ ∧ _ ∧ _))

def Disk.RealNames (d : Disk) : Prop := ∀ q, d.get q ≠ none → ∀ c ∈ q, RealName c

theorem Disk.RealNames.plain (h : d.RealNames) (hget : d.get a ≠ none) : PlainPath a := fun c hc =>
  (h a hget c hc).1

/-- No file or link below the directory stands beside an entry whose name is its normal form. -/
def Untwinned (d : Disk) (dir : CompPath) : Prop :=
  ∀ sub ∈ d.below dir, d.get (dir ++ sub) ≠ some .dir →
    Env.nfc (sub.getLastD "") = sub.getLastD "" ∨ d.get (dir ++ sub.dropLast ++ [Env.nfc (sub.getLastD "")]) = none

instance (d : Disk) (dir : CompPath) : Decidable (Untwinned d dir) := inferInstanceAs (Decidable (∀ _ ∈ _, _))

/-- A name is found under its normal form if no other entry has that name. -/
theorem lookFrom_nfc {x : CompPath} {c : String} (hnames : d.RealNames) (hget : d.get (ap.target ++ x ++ [c]) ≠ none)
    (hnfc : Env.nfc (Env.nfc c) = Env.nfc c) (hplain : PlainName (Env.nfc c))
    (htwin : Env.nfc c = c ∨ d.get (ap.target ++ x ++ [Env.nfc c]) = none)
    (h : lookFrom .refuse d ap.target (x ++ [Env.nfc c]) = .ok a) : a = ap.target ++ x ++ [c] := by
  have hpl := hnames.plain hget
  have hdir : d.DirAt (ap.target ++ x) := Disk.Open.dirAt_of_ne_none hget
  have hdirPlain : PlainPath (ap.target ++ x) := hpl.of_prefix (prefix_append _ _)
  rw [lookFrom_append] at h
  · unfold lookFrom at h
    rcases htwin with heq | hnone
    · obtain ⟨i, hi⟩ := Option.ne_none_iff_exists'.1 hget
      rw [heq, symlinkMetadata_of_get hpl hi] at h
      exact (Except.ok.inj h).symm
    -- only the listing of the directory can answer
    have hmiss : ∃ x', d.symlinkMetadata (ap.target ++ x ++ [Env.nfc c]) = .error x' := by
      have hopen : d.Open (ap.target ++ x ++ [Env.nfc c]) := by
        intro e he habove
        obtain ⟨hpre, hne⟩ := above_iff_isPrefix.1 habove
        exact .inl (hdir.of_prefix he ((prefix_concat_iff.1 hpre).resolve_left hne))
      rw [Disk.symlinkMetadata_open (by simp) (hdirPlain.append (forall_mem_singleton.2 hplain)) hopen, hnone]
      exact ⟨_, rfl⟩
    obtain ⟨x', hx'⟩ := hmiss
    rw [hx', hnfc] at h
    dsimp only at h
    have hscan : scanDirFold d (ap.target ++ x) (Env.nfc c) =
        (d.names (ap.target ++ x)).filter fun name => Env.nfc name = Env.nfc c := by
      simp [scanDirFold, Disk.readDir, Disk.follow_of_dirAt hdirPlain hdir, hdir]
    have hmem : c ∈ scanDirFold d (ap.target ++ x) (Env.nfc c) := by
      rw [hscan]
      exact mem_filter.2 ⟨Disk.mem_names.2 hget, by simp⟩
    split at h
    · cases h
    rename_i live hpick
    rw [pick_refuse hpick] at hmem
    obtain rfl : live = some c := by simpa using hmem
    exact (Except.ok.inj h).symm
  · intro e he hpre
    obtain ⟨i, hi⟩ : ∃ i, d.get (ap.target ++ e) = some i :=
      ⟨_, hdir.of_prefix (by simp [he]) ((prefix_append_right_inj _).2 hpre)⟩
    exact ⟨i, symlinkMetadata_of_get (hdirPlain.of_prefix ((prefix_append_right_inj _).2 hpre)) hi⟩

variable {root : BlobId}

/-- The walk of a subtree check: an entry that it reports nothing for is recorded. -/
theorem finds_verifyLiveEntry (hnames : d.RealNames) {q sub : CompPath}
    (he : entryAt ap.store root dirPath = some e) (hsub : sub ≠ [])
    {expected : List (String × ExpectedState)}
    (hexp : ∀ kv ∈ expected, ∃ r e', entryBelow ap.store e r = some e' ∧
      kv = (joinPath (dirPath ++ r), ExpectedState.of e'))
    (hget : d.get (ap.target ++ q ++ sub) = some i) :
    Finds d (ap.verifyLiveEntry expected (ap.target ++ q) (ap.target ++ q) sub)
      (fun r => r.2 = [] → Untwinned d (ap.target ++ q) → i ≠ .dir → Noted ap root (ap.target ++ q ++ sub) i) := by
  obtain ⟨x, c, rfl⟩ : ∃ x c, sub = x ++ [c] := ⟨_, _, (dropLast_append_getLast hsub).symm⟩
  have hrel : (ap.target ++ q ++ x).drop ap.target.length ++ [Env.nfc c] = q ++ x ++ [Env.nfc c] := by
    rw [append_assoc ap.target, drop_left]
  have hreal := hnames _ (show d.get (ap.target ++ q ++ (x ++ [c])) ≠ none by rw [hget]; simp)
  refine .get_bind fun s hs => ?_
  subst hs
  simp only [dropLast_concat, getLastD_concat, hrel, hget]
  cases hlook : expected.lookup (joinPath (q ++ x ++ [Env.nfc c])) with
  | none => exact .pure fun h => by cases h
  | some exp =>
    dsimp only
    split
    · rename_i hdir
      exact .pure fun _ _ hi => absurd hdir hi
    split
    · exact .pure fun h => by cases h
    -- the key found in the listing belongs to this path alone
    obtain ⟨l₁, l₂, hsplit, -⟩ := lookup_eq_some_iff.1 hlook
    obtain ⟨r, e', hr, hkv⟩ := hexp (joinPath (q ++ x ++ [Env.nfc c]), exp) (by rw [hsplit]; simp)
    simp only [Prod.mk.injEq] at hkv
    have hrne : r ≠ [] := by
      rintro rfl
      cases hpay : e.payload <;> simp [entryBelow, hpay, entryAt_nil] at hr
    rw [← entryAt_append he hrne] at hr
    have hslash : NoSlash (q ++ x ++ [Env.nfc c]) := by
      intro b hb
      rcases mem_append.1 hb with hb | hb
      · exact (hreal b (by simp only [mem_append] at hb ⊢; tauto)).2.1
      · rw [mem_singleton.1 hb]
        exact (hreal c (by simp)).2.2
    have hpath := joinPath_inj hslash (noSlash_of_entryAt hr) (by simp) (by simp [hrne]) hkv.1
    rw [← hpath] at hr
    rw [hkv.2]
    have hstored := storedPath_of_entryAt hr (Env.nfc c) (by simp)
    refine (finds_checkLiveMatches (entryAt_valid hr)).bind fun ds hds => .pure fun hnil htwin hi => ?_
    obtain ⟨a, ha, hm⟩ := hds hnil
    have htw := htwin (x ++ [c]) (Disk.mem_below.2 ⟨by simp, by rw [hget]; simp⟩) (by
      rw [hget]
      simpa using hi)
    simp only [getLastD_concat, dropLast_concat] at htw
    have hget' : s.disk.get (ap.target ++ (q ++ x) ++ [c]) = some i := by simpa using hget
    obtain rfl := lookFrom_nfc hnames (by rw [hget']; simp) hstored.1 hstored.2 (by simpa using htw) ha
    refine ⟨q ++ x ++ [c], q ++ x ++ [Env.nfc c], by simp, ?_, e', hr, hm i (hnames.plain (by rw [hget']; simp)) hget'⟩
    simp [Alike, hstored.1]

/-- A subtree check that reports nothing has found every live file and link
below the directory recorded. -/
theorem finds_verifySubtree (hnames : d.RealNames) (he : entryAt ap.store root dirPath = some e) {q : CompPath}
    (hlook : lookFrom .refuse d ap.target dirPath = .ok (ap.target ++ q))
    (hdir : d.get (ap.target ++ q) = some .dir) :
    Finds d (ap.verifySubtreeMatchesBase dirPath e) (fun ds => ds = [] → Untwinned d (ap.target ++ q) →
      ∀ sub i, sub ≠ [] → d.get (ap.target ++ q ++ sub) = some i → i ≠ .dir →
        Noted ap root (ap.target ++ q ++ sub) i) := by
  refine finds_liftExcept.bind fun expected hexp => ?_
  refine finds_abs.bind fun absDir habs => ?_
  cases hlook.symm.trans habs
  refine finds_look.bind fun r hr => ?_
  have hplain := hnames.plain (show d.get (ap.target ++ q) ≠ none by simp [hdir])
  have hloc : d.locate (ap.target ++ q) = .ok (ap.target ++ q) := by
    rcases Disk.locate_noLink (d.isTree.ne_nil hdir) hplain (fun e he habove => (Disk.open_of_get hdir e he habove).elim
      (fun h t m hl => by cases h.symm.trans hl) fun h t m hl => by cases h.symm.trans hl) with ⟨h, -⟩ | ⟨-, hnone⟩
    · exact h
    · cases hdir.symm.trans hnone
  cases hloc.symm.trans hr
  refine .get_bind fun s hs => ?_
  subst hs
  refine (Finds.mapM (R := fun sub r => r.2 = [] → Untwinned s.disk (ap.target ++ q) → ∀ i,
    s.disk.get (ap.target ++ q ++ sub) = some i → i ≠ .dir →
      Noted ap root (ap.target ++ q ++ sub) i) ?_).bind fun live hall => .pure fun hnil htwin => ?_
  · intro sub hsub
    obtain ⟨hne, hget⟩ := Disk.mem_below.1 hsub
    obtain ⟨i, hi⟩ := Option.ne_none_iff_exists'.1 hget
    refine (finds_verifyLiveEntry hnames he hne (fun kv hkv => flattenBaseSubtree_mem hexp hkv) hi).weaken
      fun r hr hnil htwin j hj hjd => ?_
    cases hi.symm.trans hj
    exact hr hnil htwin hjd
  · intro sub i hne hget hi
    obtain ⟨hflat, -⟩ := append_eq_nil_iff.1 hnil
    have hmem : sub ∈ s.disk.below (ap.target ++ q) := Disk.mem_below.2 ⟨hne, by rw [hget]; simp⟩
    obtain ⟨r, hr, hrel⟩ := forall₂_mem_left hall hmem
    exact hrel (flatten_eq_nil_iff.1 hflat _ (mem_map_of_mem hr)) htwin i hget hi

/-! ## The guard -/

/-- What a passed check of a removal says of the place that the guard found. -/
structure RemovalChecked (ap : Applier) (root : BlobId) (d : Disk) (rm : PlannedRemove) (a : CompPath) : Prop where
  leaf : ∀ i, d.get a = some i → i ≠ .dir → Noted ap root a i
  deep : rm.deep = true → Untwinned d a → ∀ sub i, d.get (a ++ sub) = some i → i ≠ .dir → Noted ap root (a ++ sub) i

/-- A directory is recorded at the path. -/
def ExpectsDir (st : Store) (root : BlobId) (p : CompPath) : Prop :=
  (entryAt st root p).map (fun e => (ExpectedState.of e).kind) = some .dir

instance (st : Store) (root : BlobId) (p : CompPath) : Decidable (ExpectsDir st root p) :=
  inferInstanceAs (Decidable (_ = _))

theorem Recorded.noted {rel : CompPath} (h : Recorded ap.store root p i)
    (hlook : lookFrom .refuse d ap.target p = .ok (ap.target ++ rel)) : Noted ap root (ap.target ++ rel) i := by
  obtain ⟨q, heq, halike⟩ := lookFrom_alike hlook
  exact ⟨rel, p, rfl, append_cancel_left heq ▸ halike, h⟩

/-- A removal that the guard lets through has been compared with the expected tree, entry by entry. -/
theorem finds_guardRemoval (hnames : d.RealNames) {rm : PlannedRemove}
    (hlook : lookFrom .refuse d ap.target rm.path = .ok a) (hget : d.get a = some i) :
    Finds d (ap.guardRemoval root rm) (fun ds => ds = [] → RemovalChecked ap root d rm a) := by
  obtain ⟨q, rfl, -⟩ := lookFrom_alike hlook
  have hplain := hnames.plain (show d.get (ap.target ++ q) ≠ none by simp [hget])
  refine finds_liftExcept.bind fun exp hexp => ?_
  have hat := baseLookup_ok hexp
  cases exp with
  | none => exact .pure fun h => by cases h
  | some e =>
    refine finds_abs.bind fun abs habs => ?_
    cases hlook.symm.trans habs
    refine finds_statOpt.bind fun md hmd => ?_
    rw [symlinkMetadata_of_get hplain hget] at hmd
    subst hmd
    dsimp only [Except.toOption]
    split
    · exact .pure fun h => by cases h
    split
    · rename_i hdeep
      obtain rfl : i = .dir := by cases i <;> simp_all [Inode.kind]
      refine (finds_verifySubtree hnames hat hlook hget).weaken fun ds hds hnil => ⟨?_, ?_⟩
      · intro j hj hjd
        cases hget.symm.trans hj
        exact absurd rfl hjd
      · intro _ htwin sub j hj hjd
        by_cases hsub : sub = []
        · subst hsub
          rw [append_nil, hget] at hj
          cases hj
          exact absurd rfl hjd
        · exact hds hnil htwin sub j hsub hj hjd
    · rename_i hdeep
      refine (finds_checkLiveMatches (entryAt_valid hat)).weaken fun ds hds hnil => ?_
      obtain ⟨a, ha, hm⟩ := hds hnil
      cases hlook.symm.trans ha
      have hself : Noted ap root (ap.target ++ q) i := Recorded.noted ⟨e, hat, hm i hplain hget⟩ hlook
      refine ⟨fun j hj _ => ?_, fun hd _ sub j hj _ => ?_⟩
      · cases hget.symm.trans hj
        exact hself
      by_cases hsub : sub = []
      · subst hsub
        rw [append_nil] at hj ⊢
        cases hget.symm.trans hj
        exact hself
      · have hnot : i ≠ .dir := by
          rintro rfl
          exact hdeep ⟨hd, rfl⟩
        cases (d.isTree.none_below hget hnot (above_append hsub)).symm.trans hj

/-- An upsert that the guard lets through meets a recorded entry or an expected directory. -/
theorem finds_guardUpsert (hnames : d.RealNames) {up : PlannedUpsert}
    (hlook : lookFrom .refuse d ap.target up.path = .ok a) (hget : d.get a = some i) :
    Finds d (ap.guardUpsert root up) (fun ds => ds = [] →
      (i ≠ .dir ∧ Noted ap root a i) ∨ ExpectsDir ap.store root up.path) := by
  obtain ⟨q, rfl, -⟩ := lookFrom_alike hlook
  have hplain := hnames.plain (show d.get (ap.target ++ q) ≠ none by simp [hget])
  refine finds_liftExcept.bind fun exp hexp => ?_
  have hat := baseLookup_ok hexp
  refine finds_abs.bind fun abs habs => ?_
  cases hlook.symm.trans habs
  refine finds_statOpt.bind fun md hmd => ?_
  rw [symlinkMetadata_of_get hplain hget] at hmd
  subst hmd
  cases exp with
  | none => exact .pure fun h => by cases h
  | some e =>
    have hcheck : (ExpectedState.of e).kind ≠ .dir → Finds d (ap.checkLiveMatches up.path (.of e))
        (fun ds => ds = [] → (i ≠ .dir ∧ Noted ap root (ap.target ++ q) i) ∨ ExpectsDir ap.store root up.path) := by
      intro hk
      refine (finds_checkLiveMatches (entryAt_valid hat)).weaken fun ds hds hnil => .inl ?_
      obtain ⟨a, ha, hm⟩ := hds hnil
      cases hlook.symm.trans ha
      have hmatch := hm i hplain hget
      refine ⟨?_, Recorded.noted ⟨e, hat, hmatch⟩ hlook⟩
      rintro rfl
      exact hk hmatch.kind.symm
    dsimp only [Except.toOption]
    cases hk : (ExpectedState.of e).kind with
    | dir => exact .pure fun _ => .inr (by simp [ExpectsDir, hat, hk])
    | file | symlink => exact hcheck (by simp [hk])

/-- What a passed guard says of the disk that it looked at. -/
structure Checked (ap : Applier) (root : BlobId) (d : Disk) (removes : List PlannedRemove)
    (planned : List PlannedUpsert) : Prop where
  removal : ∀ rm ∈ removes, ∀ a i, lookFrom .refuse d ap.target rm.path = .ok a → d.get a = some i →
    RemovalChecked ap root d rm a
  upsert : ∀ up ∈ planned, up.mutation.isMutation → ∀ a i, lookFrom .refuse d ap.target up.path = .ok a →
    d.get a = some i → (i ≠ .dir ∧ Noted ap root a i) ∨ ExpectsDir ap.store root up.path

/-- A check that is of interest only where the path leads to an entry. -/
theorem Finds.each {m : ExecM (List Divergence)} {Q : CompPath → Inode → Prop} (hkeeps : Keeps (Looking d) m)
    (h : ∀ a i, lookFrom .refuse d ap.target p = .ok a → d.get a = some i → Finds d m fun ds => ds = [] → Q a i) :
    Finds d m fun ds => ds = [] → ∀ a i, lookFrom .refuse d ap.target p = .ok a → d.get a = some i → Q a i := by
  intro s hs
  have hk := hkeeps s hs
  cases hrun : m s with
  | error => trivial
  | ok ds s' =>
    rw [hrun] at hk
    refine ⟨hk, fun hnil a i ha hi => ?_⟩
    have hf := h a i ha hi s hs
    rw [hrun] at hf
    exact hf.2 hnil

theorem looking_abs (rel : CompPath) : Keeps (Looking d) (ap.abs rel) := by
  rintro s ⟨rfl, hfold⟩
  unfold Applier.abs
  rcases hfold.resolveFrom ap.target (show ∀ c ∈ rel, True from fun _ _ => trivial) with
    ⟨e, hrun, -⟩ | ⟨a, c, hrun, -, hc⟩
  · rw [hrun]
    exact ⟨rfl, hfold⟩
  · rw [hrun]
    exact ⟨rfl, hc⟩

/-- A guard that passes has checked every removal and every upsert that is not skipped. -/
theorem finds_guard {m : RootManifest} (hmode : ap.overwrite = .expect m) (hnames : d.RealNames)
    {removes : List PlannedRemove} {planned : List PlannedUpsert} :
    Finds d (ap.guard removes planned) (fun _ => Checked ap m.rootTreeId d removes planned) := by
  unfold Applier.guard
  rw [hmode]
  dsimp only
  refine (Finds.mapM fun r _ => Finds.each (keeps_guardRemoval looking_abs m.rootTreeId r) fun a i ha hi =>
    finds_guardRemoval hnames ha hi).bind fun ds₁ hall₁ => ?_
  refine (Finds.mapM fun u _ => Finds.each (keeps_guardUpsert looking_abs m.rootTreeId u) fun a i ha hi =>
    finds_guardUpsert hnames ha hi).bind fun ds₂ hall₂ => ?_
  split
  · exact .throw
  rename_i hnone
  obtain ⟨h₁, h₂⟩ := append_eq_nil_iff.1 (not_not.1 hnone)
  refine .pure ⟨fun r hr => ?_, fun u hu hmut => ?_⟩
  · obtain ⟨ds, hds, hchecked⟩ := forall₂_mem_left hall₁ hr
    exact hchecked (flatten_eq_nil_iff.1 h₁ ds hds)
  · obtain ⟨ds, hds, hchecked⟩ := forall₂_mem_left hall₂ (mem_filter.2 ⟨hu, by simpa using hmut⟩)
    exact hchecked (flatten_eq_nil_iff.1 h₂ ds hds)

theorem finds_prepare {m : RootManifest} (hmode : ap.overwrite = .expect m) (hnames : d.RealNames)
    (removes : List PlannedRemove) (upserts : List PlannedUpsert) :
    Triple (·.disk = d) (ap.prepare removes upserts)
      (fun planned s => s.disk = d ∧ Checked ap m.rootTreeId d removes planned) (fun _ s => s.disk = d) := by
  have hfind : Triple (·.disk = d) (ap.prepare removes upserts)
      (fun planned _ => Checked ap m.rootTreeId d removes planned) fun _ _ => True := by
    refine Triple.bind (Q := fun _ => Looking d) (Triple.modify fun s hs => ⟨hs, fun _ _ h => by cases h⟩) fun _ => ?_
    refine Triple.bind (Q := fun _ => Looking d) (Triple.fails (Keeps.mapM fun up _ => (looking_abs up.path).bind
      fun a => keeps_planUpsert (fun _ _ => Triple.modify fun _ hs => ⟨hs.disk, hs.fold⟩) _ _ _)
      fun _ _ _ => trivial) fun planned => ?_
    exact Triple.bind (finds_guard hmode hnames) fun _ => Triple.pure fun _ hs => hs.2
  have hkeep := triple_prepare ap removes upserts d
  exact (hkeep.and hfind).weaken (fun _ h => h) (fun _ _ h => ⟨h.1.1, h.2⟩) fun _ _ h => h.1

end

end

end Ferry
