import Ferry.Disk.Growth
import Ferry.Lib.Effect
import Ferry.Lib.Hoare
import Ferry.Materialize.Apply

/-! # Temporary entries

A file or link is made under a temporary name in the directory of its
destination and renamed onto it. If nothing stands under that name, the two
steps are one: the entry appears at the destination, or the folder keeps what it
had. Nothing in the applier makes sure of it: a name of more than 180 bytes gets a
temporary name without entropy.
-/

namespace Ferry

open Lib List Function

/-! ## Calls of the system -/

section
variable {call : Disk → Except Errno Disk}

theorem run_change {at_ : CompPath} {s : Exec} {d : Disk}
    (h : call s.disk = .ok d) : change at_ call s = .ok ⟨⟩ { s with disk := d } := by
  simp [change, h]

theorem run_change_error {at_ : CompPath} {s : Exec} {e : Errno}
    (h : call s.disk = .error e) : change at_ call s = .error (.io at_ e) s := by
  simp [change, h]

theorem run_look {α : Type} {at_ : CompPath} {call : Disk → Except Errno α} {s : Exec} {a : α}
    (h : call s.disk = .ok a) : look at_ call s = .ok a s := by
  simp [look, h]

theorem run_liftExcept {α : Type} {x : Except MaterializeError α} {s : Exec} {a : α}
    (h : x = .ok a) : liftExcept x s = .ok a s := by
  rw [h]
  rfl

end

/-! ## Entries made under another name -/

namespace Disk

variable {d : Disk} {p q : CompPath} {i : Inode}

/-- Nothing stands at the path. -/
def Vacant (d : Disk) (p : CompPath) : Prop := ∀ q, d.locate p = .ok q → d.get q = none

instance (d : Disk) (p : CompPath) : Decidable (d.Vacant p) :=
  decidable_of_iff ((d.locate p).toOption.bind d.get = none) <| by
    unfold Vacant
    cases d.locate p <;> simp [Except.toOption]

theorem removeTree_place (hget : d.get p = none) (h : d.CanPlace p i) :
    (d.place p i h).removeTree p = { d with dirTime := d.stamp p } := by
  have hbelow : ∀ e ∈ d.inodes.entries, ¬ p <+: e.1 := by
    intro e he hpre
    have hsome : d.get e.1 = some e.2 := AList.mem_lookup_iff.2 he
    by_cases heq : p = e.1
    · rw [← heq, hget] at hsome
      cases hsome
    · rw [d.isTree.none_of_none h.1 hget (above_iff_isPrefix.2 ⟨hpre, heq⟩)] at hsome
      cases hsome
  have hnot : p ∉ d.inodes.entries.keys := fun hmem => by
    obtain ⟨e, he, heq⟩ := mem_map.1 hmem
    exact hbelow e he (heq ▸ prefix_refl _)
  have hinodes : eraseTree p (d.inodes.insert p i) = d.inodes := by
    apply AList.ext
    simp only [eraseTree, AList.insert, kinsert, kerase_of_notMem_keys hnot, filter_cons]
    rw [if_neg (by simp), filter_eq_self.2 fun e he => by simpa using hbelow e he]
  simp only [removeTree, place, hinodes, stamp, update_idem]

theorem rename_eq {src dst : CompPath} (hsrc : d.locate src = .ok p) (hdst : d.locate dst = .ok q)
    (hget : d.get p = some i) (hi : i ≠ .dir) : d.rename src dst =
      if p = q then .ok d
      else if h : d.get q ≠ some .dir ∧ (d.removeTree p).CanPlace q i then
        .ok ((d.removeTree p).place q i h.2)
      else .error .isADirectory := by
  cases i with
  | dir => exact absurd rfl hi
  | file | symlink => simp only [rename, hsrc, hdst, hget]

/-- An entry made under a free name beside `p` and renamed onto `p`. -/
theorem rename_place (hne : p ≠ []) {c : String} {t : CompPath} (ht : d.locate (p.dropLast ++ [c]) = .ok t)
    (hget : d.get t = none) (hi : i ≠ .dir) (h : d.CanPlace t i) :
    (d.place t i h).rename (p.dropLast ++ [c]) p = d.renameOnto p i := by
  have hgrows : d.Grows (d.place t i h) := grows_place hget h
  have hsib := locate_sibling (d := d) hne c
  rw [ht] at hsib
  cases hq : d.locate p with
  | error e =>
    rw [hq] at hsib
    cases hsib
  | ok q =>
    rw [hq] at hsib
    obtain rfl : t = q.dropLast ++ [c] := Except.ok.inj hsib
    rw [rename_eq (hgrows.locate ht) (hgrows.locate hq) (by simp) hi]
    simp only [renameOnto, hq]
    split
    · rename_i heq
      have hnot : d.get q ≠ some .dir := by
        rw [← heq, hget]
        simp
      rw [dif_pos ⟨hnot, heq ▸ h⟩]
      congr 2
    rename_i heq
    -- once the temporary entry is gone, only the time of its directory tells that it was there
    have hplace : ∀ hc : d.CanPlace q i,
        ({ d with dirTime := d.stamp (q.dropLast ++ [c]) } : Disk).place q i hc = d.place q i hc := by
      intro hc
      simp [place, stamp]
    simp only [get_place, update_of_ne (Ne.symm heq), removeTree_place hget h]
    by_cases hcan : d.get q ≠ some .dir ∧ d.CanPlace q i
    · rw [dif_pos hcan]
      exact (dif_pos hcan).trans (congrArg Except.ok (hplace hcan.2))
    · rw [dif_neg hcan]
      exact dif_neg hcan

theorem removeFile_place {t : CompPath} {tmp : CompPath} (ht : d.locate tmp = .ok t) (hget : d.get t = none)
    (hi : i ≠ .dir) (h : d.CanPlace t i) :
    (d.place t i h).removeFile tmp = .ok { d with dirTime := d.stamp t } := by
  rw [removeFile_eq ((grows_place hget h).locate ht) (by simp) hi, removeTree_place hget h]

end Disk

section
variable [Env]

/-! ## Making the temporary entry -/

/-- Outcomes of a step that makes the entry `tmp`, started in `s`: it is there, or the step failed before or
after. -/
def Makes (tmp : CompPath) (s : Exec) (Ok : Inode → Prop) (make : ExecM Unit) : Prop :=
  Triple (· = s) make
    (fun _ s' => ∃ t i h, s.disk.locate tmp = .ok t ∧ i ≠ .dir ∧ Ok i ∧ s' = { s with disk := s.disk.place t i h })
    (fun _ s' => s' = s ∨
      ∃ t i h, s.disk.locate tmp = .ok t ∧ i ≠ .dir ∧ s' = { s with disk := s.disk.place t i h })

variable {s : Exec} {abs rel : CompPath} {Ok : Inode → Prop}

/-- With its name free, a temporary entry lands in one step; a failure changes times of directories only. -/
theorem triple_land (hne : abs ≠ []) (hfree : s.disk.Vacant (tempPath abs rel)) {make : ExecM Unit}
    (hmake : Makes (tempPath abs rel) s Ok make) :
    Triple (· = s) (orUnlink (tempPath abs rel) do
        make
        change abs (·.rename (tempPath abs rel) abs))
      (fun _ s' => ∃ i d, Ok i ∧ s.disk.renameOnto abs i = .ok d ∧ s' = { s with disk := d })
      (fun _ s' => ∃ d : Disk, d.inodes = s.disk.inodes ∧ s' = { s with disk := d }) := by
  rintro s' rfl
  have hrun := hmake s' rfl
  unfold orUnlink
  cases hm : make s' with
  | error e s₁ =>
    rw [hm] at hrun
    rw [run_bind_error hm]
    rcases hrun with rfl | ⟨t, i, h, ht, hi, rfl⟩
    · refine ⟨_, ?_, rfl⟩
      cases hrm : s₁.disk.removeFile (tempPath abs rel) with
      | error => rfl
      | ok d =>
        unfold Disk.removeFile at hrm
        split at hrm
        · cases hrm
        · rename_i hloc
          rw [hfree _ hloc] at hrm
          cases hrm
    · exact ⟨_, by rw [Disk.removeFile_place ht (hfree t ht) hi h]; rfl, rfl⟩
  | ok _ s₁ =>
    rw [hm] at hrun
    obtain ⟨t, i, h, ht, hi, hok, rfl⟩ := hrun
    rw [run_bind_ok hm]
    have hren := Disk.rename_place hne ht (hfree t ht) hi h
    unfold change
    dsimp only
    rw [show (s'.disk.place t i h).rename (tempPath abs rel) abs = _ from hren]
    cases hon : s'.disk.renameOnto abs i with
    | ok d => exact ⟨i, d, hok, hon, rfl⟩
    | error => exact ⟨_, by rw [Disk.removeFile_place ht (hfree t ht) hi h]; rfl, rfl⟩

omit [Env] in
theorem makes_symlink {target : String} {tmp : CompPath} :
    Makes tmp s (· = .symlink target s.disk.clock) (makeSymlink target tmp) := by
  rintro s' rfl
  unfold makeSymlink look change
  cases hcheck : Disk.checkTarget target with
  | error => exact .inl rfl
  | ok =>
    simp only [bind, EStateM.bind]
    cases hlink : s'.disk.linkNew tmp (.symlink target s'.disk.clock) with
    | error => exact .inl rfl
    | ok d =>
      unfold Disk.linkNew at hlink
      split at hlink
      · cases hlink
      rename_i t ht
      split at hlink
      · rename_i h
        cases hlink
        exact ⟨t, _, h.2, ht, by simp, rfl, rfl⟩
      · cases hlink

omit [Env] in
theorem createPlace_of_vacant {d : Disk} {tmp t : CompPath} (hfree : d.Vacant tmp) (ht : d.locate tmp = .ok t)
    (budget : Nat) : d.createPlace (budget + 1) tmp = .ok t := by
  simp [Disk.createPlace, ht, hfree t ht]

omit [Env] in
theorem putFile_of_none {d : Disk} {t : CompPath} (hget : d.get t = none) {bytes : Bytes} {exec : Bool}
    {mtime : Option Int} (h : d.CanPlace t (.file bytes exec (mtime.getD d.clock))) :
    d.putFile t bytes exec mtime = .ok (d.place t _ h) := by
  rw [Disk.putFile, dif_pos ⟨by simp [hget], h⟩, if_pos hget]
  rfl

theorem readPart_eq {st : Store} {disp : String} {index : Nat} {chunks : Chunks} {bytes : Bytes}
    (h : readChunks st disp index chunks = .ok bytes) : readPart st chunks = bytes := by
  induction chunks generalizing index bytes with
  | nil =>
    cases h
    rfl
  | cons c rest ih =>
    unfold readChunks at h
    split at h
    · cases h
    rename_i b hget
    split at h
    · cases h
    rename_i hlen
    split at h
    · cases h
    rename_i hhash
    obtain ⟨tail, htail, h⟩ := bind_eq_ok.1 h
    cases h
    simp [readPart, hget, not_not.1 hlen, not_not.1 hhash, ih htail]

variable {ap : Applier} {tmp : CompPath} {disp : String} {exec : Bool} {sec : Int} {nsec : Nat} {chunks : Chunks}

/-- The temporary file holds all chunks once it has been read back. -/
theorem makes_file (hfree : s.disk.Vacant tmp) :
    Makes tmp s (fun i => ∃ bytes, readChunks ap.store disp 0 chunks = .ok bytes ∧
      i = .file bytes exec (joinUnix sec nsec)) (ap.writeTemp tmp disp exec sec nsec chunks) := by
  rintro s' rfl
  unfold Applier.writeTemp
  generalize hread : readChunks ap.store disp 0 chunks = read
  cases hloc : s'.disk.locate tmp with
  | error e =>
    have hopen : look tmp (·.createPlace 40 tmp) s' = .error (.io tmp e) s' := by
      simp [look, Disk.createPlace, hloc]
    rw [run_bind_error hopen]
    exact .inl rfl
  | ok t =>
    rw [run_bind_ok (run_look (createPlace_of_vacant hfree hloc 39))]
    by_cases hcan : s'.disk.CanPlace t (.file (readPart ap.store chunks) exec
        ((read.toOption.map fun _ => joinUnix sec nsec).getD s'.disk.clock))
    · rw [run_bind_ok (run_change (putFile_of_none (hfree t hloc) hcan))]
      cases read with
      | error => exact .inr ⟨t, _, hcan, rfl, by simp, rfl⟩
      | ok bytes =>
        rw [run_bind_ok (run_liftExcept rfl)]
        cases hver : verifyRegions tmp disp 0 bytes chunks with
        | error => exact .inr ⟨t, _, hcan, rfl, by simp, rfl⟩
        | ok => exact ⟨t, _, hcan, rfl, by simp, ⟨bytes, rfl, by rw [readPart_eq hread]; rfl⟩, rfl⟩
    · obtain ⟨e, hput⟩ : ∃ e, s'.disk.putFile t (readPart ap.store chunks) exec
          (read.toOption.map fun _ => joinUnix sec nsec) = .error e := by
        rw [Disk.putFile, dif_neg fun h => hcan h.2]
        split
        · exact ⟨_, rfl⟩
        · exact ⟨_, rfl⟩
      rw [run_bind_error (run_change_error hput)]
      exact .inl rfl

/-- Writing a file, with nothing in the way of the temporary one. -/
theorem triple_writeFileAtomically {size : Nat} (hne : abs ≠ []) (hfree : s.disk.Vacant (tempPath abs rel)) :
    Triple (· = s) (ap.writeFileAtomically abs rel exec sec nsec size chunks)
      (fun _ s' => ∃ i d, (∃ bytes, readChunks ap.store (joinPath rel) 0 chunks = .ok bytes ∧
        i = .file bytes exec (joinUnix sec nsec)) ∧ s.disk.renameOnto abs i = .ok d ∧ s' = { s with disk := d })
      (fun _ s' => ∃ d : Disk, d.inodes = s.disk.inodes ∧ s' = { s with disk := d }) := by
  unfold Applier.writeFileAtomically
  dsimp only
  split
  · exact Triple.throw fun s' hs => ⟨s.disk, rfl, hs⟩
  · exact triple_land hne hfree (makes_file hfree)

end

end Ferry
