import Ferry.Packs.Faults

/-! # Blobs that were accepted

A blob whose `put_blob` returned is staged, or known from a pack. Calls that fail
later may drop it, or leave it in a pack that no index file lists. Whether it can
be read in the end depends on what the calls after that do: a blob that was
dropped must be put again, and one that was left behind needs a compaction.
-/

namespace Ferry

open Lib List

inductive StoreCall where
  | putBlob (kind : BlobKind) (bytes : Bytes)
  | flush
  deriving DecidableEq

/-- A call, and the write of it that fails, if one does. -/
structure FaultyCall where
  call : StoreCall
  fault : CallFault

section
variable [PackEnv]

namespace FaultyCall

def run (c : FaultyCall) : BlobM Unit :=
  match c.call with
  | .putBlob kind bytes => discard (putBlobIo c.fault kind bytes)
  | .flush => flushIo c.fault

def drained (c : FaultyCall) (s : PackStore) : List StagingPack :=
  match c.call with
  | .putBlob kind bytes =>
    if bytes = [] ∨ s.alreadyPresent kind (Env.blake3 bytes) then []
    else (s.staging.offer s.draw kind (Env.blake3 bytes) bytes s.sealTarget).2.1
  | .flush => s.staging.drainAll

def fates (c : FaultyCall) (s : PackStore) : List (StagingPack × Fate) :=
  Ferry.fates s.disk.index.keys.length c.fault (c.drained s)

/-- The blob was in the pools and is in no pack: the call has lost it. -/
def Drops (c : FaultyCall) (s : PackStore) (kind : BlobKind) (id : BlobId) : Prop :=
  ∃ p ∈ c.fates s, p.2 = .dropped ∧ p.1.Has kind id

/-- The blob is in a pack that no index file lists. -/
def Strands (c : FaultyCall) (s : PackStore) (kind : BlobKind) (id : BlobId) : Prop :=
  ∃ p ∈ c.fates s, p.2 = .stranded ∧ p.1.Has kind id

/-- The call writes a table of all that the store knows. -/
def Compacts (c : FaultyCall) (s : PackStore) : Prop := ∃ p ∈ c.fates s, p.2 = .compacted

def Puts (c : FaultyCall) (kind : BlobKind) (b : Bytes) : Prop := c.call = .putBlob kind b

end FaultyCall

def afterCalls (calls : List FaultyCall) (s : PackStore) : PackStore :=
  calls.foldl (fun s c => leaves c.run s) s

/-- Some `put_blob` of these bytes has returned. -/
def Accepted (calls : List FaultyCall) (s : PackStore) (kind : BlobKind) (b : Bytes) : Prop :=
  ∃ pre fault post id s', calls = pre ++ ⟨.putBlob kind b, fault⟩ :: post ∧
    putBlobIo fault kind b (afterCalls pre s) = .ok id s'

/-- What was accepted and dropped is put again, and what was accepted and left without an index row is
picked up by a compaction. -/
def Recovered (calls : List FaultyCall) (s : PackStore) : Prop :=
  ∀ pre c post, calls = pre ++ c :: post → ∀ kind b, Accepted calls s kind b →
    (c.Drops (afterCalls pre s) kind (Env.blake3 b) → ∃ c' ∈ post, c'.Puts kind b) ∧
    (c.Strands (afterCalls pre s) kind (Env.blake3 b) → ∃ mid c' post', post = mid ++ c' :: post' ∧
      c'.Compacts (afterCalls (pre ++ c :: mid) s))

/-- The blobs that are put are among those in `B` and not too long for a pack, and the packs that are
sealed are among those in `F`. -/
def InPlay (B F : Set Bytes) : List FaultyCall → PackStore → Prop
  | [], _ => True
  | c :: calls, s => (∀ kind b, c.Puts kind b → b ∈ B ∧ segmentCount b.length ≤ 2 ^ 31) ∧
      PackStore.sealedFiles s.fmk (c.drained s) ⊆ F ∧ InPlay B F calls (leaves c.run s)

/-! ## What a call does -/

theorem packed_of_mem_fates {c : FaultyCall} {s : PackStore} {p : StagingPack × Fate} (hp : p ∈ c.fates s)
    {kind : BlobKind} {id : BlobId} (hhas : p.1.Has kind id) : Packed (c.drained s) kind id := by
  refine ⟨p.1, ?_, hhas⟩
  rw [← map_fst_fates (c.drained s) s.disk.index.keys.length c.fault]
  exact mem_map_of_mem hp

/-- A store between its calls: what is staged is not located. -/
structure PackStore.Steady (B F : Set Bytes) (s : PackStore) : Prop where
  tracked : s.Tracked B F
  slim : s.staging.Slim B
  target : s.sealTarget = sealTargetBytes
  apart : ∀ kind id, s.staging.contains kind id → ¬ s.locations.Has kind id

def FaultyCall.Stages (c : FaultyCall) (s : PackStore) (kind : BlobKind) (id : BlobId) : Prop :=
  ∃ b, c.Puts kind b ∧ b ≠ [] ∧ ¬ s.alreadyPresent kind id ∧ Env.blake3 b = id

/-- What a call does to the blobs that are staged, located and indexed. -/
structure CallEffect (c : FaultyCall) (s s' : PackStore) : Prop where
  fmk : s'.fmk = s.fmk
  drained : ∀ kind id, Packed (c.drained s) kind id → s.staging.contains kind id
  apart : (c.drained s).Pairwise StagingPack.Apart
  staged : ∀ kind id, s'.staging.contains kind id ↔
    (s.staging.contains kind id ∧ ¬ Packed (c.drained s) kind id) ∨ c.Stages s kind id
  located : ∀ kind id, s'.locations.Has kind id ↔
    s.locations.Has kind id ∨ ∃ p ∈ c.fates s, p.2 ≠ .dropped ∧ p.1.Has kind id
  indexed : ∀ kind id, s'.disk.Indexed s'.fmk kind id ↔ s.disk.Indexed s.fmk kind id ∨
    (∃ p ∈ c.fates s, (p.2 = .indexed ∨ p.2 = .compacted) ∧ p.1.Has kind id) ∨
    (c.Compacts s ∧ s.locations.Has kind id)

namespace PackStore

variable {B F : Set Bytes} {s : PackStore}

variable {kind : BlobKind}

theorem Tracked.alreadyPresent_iff (h : s.Tracked B F) {id : BlobId} :
    s.alreadyPresent kind id ↔ s.locations.Has kind id ∨ s.staging.contains kind id :=
  PackStore.alreadyPresent_iff h.present

theorem Noted.tracked {s' : PackStore} (hn : s.Noted s') (h : s.Tracked B F) : s'.Tracked B F := by
  obtain ⟨⟨d, rfl⟩, hp⟩ := hn
  exact ⟨h.backs, h.intact, h.listed, h.numbered, h.files, fun e he => by rw [hp]; exact h.present e he⟩

theorem Noted.callEffect {s' : PackStore} (hn : s.Noted s') {c : FaultyCall} (hdrained : c.drained s = [])
    (hstages : ∀ kind id, ¬ c.Stages s kind id) : CallEffect c s s' := by
  have hfates : c.fates s = [] := by rw [FaultyCall.fates, hdrained]; rfl
  obtain ⟨⟨d, rfl⟩, -⟩ := hn
  refine ⟨rfl, ?_, ?_, ?_, ?_, ?_⟩
  · simp [hdrained, Packed]
  · simp [hdrained]
  · simp [hdrained, Packed, hstages]
  · simp [hfates]
  · simp [hfates, FaultyCall.Compacts]

theorem Noted.steady {s' : PackStore} (hn : s.Noted s') (h : s.Steady B F) : s'.Steady B F := by
  have htracked := hn.tracked h.tracked
  obtain ⟨⟨d, rfl⟩, -⟩ := hn
  exact ⟨htracked, h.slim, h.target, h.apart⟩

/-- What a call does, once it is known which packs it drains and which blobs it stages. -/
theorem Steady.callEffect (h : s.Steady B F) (laws : CipherLaws) (hseals : CipherSeals)
    (hF : F.InjOn packNameOf) {c : FaultyCall} {s₁ : PackStore} (hnoted : s.Noted s₁) {staging : StagingPools}
    (draw : Nat) (hslim : staging.Slim B) (hready : ∀ sp ∈ c.drained s, ∃ m, sp.Ready B m)
    (hfiles : sealedFiles s.fmk (c.drained s) ⊆ F)
    (hdrained : ∀ kind id, Packed (c.drained s) kind id → s.staging.contains kind id)
    (hapart : (c.drained s).Pairwise StagingPack.Apart)
    (hstaged : ∀ kind id, staging.contains kind id ↔
      (s.staging.contains kind id ∧ ¬ Packed (c.drained s) kind id) ∨ c.Stages s kind id)
    (hsize : 81 * (leaves (sealAllIo c.fault (c.drained s))
      { s₁ with staging := staging, draw := draw }).locations.length + 20 < 2 ^ 32) :
    let s' := leaves (sealAllIo c.fault (c.drained s)) { s₁ with staging := staging, draw := draw }
    s'.Steady B F ∧ CallEffect c s s' := by
  have ht := hnoted.tracked h.tracked
  have htracked : Tracked B F { s₁ with staging := staging, draw := draw } :=
    ⟨ht.backs, ht.intact, ht.listed, ht.numbered, ht.files, ht.present⟩
  obtain ⟨⟨d, rfl⟩, -⟩ := hnoted
  obtain ⟨htracked', houtcome, -⟩ := Tracked.after_sealAllIo laws hseals hF hready htracked hfiles hsize
  intro s'
  have hlocated : ∀ kind id, s'.locations.Has kind id ↔
      s.locations.Has kind id ∨ ∃ p ∈ c.fates s, p.2 ≠ .dropped ∧ p.1.Has kind id := houtcome.located
  have hstaging : s'.staging = staging := houtcome.staging
  refine ⟨⟨htracked', hstaging ▸ hslim, houtcome.target.trans h.target, fun kind id hc hin => ?_⟩,
    houtcome.fmk, hdrained, hapart, fun kind id => ?_, hlocated, houtcome.indexed⟩
  · rw [hstaging, hstaged] at hc
    rcases (hlocated kind id).1 hin with hin | ⟨p, hp, -, hhas⟩
    · rcases hc with ⟨hc, -⟩ | ⟨b, -, -, hnot, -⟩
      · exact h.apart kind id hc hin
      · exact hnot (h.tracked.alreadyPresent_iff.2 (.inl hin))
    · have hpacked := packed_of_mem_fates hp hhas
      rcases hc with ⟨-, hnot⟩ | ⟨b, -, -, hnot, -⟩
      · exact hnot hpacked
      · exact hnot (h.tracked.alreadyPresent_iff.2 (.inr (hdrained kind id hpacked)))
  · rw [hstaging]
    exact hstaged kind id

omit [PackEnv] in
theorem leaves_bind_pure {α β : Type} (m : BlobM α) (f : α → β) (s : PackStore) :
    leaves (m >>= fun a => pure (f a)) s = leaves m s := by
  unfold leaves
  cases hrun : m s with
  | ok => rw [run_bind_ok hrun]; rfl
  | error => rw [run_bind_error hrun]

theorem leaves_putBlobIo {b : Bytes} (hne : b ≠ []) {s₁ : PackStore} (hnoted : s.Noted s₁)
    (hnew : s.alreadyPresent kind (Env.blake3 b) = false)
    (hany : anyExists (s.locations.candidates kind (Env.blake3 b)) s = .ok
      ((s.locations.candidates kind (Env.blake3 b)).any fun e => s.present e.pack) s₁) (fault : CallFault) :
    let r := s.staging.offer s.draw kind (Env.blake3 b) b s.sealTarget
    leaves (putBlobIo fault kind b) s =
      leaves (sealAllIo fault r.2.1) { s₁ with staging := r.1, draw := r.2.2 } := by
  intro r
  obtain ⟨hcand, hstaging⟩ := Bool.or_eq_false_iff.1 hnew
  have hrun : putBlobIo fault kind b s =
      (sealAllIo fault r.2.1 >>= fun _ => pure (Env.blake3 b)) { s₁ with staging := r.1, draw := r.2.2 } := by
    unfold putBlobIo
    rw [if_neg hne, run_bind_ok (run_get s), run_bind_ok hany, hcand, if_neg Bool.false_ne_true,
      run_bind_ok (run_get s₁)]
    obtain ⟨⟨d, rfl⟩, -⟩ := hnoted
    rw [if_neg (by rw [hstaging]; exact Bool.false_ne_true)]
    have hoffer : offerBlob kind (Env.blake3 b) b { s with dangling := d } =
        .ok r.2.1 { s with dangling := d, staging := r.1, draw := r.2.2 } := rfl
    rw [run_bind_ok hoffer]
  rw [leaves, hrun]
  exact leaves_bind_pure (sealAllIo fault r.2.1) (fun _ => Env.blake3 b) _

theorem leaves_putBlobIo_present {b : Bytes} {fault : CallFault}
    (hthere : b = [] ∨ s.alreadyPresent kind (Env.blake3 b)) : s.Noted (leaves (putBlobIo fault kind b) s) := by
  unfold leaves putBlobIo
  by_cases hne : b = []
  · rw [if_pos hne]
    exact .refl s
  obtain ⟨s₁, hany, hnoted⟩ := run_anyExists (s.locations.candidates kind (Env.blake3 b)) s
  rw [if_neg hne, run_bind_ok (run_get s), run_bind_ok hany]
  cases hcand : (s.locations.candidates kind (Env.blake3 b)).any (fun e => s.present e.pack) with
  | true => exact hnoted
  | false =>
    have hstaging : s.staging.contains kind (Env.blake3 b) := by
      have hor := hthere.resolve_left hne
      rwa [alreadyPresent, hcand] at hor
    rw [if_neg Bool.false_ne_true, run_bind_ok (run_get s₁)]
    obtain ⟨⟨d, rfl⟩, hp⟩ := hnoted
    rw [if_pos hstaging]
    exact ⟨⟨d, rfl⟩, hp⟩

omit [PackEnv] in
theorem pairwise_of_length_le_one {α : Type} {R : α → α → Prop} {l : List α} (h : l.length ≤ 1) :
    l.Pairwise R := by
  rcases l with _ | ⟨a, _ | ⟨b, l⟩⟩
  · exact .nil
  · exact pairwise_singleton ..
  · simp at h

/-- The step lemma: a call, with or without a fault, leaves the store steady and has this effect. -/
theorem Steady.after_call (h : s.Steady B F) (laws : CipherLaws) (hseals : CipherSeals) (hF : F.InjOn packNameOf)
    {c : FaultyCall} (hputs : ∀ kind b, c.Puts kind b → b ∈ B ∧ segmentCount b.length ≤ 2 ^ 31)
    (hfiles : sealedFiles s.fmk (c.drained s) ⊆ F)
    (hsize : 81 * (leaves c.run s).locations.length + 20 < 2 ^ 32) :
    (leaves c.run s).Steady B F ∧ CallEffect c s (leaves c.run s) := by
  obtain ⟨call, fault⟩ := c
  cases call with
  | flush =>
    refine h.callEffect laws hseals hF (c := ⟨.flush, fault⟩) (.refl s) s.draw StagingPools.slim_new
      (fun sp hsp => h.slim.ready_drainAll hsp) hfiles (fun kind id => h.slim.packed_drainAll.1)
      h.slim.apart_drainAll (fun kind id => iff_of_false (fun hc => by cases hc) ?_) hsize
    rintro (⟨hc, hnot⟩ | ⟨b, hputs, -⟩)
    · exact hnot (h.slim.packed_drainAll.2 hc)
    · cases hputs
  | putBlob kind b =>
    have hdiscard : leaves (FaultyCall.run ⟨.putBlob kind b, fault⟩) s = leaves (putBlobIo fault kind b) s :=
      leaves_bind_pure _ (fun _ => ()) s
    rw [hdiscard] at hsize ⊢
    obtain ⟨hb, hrange⟩ := hputs kind b rfl
    by_cases hthere : b = [] ∨ s.alreadyPresent kind (Env.blake3 b)
    · have hnoted : s.Noted (leaves (putBlobIo fault kind b) s) := leaves_putBlobIo_present hthere
      refine ⟨hnoted.steady h, hnoted.callEffect (if_pos hthere) ?_⟩
      rintro kind' id ⟨b', hputs, hne, hnew, rfl⟩
      cases hputs
      exact hthere.elim hne hnew
    obtain ⟨hne, hnew⟩ := not_or.1 hthere
    obtain ⟨s₁, hany, hnoted⟩ := run_anyExists (s.locations.candidates kind (Env.blake3 b)) s
    have hrun := leaves_putBlobIo hne hnoted (Bool.eq_false_iff.2 hnew) hany fault
    have hdrained : FaultyCall.drained ⟨.putBlob kind b, fault⟩ s =
        (s.staging.offer s.draw kind (Env.blake3 b) b s.sealTarget).2.1 := if_neg hthere
    cases hoffer : s.staging.offer s.draw kind (Env.blake3 b) b s.sealTarget with
    | mk staging rest =>
      obtain ⟨full, draw⟩ := rest
      rw [hoffer] at hrun hdrained
      dsimp only at hrun hdrained
      rw [h.target] at hoffer
      obtain ⟨hslim, hone, hready, hfrom, hcontains⟩ := h.slim.offer hne hb hrange hoffer
      rw [hrun, ← hdrained] at hsize ⊢
      rw [← hdrained] at hone hready hfrom hcontains
      refine h.callEffect laws hseals hF hnoted draw hslim (fun sp hsp => ⟨_, hready sp hsp⟩) hfiles hfrom
        (pairwise_of_length_le_one hone) (fun kind' id => (hcontains kind' id).trans (or_congr_right ?_)) hsize
      constructor
      · rintro ⟨rfl, rfl⟩
        exact ⟨b, rfl, hne, hnew, rfl⟩
      · rintro ⟨b', hputs, -, -, rfl⟩
        cases hputs
        exact ⟨rfl, rfl⟩

end PackStore

/-! ## How the standing of a blob changes -/

def PackStore.Remembers (s : PackStore) (kind : BlobKind) (id : BlobId) : Prop :=
  s.staging.contains kind id ∨ s.locations.Has kind id

theorem exists_fate {c : FaultyCall} {s : PackStore} {kind : BlobKind} {id : BlobId}
    (h : Packed (c.drained s) kind id) : ∃ p ∈ c.fates s, p.1.Has kind id := by
  obtain ⟨sp, hsp, hhas⟩ := packed_iff.1 h
  rw [← map_fst_fates (c.drained s) s.disk.index.keys.length c.fault] at hsp
  obtain ⟨p, hp, rfl⟩ := mem_map.1 hsp
  exact ⟨p, hp, hhas⟩

namespace CallEffect

variable {B F : Set Bytes} {c : FaultyCall} {s s' : PackStore} {kind : BlobKind} {id : BlobId}
  (h : CallEffect c s s')
include h

theorem fate_unique {p p' : StagingPack × Fate} (hp : p ∈ c.fates s) (hp' : p' ∈ c.fates s)
    (hhas : p.1.Has kind id) (hhas' : p'.1.Has kind id) : p = p' := by
  have hpairs : (c.fates s).Pairwise fun p p' => p.1.Apart p'.1 := by
    have hmap := h.apart
    rw [← map_fst_fates (c.drained s) s.disk.index.keys.length c.fault] at hmap
    exact pairwise_map.1 hmap
  have : Std.Symm fun p p' : StagingPack × Fate => p.1.Apart p'.1 :=
    ⟨fun _ _ hapart kind id hhas hhas' => hapart kind id hhas' hhas⟩
  by_contra hne
  exact hpairs.forall hp hp' hne kind id hhas hhas'

theorem remembers_or_drops (hin : s.Remembers kind id) : s'.Remembers kind id ∨ c.Drops s kind id := by
  rcases hin with hstaged | hlocated
  · by_cases hpacked : Packed (c.drained s) kind id
    · obtain ⟨p, hp, hhas⟩ := exists_fate hpacked
      by_cases hfate : p.2 = .dropped
      · exact .inr ⟨p, hp, hfate, hhas⟩
      · exact .inl (.inr ((h.located kind id).2 (.inr ⟨p, hp, hfate, hhas⟩)))
    · exact .inl (.inl ((h.staged kind id).2 (.inl ⟨hstaged, hpacked⟩)))
  · exact .inl (.inr ((h.located kind id).2 (.inl hlocated)))

theorem remembers_of_puts (hs : s.Steady B F) {b : Bytes} (hputs : c.Puts kind b) (hne : b ≠ []) :
    s'.Remembers kind (Env.blake3 b) := by
  by_cases hthere : s.alreadyPresent kind (Env.blake3 b)
  · have hdrained : c.drained s = [] := by
      unfold FaultyCall.drained
      rw [hputs]
      exact if_pos (.inr hthere)
    refine (h.remembers_or_drops (hs.tracked.alreadyPresent_iff.1 hthere).symm).resolve_right ?_
    rintro ⟨p, hp, -⟩
    rw [FaultyCall.fates, hdrained] at hp
    cases hp
  · exact .inl ((h.staged kind _).2 (.inr ⟨b, hputs, hne, hthere, rfl⟩))

theorem indexed_or (hin : s'.locations.Has kind id) : s'.disk.Indexed s'.fmk kind id ∨
    s.locations.Has kind id ∨ c.Strands s kind id := by
  rcases (h.located kind id).1 hin with hin | ⟨p, hp, hfate, hhas⟩
  · exact .inr (.inl hin)
  cases heq : p.2 with
  | dropped => exact absurd heq hfate
  | stranded => exact .inr (.inr ⟨p, hp, heq, hhas⟩)
  | indexed => exact .inl ((h.indexed kind id).2 (.inr (.inl ⟨p, hp, .inl heq, hhas⟩)))
  | compacted => exact .inl ((h.indexed kind id).2 (.inr (.inl ⟨p, hp, .inr heq, hhas⟩)))

theorem not_remembers_of_drops (hs : s.Steady B F) (hdrops : c.Drops s kind id) : ¬ s'.Remembers kind id := by
  obtain ⟨p, hp, hfate, hhas⟩ := hdrops
  have hpacked := packed_of_mem_fates hp hhas
  have hstaged := h.drained kind id hpacked
  rintro (hin | hin)
  · rcases (h.staged kind id).1 hin with ⟨-, hnot⟩ | ⟨b, -, -, hnew, -⟩
    · exact hnot hpacked
    · exact hnew (hs.tracked.alreadyPresent_iff.2 (.inr hstaged))
  · rcases (h.located kind id).1 hin with hin | ⟨p', hp', hfate', hhas'⟩
    · exact hs.apart kind id hstaged hin
    · exact hfate' ((h.fate_unique hp' hp hhas' hhas) ▸ hfate)

theorem not_remembers (hnot : ¬ s.Remembers kind id) (hputs : ∀ b, c.Puts kind b → Env.blake3 b ≠ id) :
    ¬ s'.Remembers kind id := by
  rintro (hin | hin)
  · rcases (h.staged kind id).1 hin with ⟨hstaged, -⟩ | ⟨b, hput, -, -, heq⟩
    · exact hnot (.inl hstaged)
    · exact hputs b hput heq
  · rcases (h.located kind id).1 hin with hin | ⟨p, hp, -, hhas⟩
    · exact hnot (.inr hin)
    · exact hnot (.inl (h.drained kind id (packed_of_mem_fates hp hhas)))

theorem not_indexed_of_strands (hs : s.Steady B F) (hstrands : c.Strands s kind id) :
    s'.locations.Has kind id ∧ ¬ s'.disk.Indexed s'.fmk kind id := by
  obtain ⟨p, hp, hfate, hhas⟩ := hstrands
  have hstaged := h.drained kind id (packed_of_mem_fates hp hhas)
  have hnot := hs.apart kind id hstaged
  refine ⟨(h.located kind id).2 (.inr ⟨p, hp, by rw [hfate]; decide, hhas⟩), fun hin => ?_⟩
  rcases (h.indexed kind id).1 hin with hin | ⟨p', hp', hfate', hhas'⟩ | ⟨-, hin⟩
  · exact hnot (hs.tracked.listed kind id hin)
  · rw [h.fate_unique hp' hp hhas' hhas, hfate] at hfate'
    rcases hfate' with heq | heq <;> cases heq
  · exact hnot hin

theorem not_indexed (hs : s.Steady B F) (hin : s.locations.Has kind id) (hnot : ¬ s.disk.Indexed s.fmk kind id)
    (hcompacts : ¬ c.Compacts s) : s'.locations.Has kind id ∧ ¬ s'.disk.Indexed s'.fmk kind id := by
  refine ⟨(h.located kind id).2 (.inl hin), fun hindexed => ?_⟩
  rcases (h.indexed kind id).1 hindexed with hindexed | ⟨p, hp, -, hhas⟩ | ⟨hyes, -⟩
  · exact hnot hindexed
  · exact hs.apart kind id (h.drained kind id (packed_of_mem_fates hp hhas)) hin
  · exact hcompacts hyes

end CallEffect

/-! ## Runs -/

@[simp] theorem afterCalls_cons (c : FaultyCall) (calls : List FaultyCall) (s : PackStore) :
    afterCalls (c :: calls) s = afterCalls calls (leaves c.run s) := rfl

theorem afterCalls_append (calls calls' : List FaultyCall) (s : PackStore) :
    afterCalls (calls ++ calls') s = afterCalls calls' (afterCalls calls s) := foldl_append

/-- Each call of the run does what its fault lets it do. -/
def Goes (B F : Set Bytes) : List FaultyCall → PackStore → Prop
  | [], s => s.Steady B F
  | c :: calls, s => s.Steady B F ∧ CallEffect c s (leaves c.run s) ∧ (∀ kind b, c.Puts kind b → b ∈ B) ∧
      Goes B F calls (leaves c.run s)

section
variable {B F : Set Bytes} {kind : BlobKind} {b : Bytes} {id : BlobId}

theorem Goes.steady : ∀ {calls : List FaultyCall} {s : PackStore}, Goes B F calls s → s.Steady B F
  | [], _, h => h
  | _ :: _, _, h => h.1

variable {calls : List FaultyCall} {s : PackStore}

theorem Goes.last (h : Goes B F calls s) : (afterCalls calls s).Steady B F := by
  induction calls generalizing s with
  | nil => exact h
  | cons c calls ih => exact ih h.2.2.2

theorem Goes.split {pre post : List FaultyCall} (h : Goes B F (pre ++ post) s) :
    Goes B F post (afterCalls pre s) := by
  induction pre generalizing s with
  | nil => exact h
  | cons c pre ih => exact ih h.2.2.2

variable (h : Goes B F calls s)
include h

theorem Goes.puts {c : FaultyCall} (hc : c ∈ calls) (hputs : c.Puts kind b) : b ∈ B := by
  induction calls generalizing s with
  | nil => cases hc
  | cons c' calls ih =>
    rcases mem_cons.1 hc with rfl | hc
    · exact h.2.2.1 kind b hputs
    · exact ih h.2.2.2 hc

theorem Goes.fmk : (afterCalls calls s).fmk = s.fmk := by
  induction calls generalizing s with
  | nil => rfl
  | cons c calls ih => exact (ih h.2.2.2).trans h.2.1.fmk

theorem Goes.not_remembers
    (hnot : ¬ s.Remembers kind id) (hputs : ∀ c ∈ calls, ∀ b, c.Puts kind b → Env.blake3 b ≠ id) :
    ¬ (afterCalls calls s).Remembers kind id := by
  induction calls generalizing s with
  | nil => exact hnot
  | cons c calls ih =>
    exact ih h.2.2.2 (h.2.1.not_remembers hnot (hputs c (by simp))) fun c' hc' => hputs c' (by simp [hc'])

theorem Goes.not_indexed (hin : s.locations.Has kind id) (hnot : ¬ s.disk.Indexed s.fmk kind id)
    (hcompacts : ∀ pre c post, calls = pre ++ c :: post → ¬ c.Compacts (afterCalls pre s)) :
    ¬ (afterCalls calls s).disk.Indexed (afterCalls calls s).fmk kind id := by
  induction calls generalizing s with
  | nil => exact hnot
  | cons c calls ih =>
    obtain ⟨hin', hnot'⟩ := h.2.1.not_indexed h.1 hin hnot (hcompacts [] c calls rfl)
    exact ih h.2.2.2 hin' hnot' fun pre c' post hsplit => hcompacts (c :: pre) c' post (by rw [hsplit]; rfl)

/-- A blob that is put again whenever it was dropped, and picked up whenever it was left behind, is
staged or indexed in the end. -/
theorem Goes.settled (hne : b ≠ []) (hputs : ¬ s.Remembers kind (Env.blake3 b) → ∃ c ∈ calls, c.Puts kind b)
    (hcompacts : s.locations.Has kind (Env.blake3 b) → ¬ s.disk.Indexed s.fmk kind (Env.blake3 b) →
      ∃ pre c post, calls = pre ++ c :: post ∧ c.Compacts (afterCalls pre s))
    (hdrops : ∀ pre c post, calls = pre ++ c :: post →
      c.Drops (afterCalls pre s) kind (Env.blake3 b) → ∃ c' ∈ post, c'.Puts kind b)
    (hstrands : ∀ pre c post, calls = pre ++ c :: post →
      c.Strands (afterCalls pre s) kind (Env.blake3 b) → ∃ mid c' post', post = mid ++ c' :: post' ∧
        c'.Compacts (afterCalls (pre ++ c :: mid) s)) :
    (afterCalls calls s).staging.contains kind (Env.blake3 b) ∨
      (afterCalls calls s).disk.Indexed (afterCalls calls s).fmk kind (Env.blake3 b) := by
  induction calls generalizing s with
  | nil =>
    have hin : s.Remembers kind (Env.blake3 b) := by
      by_contra hnot
      obtain ⟨c, hc, -⟩ := hputs hnot
      cases hc
    refine hin.imp_right fun hin => ?_
    by_contra hnot
    obtain ⟨pre, c, post, hsplit, -⟩ := hcompacts hin hnot
    cases pre <;> cases hsplit
  | cons c calls ih =>
    obtain ⟨hsteady, heffect, -, hrest⟩ := h
    refine ih hrest (fun hnot => ?_) (fun hin hnot => ?_)
      (fun pre c' post hsplit => hdrops (c :: pre) c' post (by rw [hsplit]; rfl))
      (fun pre c' post hsplit => hstrands (c :: pre) c' post (by rw [hsplit]; rfl))
    · by_cases hin : s.Remembers kind (Env.blake3 b)
      · exact hdrops [] c calls rfl ((heffect.remembers_or_drops hin).resolve_left hnot)
      · obtain ⟨c', hc', hput⟩ := hputs hin
        rcases mem_cons.1 hc' with rfl | hc'
        · exact absurd (heffect.remembers_of_puts hsteady hput hne) hnot
        · exact ⟨c', hc', hput⟩
    rcases heffect.indexed_or hin with hyes | hbefore | hstrand
    · exact absurd hyes hnot
    · have hunlisted : ¬ s.disk.Indexed s.fmk kind (Env.blake3 b) := fun hyes =>
        hnot ((heffect.indexed kind _).2 (.inl hyes))
      obtain ⟨pre, c', post, hsplit, hcompact⟩ := hcompacts hbefore hunlisted
      cases pre with
      | nil =>
        cases hsplit
        exact absurd ((heffect.indexed kind _).2 (.inr (.inr ⟨hcompact, hbefore⟩))) hnot
      | cons c₀ pre =>
        cases hsplit
        exact ⟨pre, c', post, rfl, hcompact⟩
    · obtain ⟨mid, c', post', hsplit, hcompact⟩ := hstrands [] c calls rfl hstrand
      exact ⟨mid, c', post', hsplit, hcompact⟩

end

/-! ## The start and the end of a run -/

namespace PackStore

theorem steady_openStore {B F : Set Bytes} {disk : PackDisk} {fmk : ByteArr 32} {draw : Nat} {s : PackStore}
    (hopen : openStore disk fmk draw = .ok s) (hintact : disk.Intact fmk B) (hfiles : disk.FilesIn F) :
    s.Steady B F ∧ s.fmk = fmk ∧ ∀ kind id, s.locations.Has kind id → s.disk.Indexed s.fmk kind id := by
  obtain ⟨t, ht, hmem⟩ := hintact.openStore_ok draw
  rw [ht] at hopen
  cases hopen
  have hlisted : ∀ kind id, disk.Indexed fmk kind id ↔ LocationTable.Has t kind id := by
    intro kind id
    simp only [PackDisk.Indexed, LocationTable.Has, hmem]
  refine ⟨⟨⟨⟨fun e he => ?_, fun kind id e he => ?_⟩, hintact, fun kind id => (hlisted kind id).1, .inl rfl, hfiles,
    fun e he => ?_⟩, StagingPools.slim_new, rfl, fun kind id hc => by cases hc⟩, rfl,
    fun kind id => (hlisted kind id).2⟩
  · obtain ⟨n, file, rows, -, hrows, hin⟩ := (hmem e).1 he
    exact PackDisk.typed_of_openIndexContainer hrows hin
  · exact hintact.holds e ((hmem e).1 (mem_of_find?_eq_some he))
  · obtain ⟨b, -, bytes, ctx, hlookup, -⟩ := hintact.holds e ((hmem e).1 he)
    simp [PackStore.present, PackStore.fresh, hlookup]

theorem keeps_length_run (n : Nat) (c : FaultyCall) : Keeps (fun s => n ≤ s.locations.length) c.run := by
  obtain ⟨call, fault⟩ := c
  cases call with
  | flush =>
    exact .get_bind fun s => .bind (Triple.modify fun _ hn => hn) fun _ => keeps_length_sealAllIo n fault _
  | putBlob =>
    refine Keeps.bind ?_ fun _ => .pure _
    unfold putBlobIo
    split
    · exact .throw _
    refine .get_bind fun s => .bind (fun s hs => ?_) fun there => ?_
    · obtain ⟨s', hrun, ⟨d, rfl⟩, -⟩ := run_anyExists _ s
      rw [hrun]
      exact hs
    split
    · exact .pure _
    refine .get_bind fun s => ?_
    split
    · exact .pure _
    · refine .bind (.get_bind fun s => .bind (Triple.modify fun _ hn => hn) fun _ => .pure _) fun full =>
        .bind (keeps_length_sealAllIo n fault full) fun _ => .pure _

theorem length_le_leaves_run (c : FaultyCall) (s : PackStore) :
    s.locations.length ≤ (leaves c.run s).locations.length := by
  unfold leaves
  cases hrun : c.run s with
  | ok => exact (keeps_length_run s.locations.length c).of_ok le_rfl hrun
  | error => exact (keeps_length_run s.locations.length c).of_error le_rfl hrun

theorem length_le_afterCalls (calls : List FaultyCall) (s : PackStore) :
    s.locations.length ≤ (afterCalls calls s).locations.length := by
  induction calls generalizing s with
  | nil => exact le_rfl
  | cons c calls ih => exact (length_le_leaves_run c s).trans (ih _)

theorem Steady.goes {B F : Set Bytes} (laws : CipherLaws) (hseals : CipherSeals) (hF : F.InjOn packNameOf)
    {calls : List FaultyCall} {s : PackStore} (h : s.Steady B F) (hplay : InPlay B F calls s)
    (hsize : 81 * (afterCalls calls s).locations.length + 20 < 2 ^ 32) : Goes B F calls s := by
  induction calls generalizing s with
  | nil => exact h
  | cons c calls ih =>
    obtain ⟨hputs, hfiles, hrest⟩ := hplay
    have hle := length_le_afterCalls calls (leaves c.run s)
    rw [afterCalls_cons] at hsize
    obtain ⟨hsteady, heffect⟩ := h.after_call laws hseals hF hputs hfiles (by omega)
    exact ⟨h, heffect, fun kind b hput => (hputs kind b hput).1, ih hsteady hrest hsize⟩

/-- A flush without a fault returns and leaves nothing staged. -/
theorem Steady.flush_ok {B F : Set Bytes} {s : PackStore} (h : s.Steady B F) (laws : CipherLaws)
    (hseals : CipherSeals) (hF : F.InjOn packNameOf) (hfiles : sealedFiles s.fmk s.staging.drainAll ⊆ F)
    (hsize : 81 * (leaves (FaultyCall.run ⟨.flush, none⟩) s).locations.length + 20 < 2 ^ 32) :
    ∃ s', flush s = .ok () s' ∧ leaves (FaultyCall.run ⟨.flush, none⟩) s = s' ∧ s'.staging = .new := by
  have hrun : ∀ r, flushIo none s = r ↔ sealAllIo none s.staging.drainAll { s with staging := .new } = r := by
    intro r
    rw [flushIo, run_bind_ok (run_get s), run_bind_ok (run_modify ..)]
  have hleaves : leaves (FaultyCall.run ⟨.flush, none⟩) s =
      leaves (sealAllIo none s.staging.drainAll) { s with staging := .new } := by
    change leaves (flushIo none) s = _
    rw [leaves, (hrun _).2 rfl, leaves]
  have ht := h.tracked
  have htracked : Tracked B F { s with staging := .new } :=
    ⟨ht.backs, ht.intact, ht.listed, ht.numbered, ht.files, ht.present⟩
  obtain ⟨-, houtcome, hok⟩ := Tracked.after_sealAllIo laws hseals hF
    (fun sp hsp => h.slim.ready_drainAll hsp) htracked hfiles hsize
  obtain ⟨s', hs'⟩ := hok rfl
  have hend : leaves (sealAllIo none s.staging.drainAll) { s with staging := .new } = s' := by rw [leaves, hs']
  refine ⟨s', ?_, hleaves.trans hend, ?_⟩
  · rw [← flushIo_none]
    exact (hrun _).2 hs'
  · rw [← hend]
    exact houtcome.staging

end PackStore

theorem InPlay.split {B F : Set Bytes} {pre post : List FaultyCall} {s : PackStore}
    (h : InPlay B F (pre ++ post) s) : InPlay B F post (afterCalls pre s) := by
  induction pre generalizing s with
  | nil => exact h
  | cons c pre ih => exact ih h.2.2

namespace Accepted

variable {calls : List FaultyCall} {s : PackStore} {kind : BlobKind} {b : Bytes}

theorem ne_nil (h : Accepted calls s kind b) : b ≠ [] := by
  rintro rfl
  obtain ⟨pre, fault, post, id, s', -, hput⟩ := h
  cases hput

theorem puts (h : Accepted calls s kind b) : ∃ c ∈ calls, c.Puts kind b := by
  obtain ⟨pre, fault, post, id, s', rfl, -⟩ := h
  exact ⟨⟨.putBlob kind b, fault⟩, by simp, rfl⟩

theorem append_flush_iff :
    Accepted (calls ++ [⟨.flush, none⟩]) s kind b ↔ Accepted calls s kind b := by
  constructor
  · rintro ⟨pre, fault, post, id, s', hsplit, hput⟩
    rcases post.eq_nil_or_concat with rfl | ⟨post, c, rfl⟩
    · obtain ⟨-, hlast⟩ := append_inj' hsplit rfl
      cases hlast
    · have hinit : calls ++ [⟨.flush, none⟩] = (pre ++ ⟨.putBlob kind b, fault⟩ :: post) ++ [c] := by
        simpa using hsplit
      exact ⟨pre, fault, post, id, s', (append_inj' hinit rfl).1, hput⟩
  · rintro ⟨pre, fault, post, id, s', rfl, hput⟩
    exact ⟨pre, fault, post ++ [⟨.flush, none⟩], id, s', by simp, hput⟩

end Accepted

/-- Some writes of the calls may fail. A flush none of whose writes fails returns, and then every blob
whose put has returned can be read from the directory exactly if what the failed calls have dropped was
put again, and what they have left without an index row was picked up by a compaction. -/
theorem accepted_readable_iff (laws : CipherLaws) (hseals : CipherSeals) {B F : Set Bytes}
    (hB : B.InjOn Env.blake3) (hF : F.InjOn packNameOf) {disk : PackDisk} {fmk : ByteArr 32} {draw : Nat}
    {s : PackStore} (hopen : openStore disk fmk draw = .ok s) (hintact : disk.Intact fmk B)
    (hfiles : disk.FilesIn F) {calls : List FaultyCall} (hplay : InPlay B F (calls ++ [⟨.flush, none⟩]) s)
    (hsize : 81 * (afterCalls (calls ++ [⟨.flush, none⟩]) s).locations.length + 20 < 2 ^ 32) (draw' : Nat) :
    ∃ s', flush (afterCalls calls s) = .ok () s' ∧
      ((∀ kind b, Accepted calls s kind b → s'.disk.Readable fmk draw' kind b) ↔
        Recovered (calls ++ [⟨.flush, none⟩]) s) := by
  obtain ⟨hsteady, hfmk, hlisted⟩ := PackStore.steady_openStore hopen hintact hfiles
  have hgoes := hsteady.goes laws hseals hF hplay hsize
  have hsplit : afterCalls (calls ++ [⟨.flush, none⟩]) s =
      leaves (FaultyCall.run ⟨.flush, none⟩) (afterCalls calls s) := afterCalls_append ..
  obtain ⟨s', hflush, hleaves, hnew⟩ := hgoes.split.steady.flush_ok laws hseals hF hplay.split.2.1
    (hsplit ▸ hsize)
  have hend : afterCalls (calls ++ [⟨.flush, none⟩]) s = s' := hsplit.trans hleaves
  have hfmk' : s'.fmk = fmk := by rw [← hend, hgoes.fmk, hfmk]
  have hlast := hgoes.last
  rw [hend] at hlast
  have hread : ∀ kind b, Accepted calls s kind b →
      (s'.disk.Readable fmk draw' kind b ↔ s'.disk.Indexed s'.fmk kind (Env.blake3 b)) := by
    intro kind b haccepted
    obtain ⟨c, hc, hputs⟩ := haccepted.puts
    rw [hfmk']
    exact (hfmk' ▸ hlast.tracked.intact).readable_iff hB draw' kind (hgoes.puts (by simp [hc]) hputs)
  refine ⟨s', hflush, fun hall pre c post hrun kind b haccepted => ?_, fun hrecovered kind b haccepted => ?_⟩
  · rw [Accepted.append_flush_iff] at haccepted
    have hindexed := (hread kind b haccepted).1 (hall kind b haccepted)
    obtain ⟨c₀, hc₀, hputs₀⟩ := haccepted.puts
    have hb := hgoes.puts (by simp [hc₀]) hputs₀
    rw [hrun] at hgoes hend
    obtain ⟨hs, heffect, -, hrest⟩ := hgoes.split
    have hafter : afterCalls post (leaves c.run (afterCalls pre s)) = s' := by
      rw [← hend, afterCalls_append]
      rfl
    refine ⟨fun hdrops => ?_, fun hstrands => ?_⟩
    · by_contra hnone
      have hforgot := hrest.not_remembers (heffect.not_remembers_of_drops hs hdrops) fun c' hc' b' hputs heq => by
        have hb' := hrest.puts hc' hputs
        rw [hB hb' hb heq] at hputs
        exact hnone ⟨c', hc', hputs⟩
      rw [hafter] at hforgot
      exact hforgot (.inr (hlast.tracked.listed kind _ hindexed))
    · by_contra hnone
      obtain ⟨hin, hnot⟩ := heffect.not_indexed_of_strands hs hstrands
      have hnever := hrest.not_indexed hin hnot fun mid c' post' hmid hcompact =>
        hnone ⟨mid, c', post', hmid, by rw [afterCalls_append]; exact hcompact⟩
      rw [hafter] at hnever
      exact hnever hindexed
  · rw [hread kind b haccepted]
    have haccepted' := Accepted.append_flush_iff.2 haccepted
    have hsettled := hgoes.settled haccepted.ne_nil (fun _ => haccepted'.puts)
      (fun hin hnot => absurd (hlisted kind _ hin) hnot)
      (fun pre c post hrun => (hrecovered pre c post hrun kind b haccepted').1)
      (fun pre c post hrun => (hrecovered pre c post hrun kind b haccepted').2)
    rw [hend] at hsettled
    refine hsettled.resolve_left fun hstaged => ?_
    rw [hnew] at hstaged
    cases hstaged

end

namespace Sample

def failedFlush : List FaultyCall := [⟨.putBlob .dataChunk [7], none⟩, ⟨.flush, some (0, .pack)⟩]

def retriedPut : List FaultyCall := failedFlush ++ [⟨.putBlob .dataChunk [7], none⟩]

theorem openStore_emptyDisk : openStore emptyDisk zeroId 0 = .ok freshStore := rfl

theorem accepted_failedFlush : Accepted failedFlush freshStore .dataChunk [7] := by
  obtain ⟨s', hput⟩ := run_of_resultOf (m := putBlobIo none .dataChunk [7]) (s := freshStore)
    (a := Env.blake3 [7]) (by decide +kernel)
  exact ⟨[], none, [⟨.flush, some (0, .pack)⟩], _, s', rfl, hput⟩

def drainedAlong : List FaultyCall → PackStore → List StagingPack
  | [], _ => []
  | c :: calls, s => c.drained s ++ drainedAlong calls (leaves c.run s)

def sealedAlong (calls : List FaultyCall) : List Bytes :=
  (drainedAlong calls freshStore).filterMap fun sp =>
    (sealPackBytes sp.kind zeroId sp.salt sp.body sp.entries).toOption

theorem sealedFiles_subset {calls : List FaultyCall} {packs : List StagingPack}
    (h : ∀ sp ∈ packs, sp ∈ drainedAlong calls freshStore) :
    PackStore.sealedFiles zeroId packs ⊆ {file | file ∈ sealedAlong calls} := by
  rintro file ⟨sp, hsp, hseal⟩
  exact mem_filterMap.2 ⟨sp, h sp hsp, by rw [hseal]; rfl⟩

end Sample

open Sample in
/-- A put that has returned, a flush that fails, a flush that returns: the chunk is gone. -/
theorem accepted_lost : ∃ calls s s', openStore emptyDisk zeroId 0 = .ok s ∧
    Accepted calls s .dataChunk [7] ∧ flush (afterCalls calls s) = .ok () s' ∧
    ¬ s'.disk.Readable zeroId 0 .dataChunk [7] := by
  obtain ⟨s', hflush⟩ := run_of_resultOf (m := flush) (s := afterCalls failedFlush freshStore) (a := ())
    (by decide +kernel)
  refine ⟨failedFlush, freshStore, s', openStore_emptyDisk, accepted_failedFlush, hflush, ?_⟩
  rintro ⟨t, t', hopen, hget⟩
  have hgone : ((openStore (leaves flush (afterCalls failedFlush freshStore)).disk zeroId 0).toOption.bind
      fun t => (resultOf (getBlob .dataChunk (Env.blake3 [7]) t)).toOption) = none := by decide +kernel
  rw [leaves, hflush, hopen, Except.toOption, Option.bind_some, hget] at hgone
  cases hgone

open Sample in
/-- The chunk is put again before the flush that returns. -/
theorem accepted_readable_iff_retried : ∃ s', flush (afterCalls retriedPut freshStore) = .ok () s' ∧
    ((∀ kind b, Accepted retriedPut freshStore kind b → s'.disk.Readable zeroId 0 kind b) ↔
      Recovered (retriedPut ++ [⟨.flush, none⟩]) freshStore) := by
  have hput : ∀ kind b, FaultyCall.Puts ⟨.putBlob .dataChunk [7], none⟩ kind b →
      b ∈ ({[7]} : Set Bytes) ∧ segmentCount b.length ≤ 2 ^ 31 := by
    intro kind b hputs
    cases hputs
    exact ⟨rfl, by decide⟩
  have hflush : ∀ fault kind b, FaultyCall.Puts ⟨.flush, fault⟩ kind b →
      b ∈ ({[7]} : Set Bytes) ∧ segmentCount b.length ≤ 2 ^ 31 := by
    intro fault kind b hputs
    cases hputs
  have hplay : InPlay {[7]} {file | file ∈ sealedAlong (retriedPut ++ [⟨.flush, none⟩])}
      (retriedPut ++ [⟨.flush, none⟩]) freshStore := by
    refine ⟨hput, sealedFiles_subset ?_, hflush _, sealedFiles_subset ?_, hput, sealedFiles_subset ?_, hflush _,
      sealedFiles_subset ?_, trivial⟩
    all_goals decide +kernel
  refine accepted_readable_iff cipherLaws cipherSeals (Set.injOn_singleton ..) ?_ openStore_emptyDisk
    (emptyDisk_intact _) ?_ hplay (by decide +kernel) 0
  · have hinj : ∀ f ∈ sealedAlong (retriedPut ++ [⟨.flush, none⟩]),
        ∀ f' ∈ sealedAlong (retriedPut ++ [⟨.flush, none⟩]), packNameOf f = packNameOf f' → f = f' := by
      decide +kernel
    exact fun f hf f' hf' => hinj f hf f' hf'
  · intro name f h
    cases h

end Ferry
