import Ferry.Disk.Calls
import Ferry.Materialize.Apply

/-! # What stands at a path

What a reader sees of an entry on disk, and what the entry of a tree should look
like there: a file with the bytes of its chunks, its exec bit and its time, a
directory, or a link with its target.
-/

namespace Ferry

open Lib List

inductive Seen where
  | file (bytes : Bytes) (exec : Bool) (mtime : Int)
  | dir
  | link (target : String)
  deriving DecidableEq

def Inode.seen : Inode → Seen
  | .file bytes exec mtime => .file bytes exec mtime
  | .dir => .dir
  | .symlink target _ => .link target

@[simp] theorem Inode.seen_eq_dir {i : Inode} : i.seen = .dir ↔ i = .dir := by
  cases i <;> simp [seen]

section
variable [Env]

/-- A name as trees store it: normalized and ordinary. -/
def StoredPath (p : CompPath) : Prop := ∀ c ∈ p, Env.nfc c = c ∧ PlainName c

instance (p : CompPath) : Decidable (StoredPath p) :=
  inferInstanceAs (Decidable (∀ c ∈ p, Env.nfc c = c ∧ PlainName c))

/-! ## Chunk lists -/

/-- The bytes a chunk list stands for, if every chunk is there with its length. -/
def chunkBytes (st : Store) : Chunks → Option Bytes
  | [] => some []
  | (id, len) :: rest =>
    match st.get .dataChunk id with
    | .error _ => none
    | .ok bytes => if bytes.length = len then (chunkBytes st rest).map (bytes ++ ·) else none

variable {bytes : Bytes} {chunks : Chunks} {st : Store}

theorem chunkBytes_cons {id : BlobId} {len : Nat} {rest : Chunks} {out : Bytes}
    (h : chunkBytes st ((id, len) :: rest) = some out) :
    ∃ bytes tail, st.get .dataChunk id = .ok bytes ∧ bytes.length = len ∧
      chunkBytes st rest = some tail ∧ out = bytes ++ tail := by
  unfold chunkBytes at h
  split at h
  · cases h
  rename_i bytes hget
  split at h
  · rename_i hlen
    obtain ⟨tail, htail, rfl⟩ := Option.map_eq_some_iff.1 h
    exact ⟨bytes, tail, hget, hlen, htail, rfl⟩
  · cases h

theorem chunkBytes_length
    (h : chunkBytes st chunks = some bytes) : bytes.length = (chunks.map (·.2)).sum := by
  induction chunks generalizing bytes with
  | nil =>
    cases h
    rfl
  | cons c rest ih =>
    obtain ⟨b, tail, -, hlen, htail, rfl⟩ := chunkBytes_cons h
    simp [ih htail, hlen]

theorem readChunks_ok {disp : String} {index : Nat}
    (h : readChunks st disp index chunks = .ok bytes) : chunkBytes st chunks = some bytes := by
  induction chunks generalizing index bytes with
  | nil =>
    cases h
    rfl
  | cons c rest ih =>
    unfold readChunks at h
    split at h
    · cases h
    rename_i b hget
    split at h
    · cases h
    rename_i hlen
    split at h
    · cases h
    · obtain ⟨tail, htail, h⟩ := bind_eq_ok.1 h
      cases h
      simp [chunkBytes, hget, not_not.1 hlen, ih htail]

section
variable (h : chunkBytes st chunks = some bytes)
include h

theorem verifyRegions_eq (tmp : CompPath) (disp : String) (index : Nat) :
    verifyRegions tmp disp index bytes chunks = .ok () := by
  induction chunks generalizing bytes index with
  | nil => rfl
  | cons c rest ih =>
    obtain ⟨id, len⟩ := c
    obtain ⟨b, tail, hget, hlen, htail, rfl⟩ := chunkBytes_cons h
    subst hlen
    have hfit : ¬ (b ++ tail).length < b.length := by simp
    rw [verifyRegions, if_neg hfit, take_left, drop_left,
      if_neg (not_not.2 (st.get_hash _ _ _ hget))]
    exact ih htail (index + 1)

theorem prefix_and_length_iff {live : Bytes} (hlive : live.length < 2 ^ 64) :
    live.length = sumLens chunks ∧ bytes <+: live ↔ bytes = live := by
  have hlen := chunkBytes_length h
  unfold sumLens
  rw [← hlen]
  constructor
  · rintro ⟨heq, hpre⟩
    have hle := hpre.length_le
    rw [Nat.mod_eq_of_lt (by omega)] at heq
    exact hpre.eq_of_length heq.symm
  · rintro rfl
    exact ⟨(Nat.mod_eq_of_lt hlive).symm, prefix_refl _⟩

end

/-! ## Entries of a tree -/

/-- What an entry of a tree looks like on disk; `none` if a chunk is missing. -/
def see (st : Store) (s : EntryState) : Option Seen :=
  match s.kind with
  | .file => (chunkBytes st s.chunks).map fun b => .file b s.exec (unixNanos s.mtimeSec s.mtimeNsec)
  | .dir => some .dir
  | .symlink => some (.link (s.target.getD ""))

/-- What is there differs from what is wanted by a time at most. -/
def Settled : Option Seen → Seen → Prop
  | some (.file b e _), .file b' e' _ => b = b' ∧ e = e'
  | some .dir, .dir => True
  | some (.link t), .link t' => t = t'
  | _, _ => False

end

end Ferry
