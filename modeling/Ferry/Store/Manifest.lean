import Mathlib.Data.List.Sort
import Mathlib.Data.String.Basic
import Ferry.Lib.Except
import Ferry.Store.Format

/-! # Tree nodes and root manifests

A directory is one tree node: its entries in strictly increasing name order,
each a file (ordered chunk list), a subdirectory (child node id) or a symbolic
link. A root manifest names the root node and the manifest it was made from.
Rust compares names as UTF-8 bytes; that order is the code point order of
`String`.
-/

namespace Ferry

open Lib

/-- What the code takes from other crates: the BLAKE3 hash, Unicode
normalization form C and `str::to_lowercase`. -/
class Env where
  blake3 : Bytes → BlobId
  nfc : String → String
  toLowercase : String → String
  /-- What `fresh_entropy` draws for the temporary files of a path, one after the other. -/
  freshEntropy : String → Nat → String

inductive ManifestError where
  | duplicateName (name : String)
  | invalidName (name : String)
  | notUtf8
  | notNfc (name : String)
  | reservedBitsSet
  | execFlagOnNonFile
  | nsecOutOfRange
  | sizeMismatch (declared actual : Nat)
  | reservedNonzero
  | unknownEntryType (tag : UInt8)
  | badSymlinkTarget
  | corrupt (what : String)
  deriving DecidableEq, Repr

def ManifestError.ofFormat : FormatError → ManifestError
  | .reservedNonzero => .reservedNonzero
  | _ => .corrupt "truncated"

/-- An ordered chunk list: blob id and length of each piece. -/
abbrev Chunks := List (BlobId × Nat)

inductive EntryPayload where
  | file (size : Nat) (chunks : Chunks)
  | dir (childTreeId : BlobId)
  | symlink (target : String)
  deriving DecidableEq

def EntryPayload.typeByte : EntryPayload → UInt8
  | .file .. => 0x00
  | .dir .. => 0x01
  | .symlink .. => 0x02

structure TreeEntry where
  name : String
  exec : Bool
  mtimeSec : Int
  mtimeNsec : Nat
  payload : EntryPayload
  deriving DecidableEq

structure TreeNode where
  entries : List TreeEntry
  deriving DecidableEq

structure RootManifest where
  folderId : ByteArr 16
  deviceId : BlobId
  createdSec : Int
  createdNsec : Nat
  rootTreeId : BlobId
  parentManifestId : BlobId
  deriving DecidableEq

/-- `chunks.iter().map(|c| c.1).sum()` on `u64`: wraps in a release build. -/
def sumLens (chunks : Chunks) : Nat := (chunks.map (·.2)).sum % 2 ^ 64

/-! ## Validation -/

/-- `matches!(Path::new(name).components().next(), Some(Component::Normal(_)))`
on Unix: the first component is neither missing, the root, `.` nor `..`. -/
def firstComponentNormal (name : String) : Bool :=
  match name.toList with
  | [] => false
  | '/' :: _ => false
  | cs =>
    let first := cs.takeWhile (· != '/')
    first != ['.'] && first != ['.', '.']

section
variable [Env]

def validateName (name : String) : Except ManifestError Unit :=
  if '/' ∈ name.toList ∨ '\x00' ∈ name.toList ∨ name = "." ∨ name = ".." ∨ ':' ∈ name.toList ∨
      ¬ firstComponentNormal name then
    .error (.invalidName name)
  else if Env.nfc name ≠ name then .error (.notNfc name)
  else .ok ()

def validateTarget (target : String) : Except ManifestError Unit :=
  if Env.nfc target ≠ target then .error (.notNfc target) else .ok ()

def validateEntry (e : TreeEntry) : Except ManifestError Unit := do
  validateName e.name
  if 999999999 < e.mtimeNsec then .error .nsecOutOfRange
  else
    match e.payload with
    | .file size chunks =>
      if size ≠ sumLens chunks then .error (.sizeMismatch size (sumLens chunks)) else .ok ()
    | .dir _ => if e.exec then .error .execFlagOnNonFile else .ok ()
    | .symlink target => validateTarget target

/-- The `windows(2)` loop: adjacent names are strictly increasing. -/
def checkOrder : List TreeEntry → Except ManifestError Unit
  | a :: b :: rest =>
    if b.name ≤ a.name then
      if a.name = b.name then .error (.duplicateName a.name)
      else .error (.corrupt "entries not sorted by name")
    else checkOrder (b :: rest)
  | _ => .ok ()

def validateEntries (entries : List TreeEntry) : Except ManifestError Unit := do
  checkOrder entries
  entries.forM validateEntry

/-! ## Parsing -/

def fromUtf8 (b : Bytes) : Option String := String.fromUTF8? ⟨b.toArray⟩

def parseChunk : Read FormatError (BlobId × Nat) := do
  let id ← Reader.array 32
  let len ← Reader.u64
  return (id, len)

/-- `for _ in 0..count`, collecting what each round returns. -/
def readN {ε α : Type} (step : Read ε α) : Nat → Read ε (List α)
  | 0 => pure []
  | count + 1 => do
    let x ← step
    let xs ← readN step count
    return x :: xs

def parsePayload (typeByte : UInt8) : Read ManifestError EntryPayload :=
  if typeByte = 0x00 then do
    let size ← Reader.u64.mapError .ofFormat
    let chunkCount ← Reader.u32.mapError .ofFormat
    let chunks ← (readN parseChunk chunkCount).mapError .ofFormat
    return .file size chunks
  else if typeByte = 0x01 then do
    let childTreeId ← (Reader.array 32).mapError .ofFormat
    return .dir childTreeId
  else if typeByte = 0x02 then do
    let targetLen ← Reader.u32.mapError .ofFormat
    let t ← (Reader.take targetLen).mapError .ofFormat
    match fromUtf8 t with
    | none => throw .badSymlinkTarget
    | some target => return .symlink target
  else throw (.unknownEntryType typeByte)

def parseEntry : Read ManifestError TreeEntry := do
  let typeByte ← Reader.u8.mapError .ofFormat
  let nameLen ← Reader.u32.mapError .ofFormat
  let nameBytes ← (Reader.take nameLen).mapError .ofFormat
  match fromUtf8 nameBytes with
  | none => throw .notUtf8
  | some name =>
    let flags ← Reader.u8.mapError .ofFormat
    if flags &&& 0b11111110 ≠ 0 then throw .reservedBitsSet
    let exec := flags &&& 0x01 != 0
    let mtimeSec ← Reader.i64.mapError .ofFormat
    let mtimeNsec ← Reader.u32.mapError .ofFormat
    let payload ← parsePayload typeByte
    return ⟨name, exec, mtimeSec, mtimeNsec, payload⟩

def readTreeNode : Read ManifestError (List TreeEntry) := do
  let count ← Reader.u32.mapError .ofFormat
  let entries ← readN parseEntry count
  Reader.expectEnd.mapError .ofFormat
  return entries

def parseTreeNode (bytes : Bytes) : Except ManifestError TreeNode := do
  let (entries, _) ← readTreeNode.run (Reader.new bytes)
  validateEntries entries
  return ⟨entries⟩

/-! ## What a parsed node satisfies -/

theorem validateName_ok {name : String} (h : validateName name = .ok ()) :
    '/' ∉ name.toList ∧ name ≠ "" ∧ name ≠ "." ∧ name ≠ ".." ∧ Env.nfc name = name := by
  unfold validateName at h
  split at h
  · cases h
  rename_i hbad
  split at h
  · cases h
  rename_i hnfc
  simp only [not_or] at hbad
  refine ⟨hbad.1, ?_, hbad.2.2.1, hbad.2.2.2.1, not_not.1 hnfc⟩
  rintro rfl
  exact absurd hbad.2.2.2.2.2 (by decide)

/-- A tree entry whose fields passed `validate_entry`. -/
structure TreeEntry.Valid (e : TreeEntry) : Prop where
  name : validateName e.name = .ok ()
  nsec : e.mtimeNsec ≤ 999999999
  size : ∀ size chunks, e.payload = .file size chunks → size = sumLens chunks
  dirExec : ∀ child, e.payload = .dir child → e.exec = false
  target : ∀ t, e.payload = .symlink t → Env.nfc t = t

theorem validateEntry_ok {e : TreeEntry} (h : validateEntry e = .ok ()) : e.Valid := by
  obtain ⟨⟨⟩, hname, h⟩ := bind_eq_ok.1 h
  split at h
  · cases h
  rename_i hnsec
  refine ⟨hname, Nat.le_of_not_lt hnsec, ?_, ?_, ?_⟩
  · intro size chunks hp
    rw [hp] at h
    by_contra hne
    simp [hne] at h
  · intro child hp
    rw [hp] at h
    by_contra hne
    simp [hne] at h
  · intro t hp
    rw [hp] at h
    by_contra hne
    simp [validateTarget, hne] at h

omit [Env] in
theorem checkOrder_ok {entries : List TreeEntry} (h : checkOrder entries = .ok ()) :
    entries.Pairwise (fun a b => a.name < b.name) := by
  induction entries with
  | nil => exact List.Pairwise.nil
  | cons a rest ih =>
    cases rest with
    | nil => exact List.pairwise_singleton _ _
    | cons =>
      unfold checkOrder at h
      split at h
      · split at h <;> cases h
      rename_i hlt
      have hrest := ih h
      rw [not_le] at hlt
      refine List.Pairwise.cons ?_ hrest
      intro c hc
      rcases List.mem_cons.1 hc with rfl | hc
      · exact hlt
      · exact hlt.trans ((List.pairwise_cons.1 hrest).1 c hc)

/-- A node accepted by the parser: names strictly increasing, every entry valid. -/
structure TreeNode.Valid (n : TreeNode) : Prop where
  sorted : n.entries.Pairwise (fun a b => a.name < b.name)
  entry : ∀ e ∈ n.entries, e.Valid

theorem validateEntries_ok {entries : List TreeEntry} (h : validateEntries entries = .ok ()) :
    TreeNode.Valid ⟨entries⟩ := by
  obtain ⟨⟨⟩, horder, hall⟩ := bind_eq_ok.1 h
  exact ⟨checkOrder_ok horder, fun e he => validateEntry_ok (forM_eq_ok.1 hall e he)⟩

theorem parseTreeNode_valid {bytes : Bytes} {n : TreeNode} (h : parseTreeNode bytes = .ok n) :
    n.Valid := by
  obtain ⟨⟨entries, r⟩, -, h⟩ := bind_eq_ok.1 h
  obtain ⟨⟨⟩, hvalid, h⟩ := bind_eq_ok.1 h
  cases h
  exact validateEntries_ok hvalid

end

end Ferry
