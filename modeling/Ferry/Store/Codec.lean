import Ferry.Lib.Outcome
import Ferry.Store.Diff

/-! # Writing nodes and manifests

The serializers and the manifest parser, and stores filled by writing nodes
into an empty one.
-/

namespace Ferry

open Lib List

section
variable [Env]

/-- The bytes of `str::as_bytes`. -/
def strBytes (s : String) : Bytes := s.toUTF8.data.toList

omit [Env] in
theorem strBytes_ofList (cs : List Char) : strBytes (String.ofList cs) = cs.flatMap String.utf8EncodeChar := by
  change cs.utf8Encode.data.toList = _
  simp [List.utf8Encode]

omit [Env] in
theorem toNat_of_mem_utf8EncodeChar {c : Char} {b : UInt8} (hb : b.toNat < 128)
    (h : b ∈ String.utf8EncodeChar c) : c.toNat = b.toNat := by
  rw [String.utf8EncodeChar] at h
  show c.val.toNat = b.toNat
  split_ifs at h with h1 h2 h3
  all_goals
    simp only [mem_cons, not_mem_nil, or_false, ← UInt8.toNat_inj, UInt8.toNat_ofNat'] at h
    omega

def flagsByte (e : TreeEntry) : Except ManifestError UInt8 :=
  match e.payload with
  | .file .. => .ok (if e.exec then 1 else 0)
  | _ => if e.exec then .error .execFlagOnNonFile else .ok 0

/-- The `for e in &mut sorted` loop: names and link targets in NFC. -/
def normalizeEntry (e : TreeEntry) : TreeEntry where
  name := Env.nfc e.name
  exec := e.exec
  mtimeSec := e.mtimeSec
  mtimeNsec := e.mtimeNsec
  payload := match e.payload with
    | .symlink target => .symlink (Env.nfc target)
    | p => p

/-- `expect_valid`; an error stands for its panic. -/
def expectValid (e : TreeEntry) : Except ManifestError TreeEntry := do
  validateEntry e
  return e

def fileEntry (name : String) (exec : Bool) (mtimeSec : Int) (mtimeNsec : Nat) (chunks : Chunks) :
    Except ManifestError TreeEntry :=
  expectValid ⟨Env.nfc name, exec, mtimeSec, mtimeNsec, .file (sumLens chunks) chunks⟩

def dirEntry (name : String) (mtimeSec : Int) (mtimeNsec : Nat) (childTreeId : BlobId) :
    Except ManifestError TreeEntry :=
  expectValid ⟨Env.nfc name, false, mtimeSec, mtimeNsec, .dir childTreeId⟩

def symlinkEntry (name : String) (mtimeSec : Int) (mtimeNsec : Nat) (target : String) :
    Except ManifestError TreeEntry :=
  expectValid ⟨Env.nfc name, false, mtimeSec, mtimeNsec, .symlink (Env.nfc target)⟩

def putChunk (out : Bytes) (c : BlobId × Nat) : Bytes := putU64 (putBytes out c.1.val) c.2

def putPayload (out : Bytes) : EntryPayload → Bytes
  | .file size chunks => chunks.foldl putChunk (putU32 (putU64 out size) chunks.length)
  | .dir childTreeId => putBytes out childTreeId.val
  | .symlink target => putBytes (putU32 out (strBytes target).length) (strBytes target)

def putEntry (out : Bytes) (e : TreeEntry) : Except ManifestError Bytes := do
  let out := putU8 out e.payload.typeByte
  let out := putBytes (putU32 out (strBytes e.name).length) (strBytes e.name)
  let flags ← flagsByte e
  let out := putU32 (putI64 (putU8 out flags) e.mtimeSec) e.mtimeNsec
  return putPayload out e.payload

/-- `serialize_tree_node`; an error stands for the panic of its `expect`s. -/
def serializeTreeNode (node : TreeNode) : Except ManifestError Bytes := do
  let sorted := (node.entries.map normalizeEntry).insertionSort (fun a b => a.name ≤ b.name)
  validateEntries sorted
  sorted.foldlM putEntry (putU32 [] sorted.length)

def serializeManifest (m : RootManifest) : Bytes :=
  let out := putBytes (putBytes [] m.folderId.val) m.deviceId.val
  let out := putU32 (putI64 out m.createdSec) m.createdNsec
  putBytes (putBytes (putBytes out m.rootTreeId.val) m.parentManifestId.val) zeroId.val

def readManifest : Read ManifestError RootManifest := do
  let folderId ← (Reader.array 16).mapError .ofFormat
  let deviceId ← (Reader.array 32).mapError .ofFormat
  let createdSec ← Reader.i64.mapError .ofFormat
  let createdNsec ← Reader.u32.mapError .ofFormat
  if 999999999 < createdNsec then throw .nsecOutOfRange
  let rootTreeId ← (Reader.array 32).mapError .ofFormat
  let parentManifestId ← (Reader.array 32).mapError .ofFormat
  let reserved ← (Reader.array 32).mapError .ofFormat
  if reserved ≠ zeroId then throw .reservedNonzero
  Reader.expectEnd.mapError .ofFormat
  return ⟨folderId, deviceId, createdSec, createdNsec, rootTreeId, parentManifestId⟩

def parseManifest (bytes : Bytes) : Except ManifestError RootManifest := do
  let (m, _) ← readManifest.run (Reader.new bytes)
  return m

/-! ## Stores filled by hand -/

def Store.empty : Store where
  get kind id := .error (.notFound kind id)
  present _ _ := false
  get_hash := by
    intro kind id b h
    cases h
  present_of_get := by
    intro kind id b h
    cases h

/-- The store after a node was written; a node that does not serialize is not. -/
def Store.withNode (s : Store) (node : TreeNode) : Store :=
  match serializeTreeNode node with
  | .ok bytes => s.withBlob .treeNode bytes
  | .error _ => s

def nodeId (node : TreeNode) : BlobId :=
  match serializeTreeNode node with
  | .ok bytes => Env.blake3 bytes
  | .error _ => zeroId

end

namespace Sample

/-- A stand-in for the third-party functions with which small stores can be
evaluated: a polynomial hash, names taken as normalized and caseless. -/
scoped instance sampleEnv : Env where
  blake3 bytes := ⟨leBytes 32 (bytes.foldl (fun acc b => acc * 257 + b.toNat + 1) 0), by simp⟩
  nfc s := s
  toLowercase s := s
  freshEntropy _ _ := "0123abcd"

end Sample

/-! ## Recorded sizes

The parser once more, as a build with overflow checks runs it: the sum of the
chunk lengths panics where it leaves its 64 bits.
-/

section
variable [Env]

def totalLen (chunks : Chunks) : Nat := (chunks.map (·.2)).sum

/-- `chunks.iter().map(|c| c.1).sum()`. -/
def sumChecked (chunks : Chunks) : Outcome ManifestError Nat :=
  chunks.foldlM (fun acc c => Outcome.add 64 acc c.2) 0

def validateEntryChecked (e : TreeEntry) : Outcome ManifestError Unit := do
  .ofExcept (validateName e.name)
  if 999999999 < e.mtimeNsec then .failed .nsecOutOfRange
  else
    match e.payload with
    | .file size chunks => do
      let sum ← sumChecked chunks
      if size ≠ sum then .failed (.sizeMismatch size sum) else .returned ()
    | .dir _ => if e.exec then .failed .execFlagOnNonFile else .returned ()
    | .symlink target => .ofExcept (validateTarget target)

def parseTreeNodeChecked (bytes : Bytes) : Outcome ManifestError TreeNode := do
  let (entries, _) ← .ofExcept (readTreeNode.run (Reader.new bytes))
  .ofExcept (checkOrder entries)
  entries.forM validateEntryChecked
  return ⟨entries⟩

/-- If the check gets as far as the chunks of the entry, they have less than 2^64 bytes together. -/
def TreeEntry.SumFits (e : TreeEntry) : Prop :=
  validateName e.name = .ok () → e.mtimeNsec ≤ 999999999 → ∀ size chunks, e.payload = .file size chunks →
    totalLen chunks < 2 ^ 64

omit [Env] in
theorem sumChecked_eq (chunks : Chunks) : sumChecked chunks =
    if totalLen chunks < 2 ^ 64 then .returned (totalLen chunks) else .panics := by
  suffices hfrom : ∀ acc < 2 ^ 64, chunks.foldlM (fun acc c => Outcome.add 64 acc c.2) acc =
      if acc + totalLen chunks < 2 ^ 64 then (.returned (acc + totalLen chunks) : Outcome ManifestError Nat)
      else .panics by
    rw [sumChecked, hfrom 0 (by decide), Nat.zero_add]
  induction chunks with
  | nil =>
    intro acc hacc
    exact (if_pos hacc).symm
  | cons c chunks ih =>
    intro acc hacc
    have htotal : totalLen (c :: chunks) = c.2 + totalLen chunks := by simp [totalLen]
    rw [foldlM_cons, htotal, ← Nat.add_assoc]
    by_cases hlt : acc + c.2 < 2 ^ 64
    · rw [Outcome.add_of_lt hlt]
      exact ih _ hlt
    · rw [Outcome.add_of_not_lt hlt, if_neg (by omega)]
      rfl

theorem validateEntryChecked_of_fits {e : TreeEntry} (h : e.SumFits) :
    validateEntryChecked e = .ofExcept (validateEntry e) := by
  unfold validateEntryChecked validateEntry
  cases hname : validateName e.name with
  | error => rfl
  | ok u =>
    by_cases hnsec : 999999999 < e.mtimeNsec
    · simp only [if_pos hnsec]
      rfl
    · simp only [if_neg hnsec]
      cases hpayload : e.payload with
      | file size chunks =>
        have hfits := h hname (not_lt.1 hnsec) size chunks hpayload
        have hsum : sumLens chunks = totalLen chunks := Nat.mod_eq_of_lt hfits
        simp only [sumChecked_eq, if_pos hfits, hsum]
        by_cases hsize : size = totalLen chunks <;> simp [hsize]
      | dir id => cases e.exec <;> rfl
      | symlink target => rfl

theorem validateEntryChecked_of_not_fits {e : TreeEntry} (h : ¬ e.SumFits) :
    validateEntryChecked e = .panics := by
  simp only [TreeEntry.SumFits, not_forall] at h
  obtain ⟨hname, hnsec, size, chunks, hpayload, htotal⟩ := h
  simp only [validateEntryChecked, hname, if_neg (not_lt.2 hnsec), hpayload, sumChecked_eq, if_neg htotal]
  rfl

theorem safe_validateEntryChecked {e : TreeEntry} : (validateEntryChecked e).Safe ↔ e.SumFits := by
  by_cases h : e.SumFits
  · simp [validateEntryChecked_of_fits h, h]
  · simp [validateEntryChecked_of_not_fits h, h]

theorem validateEntryChecked_refines (e : TreeEntry) :
    Outcome.Refines (validateEntryChecked e) (validateEntry e) := by
  by_cases h : e.SumFits
  · exact .inr (validateEntryChecked_of_fits h)
  · exact .inl (validateEntryChecked_of_not_fits h)

theorem parseTreeNode_of_read {b : Bytes} {entries : List TreeEntry} {r : Reader}
    (hread : readTreeNode.run (Reader.new b) = .ok (entries, r)) :
    parseTreeNode b = do validateEntries entries; return ⟨entries⟩ := by
  rw [parseTreeNode, hread]
  rfl

/-- The check of the sizes stays in range, and a node that passes it has true sizes, just when among
the entries that the check gets to no file has chunks of 2^64 bytes or more together. -/
theorem recordedSizes_iff {b : Bytes} {entries : List TreeEntry} {r : Reader}
    (hread : readTreeNode.run (Reader.new b) = .ok (entries, r)) :
    ((parseTreeNodeChecked b).Safe ∧
      ∀ n, parseTreeNode b = .ok n → ∀ e ∈ n.entries, ∀ size chunks, e.payload = .file size chunks →
        size = totalLen chunks) ↔
      (checkOrder entries = .ok () → ∀ before e after, entries = before ++ e :: after →
        (∀ e' ∈ before, validateEntry e' = .ok ()) → e.SumFits) := by
  have hsafe : (parseTreeNodeChecked b).Safe ↔
      (checkOrder entries = .ok () → (entries.forM validateEntryChecked).Safe) := by
    simp only [parseTreeNodeChecked, hread, Outcome.safe_bind_iff, Outcome.ofExcept_eq_returned,
      Outcome.safe_ofExcept, Outcome.safe_returned, true_and, Outcome.pure_eq, implies_true, and_true,
      Except.ok.injEq, forall_eq']
    exact ⟨fun h => h (), fun h _ => h⟩
  simp only [hsafe, Outcome.safe_forM_iff validateEntryChecked_refines, safe_validateEntryChecked,
    and_iff_left_iff_imp]
  intro hfits n hparse e he size chunks hfile
  rw [parseTreeNode_of_read hread] at hparse
  obtain ⟨⟨⟩, hvalid, ⟨⟩⟩ := bind_eq_ok.1 hparse
  obtain ⟨⟨⟩, horder, hall⟩ := bind_eq_ok.1 hvalid
  have hvalid : e.Valid := validateEntry_ok (forM_eq_ok.1 hall e he)
  obtain ⟨before, after, hsplit : entries = before ++ e :: after⟩ := append_of_mem he
  have hsum : e.SumFits := hfits horder before e after hsplit fun e' he' =>
    forM_eq_ok.1 hall e' (hsplit ▸ mem_append_left _ he')
  exact (hvalid.size size chunks hfile).trans (Nat.mod_eq_of_lt (hsum hvalid.name hvalid.nsec size chunks hfile))

end

section
open scoped Sample

def twoChunks (nsec size len len' : Nat) : TreeNode :=
  ⟨[⟨"f", false, 0, nsec, .file size [(zeroId, len), (zeroId, len')]⟩]⟩

theorem twoChunks_fits {nsec size len len' : Nat} (h : 999999999 < nsec ∨ len + len' < 2 ^ 64)
    {before after : List TreeEntry} {e : TreeEntry}
    (hsplit : (twoChunks nsec size len len').entries = before ++ e :: after) : e.SumFits := by
  have he : e ∈ (twoChunks nsec size len len').entries := by simp [hsplit]
  obtain rfl := mem_singleton.1 he
  rintro - hnsec _ _ ⟨⟩
  rcases h with h | h
  · exact absurd hnsec (not_le.2 h)
  · exact h

/-- Lengths that add up are accepted; lengths that overflow do no harm in an entry refused for its time. -/
theorem recordedSizes_twoChunks :
    (∃ b, parseTreeNode b = .ok (twoChunks 0 3 1 2) ∧ totalLen [(zeroId, 1), (zeroId, 2)] = 3) ∧
    ∃ b, parseTreeNode b = .error .nsecOutOfRange ∧ (parseTreeNodeChecked b).Safe := by
  have hread : ∀ nsec size len len', (do
      let b ← (twoChunks nsec size len len').entries.foldlM putEntry (putU32 [] 1)
      let p ← readTreeNode.run (Reader.new b)
      return p.1) = .ok (twoChunks nsec size len len').entries →
      ∃ b r, readTreeNode.run (Reader.new b) = .ok ((twoChunks nsec size len len').entries, r) := by
    intro nsec size len len' h
    obtain ⟨b, -, h⟩ := bind_eq_ok.1 h
    obtain ⟨⟨_, r⟩, hread, ⟨⟩⟩ := bind_eq_ok.1 h
    exact ⟨b, r, hread⟩
  constructor
  · obtain ⟨b, r, hread⟩ := hread 0 3 1 2 (by decide +kernel)
    have hparse : parseTreeNode b = .ok (twoChunks 0 3 1 2) := by
      rw [parseTreeNode_of_read hread]
      decide +kernel
    exact ⟨b, hparse, (((recordedSizes_iff hread).2 fun _ _ _ _ hsplit _ =>
      twoChunks_fits (.inr (by decide)) hsplit).2 _ hparse _ (mem_singleton.2 rfl) 3 _ rfl).symm⟩
  · obtain ⟨b, r, hread⟩ := hread (10 ^ 9) 0 (2 ^ 63) (2 ^ 63) (by decide +kernel)
    refine ⟨b, ?_, ((recordedSizes_iff hread).2 fun _ _ _ _ hsplit _ => twoChunks_fits (.inl (by decide)) hsplit).1⟩
    rw [parseTreeNode_of_read hread]
    decide +kernel

/-- Two chunks of 2^63 bytes pass as an empty file. -/
theorem recordedSizes_wrapped : (serializeTreeNode (twoChunks 0 0 (2 ^ 63) (2 ^ 63)) >>= parseTreeNode) =
    .ok (twoChunks 0 0 (2 ^ 63) (2 ^ 63)) ∧ totalLen [(zeroId, 2 ^ 63), (zeroId, 2 ^ 63)] ≠ 0 := by
  decide +kernel

end

end Ferry
