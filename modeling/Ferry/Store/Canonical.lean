import Ferry.Store.Codec
import Ferry.Store.Fields

/-! # One byte form for each node

The layout of tree nodes and manifests as a function from values to bytes. The
parser accepts exactly the layouts of the valid values whose counts fit their
fields, and the serializer writes that layout.
-/

namespace Ferry

open Lib List

/-! ## The layout -/

def chunkRecord (c : BlobId × Nat) : Bytes := c.1.val ++ leBytes 8 c.2

def EntryPayload.bytes : EntryPayload → Bytes
  | .file size chunks => leBytes 8 size ++ leBytes 4 chunks.length ++ chunks.flatMap chunkRecord
  | .dir childTreeId => childTreeId.val
  | .symlink target => leBytes 4 (strBytes target).length ++ strBytes target

def execByte (exec : Bool) : UInt8 := if exec then 1 else 0

def TreeEntry.bytes (e : TreeEntry) : Bytes :=
  [e.payload.typeByte] ++ leBytes 4 (strBytes e.name).length ++ strBytes e.name ++ [execByte e.exec] ++
    leBytes 8 (i64Word e.mtimeSec) ++ leBytes 4 e.mtimeNsec ++ e.payload.bytes

def nodeBytes (entries : List TreeEntry) : Bytes :=
  leBytes 4 entries.length ++ entries.flatMap TreeEntry.bytes

/-- The numbers are in the range of the source's types. -/
def EntryPayload.Typed : EntryPayload → Prop
  | .file size chunks => size < 2 ^ 64 ∧ ∀ c ∈ chunks, c.2 < 2 ^ 64
  | _ => True

structure TreeEntry.Typed (e : TreeEntry) : Prop where
  sec : I64Range e.mtimeSec
  nsec : e.mtimeNsec < 2 ^ 32
  payload : e.payload.Typed

/-- The lengths that are written as `u32`. -/
def EntryPayload.Counted : EntryPayload → Prop
  | .file _ chunks => chunks.length < 2 ^ 32
  | .dir _ => True
  | .symlink target => (strBytes target).length < 2 ^ 32

def TreeEntry.Counted (e : TreeEntry) : Prop :=
  (strBytes e.name).length < 2 ^ 32 ∧ e.payload.Counted

/-! ## Parsing reads the layout -/

theorem parseChunk_decodes :
    Decodes parseChunk fun (c : BlobId × Nat) w => c.2 < 2 ^ 64 ∧ w = chunkRecord c := by
  refine ((Reader.array_decodes 32).bind fun id => Reader.u64_decodes.bind fun len =>
    .pure (id, len)).congr ?_
  rintro ⟨id, len⟩ u
  simp [-Subtype.exists, chunkRecord]

def EntryPayload.Fits (p : EntryPayload) : Prop := p.Typed ∧ p.Counted

/-- One case for each kind of entry. -/
theorem parsePayload_decodes (typeByte : UInt8) :
    Decodes (parsePayload typeByte) fun p w => p.typeByte = typeByte ∧ p.Fits ∧ w = p.bytes := by
  unfold parsePayload
  split
  · rename_i htype
    subst htype
    refine ((Reader.u64_decodes.mapError _).bind fun size => (Reader.u32_decodes.mapError _).bind
      fun count => ((readN_decodes parseChunk_decodes count).mapError _).bind fun chunks =>
        .pure (EntryPayload.file size chunks)).congr fun p u => ?_
    constructor
    · rintro ⟨size, _, _, ⟨hsize, rfl⟩, ⟨count, _, _, ⟨hcount, rfl⟩,
        ⟨chunks, _, _, ⟨rfl, hlens, rfl⟩, ⟨rfl, rfl⟩, rfl⟩, rfl⟩, rfl⟩
      exact ⟨rfl, ⟨⟨hsize, hlens⟩, hcount⟩, by simp [EntryPayload.bytes]⟩
    · rintro ⟨htype, hfits, rfl⟩
      cases p with
      | dir | symlink => cases htype
      | file size chunks =>
        obtain ⟨⟨hsize, hlens⟩, hcount⟩ := hfits
        exact ⟨size, _, _, ⟨hsize, rfl⟩, ⟨chunks.length, _, _, ⟨hcount, rfl⟩,
          ⟨chunks, _, _, ⟨rfl, hlens, rfl⟩, ⟨rfl, rfl⟩, rfl⟩, rfl⟩, by simp [EntryPayload.bytes]⟩
  split
  · rename_i htype
    subst htype
    refine (((Reader.array_decodes 32).mapError _).bind fun child =>
      .pure (EntryPayload.dir child)).congr fun p u => ?_
    constructor
    · rintro ⟨child, _, _, rfl, ⟨rfl, rfl⟩, rfl⟩
      exact ⟨rfl, ⟨trivial, trivial⟩, append_nil _⟩
    · rintro ⟨htype, -, rfl⟩
      cases p with
      | file | symlink => cases htype
      | dir child => exact ⟨child, _, _, rfl, ⟨rfl, rfl⟩, (append_nil _).symm⟩
  split
  · rename_i htype
    subst htype
    apply Decodes.congr
    · apply Decodes.field Reader.u32_decodes
      intro len
      apply Decodes.field (Reader.take_decodes len)
      intro t
      apply Decodes.ofOption (fromUtf8 t)
      · intro target ht
        rw [ht]
        exact .pure _
      · exact fun ht => ⟨_, by rw [ht]⟩
    intro p u
    constructor
    · rintro ⟨len, _, _, ⟨hlen, rfl⟩, ⟨t, _, _, ⟨rfl, rfl⟩, ⟨target, ht, rfl, rfl⟩, rfl⟩, rfl⟩
      obtain rfl := fromUtf8_eq_some.1 ht
      exact ⟨rfl, ⟨trivial, hlen⟩, by rw [append_nil]; rfl⟩
    · rintro ⟨htype, hfits, rfl⟩
      cases p with
      | file | dir => cases htype
      | symlink target =>
        exact ⟨_, _, _, ⟨hfits.2, rfl⟩, ⟨_, _, _, ⟨rfl, rfl⟩,
          ⟨target, fromUtf8_eq_some.2 rfl, rfl, rfl⟩, rfl⟩, by rw [append_nil]; rfl⟩
  · rename_i hfile hdir hlink
    refine (Decodes.throw _).congr fun p u => ?_
    constructor
    · exact False.elim
    · rintro ⟨htype, -⟩
      cases p with
      | file => exact hfile htype.symm
      | dir => exact hdir htype.symm
      | symlink => exact hlink htype.symm

theorem execByte_of_reserved {flags : UInt8} (h : ¬ flags &&& 0b11111110 ≠ 0) :
    flags = execByte (flags &&& 0x01 != 0) := by
  revert h
  exact (show ∀ b : BitVec 8, ¬ (UInt8.ofBitVec b) &&& 0b11111110 ≠ 0 →
    UInt8.ofBitVec b = execByte (UInt8.ofBitVec b &&& 0x01 != 0) by decide) flags.toBitVec

theorem reserved_execByte (exec : Bool) :
    ¬ execByte exec &&& 0b11111110 ≠ 0 ∧ (execByte exec &&& 0x01 != 0) = exec := by
  cases exec <;> decide

structure TreeEntry.Fits (e : TreeEntry) : Prop where
  typed : e.Typed
  counted : e.Counted

/-- An entry has one encoding. -/
theorem parseEntry_decodes : Decodes parseEntry fun e w => e.Fits ∧ w = e.bytes := by
  apply Decodes.congr
  · apply Decodes.field Reader.u8_decodes
    intro typeByte
    apply Decodes.field Reader.u32_decodes
    intro len
    apply Decodes.field (Reader.take_decodes len)
    intro nameBytes
    apply Decodes.ofOption (fromUtf8 nameBytes)
    · intro name hname
      rw [hname]
      apply Decodes.field Reader.u8_decodes
      intro flags
      apply Decodes.guard
      apply Decodes.field Reader.i64_decodes
      intro sec
      apply Decodes.field Reader.u32_decodes
      intro nsec
      apply Decodes.bind (parsePayload_decodes typeByte)
      intro payload
      exact .pure _
    · exact fun hname => ⟨_, by rw [hname]⟩
  intro e u
  constructor
  · rintro ⟨typeByte, _, _, rfl, ⟨len, _, _, ⟨hlen, rfl⟩, ⟨nameBytes, _, _, ⟨rfl, rfl⟩,
      ⟨name, hname, flags, _, _, rfl, ⟨hflags, sec, _, _, ⟨hsec, rfl⟩, ⟨nsec, _, _, ⟨hnsec, rfl⟩,
        ⟨payload, _, _, ⟨rfl, hfits, rfl⟩, ⟨rfl, rfl⟩, rfl⟩, rfl⟩, rfl⟩, rfl⟩, rfl⟩, rfl⟩, rfl⟩
    obtain rfl := fromUtf8_eq_some.1 hname
    refine ⟨⟨⟨hsec, hnsec, hfits.1⟩, ⟨hlen, hfits.2⟩⟩, ?_⟩
    simp [TreeEntry.bytes, strBytes, ← execByte_of_reserved hflags]
  · rintro ⟨⟨⟨hsec, hnsec, htyped⟩, ⟨hlen, hcounted⟩⟩, rfl⟩
    obtain ⟨hreserved, hexec⟩ := reserved_execByte e.exec
    refine ⟨e.payload.typeByte, _, _, rfl, ⟨_, _, _, ⟨hlen, rfl⟩, ⟨_, _, _, ⟨rfl, rfl⟩,
      ⟨e.name, fromUtf8_eq_some.2 rfl, execByte e.exec, _, _, rfl, ⟨hreserved, e.mtimeSec, _, _,
        ⟨hsec, rfl⟩, ⟨e.mtimeNsec, _, _, ⟨hnsec, rfl⟩, ⟨e.payload, _, _, ⟨rfl, ⟨htyped, hcounted⟩, rfl⟩,
          ⟨?_, rfl⟩, rfl⟩, rfl⟩, rfl⟩, rfl⟩, rfl⟩, rfl⟩, ?_⟩
    · rw [hexec]
    · simp [TreeEntry.bytes]

theorem readTreeNode_decodes : DecodesAll readTreeNode fun entries w =>
    entries.length < 2 ^ 32 ∧ (∀ e ∈ entries, e.Fits) ∧ w = nodeBytes entries := by
  apply DecodesAll.congr
  · apply DecodesAll.field Reader.u32_decodes
    intro count
    apply DecodesAll.bind (readN_decodes parseEntry_decodes count)
    intro entries
    exact Reader.ends_decodes _ _
  simp [nodeBytes]

section
variable [Env]

variable {e : TreeEntry} {b : Bytes}

/-- The parser accepts the layouts of the valid nodes whose numbers fit their fields. -/
theorem parseTreeNode_ok_iff {n : TreeNode} :
    parseTreeNode b = .ok n ↔ validateEntries n.entries = .ok () ∧
      n.entries.length < 2 ^ 32 ∧ (∀ e ∈ n.entries, e.Fits) ∧ b = nodeBytes n.entries := by
  have hread := readTreeNode_decodes (Reader.new b) (Reader.inBounds_new b) n.entries
  rw [Reader.rest_new] at hread
  dsimp only at hread
  unfold parseTreeNode
  rw [bind_eq_ok, ← hread]
  constructor
  · rintro ⟨⟨entries, r⟩, hrun, h⟩
    obtain ⟨⟨⟩, hvalid, h⟩ := bind_eq_ok.1 h
    cases h
    exact ⟨hvalid, r, hrun⟩
  · rintro ⟨hvalid, r, hrun⟩
    refine ⟨(n.entries, r), hrun, ?_⟩
    dsimp only
    rw [hvalid]
    rfl

/-! ## Serializing writes the layout -/

omit [Env] in
theorem foldl_putChunk (chunks : Chunks) (out : Bytes) :
    chunks.foldl putChunk out = out ++ chunks.flatMap chunkRecord := by
  induction chunks generalizing out with
  | nil => simp
  | cons c chunks ih =>
    rw [foldl_cons, ih]
    simp [putChunk, putU64, putBytes, chunkRecord]

omit [Env] in
theorem putPayload_eq (out : Bytes) (p : EntryPayload) : putPayload out p = out ++ p.bytes := by
  cases p with
  | file => simp [putPayload, foldl_putChunk, putU32, putU64, EntryPayload.bytes]
  | dir => rfl
  | symlink => simp [putPayload, putBytes, putU32, EntryPayload.bytes]

/-- Only a file has the exec flag. -/
def TreeEntry.ExecOnFile (e : TreeEntry) : Prop :=
  e.exec = true → ∃ size chunks, e.payload = .file size chunks

omit [Env] in
theorem flagsByte_of_execOnFile (h : e.ExecOnFile) :
    flagsByte e = .ok (execByte e.exec) := by
  unfold flagsByte execByte
  cases hp : e.payload with
  | file => rfl
  | dir | symlink =>
    cases hexec : e.exec with
    | false => rfl
    | true => simpa [hp] using h hexec

omit [Env] in
theorem flagsByte_of_not (h : ¬ e.ExecOnFile) :
    flagsByte e = .error .execFlagOnNonFile := by
  unfold TreeEntry.ExecOnFile at h
  push Not at h
  obtain ⟨hexec, hnot⟩ := h
  unfold flagsByte
  cases hp : e.payload with
  | file size chunks => exact absurd hp (hnot size chunks)
  | dir | symlink => simp [hexec]

omit [Env] in
theorem putEntry_ok (h : e.ExecOnFile) (out : Bytes) :
    putEntry out e = .ok (out ++ e.bytes) := by
  unfold putEntry
  rw [flagsByte_of_execOnFile h]
  simp [putU8, putU32, putI64, putBytes, putPayload_eq, TreeEntry.bytes, pure, Except.pure]

omit [Env] in
theorem putEntry_error (h : ¬ e.ExecOnFile) (out : Bytes) :
    putEntry out e = .error .execFlagOnNonFile := by
  unfold putEntry
  rw [flagsByte_of_not h]
  rfl

omit [Env] in
theorem foldlM_putEntry_eq_ok {entries : List TreeEntry} {out : Bytes} :
    entries.foldlM putEntry out = .ok b ↔
      (∀ e ∈ entries, e.ExecOnFile) ∧ b = out ++ entries.flatMap TreeEntry.bytes := by
  induction entries generalizing out with
  | nil => simp [pure, Except.pure, eq_comm]
  | cons e entries ih =>
    rw [foldlM_cons]
    by_cases he : e.ExecOnFile
    · rw [putEntry_ok he, ok_bind, ih]
      simp [he]
    · rw [putEntry_error he, error_bind]
      simp [he]

/-- The node as it is written: names and targets in NFC, entries sorted by name. -/
def TreeNode.normalized (n : TreeNode) : TreeNode :=
  ⟨(n.entries.map normalizeEntry).insertionSort (fun a b => a.name ≤ b.name)⟩

theorem serializeTreeNode_ok_iff {n : TreeNode} :
    serializeTreeNode n = .ok b ↔ validateEntries n.normalized.entries = .ok () ∧
      (∀ e ∈ n.normalized.entries, e.ExecOnFile) ∧ b = nodeBytes n.normalized.entries := by
  change (validateEntries n.normalized.entries >>= fun _ =>
    n.normalized.entries.foldlM putEntry (putU32 [] n.normalized.entries.length)) = .ok b ↔ _
  rw [bind_eq_ok]
  simp only [foldlM_putEntry_eq_ok]
  constructor
  · rintro ⟨⟨⟩, hvalid, hexec, rfl⟩
    exact ⟨hvalid, hexec, rfl⟩
  · rintro ⟨hvalid, hexec, rfl⟩
    exact ⟨(), hvalid, hexec, rfl⟩

theorem normalizeEntry_of_valid (h : e.Valid) : normalizeEntry e = e := by
  have hname := (validateName_ok h.name).2.2.2.2
  cases e with
  | mk name exec sec nsec payload =>
    unfold normalizeEntry
    cases payload with
    | file | dir => simp only [hname]
    | symlink target => simp only [hname, h.target target rfl]

theorem TreeNode.Valid.normalized_eq {n : TreeNode} (h : n.Valid) : n.normalized = n := by
  have hmap : n.entries.map normalizeEntry = n.entries := by
    conv_rhs => rw [← map_id n.entries]
    exact map_congr_left fun e he => normalizeEntry_of_valid (h.entry e he)
  have hsorted : n.entries.Pairwise fun a b => a.name ≤ b.name := h.sorted.imp le_of_lt
  unfold TreeNode.normalized
  rw [hmap, hsorted.insertionSort_eq]

/-! ## Bytes to nodes and back -/

def TreeNode.NoExecLinks (n : TreeNode) : Prop :=
  ∀ e ∈ n.entries, ∀ target, e.payload = .symlink target → e.exec = false

theorem TreeNode.Valid.execOnFile_iff {n : TreeNode} (h : n.Valid) :
    (∀ e ∈ n.entries, e.ExecOnFile) ↔ n.NoExecLinks := by
  constructor
  · intro hexec e he target hp
    by_contra hne
    obtain ⟨size, chunks, hfile⟩ := hexec e he (by simpa using hne)
    rw [hp] at hfile
    cases hfile
  · intro hlinks e he hexec
    cases hp : e.payload with
    | file size chunks => exact ⟨size, chunks, rfl⟩
    | dir child =>
      have := (h.entry e he).dirExec child hp
      rw [hexec] at this
      cases this
    | symlink target =>
      have := hlinks e he target hp
      rw [hexec] at this
      cases this

/-- A node that the parser accepts is written back as it was read, unless one of its links has the
exec flag: the parser lets that pass and the serializer panics on it. -/
theorem serializeTreeNode_of_parse_iff {b : Bytes} {n : TreeNode} (h : parseTreeNode b = .ok n) :
    serializeTreeNode n = .ok b ↔ n.NoExecLinks := by
  have hvalid := parseTreeNode_valid h
  obtain ⟨hentries, -, -, hb⟩ := parseTreeNode_ok_iff.1 h
  rw [serializeTreeNode_ok_iff, hvalid.normalized_eq, hvalid.execOnFile_iff]
  exact ⟨fun hser => hser.2.1, fun hlinks => ⟨hentries, hlinks, hb⟩⟩

/-! ## Nodes to bytes and back -/

/-- An entry made by one of the three constructors from arguments of the source's types. -/
inductive TreeEntry.Built : TreeEntry → Prop
  | file {name : String} {exec : Bool} {mtimeSec : Int} {mtimeNsec : Nat} {chunks : Chunks} {e : TreeEntry}
      (hsec : I64Range mtimeSec) (hlens : ∀ c ∈ chunks, c.2 < 2 ^ 64)
      (h : fileEntry name exec mtimeSec mtimeNsec chunks = .ok e) : Built e
  | dir {name : String} {mtimeSec : Int} {mtimeNsec : Nat} {childTreeId : BlobId} {e : TreeEntry}
      (hsec : I64Range mtimeSec) (h : dirEntry name mtimeSec mtimeNsec childTreeId = .ok e) : Built e
  | symlink {name : String} {mtimeSec : Int} {mtimeNsec : Nat} {target : String} {e : TreeEntry}
      (hsec : I64Range mtimeSec) (h : symlinkEntry name mtimeSec mtimeNsec target = .ok e) : Built e

theorem expectValid_ok {e' : TreeEntry} (h : expectValid e = .ok e') :
    e = e' ∧ validateEntry e' = .ok () := by
  obtain ⟨⟨⟩, hvalid, h⟩ := bind_eq_ok.1 h
  cases h
  exact ⟨rfl, hvalid⟩

theorem TreeEntry.Built.valid (h : e.Built) : validateEntry e = .ok () := by
  cases h with
  | file hsec hlens h | dir hsec h | symlink hsec h => exact (expectValid_ok h).2

theorem TreeEntry.Built.execOnFile (h : e.Built) : e.ExecOnFile := by
  cases h with
  | file hsec hlens h =>
    obtain ⟨rfl, -⟩ := expectValid_ok h
    exact fun _ => ⟨_, _, rfl⟩
  | dir hsec h | symlink hsec h =>
    obtain ⟨rfl, -⟩ := expectValid_ok h
    exact fun hexec => nomatch hexec

theorem TreeEntry.Built.typed (h : e.Built) : e.Typed := by
  have hnsec : e.mtimeNsec < 2 ^ 32 := by
    have := (validateEntry_ok h.valid).nsec
    omega
  cases h with
  | file hsec hlens h =>
    obtain ⟨rfl, -⟩ := expectValid_ok h
    exact ⟨hsec, hnsec, Nat.mod_lt _ (by decide), hlens⟩
  | dir hsec h | symlink hsec h =>
    obtain ⟨rfl, -⟩ := expectValid_ok h
    exact ⟨hsec, hnsec, trivial⟩

/-- A node of built entries with pairwise distinct normalized names. -/
structure TreeNode.Built (n : TreeNode) : Prop where
  entry : ∀ e ∈ n.entries, e.Built
  distinct : (n.entries.map fun e => Env.nfc e.name).Nodup

/-- Every length of the node fits the `u32` it is written as. -/
structure TreeNode.Counted (n : TreeNode) : Prop where
  entries : n.entries.length < 2 ^ 32
  entry : ∀ e ∈ n.entries, e.Counted

omit [Env] in
theorem checkOrder_of_sorted {entries : List TreeEntry}
    (h : entries.Pairwise fun a b => a.name < b.name) : checkOrder entries = .ok () := by
  induction entries with
  | nil => rfl
  | cons a rest ih =>
    cases rest with
    | nil => rfl
    | cons b =>
      obtain ⟨ha, hrest⟩ := pairwise_cons.1 h
      rw [checkOrder, if_neg (not_le.2 (ha b (by simp)))]
      exact ih hrest

namespace TreeNode.Built

variable {n : TreeNode} (h : n.Built)
include h

theorem entries_perm : n.normalized.entries.Perm n.entries := by
  have hmap : n.entries.map normalizeEntry = n.entries := by
    conv_rhs => rw [← map_id n.entries]
    exact map_congr_left fun e he =>
      normalizeEntry_of_valid (validateEntry_ok (h.entry e he).valid)
  unfold TreeNode.normalized
  rw [hmap]
  exact perm_insertionSort _ _

theorem names_nodup : (n.entries.map TreeEntry.name).Nodup := by
  have hnames : (n.entries.map fun e => Env.nfc e.name) = n.entries.map TreeEntry.name :=
    map_congr_left fun e he =>
      (validateName_ok (validateEntry_ok (h.entry e he).valid).name).2.2.2.2
  rw [← hnames]
  exact h.distinct

theorem normalized_sorted :
    n.normalized.entries.Pairwise fun a b => a.name < b.name := by
  have hle : n.normalized.entries.Pairwise fun a b => a.name ≤ b.name :=
    pairwise_insertionSort _ _
  have hne : n.normalized.entries.Pairwise fun a b => a.name ≠ b.name := by
    have := (h.entries_perm.map TreeEntry.name).nodup_iff.2 h.names_nodup
    exact pairwise_map.1 this
  exact (hle.and hne).imp fun hab => lt_of_le_of_ne hab.1 hab.2

theorem mem_normalized (he : e ∈ n.normalized.entries) : e.Built :=
  h.entry e (h.entries_perm.mem_iff.1 he)

theorem validateEntries_normalized :
    validateEntries n.normalized.entries = .ok () := by
  unfold validateEntries
  rw [checkOrder_of_sorted h.normalized_sorted]
  exact forM_eq_ok.2 fun e he => (h.mem_normalized he).valid

theorem serialize_eq : serializeTreeNode n = .ok (nodeBytes n.normalized.entries) :=
  serializeTreeNode_ok_iff.2
    ⟨h.validateEntries_normalized, fun _ he => (h.mem_normalized he).execOnFile, rfl⟩

theorem fits_iff : n.Counted ↔ n.normalized.entries.length < 2 ^ 32 ∧ ∀ e ∈ n.normalized.entries, e.Fits := by
  rw [h.entries_perm.length_eq]
  constructor
  · intro hc
    exact ⟨hc.entries, fun e he =>
      ⟨(h.mem_normalized he).typed, hc.entry e (h.entries_perm.mem_iff.1 he)⟩⟩
  · rintro ⟨hlen, hfits⟩
    exact ⟨hlen, fun e he => (hfits e (h.entries_perm.mem_iff.2 he)).counted⟩

/-- Parsing gives a written node back exactly when its lengths fit their fields. -/
theorem parse_serialize_iff : (serializeTreeNode n >>= parseTreeNode) = .ok n.normalized ↔ n.Counted := by
  rw [h.serialize_eq, ok_bind, parseTreeNode_ok_iff, h.fits_iff]
  constructor
  · rintro ⟨-, hlen, hfits, -⟩
    exact ⟨hlen, hfits⟩
  · rintro ⟨hlen, hfits⟩
    exact ⟨h.validateEntries_normalized, hlen, hfits, rfl⟩

end TreeNode.Built

/-! ## Manifests -/

def RootManifest.bytes (m : RootManifest) : Bytes :=
  m.folderId.val ++ m.deviceId.val ++ leBytes 8 (i64Word m.createdSec) ++ leBytes 4 m.createdNsec ++
    m.rootTreeId.val ++ m.parentManifestId.val ++ zeroId.val

omit [Env] in
theorem serializeManifest_eq (m : RootManifest) : serializeManifest m = m.bytes := by
  simp [serializeManifest, putBytes, putU32, putI64, RootManifest.bytes]

omit [Env] in
/-- A manifest has one encoding. -/
theorem readManifest_decodes : DecodesAll readManifest fun m w =>
    I64Range m.createdSec ∧ m.createdNsec ≤ 999999999 ∧ w = m.bytes := by
  apply DecodesAll.congr
  · apply DecodesAll.field (Reader.array_decodes 16)
    intro folderId
    apply DecodesAll.field (Reader.array_decodes 32)
    intro deviceId
    apply DecodesAll.field Reader.i64_decodes
    intro sec
    apply DecodesAll.field Reader.u32_decodes
    intro nsec
    apply DecodesAll.guard
    apply DecodesAll.field (Reader.array_decodes 32)
    intro root
    apply DecodesAll.field (Reader.array_decodes 32)
    intro parent
    apply DecodesAll.field (Reader.array_decodes 32)
    intro reserved
    apply DecodesAll.guard
    exact Reader.ends_decodes _ _
  rintro ⟨folderId, deviceId, sec, nsec, root, parent⟩ u
  simp [-Subtype.exists, RootManifest.bytes, and_assoc]
  omega

omit [Env] in
theorem parseManifest_ok_iff {m : RootManifest} :
    parseManifest b = .ok m ↔ I64Range m.createdSec ∧ m.createdNsec ≤ 999999999 ∧ b = m.bytes :=
  readManifest_decodes.run_new

/-! ## Storage -/

/-- What is stored comes back: a node of built entries, normalized, as long as its lengths fit the
`u32` fields they are written as, and any manifest. Such nodes are determined by their bytes. -/
theorem stored_nodes_and_manifests : (∀ n : TreeNode, n.Built →
      ((serializeTreeNode n >>= parseTreeNode) = .ok n.normalized ↔ n.Counted)) ∧
    (∀ n₁ n₂ : TreeNode, n₁.Built → n₂.Built → n₁.Counted → n₂.Counted →
      serializeTreeNode n₁ = serializeTreeNode n₂ → n₁.normalized = n₂.normalized) ∧
    ∀ m : RootManifest, I64Range m.createdSec → m.createdNsec ≤ 999999999 →
      parseManifest (serializeManifest m) = .ok m := by
  refine ⟨fun n h => h.parse_serialize_iff, ?_, ?_⟩
  · intro n₁ n₂ h₁ h₂ hc₁ hc₂ hbytes
    have hparse := h₁.parse_serialize_iff.2 hc₁
    rw [hbytes, h₂.parse_serialize_iff.2 hc₂] at hparse
    exact (Except.ok.inj hparse).symm
  · intro m hsec hnsec
    exact parseManifest_ok_iff.2 ⟨hsec, hnsec, serializeManifest_eq m⟩

end

/-! ## Samples -/

def linkNode (exec : Bool) (target : String) : TreeNode := ⟨[⟨"l", exec, 0, 0, .symlink target⟩]⟩

theorem linkNode_counted_iff (exec : Bool) (target : String) :
    (linkNode exec target).Counted ↔ (strBytes target).length < 2 ^ 32 := by
  constructor
  · intro h
    exact (h.entry _ (mem_singleton.2 rfl)).2
  · intro h
    refine ⟨(by decide : 1 < 2 ^ 32), fun e he => ?_⟩
    obtain rfl := mem_singleton.1 he
    exact ⟨show (strBytes "l").length < 2 ^ 32 by decide, h⟩

section
open scoped Sample

theorem parseTreeNode_linkNode (exec : Bool) :
    parseTreeNode (nodeBytes (linkNode exec "t").entries) = .ok (linkNode exec "t") := by
  have hcounted := (linkNode_counted_iff exec "t").2 (by decide)
  refine parseTreeNode_ok_iff.2 ⟨by cases exec <;> decide, hcounted.entries, fun e he => ?_, rfl⟩
  refine ⟨?_, hcounted.entry e he⟩
  obtain rfl := mem_singleton.1 he
  exact ⟨show I64Range 0 by decide, show 0 < 2 ^ 32 by decide, trivial⟩

theorem serializeTreeNode_linkNode :
    parseTreeNode (nodeBytes (linkNode false "t").entries) = .ok (linkNode false "t") ∧
      serializeTreeNode (linkNode false "t") = .ok (nodeBytes (linkNode false "t").entries) :=
  ⟨parseTreeNode_linkNode false, (serializeTreeNode_of_parse_iff (parseTreeNode_linkNode false)).2
    (by simp [TreeNode.NoExecLinks, linkNode])⟩

theorem serializeTreeNode_execLink :
    ∃ b n, parseTreeNode b = .ok n ∧ serializeTreeNode n = .error .execFlagOnNonFile :=
  ⟨nodeBytes (linkNode true "t").entries, linkNode true "t", parseTreeNode_linkNode true, by decide⟩

theorem linkNode_built (target : String) : (linkNode false target).Built where
  entry := by
    intro e he
    obtain rfl := mem_singleton.1 he
    have hname : validateName "l" = .ok () := by decide
    have hvalid : validateEntry ⟨"l", false, 0, 0, .symlink target⟩ = .ok () := by
      simp [validateEntry, hname, validateTarget, Env.nfc]
    have hmade : symlinkEntry "l" 0 0 target = .ok ⟨"l", false, 0, 0, .symlink target⟩ := by
      unfold symlinkEntry expectValid
      rw [show Env.nfc "l" = "l" from rfl, show Env.nfc target = target from rfl, hvalid]
      rfl
    exact .symlink (show I64Range 0 by decide) hmade
  distinct := nodup_singleton _

theorem length_strBytes_replicate (k : Nat) :
    (strBytes (String.ofList (List.replicate k 'a'))).length = k := by
  change (List.replicate k 'a').utf8Encode.data.toList.length = k
  induction k with
  | zero => rfl
  | succ k ih =>
    have hone : [('a' : Char)].utf8Encode.data.toList.length = 1 := by decide
    rw [replicate_succ, utf8Encode_cons, ByteArray.data_append, Array.toList_append,
      length_append, ih, hone, Nat.add_comm]

theorem stored_samples :
    (serializeTreeNode (linkNode false "t") >>= parseTreeNode) = .ok (linkNode false "t").normalized ∧
      parseManifest (serializeManifest ⟨ByteArr.fill 16 0, zeroId, -1, 7, zeroId, zeroId⟩) =
        .ok ⟨ByteArr.fill 16 0, zeroId, -1, 7, zeroId, zeroId⟩ :=
  ⟨(stored_nodes_and_manifests.1 _ (linkNode_built "t")).2
    ((linkNode_counted_iff false "t").2 (by decide)),
    stored_nodes_and_manifests.2.2 _ (by decide) (by decide)⟩

/-- A link target of 4 GiB is written with the length zero. -/
theorem not_stored_longLink : (linkNode false (String.ofList (List.replicate (2 ^ 32) 'a'))).Built ∧
      (serializeTreeNode (linkNode false (String.ofList (List.replicate (2 ^ 32) 'a'))) >>= parseTreeNode) ≠
        .ok (linkNode false (String.ofList (List.replicate (2 ^ 32) 'a'))).normalized := by
  have hbuilt := linkNode_built (String.ofList (List.replicate (2 ^ 32) 'a'))
  refine ⟨hbuilt, fun h => ?_⟩
  have hcounted := (linkNode_counted_iff false _).1 (hbuilt.parse_serialize_iff.1 h)
  rw [length_strBytes_replicate] at hcounted
  exact lt_irrefl _ hcounted

end

end Ferry
