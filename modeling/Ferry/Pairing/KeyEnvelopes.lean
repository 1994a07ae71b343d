import Ferry.Packs.Sealing
import Ferry.Pairing.Share

/-!
# The file of key envelopes

`CONFIG_HEAD` holds one wrapped copy of the folder key for each device that may
open the folder.
-/

namespace Ferry

open Lib List

inductive ConfigHeadError where
  | format (e : FormatError)
  | notConfigHead (kind : UInt8)
  | badWrappedLen (len : Nat)
deriving DecidableEq

def byteText (b : UInt8) : String := "0x" ++ hex [b]

def FormatError.text : FormatError → String
  | .badMagic => "bad magic bytes"
  | .unknownKind kind => "unknown container kind " ++ byteText kind
  | .badVersion found expected =>
    "unsupported format_version " ++ toString found ++ " (expected " ++ toString expected ++ ")"
  | .truncated need have_ =>
    "truncated container: need " ++ toString need ++ " bytes, have " ++ toString have_
  | .reservedNonzero => "reserved field must be zero"

def ConfigHeadError.text : ConfigHeadError → String
  | .format e => e.text
  | .notConfigHead kind => "container kind " ++ byteText kind ++ " is not CONFIG_HEAD (0x04)"
  | .badWrappedLen len => "wrapped_len MUST be 80 in v1, got " ++ toString len

/-! ## Writing -/

def putWrappedKey (out : Bytes) (e : WrappedKeyEntry) : Bytes :=
  putBytes (putU32 (putBytes out e.devicePub.val) wrappedLen) e.wrapped.val

def writeConfigHead (folderId : ByteArr 16) (entries : List WrappedKeyEntry) : Bytes :=
  entries.foldl putWrappedKey
    (putU32 (putU32 (putBytes (writeHeader .configHead) folderId.val) 0) entries.length)

/-! ## Parsing -/

def readWrappedKey : Read ConfigHeadError WrappedKeyEntry := do
  let devicePub ← (Reader.array 32).mapError .format
  let len ← Reader.u32.mapError .format
  if len ≠ wrappedLen then throw (.badWrappedLen len)
  let wrapped ← (Reader.array 80).mapError .format
  return ⟨devicePub, wrapped⟩

def readConfigHead : Read ConfigHeadError ConfigHead := do
  let folderId ← (Reader.array 16).mapError .format
  let reserved ← Reader.u32.mapError .format
  if reserved ≠ 0 then throw (.format .reservedNonzero)
  let count ← Reader.u32.mapError .format
  let entries ← readN readWrappedKey count
  Reader.expectEnd.mapError .format
  return ⟨folderId, entries⟩

def parseConfigHead (bytes : Bytes) : Except ConfigHeadError ConfigHead := do
  let kind ← (parseHeader bytes).mapError .format
  if kind ≠ .configHead then throw (.notConfigHead kind.toU8)
  let (head, _) ← readConfigHead.run (Reader.new (bytes.drop headerLen))
  return head

/-! ## What the parser accepts -/

def WrappedKeyEntry.bytes (e : WrappedKeyEntry) : Bytes :=
  e.devicePub.val ++ leBytes 4 wrappedLen ++ e.wrapped.val

theorem WrappedKeyEntry.length_bytes (e : WrappedKeyEntry) : e.bytes.length = 116 := by
  simp [bytes, e.devicePub.property, e.wrapped.property]

theorem WrappedKeyEntry.length_flatMap_bytes (entries : List WrappedKeyEntry) :
    (entries.flatMap bytes).length = 116 * entries.length := by
  induction entries with
  | nil => rfl
  | cons e =>
    rw [flatMap_cons, length_append, e.length_bytes, length_cons]
    omega

def configBody (folderId : ByteArr 16) (entries : List WrappedKeyEntry) : Bytes :=
  folderId.val ++ leBytes 4 0 ++ leBytes 4 entries.length ++ entries.flatMap WrappedKeyEntry.bytes

theorem writeConfigHead_eq (folderId : ByteArr 16) (entries : List WrappedKeyEntry) :
    writeConfigHead folderId entries = writeHeader .configHead ++ configBody folderId entries := by
  have hentries : ∀ (entries : List WrappedKeyEntry) out,
      entries.foldl putWrappedKey out = out ++ entries.flatMap WrappedKeyEntry.bytes := by
    intro entries
    induction entries with
    | nil => simp
    | cons e entries ih =>
      intro out
      rw [foldl_cons, ih]
      simp [putWrappedKey, putU32, putBytes, WrappedKeyEntry.bytes]
  rw [writeConfigHead, hentries]
  simp [putU32, putBytes, configBody]

theorem readWrappedKey_decodes :
    Decodes readWrappedKey fun e w => True ∧ w = e.bytes := by
  apply Decodes.congr
  · apply Decodes.field (Reader.array_decodes 32)
    intro devicePub
    apply Decodes.field Reader.u32_decodes
    intro len
    apply Decodes.guard
    apply Decodes.field (Reader.array_decodes 80)
    intro wrapped
    exact .pure _
  rintro ⟨devicePub, wrapped⟩ u
  simp [-Subtype.exists, WrappedKeyEntry.bytes, wrappedLen]

theorem readConfigHead_decodes : DecodesAll readConfigHead fun head w =>
    head.entries.length < 2 ^ 32 ∧ w = configBody head.folderId head.entries := by
  apply DecodesAll.congr
  · apply DecodesAll.field (Reader.array_decodes 16)
    intro folderId
    apply DecodesAll.field Reader.u32_decodes
    intro reserved
    apply DecodesAll.guard
    apply DecodesAll.field Reader.u32_decodes
    intro count
    apply DecodesAll.bind (readN_decodes readWrappedKey_decodes count)
    intro entries
    exact Reader.ends_decodes _ _
  rintro ⟨folderId, entries⟩ u
  simp [-Subtype.exists, configBody]

/-- The header of a config file has one form. -/
theorem parseHeader_configHead (b : Bytes) :
    parseHeader b = .ok .configHead ↔ ∃ rest, b = writeHeader .configHead ++ rest := by
  constructor
  · intro h
    unfold parseHeader at h
    by_cases hshort : b.length < headerLen
    · rw [if_pos hshort] at h
      cases h
    rw [if_neg hshort] at h
    have hlong : 10 ≤ b.length := Nat.not_lt.1 hshort
    by_cases hmagic : b.take 5 ≠ magic
    · rw [if_pos hmagic] at h
      cases h
    rw [if_neg hmagic] at h
    rw [not_not] at hmagic
    obtain ⟨k, r, hkr⟩ := exists_cons_of_length_pos (l := b.drop 5) (by
      rw [length_drop]
      omega)
    have hr : b.drop 6 = r := by
      rw [show 6 = 5 + 1 from rfl, ← drop_drop, hkr]
      rfl
    have hlen : (r.take 4).length = 4 := by
      rw [← hr, length_take, length_drop]
      omega
    rw [hkr, hr] at h
    have hkind : k = 0x04 ∧ leNat (r.take 4) = formatVersion := by
      by_cases hversion : leNat (r.take 4) ≠ formatVersion
      · simp only [headD_cons] at h
        split_ifs at h
      simp only [headD_cons] at h
      split_ifs at h with _ _ _ hk
      · cases h
      · cases h
      · cases h
      · exact ⟨hk, not_not.1 hversion⟩
    have hversion : r.take 4 = leBytes 4 formatVersion := by
      have hle := leBytes_leNat (r.take 4)
      rw [hlen, hkind.2] at hle
      exact hle.symm
    refine ⟨r.drop 4, ?_⟩
    calc b = b.take 5 ++ b.drop 5 := (take_append_drop 5 b).symm
      _ = magic ++ 0x04 :: (r.take 4 ++ r.drop 4) := by
        rw [hmagic, hkr, hkind.1, take_append_drop]
      _ = writeHeader .configHead ++ r.drop 4 := by
        rw [hversion]
        rfl
  · rintro ⟨rest, rfl⟩
    rfl

/-- A config file that parses is the one that is written for its entries. -/
theorem parseConfigHead_eq_ok {b : Bytes} {head : ConfigHead} : parseConfigHead b = .ok head ↔
    head.entries.length < 2 ^ 32 ∧ b = writeConfigHead head.folderId head.entries := by
  have hbody : ∀ rest : Bytes, (do
      let (head, _) ← readConfigHead.run (Reader.new rest)
      return head : Except ConfigHeadError ConfigHead) = .ok head ↔
        head.entries.length < 2 ^ 32 ∧ rest = configBody head.folderId head.entries :=
    fun rest => readConfigHead_decodes.run_new
  rw [writeConfigHead_eq]
  constructor
  · intro h
    obtain ⟨kind, hkind, h⟩ := bind_eq_ok.1 h
    by_cases hhead : kind ≠ .configHead
    · rw [if_pos hhead] at h
      cases h
    rw [if_neg hhead] at h
    rw [not_not] at hhead
    subst hhead
    obtain ⟨rest, rfl⟩ := (parseHeader_configHead b).1 (mapError_eq_ok.1 hkind)
    obtain ⟨hcount, rfl⟩ := (hbody rest).1 h
    exact ⟨hcount, rfl⟩
  · rintro ⟨hcount, rfl⟩
    have hheader : parseHeader (writeHeader .configHead ++ configBody head.folderId head.entries) =
        .ok .configHead := (parseHeader_configHead _).2 ⟨_, rfl⟩
    have hdrop : (writeHeader .configHead ++ configBody head.folderId head.entries).drop headerLen =
        configBody head.folderId head.entries := by
      rw [← length_writeHeader .configHead, drop_left]
    rw [parseConfigHead, hheader]
    exact (hbody _).2 ⟨hcount, rfl⟩

theorem length_writeConfigHead (folderId : ByteArr 16) (entries : List WrappedKeyEntry) :
    (writeConfigHead folderId entries).length = 34 + 116 * entries.length := by
  rw [writeConfigHead_eq, length_append, length_writeHeader, configBody]
  simp only [length_append, leBytes_length, WrappedKeyEntry.length_flatMap_bytes, headerLen]
  omega

/-- What is written is read back unless there are too many entries for the count. -/
theorem parseConfigHead_write {folderId : ByteArr 16} {entries : List WrappedKeyEntry} {head : ConfigHead} :
    parseConfigHead (writeConfigHead folderId entries) = .ok head ↔
      entries.length < 2 ^ 32 ∧ head = ⟨folderId, entries⟩ := by
  constructor
  · intro h
    obtain ⟨hcount, hbytes⟩ := parseConfigHead_eq_ok.1 h
    have hlen : entries.length = head.entries.length := by
      have heq := congrArg List.length hbytes
      rw [length_writeConfigHead, length_writeConfigHead] at heq
      omega
    rw [← hlen] at hcount
    have hback : parseConfigHead (writeConfigHead folderId entries) = .ok ⟨folderId, entries⟩ :=
      parseConfigHead_eq_ok.2 ⟨hcount, rfl⟩
    rw [h] at hback
    exact ⟨hcount, Except.ok.inj hback⟩
  · rintro ⟨hcount, rfl⟩
    exact parseConfigHead_eq_ok.2 ⟨hcount, rfl⟩

end Ferry
