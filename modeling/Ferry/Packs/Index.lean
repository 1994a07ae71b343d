import Mathlib.Data.List.Destutter
import Ferry.Packs.Container

/-! # The index

An index file is a sealed table of blob locations, one row for each blob; in
memory the tables of all files are merged into one list of locations, where a
blob may have several.
-/

namespace Ferry

open Lib

inductive IndexError where
  | notAnIndex
  | corrupt (what : String)
  | unsorted
  | format (e : FormatError)
  | crypto (e : CryptoError)
  deriving DecidableEq

structure IndexEntry where
  kind : BlobKind
  id : BlobId
  pack : PackId
  plainOff : Nat
  plainLen : Nat
  deriving DecidableEq

/-- `(blob_kind, id)`, compared as the tuple of a byte and a byte array. -/
def entryKey (kindByte : UInt8) (id : BlobId) : List Nat := kindByte.toNat :: id.key

def IndexEntry.key (e : IndexEntry) : List Nat := entryKey e.kind.toU8 e.id

def FooterEntry.located (pack : PackId) (e : FooterEntry) : IndexEntry :=
  ⟨e.kind, e.id, pack, e.plainOff, e.plainLen⟩

/-! ## Tables -/

def sortEntries (entries : List IndexEntry) : List IndexEntry :=
  entries.insertionSort (fun a b => a.key ≤ b.key)

/-- One row for each blob: of several locations the first one stays. -/
def tableRows (entries : List IndexEntry) : List IndexEntry :=
  (sortEntries entries).destutter fun a b => ¬ (a.kind = b.kind ∧ a.id = b.id)

def putRow (out : Bytes) (e : IndexEntry) : Bytes :=
  putU64 (putU64 (putBytes (putBytes (putU8 out e.kind.toU8) e.id.val) e.pack.val) e.plainOff)
    e.plainLen

def tablePlain (entries : List IndexEntry) : Bytes :=
  (tableRows entries).foldl putRow (putU32 [] (tableRows entries).length)

def tableStep {α : Type} (m : Read FormatError α) : Read IndexError α :=
  m.mapError fun _ => .corrupt "truncated"

/-- The rows after the one with the key `prev`. -/
def readRows : Nat → Option (List Nat) → Read IndexError (List IndexEntry)
  | 0, _ => pure []
  | count + 1, prev => do
    let kb ← tableStep Reader.u8
    match BlobKind.fromU8 kb with
    | none => throw (.corrupt "unknown blob kind")
    | some kind =>
      let id ← tableStep (Reader.array 32)
      let pack ← tableStep (Reader.array 32)
      let plainOff ← tableStep Reader.u64
      let plainLen ← tableStep Reader.u64
      if prev.any (entryKey kb id ≤ ·) then throw .unsorted
      let rest ← readRows count (some (entryKey kb id))
      return ⟨kind, id, pack, plainOff, plainLen⟩ :: rest

def readTable : Read IndexError (List IndexEntry) := do
  let count ← tableStep Reader.u32
  let rows ← readRows count none
  Reader.expectEnd.mapError fun _ => .corrupt "trailing bytes"
  return rows

def tableParse (bytes : Bytes) : Except IndexError (List IndexEntry) := do
  let (rows, _) ← readTable.run (Reader.new bytes)
  return rows

/-! ## Containers -/

section
variable [PackEnv]

def sealIndexContainer (fmk : ByteArr 32) (salt : ByteArr 16) (entries : List IndexEntry) :
    Except CryptoError Bytes := do
  let header := writeHeader .index
  let tableCt ← PackEnv.cipherSeal (deriveIndexKey fmk salt) footerNonce (footerAad header .index)
    (tablePlain entries)
  return header ++ salt.val ++ tableCt ++ leBytes 4 tableCt.length

def openIndexContainer (file : Bytes) (fmk : ByteArr 32) : Except IndexError (List IndexEntry) := do
  if file.length < headerLen + saltLen + 4 then throw (.corrupt "too short")
  let kind ← (parseHeader file).mapError .format
  if kind ≠ .index then throw .notAnIndex
  let tlenPos := file.length - 4
  let tlen := leNat (file.drop tlenPos)
  if tlenPos < tlen then throw (.corrupt "negative table extent")
  let ctStart := tlenPos - tlen
  if ctStart < headerLen + saltLen then throw (.corrupt "negative table extent")
  let pt ← (PackEnv.cipherOpen (deriveIndexKey fmk (saltOf file)) footerNonce
    (footerAad (file.take headerLen) .index) ((file.drop ctStart).take tlen)).mapError .crypto
  tableParse pt

end

/-! ## Locations in memory -/

/-- `LocationTable`: the locations in the order they came in, each one once. -/
abbrev LocationTable := List IndexEntry

namespace LocationTable

/-- One round of `merge`. -/
def add (t : LocationTable) (e : IndexEntry) : LocationTable := if e ∈ t then t else t ++ [e]

def merge (t : LocationTable) (incoming : List IndexEntry) : LocationTable := incoming.foldl add t

def candidates (t : LocationTable) (kind : BlobKind) (id : BlobId) : List IndexEntry :=
  t.filter fun e => e.kind = kind ∧ e.id = id

def iterSorted (t : LocationTable) : List IndexEntry := (sortEntries t).destutter (· ≠ ·)

end LocationTable

end Ferry
