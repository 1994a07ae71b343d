import Ferry.Disk.Fs
import Ferry.Platform

/-! # Spelling of names on disk

A stored name is in normalization form C; the disk may spell it otherwise.
`resolve` goes down a stored path and, where the stored spelling is not there,
takes the live name with the same normal form, remembering one listing for each
directory it had to look into.
-/

namespace Ferry

open Function

inductive DivergeReason where
  | expectedAbsent
  | expectedPresent
  | kindMismatch (expected found : EntryKind)
  | execMismatch (expected found : Bool)
  | sizeMismatch (expected found : Nat)
  | targetMismatch (expected found : String)
  | contentMismatch
  | notInBase
  deriving DecidableEq, Repr

structure Divergence where
  path : CompPath
  reason : DivergeReason
  deriving DecidableEq, Repr

inductive MaterializeError where
  | store (e : StoreError)
  | manifest (e : ManifestError)
  | badComponent (component : String)
  | io (path : CompPath) (source : Errno)
  | chunkCorrupt (path : String) (index : Nat) (expected found : String)
  | tempWriteVerifyFailed (path : String) (index : Nat) (expected found : String)
  | sizeMismatch (path : String) (declared actual : Nat)
  | diverged (paths : List Divergence)
  | reservedName (path component : String)
  | symlinkRefused (path target : String) (reason : LinkRefusal)
  | ambiguousDiskSpelling (parent first second : String)
  /-- The recursion went deeper than the fuel; stands for a stack overflow. -/
  | depth
  /-- An `unreachable!` was reached. -/
  | unreachable (what : String)
  deriving DecidableEq

/-- `to_string_lossy` of an absolute path. -/
def pathString (p : CompPath) : String := "/" ++ joinPath p

/-- Live names of one directory by normal form; an absent key is `[]`. -/
abbrev DirFold := String → List String

/-- `NfcFoldCache::dirs`: the listings remembered so far, by written path. -/
abbrev FoldCache := CompPath → Option DirFold

inductive AmbiguityPolicy where
  | refuse
  | pickSmallest
  deriving DecidableEq, Repr

section
variable [Env]

/-- A directory that cannot be read folds to nothing. -/
def scanDirFold (d : Disk) (dir : CompPath) : DirFold := fun key =>
  match d.readDir dir with
  | .error _ => []
  | .ok names => names.filter fun name => Env.nfc name = key

def pick (fold : DirFold) (dir : CompPath) (wantNfc : String) (policy : AmbiguityPolicy) :
    Except MaterializeError (Option String) :=
  match fold wantNfc with
  | [] => .ok none
  | [only] => .ok (some only)
  | many =>
    match many.insertionSort (· ≤ ·), policy with
    | first :: second :: _, .refuse =>
      .error (.ambiguousDiskSpelling (pathString dir) first second)
    | first :: _, .pickSmallest => .ok (some first)
    | _, _ => .ok none

/-- The remembered listing of `dir`, or a fresh one that is then remembered. -/
def FoldCache.listing (cache : FoldCache) (d : Disk) (dir : CompPath) : DirFold × FoldCache :=
  match cache dir with
  | some fold => (fold, cache)
  | none => (scanDirFold d dir, update cache dir (some (scanDirFold d dir)))

def matchLive (policy : AmbiguityPolicy) (d : Disk) (cache : FoldCache) (dir : CompPath)
    (want : String) : Except MaterializeError (Option String × FoldCache) :=
  let (fold, cache) := cache.listing d dir
  match pick fold dir (Env.nfc want) policy with
  | .error e => .error e
  | .ok live => .ok (live, cache)

/-- The loop of `resolve`, from the path `cur` reached so far. -/
def resolveFrom (policy : AmbiguityPolicy) (d : Disk) :
    CompPath → CompPath → FoldCache → Except MaterializeError (CompPath × FoldCache)
  | cur, [], cache => .ok (cur, cache)
  | cur, comp :: rest, cache =>
    match d.symlinkMetadata (cur ++ [comp]) with
    | .ok _ => resolveFrom policy d (cur ++ [comp]) rest cache
    | .error _ =>
      match matchLive policy d cache cur comp with
      | .error e => .error e
      | .ok (some live, cache) => resolveFrom policy d (cur ++ [live]) rest cache
      | .ok (none, cache) => resolveFrom policy d (cur ++ [comp]) rest cache

/-- `note_created_at`: the name joins its bucket; a directory not remembered
so far gets a listing with this name alone. -/
def FoldCache.noteCreatedAt (cache : FoldCache) (entryAbs : CompPath) : FoldCache :=
  match entryAbs.getLast? with
  | none => cache
  | some name =>
    let parent := entryAbs.dropLast
    let fold := (cache parent).getD fun _ => []
    let bucket := fold (Env.nfc name)
    let bucket := if name ∈ bucket then bucket else bucket ++ [name]
    update cache parent (some (update fold (Env.nfc name) bucket))

/-- `note_removed`: a deep removal forgets every listing at or below the entry. -/
def FoldCache.noteRemoved (cache : FoldCache) (entryAbs : CompPath) (deep : Bool) : FoldCache :=
  match entryAbs.getLast? with
  | none => cache
  | some name =>
    let parent := entryAbs.dropLast
    let cache : FoldCache := fun dir => if deep ∧ entryAbs <+: dir then none else cache dir
    match cache parent with
    | none => cache
    | some fold =>
      let bucket := (fold (Env.nfc name)).filter (· ≠ name)
      update cache parent (some (update fold (Env.nfc name) bucket))

end

end Ferry
