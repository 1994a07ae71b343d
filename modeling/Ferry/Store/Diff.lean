import Mathlib.Data.List.Sort
import Ferry.Store.Blobs

/-! # The tree diff

`diffRoots` walks two hash-addressed trees together, skips subtrees with equal
ids and sorts what it found into five buckets. The recursion of the source ends
because a tree is finite; here it is bounded by `fuel`, one unit for each level.
-/

namespace Ferry

inductive DiffError where
  | store (e : StoreError)
  | tree (e : ManifestError)
  | encoding (what : String)
  /-- The recursion went deeper than the fuel; stands for a stack overflow. -/
  | depth
  deriving DecidableEq

inductive EntryKind where
  | file
  | dir
  | symlink
  deriving DecidableEq, Repr

def EntryKind.fromPayload : EntryPayload → EntryKind
  | .file .. => .file
  | .dir .. => .dir
  | .symlink .. => .symlink

structure EntryState where
  kind : EntryKind
  exec : Bool
  mtimeSec : Int
  mtimeNsec : Nat
  chunks : Chunks
  target : Option String
  deriving DecidableEq

def EntryState.of (e : TreeEntry) : EntryState where
  kind := .fromPayload e.payload
  exec := e.exec
  mtimeSec := e.mtimeSec
  mtimeNsec := e.mtimeNsec
  chunks := match e.payload with
    | .file _ chunks => chunks
    | _ => []
  target := match e.payload with
    | .symlink target => some target
    | _ => none

abbrev CompPath := List String

def joinPath (parts : CompPath) : String := "/".intercalate parts

/-- One path with one state: an element of `added` or `removed`. -/
structure Listed where
  path : CompPath
  state : EntryState
  deriving DecidableEq

structure Modified where
  path : CompPath
  before : EntryState
  after : EntryState
  deriving DecidableEq

structure ChangeSet where
  added : List Listed := []
  removed : List Listed := []
  contentModified : List Modified := []
  metadataModified : List Modified := []
  typeChanged : List Modified := []
  deriving DecidableEq

def ChangeSet.isEmpty (cs : ChangeSet) : Bool :=
  cs.added.isEmpty && cs.removed.isEmpty && cs.contentModified.isEmpty &&
    cs.metadataModified.isEmpty && cs.typeChanged.isEmpty

/-- `sort_by(|a, b| a.path.cmp(&b.path))`: a stable sort by path. -/
def sortByPath {α : Type} (path : α → CompPath) (l : List α) : List α :=
  l.insertionSort (fun a b => path a ≤ path b)

def ChangeSet.sortAll (cs : ChangeSet) : ChangeSet where
  added := sortByPath (·.path) cs.added
  removed := sortByPath (·.path) cs.removed
  contentModified := sortByPath (·.path) cs.contentModified
  metadataModified := sortByPath (·.path) cs.metadataModified
  typeChanged := sortByPath (·.path) cs.typeChanged

section
variable [Env]

def loadNode (st : Store) (id : BlobId) : Except DiffError TreeNode :=
  match st.get .treeNode id with
  | .error e => .error (.store e)
  | .ok bytes =>
    match parseTreeNode bytes with
    | .error e => .error (.tree e)
    | .ok node => .ok node

def childPath (pre : CompPath) (name : String) : CompPath := pre ++ [name]

/-- The recursive call `diff_tree_ids(store, older, newer, path, out)`. -/
abbrev DiffCall := Option BlobId → Option BlobId → CompPath → ChangeSet → Except DiffError ChangeSet

def flattenAddedEntry (call : DiffCall) (e : TreeEntry) (pre : CompPath) (out : ChangeSet) :
    Except DiffError ChangeSet :=
  let path := childPath pre e.name
  let out := { out with added := out.added ++ [⟨path, .of e⟩] }
  match e.payload with
  | .dir childTreeId => call none (some childTreeId) path out
  | _ => .ok out

def flattenRemovedEntry (call : DiffCall) (e : TreeEntry) (pre : CompPath) (out : ChangeSet) :
    Except DiffError ChangeSet :=
  let path := childPath pre e.name
  let out := { out with removed := out.removed ++ [⟨path, .of e⟩] }
  match e.payload with
  | .dir childTreeId => call (some childTreeId) none path out
  | _ => .ok out

def compareEntry (call : DiffCall) (ea eb : TreeEntry) (pre : CompPath) (out : ChangeSet) :
    Except DiffError ChangeSet :=
  let path := childPath pre ea.name
  let m : Modified := ⟨path, .of ea, .of eb⟩
  match ea.payload, eb.payload with
  | .dir a, .dir b => if a ≠ b then call (some a) (some b) path out else .ok out
  | .file _ ca, .file _ cb =>
    if ca ≠ cb then .ok { out with contentModified := out.contentModified ++ [m] }
    else if ea.exec ≠ eb.exec ∨ ea.mtimeSec ≠ eb.mtimeSec ∨ ea.mtimeNsec ≠ eb.mtimeNsec then
      .ok { out with metadataModified := out.metadataModified ++ [m] }
    else .ok out
  | .symlink a, .symlink b =>
    if a ≠ b then .ok { out with contentModified := out.contentModified ++ [m] }
    else if ea.mtimeSec ≠ eb.mtimeSec ∨ ea.mtimeNsec ≠ eb.mtimeNsec then
      .ok { out with metadataModified := out.metadataModified ++ [m] }
    else .ok out
  -- A type change lists the path itself and nothing below it.
  | _, _ => .ok { out with typeChanged := out.typeChanged ++ [m] }

/-- The `while i < a.len() || j < b.len()` loop over the rests of both
listings. Each round consumes an entry, so `a.len() + b.len()` rounds suffice. -/
def diffNodes (call : DiffCall) (pre : CompPath) :
    Nat → List TreeEntry → List TreeEntry → ChangeSet → Except DiffError ChangeSet
  | 0, _, _, out => .ok out
  | _ + 1, [], [], out => .ok out
  | rounds + 1, ea :: as, [], out => do
    let out ← flattenRemovedEntry call ea pre out
    diffNodes call pre rounds as [] out
  | rounds + 1, [], eb :: bs, out => do
    let out ← flattenAddedEntry call eb pre out
    diffNodes call pre rounds [] bs out
  | rounds + 1, ea :: as, eb :: bs, out =>
    if ea.name < eb.name then do
      let out ← flattenRemovedEntry call ea pre out
      diffNodes call pre rounds as (eb :: bs) out
    else if eb.name < ea.name then do
      let out ← flattenAddedEntry call eb pre out
      diffNodes call pre rounds (ea :: as) bs out
    else do
      let out ← compareEntry call ea eb pre out
      diffNodes call pre rounds as bs out

/-- The entries of an optional node: `older.map_or(&[], |n| n.entries)`. -/
def loadEntries (st : Store) : Option BlobId → Except DiffError (List TreeEntry)
  | none => .ok []
  | some id => do
    let node ← loadNode st id
    return node.entries

def diffTreeIds (st : Store) : Nat → DiffCall
  | 0, _, _, _, _ => .error .depth
  | fuel + 1, older, newer, pre, out =>
    if older = newer then .ok out
    else do
      let ta ← loadEntries st older
      let tb ← loadEntries st newer
      diffNodes (diffTreeIds st fuel) pre (ta.length + tb.length) ta tb out

def diffRoots (st : Store) (fuel : Nat) (olderRoot newerRoot : BlobId) :
    Except DiffError ChangeSet := do
  let cs ← diffTreeIds st fuel (some olderRoot) (some newerRoot) [] {}
  return cs.sortAll

end

end Ferry
