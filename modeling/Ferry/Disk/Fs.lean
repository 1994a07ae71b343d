import Ferry.Lib.PathMap
import Ferry.Store.Diff

/-! # The file system

A disk is a tree of inodes under absolute paths. System calls take the paths a
program writes down: every component but the last is walked, links in it are
followed with the kernel's budget of forty, and the call then acts on one
physical path. Times of directories lie beside the tree, since the kernel moves
them on its own whenever an entry comes or goes.
-/

namespace Ferry

open Lib Function

inductive Inode where
  | file (bytes : Bytes) (exec : Bool) (mtime : Int)
  | dir
  | symlink (target : String) (mtime : Int)
  deriving DecidableEq

def Inode.IsDir (i : Inode) : Prop := i = .dir

/-- The kind of entry `symlink_metadata` reports. -/
def Inode.kind : Inode → EntryKind
  | .file .. => .file
  | .dir => .dir
  | .symlink .. => .symlink

/-- `symlink(2)` takes no empty target and no target with a zero byte. -/
def LinkTarget (target : String) : Prop := target ≠ "" ∧ '\x00' ∉ target.toList

instance (target : String) : Decidable (LinkTarget target) := inferInstanceAs (Decidable (_ ∧ _))

/-- What can stand on a disk at all: the length of a file is a 64-bit number. -/
def Inode.Creatable : Inode → Prop
  | .file bytes _ _ => bytes.length < 2 ^ 64
  | .dir => True
  | .symlink target _ => LinkTarget target

instance Inode.decidableCreatable : ∀ i : Inode, Decidable i.Creatable
  | .file bytes _ _ => inferInstanceAs (Decidable (bytes.length < 2 ^ 64))
  | .dir => isTrue trivial
  | .symlink target _ => inferInstanceAs (Decidable (LinkTarget target))

inductive Errno where
  | notFound
  | notADirectory
  | isADirectory
  | alreadyExists
  | directoryNotEmpty
  | filesystemLoop
  | invalidInput
  | fileTooLarge
  deriving DecidableEq, Repr

/-- The disk: what every physical path holds, below the root directory `[]`. -/
structure Disk where
  inodes : AList (fun _ : CompPath => Inode)
  dirTime : CompPath → Int
  /-- The time the kernel stamps on a directory whose entries change. -/
  clock : Int
  tree : IsTree Inode.IsDir inodes.lookup
  creatable : ∀ p i, inodes.lookup p = some i → i.Creatable

namespace Disk

def get (d : Disk) (p : CompPath) : Option Inode := d.inodes.lookup p

def DirAt (d : Disk) (p : CompPath) : Prop := p = [] ∨ d.get p = some .dir

instance (d : Disk) (p : CompPath) : Decidable (d.DirAt p) := inferInstanceAs (Decidable (_ ∨ _))

def names (d : Disk) (p : CompPath) : List String := namesBelow p d.inodes

theorem isTree (d : Disk) : IsTree Inode.IsDir d.get := d.tree

variable {p : CompPath} {d : Disk}

theorem mem_names {c : String} : c ∈ d.names p ↔ d.get (p ++ [c]) ≠ none :=
  mem_namesBelow

theorem dirAt_iff :
    d.DirAt p ↔ p = [] ∨ ∃ i, d.get p = some i ∧ i.IsDir := by
  simp [DirAt, Inode.IsDir]

theorem none_below_of_names_nil {q : CompPath} (h : d.names p = []) (hq : Above p q) : d.get q = none := by
  by_contra hne
  obtain ⟨c, r, rfl⟩ := hq
  have hc : d.get (p ++ [c]) ≠ none := by
    cases r with
    | nil => exact hne
    | cons c' r =>
      obtain ⟨i, hi, -⟩ := d.isTree.parent (d := p ++ [c]) (by simp) ⟨c', r, by simp⟩ hne
      simp [hi]
  have := mem_names.2 hc
  rw [h] at this
  cases this

def stamp (d : Disk) (p : CompPath) : CompPath → Int := update d.dirTime p.dropLast d.clock

/-- An entry may stand at `p`: its parent is a directory, and nothing lies
below `p` unless the entry is a directory. -/
def CanPlace (d : Disk) (p : CompPath) (i : Inode) : Prop :=
  p ≠ [] ∧ d.DirAt p.dropLast ∧ (i = .dir ∨ d.names p = []) ∧ i.Creatable

instance (d : Disk) (p : CompPath) (i : Inode) : Decidable (d.CanPlace p i) :=
  inferInstanceAs (Decidable (_ ∧ _ ∧ _ ∧ _))

theorem CanPlace.isTree {i : Inode} (h : d.CanPlace p i) :
    IsTree Inode.IsDir (update d.get p (some i)) := by
  obtain ⟨hp, hparent, hbelow, -⟩ := h
  refine d.isTree.update hp ?_ ?_
  · intro e he habove
    rw [← List.dropLast_append_getLast hp] at habove
    exact d.isTree.dirs_above (dirAt_iff.1 hparent) he habove
  · exact hbelow.imp id fun hnames q hq => none_below_of_names_nil hnames hq

theorem lookup_insert_eq_update (m : AList (fun _ : CompPath => Inode)) (p : CompPath) (i : Inode) :
    (m.insert p i).lookup = update (fun q => m.lookup q) p (some i) := by
  funext q
  by_cases h : q = p
  · subst h
    simp
  · rw [update_of_ne h, AList.lookup_insert_ne h]

def place (d : Disk) (p : CompPath) (i : Inode) (h : d.CanPlace p i) : Disk where
  inodes := d.inodes.insert p i
  dirTime := d.stamp p
  clock := d.clock
  tree := by
    rw [lookup_insert_eq_update]
    exact h.isTree
  creatable := by
    intro q j hq
    by_cases hqp : q = p
    · subst hqp
      rw [AList.lookup_insert] at hq
      cases hq
      exact h.2.2.2
    · rw [AList.lookup_insert_ne hqp] at hq
      exact d.creatable q j hq

@[simp] theorem get_place {i : Inode} (h : d.CanPlace p i) :
    (d.place p i h).get = update d.get p (some i) :=
  lookup_insert_eq_update d.inodes p i

def removeTree (d : Disk) (p : CompPath) : Disk where
  inodes := eraseTree p d.inodes
  dirTime := d.stamp p
  clock := d.clock
  tree := by
    have hcut : (eraseTree p d.inodes).lookup = cut p d.inodes.lookup :=
      funext fun q => lookup_eraseTree p q d.inodes
    rw [hcut]
    exact d.tree.cut p
  creatable := by
    intro q j hq
    rw [lookup_eraseTree] at hq
    split at hq
    · cases hq
    · exact d.creatable q j hq

@[simp] theorem get_removeTree (d : Disk) (p : CompPath) : (d.removeTree p).get = cut p d.get :=
  funext fun q => lookup_eraseTree p q d.inodes

/-! ## Walking a path -/

def splitTarget (target : String) : CompPath :=
  (target.toList.splitOn '/').map String.ofList

/-- Walks `comps` from the directory `cur`; what remains after a link goes to
`follow`. -/
def walkWith (d : Disk) (follow : CompPath → CompPath → Except Errno CompPath) :
    CompPath → CompPath → Except Errno CompPath
  | cur, [] => .ok cur
  | cur, c :: rest =>
    if c = "" ∨ c = "." then walkWith d follow cur rest
    else if c = ".." then walkWith d follow cur.dropLast rest
    else
      match d.get (cur ++ [c]) with
      | none => .error .notFound
      | some .dir => walkWith d follow (cur ++ [c]) rest
      | some (.file ..) => if rest = [] then .ok (cur ++ [c]) else .error .notADirectory
      | some (.symlink target _) =>
        follow (if target.toList.head? = some '/' then [] else cur) (splitTarget target ++ rest)

def walk (d : Disk) : Nat → CompPath → CompPath → Except Errno CompPath
  | 0 => walkWith d fun _ _ => .error .filesystemLoop
  | budget + 1 => walkWith d (walk d budget)

/-- The physical path a written path ends at, its last link followed. -/
def follow (d : Disk) (p : CompPath) : Except Errno CompPath := d.walk 40 [] p

/-- The physical path a written path names, its last component not followed. -/
def locate (d : Disk) (p : CompPath) : Except Errno CompPath :=
  match p.getLast? with
  | none => .ok []
  | some c =>
    match d.follow p.dropLast with
    | .error e => .error e
    | .ok q => if d.DirAt q then .ok (q ++ [c]) else .error .notADirectory

/-! ## System calls -/

def symlinkMetadata (d : Disk) (p : CompPath) : Except Errno Inode :=
  match d.locate p with
  | .error e => .error e
  | .ok [] => .ok .dir
  | .ok q =>
    match d.get q with
    | none => .error .notFound
    | some i => .ok i

def createDir (d : Disk) (p : CompPath) : Except Errno Disk :=
  match d.locate p with
  | .error e => .error e
  | .ok q =>
    if h : q ≠ [] ∧ d.get q = none ∧ d.CanPlace q .dir then .ok (d.place q .dir h.2.2)
    else .error .alreadyExists

def removeFile (d : Disk) (p : CompPath) : Except Errno Disk :=
  match d.locate p with
  | .error e => .error e
  | .ok q =>
    match d.get q with
    | none => .error .notFound
    | some .dir => .error .isADirectory
    | some _ => .ok (d.removeTree q)

def removeDir (d : Disk) (p : CompPath) : Except Errno Disk :=
  match d.locate p with
  | .error e => .error e
  | .ok q =>
    match d.get q with
    | none => .error .notFound
    | some .dir => if d.names q = [] then .ok (d.removeTree q) else .error .directoryNotEmpty
    | some _ => .error .notADirectory

/-- `read_dir`: the names in a directory, a final link followed. -/
def readDir (d : Disk) (p : CompPath) : Except Errno (List String) :=
  match d.follow p with
  | .error e => .error e
  | .ok q => if d.DirAt q then .ok (d.names q) else .error .notADirectory

/-- `File::open` for reading, a final link followed: the bytes of a file. -/
def readFile (d : Disk) (p : CompPath) : Except Errno Bytes :=
  match d.follow p with
  | .error e => .error e
  | .ok q =>
    match d.get q with
    | some (.file bytes _ _) => .ok bytes
    | some .dir => .error .isADirectory
    | _ => .error .notFound

def readLink (d : Disk) (p : CompPath) : Except Errno String :=
  match d.locate p with
  | .error e => .error e
  | .ok q =>
    match d.get q with
    | some (.symlink target _) => .ok target
    | some _ => .error .invalidInput
    | none => .error .notFound

/-- `symlink`, as far as the target alone can make it fail. -/
def checkTarget (target : String) : Except Errno Unit :=
  if target = "" then .error .notFound
  else if '\x00' ∈ target.toList then .error .invalidInput
  else .ok ()

/-- `create_dir_all`; `fuel` bounds the missing parents. -/
def createDirAll : Nat → Disk → CompPath → Except Errno Disk
  | 0, _, _ => .error .notFound
  | fuel + 1, d, p =>
    match d.createDir p with
    | .ok d' => .ok d'
    | .error .notFound =>
      match createDirAll fuel d p.dropLast with
      | .error e => .error e
      | .ok d' => d'.createDir p
    | .error e =>
      match d.follow p with
      | .ok q => if d.DirAt q then .ok d else .error e
      | .error _ => .error e

/-- Where `File::create` opens its file: a final link is followed, also to a place with nothing
there yet. -/
def createPlace (d : Disk) : Nat → CompPath → Except Errno CompPath
  | 0, _ => .error .filesystemLoop
  | budget + 1, p =>
    match d.locate p with
    | .error e => .error e
    | .ok q =>
      match d.get q with
      | some (.symlink target _) =>
        if (splitTarget target).getLast? ∈ [some "", some ".", some ".."] then .error .isADirectory
        else d.createPlace budget
          ((if target.toList.head? = some '/' then [] else q.dropLast) ++ splitTarget target)
      | _ => .ok q

/-- What an open file holds once it has been emptied and written; a new one starts with the time
of the clock. -/
def putFile (d : Disk) (q : CompPath) (bytes : Bytes) (exec : Bool) (mtime : Option Int) :
    Except Errno Disk :=
  if h : d.get q ≠ some .dir ∧ d.CanPlace q (.file bytes exec (mtime.getD d.clock)) then
    .ok { d.place q _ h.2 with dirTime := if d.get q = none then d.stamp q else d.dirTime }
  else if bytes.length < 2 ^ 64 then .error .isADirectory
  else .error .fileTooLarge

/-- `rename` of a file or link: the entry itself moves and replaces what is not a directory. -/
def rename (d : Disk) (src dst : CompPath) : Except Errno Disk :=
  match d.locate src, d.locate dst with
  | .error e, _ => .error e
  | _, .error e => .error e
  | .ok p, .ok q =>
    match d.get p with
    | none => .error .notFound
    | some .dir => .error .isADirectory
    | some i =>
      if p = q then .ok d
      else if h : d.get q ≠ some .dir ∧ (d.removeTree p).CanPlace q i then
        .ok ((d.removeTree p).place q i h.2)
      else .error .isADirectory

/-- What writing a temporary entry `i` and renaming it onto `p` comes to, if its name was free. -/
def renameOnto (d : Disk) (p : CompPath) (i : Inode) : Except Errno Disk :=
  match d.locate p with
  | .error e => .error e
  | .ok q =>
    if h : d.get q ≠ some .dir ∧ d.CanPlace q i then .ok (d.place q i h.2)
    else .error .isADirectory

/-- A new entry `i` at `p`: it replaces nothing. -/
def linkNew (d : Disk) (p : CompPath) (i : Inode) : Except Errno Disk :=
  match d.locate p with
  | .error e => .error e
  | .ok q =>
    if h : d.get q = none ∧ d.CanPlace q i then .ok (d.place q i h.2) else .error .alreadyExists

/-- `hard_link`: a second name for a file or link. -/
def hardLink (d : Disk) (src dst : CompPath) : Except Errno Disk :=
  match d.locate src with
  | .error e => .error e
  | .ok p =>
    match d.get p with
    | none => .error .notFound
    | some .dir => .error .isADirectory
    | some i => d.linkNew dst i

/-- `set_times` through an opened file: a final link is followed. -/
def setTimes (d : Disk) (p : CompPath) (t : Int) : Except Errno Disk :=
  match d.follow p with
  | .error e => .error e
  | .ok q =>
    match d.get q with
    | some (.file bytes exec _) =>
      if h : d.CanPlace q (.file bytes exec t) then
        .ok { d.place q (.file bytes exec t) h with dirTime := d.dirTime }
      else .error .notFound
    | _ => if d.DirAt q then .ok { d with dirTime := update d.dirTime q t }
        else .error .notFound

/-- `utimensat` with `AT_SYMLINK_NOFOLLOW`. -/
def setTimesNoFollow (d : Disk) (p : CompPath) (t : Int) : Except Errno Disk :=
  match d.locate p with
  | .error e => .error e
  | .ok q =>
    match d.get q with
    | some (.symlink target _) =>
      if h : d.CanPlace q (.symlink target t) then
        .ok { d.place q (.symlink target t) h with dirTime := d.dirTime }
      else .error .notFound
    | some (.file bytes exec _) =>
      if h : d.CanPlace q (.file bytes exec t) then
        .ok { d.place q (.file bytes exec t) h with dirTime := d.dirTime }
      else .error .notFound
    | some .dir => .ok { d with dirTime := update d.dirTime q t }
    | none => .error .notFound

/-! ## Disks filled by hand -/

def empty : Disk where
  inodes := ∅
  dirTime _ := 0
  clock := 0
  tree := ⟨rfl, fun _ _ hp => absurd rfl hp⟩
  creatable := fun _ _ h => by cases h

def withEntry (d : Disk) (p : CompPath) (i : Inode) : Disk :=
  if h : d.CanPlace p i then d.place p i h else d

end Disk

end Ferry
