import AuroraLtfs.Lib.ParentChain
import AuroraLtfs.Raw.Extent

/-!
# The name tree in memory

Dentries live in a heap and refer to one another by their numbers: a directory
has its child list, each child points back to its parent.  A dentry carries a
reference count; who drops the last reference frees the structure.  Lookups take
references, and the caller of a lookup has to give them back.
-/

namespace AuroraLtfs.Fs

open AuroraLtfs.ParentChain

/-- The error codes the operations on the tree return. -/
inductive FsError
  | rdonlyVolume | noSpace | lessSpace | deviceUnready | revalFailed
  | ioschedInit | invalidPath | invalidSrcPath | nameTooLong | noDentry
  | dentryExists | wormEnabled | unlinkRoot | dirNotEmpty | isFile
  | isDirectory | renameLoop | noMemory | badArg | smallBuffer | largeXattr
  | xattrNamespace | noXattr | indexOnly
  | other (code : ℕ)
  deriving DecidableEq, Repr

/-- A name is its UTF-8 bytes. -/
abbrev Name := List UInt8

/-- The components of a normalized absolute path; the root has none. -/
abbrev Path := List Name

def ltfsFilenameMax : ℕ := 255

/-- `pathname_strlen`: bytes that start a character are counted. -/
def pathnameStrlen (name : Name) : ℕ :=
  name.countP fun byte => byte < 0x80 || 0xC0 ≤ byte

/-- `struct dentry`, with `freed` set once the structure has gone back to the
allocator.  A number that was never allocated is a freed dentry. -/
structure Dentry where
  name : Name := []
  parent : Option ℕ := none
  isdir : Bool := false
  isslink : Bool := false
  target : Name := []
  readonly : Bool := false
  isImmutable : Bool := false
  isAppendonly : Bool := false
  deleted : Bool := false
  outOfSync : Bool := false
  childList : List (Name × ℕ) := []
  extentlist : List Raw.Extent := []
  usedBlocks : ℕ := 0
  linkCount : ℤ := 0
  numhandles : ℤ := 0
  uid : ℕ := 0
  freed : Bool := true
  deriving DecidableEq, Repr

/-- The part of `struct ltfs_volume` and its index the tree operations use.  The
root is dentry `0`. -/
structure LtfsIndex where
  dentry : ℕ → Dentry
  next : ℕ
  uidNumber : ℕ
  fileCount : ℤ
  validBlocks : ℤ
  blocksize : ℕ

def root : ℕ := 0

namespace Dentry

/-- `HASH_FIND_STR`. -/
def findKey (d : Dentry) (name : Name) : Option ℕ :=
  (d.childList.find? fun entry => entry.1 = name).map Prod.snd

/-- `fs_find_key_from_hash_table`: without memory for the copy of the key nothing is
found, and nothing reported. -/
def findCopied (copied : Bool) (d : Dentry) (name : Name) : Option ℕ :=
  if copied then d.findKey name else none

/-- `HASH_DEL` of the entry found under `name`. -/
def delKey (name : Name) (d : Dentry) : Dentry :=
  { d with childList := d.childList.eraseP fun entry => entry.1 = name }

/-- `HASH_ADD_KEYPTR`: a new entry goes to the tail. -/
def addKey (name : Name) (child : ℕ) (d : Dentry) : Dentry :=
  { d with childList := d.childList ++ [(name, child)] }

def link (n : ℤ) (d : Dentry) : Dentry :=
  { d with linkCount := d.linkCount + n }

def handle (n : ℤ) (d : Dentry) : Dentry :=
  { d with numhandles := d.numhandles + n }

def isWorm (d : Dentry) : Bool := d.isImmutable || d.isAppendonly

end Dentry

namespace LtfsIndex

def modify (d : ℕ) (f : Dentry → Dentry) (s : LtfsIndex) : LtfsIndex :=
  { s with dentry := Function.update s.dentry d (f (s.dentry d)) }

theorem modify_dentry (d : ℕ) (f : Dentry → Dentry) (s : LtfsIndex)
    (x : ℕ) : (s.modify d f).dentry x = if x = d then f (s.dentry d) else s.dentry x := by
  exact Function.update_apply s.dentry d (f (s.dentry d)) x

@[simp]
theorem modify_dentry_self (d : ℕ) (f : Dentry → Dentry) (s : LtfsIndex) :
    (s.modify d f).dentry d = f (s.dentry d) := by
  rw [modify_dentry, if_pos rfl]

theorem modify_dentry_of_ne {d x : ℕ} (hne : x ≠ d) (f : Dentry → Dentry)
    (s : LtfsIndex) : (s.modify d f).dentry x = s.dentry x := by
  rw [modify_dentry, if_neg hne]

section Modify

variable (d : ℕ) (f : Dentry → Dentry) (s : LtfsIndex)

@[simp]
theorem modify_next :
    (s.modify d f).next = s.next := rfl

@[simp]
theorem modify_fileCount :
    (s.modify d f).fileCount = s.fileCount := rfl

@[simp]
theorem modify_validBlocks :
    (s.modify d f).validBlocks = s.validBlocks := rfl

@[simp]
theorem modify_blocksize :
    (s.modify d f).blocksize = s.blocksize := rfl

end Modify

/-- The parent pointers, as chains follow them. -/
def parent (s : LtfsIndex) (d : ℕ) : Option ℕ := (s.dentry d).parent

end LtfsIndex

/-- A child taken out of the table of a dentry that is being disposed of. -/
def Dentry.delChild (child : Name × ℕ) (d : Dentry) : Dentry :=
  { d with childList := d.childList.erase child }

def Dentry.orphan (d : Dentry) : Dentry := { d with parent := none }

def Dentry.free (d : Dentry) : Dentry := { d with freed := true }

/-- `_fs_dispose_dentry_contents`: the children go first, those without
outstanding references with all they hold, then the entry in the parent's table,
then the structure.  A dentry of the tree has the reference of the tree, so none that
still has a parent comes here, and the copy of its key is taken to succeed. -/
def fsDisposeDentry : ℕ → ℕ → LtfsIndex → LtfsIndex
  | 0, _, s => s
  | fuel + 1, d, s =>
    let s := (s.dentry d).childList.foldl (fun s child =>
      let s := (s.modify d (Dentry.delChild child)).modify child.2 Dentry.orphan
      if (s.dentry child.2).numhandles = 1 then
        fsDisposeDentry fuel child.2 (s.modify child.2 (Dentry.handle (-1)))
      else s) s
    let s := match (s.dentry d).parent with
      | none => s
      | some p =>
        (s.modify p (Dentry.delKey (s.dentry d).name)).modify d Dentry.orphan
    s.modify d Dentry.free

/-- `fs_release_dentry` and `fs_release_dentry_unlocked`, which differ in the
lock only. -/
def fsReleaseDentry (d : ℕ) (s : LtfsIndex) : LtfsIndex :=
  let s := s.modify d (Dentry.handle (-1))
  if (s.dentry d).numhandles ≠ 0 ∨ (s.dentry d).outOfSync then s
  else fsDisposeDentry (s.next + 1) d s

/-- `fs_directory_lookup`: a dentry that is found comes with a reference. -/
def fsDirectoryLookup (copied : Bool) (basedir : ℕ) (name : Name) (s : LtfsIndex) :
    Except FsError (Option ℕ) × LtfsIndex :=
  if ltfsFilenameMax < pathnameStrlen name then (.error .nameTooLong, s)
  else
    match (s.dentry basedir).findCopied copied name with
    | none => (.ok none, s)
    | some d => (.ok (some d), s.modify d (Dentry.handle 1))

/-- For which of the names of a path there is memory to copy the key, by the number
of names that follow. -/
abbrev Keys := ℕ → Bool

def allKeys : Keys := fun _ => true

/-- The loop of `fs_path_lookup`, at `parent` with a reference to it held.
`keep` says that the caller wants the last directory locked, and so keeps the
reference to it. -/
def pathWalk (keys : Keys) (keep : Bool) :
    List Name → ℕ → LtfsIndex → Except FsError ℕ × LtfsIndex
  | [], d, s => (.ok d, s)
  | name :: rest, parent, s =>
    match fsDirectoryLookup (keys rest.length) parent name s with
    | (.error e, s) => (.error e, fsReleaseDentry parent s)
    | (.ok none, s) => (.error .noDentry, fsReleaseDentry parent s)
    | (.ok (some d), s) =>
      let s := if rest = [] && keep then s
        else s.modify parent (Dentry.handle (-1))
      pathWalk keys keep rest d s

/-- `fs_path_lookup`. -/
def fsPathLookup (keys : Keys) (keep : Bool) (path : Path) (s : LtfsIndex) :
    Except FsError ℕ × LtfsIndex :=
  pathWalk keys keep path root (s.modify root (Dentry.handle 1))

/-- `fs_split_path`: everything before the last slash, and what follows it. -/
def fsSplitPath (path : Path) : Path × Name :=
  (path.dropLast, path.getLastD [])

/-- `fs_path_clean`: the walk of a lookup that clears dirty marks on its way.
The reference to the last dentry of the path is not given back. -/
def fsPathClean (keys : Keys) (path : Path) (s : LtfsIndex) : LtfsIndex :=
  (pathWalk keys false path root (s.modify root (Dentry.handle 1))).2

/-- The loop of `fs_is_predecessor`, for as many rounds as there are dentries. -/
def predecessorWalk (s : LtfsIndex) (d1 : ℕ) : ℕ → ℕ → Bool
  | 0, _ => false
  | fuel + 1, d =>
    d = d1 || match (s.dentry d).parent with
      | none => false
      | some p => predecessorWalk s d1 fuel p

/-- `fs_is_predecessor`. -/
def fsIsPredecessor (s : LtfsIndex) (d1 d2 : ℕ) : Bool :=
  predecessorWalk s d1 (s.next + 1) d2

/-- `fs_get_used_blocks`. -/
def fsGetUsedBlocks (blocksize : ℕ) (d : Dentry) : ℕ :=
  (d.extentlist.map fun e =>
    (e.byteoffset + e.bytecount) / blocksize +
      if (e.byteoffset + e.bytecount) % blocksize = 0 then 0 else 1).sum

/-- `fs_allocate_uid`. -/
def fsAllocateUid (s : LtfsIndex) : ℕ × LtfsIndex :=
  if s.uidNumber = 0 then (0, s)
  else
    let uid := (s.uidNumber + 1) % 2 ^ 64
    (uid, { s with uidNumber := uid })

/-- `ltfs_index_alloc`: an index with nothing but the root, which has an extra
link from its implicit parent. -/
def ltfsIndexAlloc (blocksize : ℕ) : LtfsIndex where
  dentry := Function.update (fun _ => {}) root
    { name := [0x2F], isdir := true, linkCount := 2, numhandles := 1, uid := 1,
      freed := false }
  next := 1
  uidNumber := 1
  fileCount := 0
  validBlocks := 0
  blocksize

end AuroraLtfs.Fs
