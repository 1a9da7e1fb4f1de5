import AuroraLtfs.Fs.Dentry
import AuroraLtfs.Lib.Outcome

/-!
# Operations on the name tree

Create, unlink and rename, and opening, writing, truncating and closing a file,
as far as they act on dentries, their counters and the totals of the index.  What
the volume, the drive and the allocator answer is an argument of the call.
-/

namespace AuroraLtfs.Fs

/-- What a call learns from the volume, the drive and the scheduler before it
touches the tree. -/
structure Env where
  /-- `iosched_initialized` -/
  iosched : Bool := true
  /-- `ltfs_get_volume_readonly` -/
  volumeReadonly : Option FsError := none
  /-- `ltfs_test_unit_ready` -/
  unitReady : Option FsError := none
  /-- `ltfs_get_volume_lock`, on entry; to have no memory for the copy of the path in
  `fs_path_lookup` ends a call in the same way -/
  volumeLock : Option FsError := none
  /-- `ltfs_get_volume_lock` in `ltfs_update_valid_block_count` -/
  blockLock : Option FsError := none
  /-- the copies of keys in the lookup of a path, and of the second one of a rename -/
  keys : Keys := allKeys
  targetKeys : Keys := allKeys
  /-- the copy of the key of the entry that an unlink removes -/
  unlinkKey : Bool := true

/-- How the allocations of a call go.  An insertion into a hash table can fail
in three ways: the entry is not made and an error reported, it is not made and
nothing reported (no memory for the copy of the key), or it is made and an error
reported (no memory for more buckets).  The keys are the copies made to look up the
name of a create or the two names of a rename, and to find the entries a rename
removes. -/
structure Memory where
  objects : Bool := true
  linked : Bool := true
  failed : Bool := false
  nameKey : Bool := true
  targetKey : Bool := true
  removalKey : Bool := true
  replacedKey : Bool := true

def refuse : Option FsError → Except FsError Unit
  | none => .ok ()
  | some e => .error e

namespace Env

/-- Being short of space does not keep a file from being removed or renamed. -/
def writable (env : Env) : Option FsError :=
  match env.volumeReadonly with
  | some .lessSpace => none
  | ret => ret

def scheduler (env : Env) : Option FsError :=
  if env.iosched then none else some .ioschedInit

end Env

/-- The result of `pathname_format` for a path that names an existing object. -/
def sourcePath : Except FsError Path → Except FsError Path
  | .error .invalidPath => .error .invalidSrcPath
  | path => path

/-! ## Create -/

/-- The dentry `ltfs_fsops_create` sets up, with one reference for the tree and
one for the caller. -/
def newDentry (parent : ℕ) (name : Name) (isdir readonly : Bool) (uid : ℕ) :
    Dentry where
  name
  parent := some parent
  isdir
  readonly
  linkCount := if isdir then 2 else 1
  numhandles := 2
  uid
  freed := false

def LtfsIndex.allocate (dentry : Dentry) (s : LtfsIndex) : LtfsIndex :=
  { s with
    dentry := Function.update s.dentry s.next dentry
    next := s.next + 1 }

/-- `fs_add_key_to_hash_table`, as far as the table is concerned. -/
def fsAddKey (mem : Memory) (dir : ℕ) (name : Name) (d : ℕ) (s : LtfsIndex) : LtfsIndex :=
  if mem.linked then s.modify dir (Dentry.addKey name d) else s

def LtfsIndex.countFile (n : ℤ) (isdir : Bool) (s : LtfsIndex) : LtfsIndex :=
  if isdir then s else { s with fileCount := s.fileCount + n }

def linkDir (n : ℤ) (isdir : Bool) (dir : ℕ) (s : LtfsIndex) : LtfsIndex :=
  if isdir then s.modify dir (Dentry.link n) else s

def Dentry.appendonly (d : Dentry) : Dentry := { d with isAppendonly := true }

/-- The new dentry under `parent`: links, table, file count, and the mark of an
append-only directory, which is set through an extended attribute (`worm` is the
result of that call). -/
def createDentry (parent : ℕ) (name : Name) (isdir readonly : Bool)
    (mem : Memory) (worm : Option FsError) (uid : ℕ) (s : LtfsIndex) :
    Outcome FsError LtfsIndex ℕ :=
  let d := s.next
  let s := s.allocate (newDentry parent name isdir readonly uid)
  let s := fsAddKey mem parent name d (linkDir 1 isdir parent s)
  if mem.failed then (.error .noMemory, s)
  else
    let s := s.countFile 1 isdir
    if (s.dentry parent).isAppendonly then
      match worm with
      | none => (.ok d, s.modify d Dentry.appendonly)
      | some e => (.error e, fsReleaseDentry d s)
    else (.ok d, s)

/-- `ltfs_fsops_create` once the parent has been found. -/
def createIn (parent : ℕ) (name : Name) (isdir readonly overwrite : Bool)
    (mem : Memory) (worm : Option FsError) (s : LtfsIndex) : Outcome FsError LtfsIndex ℕ :=
  if (s.dentry parent).isImmutable ||
      (s.dentry parent).isAppendonly && overwrite then
    (.error .wormEnabled, s)
  else
    match fsDirectoryLookup mem.nameKey parent name s with
    | (.error e, s) => (.error e, s)
    | (.ok (some d), s) => (.error .dentryExists, fsReleaseDentry d s)
    | (.ok none, s) =>
      if mem.objects then
        let (uid, s) := fsAllocateUid s
        if uid = 0 then (.error .noMemory, s)
        else createDentry parent name isdir readonly mem worm uid s
      else (.error .noMemory, s)

def Env.admitCreate (env : Env) (path : Except FsError Path) :
    Except FsError Path := do
  refuse env.volumeReadonly
  refuse env.unitReady
  let path ← path
  refuse env.volumeLock
  return path

/-- `ltfs_fsops_create`. -/
def ltfsFsopsCreate (env : Env) (path : Except FsError Path)
    (isdir readonly overwrite : Bool) (mem : Memory) (worm : Option FsError)
    (s : LtfsIndex) : Outcome FsError LtfsIndex ℕ :=
  match env.admitCreate path with
  | .error e => (.error e, s)
  | .ok path =>
    match fsPathLookup env.keys false (fsSplitPath path).1 s with
    | (.error e, s) => (.error e, s)
    | (.ok parent, s) =>
      let (ret, s) := createIn parent (fsSplitPath path).2 isdir readonly
        overwrite mem worm s
      (ret, fsReleaseDentry parent s)

/-! ## Unlink -/

def Dentry.unlinked (d : Dentry) : Dentry :=
  { d with
    deleted := true
    parent := none
    linkCount := d.linkCount - 1
    numhandles := d.numhandles - 1 }

def LtfsIndex.addBlocks (n : ℤ) (s : LtfsIndex) : LtfsIndex :=
  { s with validBlocks := s.validBlocks + n }

/-- `ltfs_fsops_unlink` with references to the dentry and its parent. -/
def unlinkIn (copied : Bool) (parent d : ℕ) (s : LtfsIndex) :
    Outcome FsError LtfsIndex Unit :=
  if (s.dentry parent).isWorm then (.error .wormEnabled, s)
  else if (s.dentry d).isWorm then (.error .wormEnabled, s)
  else if (s.dentry d).isdir && (s.dentry d).childList ≠ [] then
    (.error .dirNotEmpty, s)
  else
    match (s.dentry parent).findCopied copied (s.dentry d).name with
    | none => (.ok (), s)
    | some _ =>
      let isdir := (s.dentry d).isdir
      let used := (s.dentry d).usedBlocks
      let s := s.modify parent (Dentry.delKey (s.dentry d).name)
      let s := linkDir (-1) isdir parent (s.modify d Dentry.unlinked)
      (.ok (), (s.countFile (-1) isdir).addBlocks (-used))

def Env.admitUnlink (env : Env) (path : Except FsError Path) :
    Except FsError Path := do
  refuse env.scheduler
  refuse env.writable
  refuse env.unitReady
  let path ← sourcePath path
  if path = [] then throw .unlinkRoot
  refuse env.volumeLock
  return path

/-- `ltfs_fsops_unlink`. -/
def ltfsFsopsUnlink (env : Env) (path : Except FsError Path) (s : LtfsIndex) :
    Outcome FsError LtfsIndex Unit :=
  match env.admitUnlink path with
  | .error e => (.error e, s)
  | .ok path =>
    match fsPathLookup env.keys true path s with
    | (.error e, s) => (.error e, s)
    | (.ok d, s) =>
      let parent := (s.dentry d).parent.getD root
      let (ret, s) := unlinkIn env.unlinkKey parent d s
      (ret, fsReleaseDentry d (fsReleaseDentry parent s))

/-! ## Rename -/

/-- Give back a reference to `d`.  Where `d` is also a directory whose own
reference is dropped later, only the count goes down. -/
def dropReference (dir d : ℕ) (s : LtfsIndex) : LtfsIndex :=
  if d = dir then s.modify d (Dentry.handle (-1)) else fsReleaseDentry d s

def dropTarget (dir : ℕ) : Option ℕ → LtfsIndex → LtfsIndex
  | none, s => s
  | some d, s => dropReference dir d s

/-- Look up the source and the target of a rename.  The directory further up is
locked, and so searched, first. -/
def renameLookup (fromdir todir : ℕ) (fromName toName : Name) (mem : Memory)
    (s : LtfsIndex) : Outcome FsError LtfsIndex (ℕ × Option ℕ) :=
  if todir = fromdir || fsIsPredecessor s todir fromdir then
    match fsDirectoryLookup mem.targetKey todir toName s with
    | (.error e, s) => (.error e, s)
    | (.ok todentry, s) =>
      match fsDirectoryLookup mem.nameKey fromdir fromName s with
      | (.ok (some fromdentry), s) => (.ok (fromdentry, todentry), s)
      | (_, s) => (.error .noDentry, dropTarget fromdir todentry s)
  else
    match fsDirectoryLookup mem.nameKey fromdir fromName s with
    | (.error e, s) => (.error e, s)
    | (.ok none, s) => (.error .noDentry, s)
    | (.ok (some fromdentry), s) =>
      match fsDirectoryLookup mem.targetKey todir toName s with
      | (.error e, s) => (.error e, dropReference todir fromdentry s)
      | (.ok todentry, s) => (.ok (fromdentry, todentry), s)

/-- A dentry may not move below itself, nor take the place of one of the
directories above it. -/
def renameLoops (fromdir todir fromdentry : ℕ) (todentry : Option ℕ)
    (s : LtfsIndex) : Option FsError :=
  if fromdentry = todir || fsIsPredecessor s fromdentry todir then
    some .renameLoop
  else
    match todentry with
    | none => none
    | some t =>
      if t = fromdir || fsIsPredecessor s t fromdir then
        some (if (s.dentry fromdentry).isdir then .dirNotEmpty else .isFile)
      else none

/-- Take the replaced dentry out of the target directory.  `none` stands for the
exit taken when its name is not found in the table, which comes too late: the dentry
has lost its parent and the reference of the tree, and keeps its entry. -/
def replaceTarget (copied : Bool) (todir t : ℕ) (s : LtfsIndex) : Option Unit × LtfsIndex :=
  let isdir := (s.dentry t).isdir
  let name := (s.dentry t).name
  let s := (linkDir (-1) isdir todir s).modify t Dentry.unlinked
  match (s.dentry todir).findCopied copied name with
  | none => (none, s)
  | some _ =>
    let s := s.modify todir (Dentry.delKey name)
    (some (), fsReleaseDentry t (s.countFile (-1) isdir))

def Dentry.moved (todir : ℕ) (name : Name) (d : Dentry) : Dentry :=
  { d with parent := some todir, name := name }

/-- Move the source dentry from one table to the other.  Without the copy of its key
nothing is moved, and no error returned. -/
def moveDentry (fromdir todir fromdentry : ℕ) (toName : Name) (mem : Memory)
    (s : LtfsIndex) : Outcome FsError LtfsIndex Unit :=
  match (s.dentry fromdir).findCopied mem.removalKey (s.dentry fromdentry).name with
  | none => (.ok (), s)
  | some _ =>
    let isdir := (s.dentry fromdentry).isdir
    let s := s.modify fromdir (Dentry.delKey (s.dentry fromdentry).name)
    let s := linkDir 1 isdir todir (linkDir (-1) isdir fromdir s)
    let s := s.modify fromdentry (Dentry.moved todir toName)
    let s := fsAddKey mem todir toName fromdentry s
    if mem.failed then (.error .noMemory, s) else (.ok (), s)

/-- `ltfs_fsops_rename` once source and target have been looked up. -/
def renameDentry (fromdir todir fromdentry : ℕ) (todentry : Option ℕ)
    (toName : Name) (mem : Memory) (s : LtfsIndex) : Outcome FsError LtfsIndex Unit :=
  match renameLoops fromdir todir fromdentry todentry s with
  | some e =>
    (.error e,
      dropTarget fromdir todentry (dropReference todir fromdentry s))
  | none =>
    -- The reference to the target is not given back on this exit.
    if (s.dentry fromdentry).isWorm then
      (.error .wormEnabled, fsReleaseDentry fromdentry s)
    else
      match todentry with
      | none => moveDentry fromdir todir fromdentry toName mem s
      | some t =>
        if (s.dentry t).isWorm then
          (.error .wormEnabled, fsReleaseDentry t (fsReleaseDentry fromdentry s))
        else if t = fromdentry then
          moveDentry fromdir todir fromdentry toName mem (fsReleaseDentry t s)
        else if (s.dentry t).isdir && (s.dentry t).childList ≠ [] then
          (.error .dirNotEmpty, fsReleaseDentry t (fsReleaseDentry fromdentry s))
        else
          match replaceTarget mem.replacedKey todir t s with
          -- The reference to the target is not given back on this exit either.
          | (none, s) => (.ok (), s)
          | (some _, s) => moveDentry fromdir todir fromdentry toName mem s

/-- The exit of a rename: the directories are released, and the source dentry if
the call succeeds. -/
def renameExit (fromdir todir fromdentry : ℕ)
    (ret : Outcome FsError LtfsIndex Unit) : Outcome FsError LtfsIndex Unit :=
  let s := fsReleaseDentry todir (fsReleaseDentry fromdir ret.2)
  match ret.1 with
  | .error e => (.error e, s)
  | .ok _ => (.ok (), fsReleaseDentry fromdentry s)

def Env.admitRename (env : Env) (source target : Except FsError Path)
    (mem : Memory) : Except FsError (Path × Path) := do
  refuse env.scheduler
  refuse env.writable
  refuse env.unitReady
  let source ← sourcePath source
  let target ← target
  refuse (if mem.objects then none else some .noMemory)
  refuse env.volumeLock
  return (source, target)

/-- `ltfs_fsops_rename` with references to the two directories. -/
def renameIn (fromdir todir : ℕ) (fromName toName : Name) (mem : Memory)
    (s : LtfsIndex) : Outcome FsError LtfsIndex Unit :=
  if (s.dentry fromdir).isWorm || (s.dentry todir).isWorm then
    (.error .wormEnabled, fsReleaseDentry todir (fsReleaseDentry fromdir s))
  else
    match renameLookup fromdir todir fromName toName mem s with
    | (.error e, s) => (.error e, fsReleaseDentry todir (fsReleaseDentry fromdir s))
    | (.ok (fromdentry, todentry), s) =>
      renameExit fromdir todir fromdentry
        (renameDentry fromdir todir fromdentry todentry toName mem s)

/-- `ltfs_fsops_rename`. -/
def ltfsFsopsRename (env : Env) (source target : Except FsError Path)
    (mem : Memory) (s : LtfsIndex) : Outcome FsError LtfsIndex Unit :=
  match env.admitRename source target mem with
  | .error e => (.error e, s)
  | .ok (source, target) =>
    match fsPathLookup env.keys false (fsSplitPath source).1 s with
    | (.error e, s) => (.error e, s)
    | (.ok fromdir, s) =>
      match fsPathLookup env.targetKeys false (fsSplitPath target).1 s with
      | (.error e, s) => (.error e, fsReleaseDentry fromdir s)
      | (.ok todir, s) =>
        renameIn fromdir todir (fsSplitPath source).2 (fsSplitPath target).2 mem s

/-! ## Open, write, truncate, close -/

def Dentry.recount (used : ℕ) (d : Dentry) : Dentry := { d with usedBlocks := used }

/-- `ltfs_fsops_update_used_blocks`. -/
def ltfsFsopsUpdateUsedBlocks (env : Env) (d : ℕ) (s : LtfsIndex) :
    Outcome FsError LtfsIndex Unit :=
  let used := fsGetUsedBlocks s.blocksize (s.dentry d)
  let diff : ℤ := used - (s.dentry d).usedBlocks
  let s := s.modify d (Dentry.recount used)
  match env.blockLock with
  | some e => (.error e, s)
  | none => (.ok (), s.addBlocks diff)

/-- What the scheduler makes of a call: its result, and the extent list it leaves
in the dentry. -/
structure SchedReply where
  ret : Option FsError := none
  extentlist : List Raw.Extent := []

def Dentry.extents (extentlist : List Raw.Extent) (d : Dentry) : Dentry :=
  { d with extentlist }

/-- `ltfs_fsops_close`.  The scheduler writes out what it has queued if the
handle is `dirty`; directories and handles opened without it go to the layer
below directly. -/
def ltfsFsopsClose (env : Env) (d : ℕ) (dirty openWrite useIosched : Bool)
    (sched : SchedReply) (s : LtfsIndex) : Outcome FsError LtfsIndex Unit :=
  if env.iosched then
    let (retU, s) := if openWrite then ltfsFsopsUpdateUsedBlocks env d s
      else (.ok (), s)
    let queued := useIosched && !(s.dentry d).isdir
    let s := if queued && dirty then
        s.modify d (Dentry.extents sched.extentlist)
      else s
    let s := fsReleaseDentry d s
    match if queued then sched.ret else none with
    | some e => (.error e, s)
    | none => (retU, s)
  else (.error .ioschedInit, s)

def Env.admitOpen (env : Env) (path : Except FsError Path) (openWrite : Bool) :
    Except FsError Path := do
  refuse env.scheduler
  refuse (if openWrite then env.writable else none)
  let path ← sourcePath path
  refuse env.volumeLock
  return path

/-- `ltfs_fsops_open`. -/
def ltfsFsopsOpen (env : Env) (path : Except FsError Path)
    (openWrite useIosched : Bool) (sched : SchedReply) (s : LtfsIndex) :
    Outcome FsError LtfsIndex ℕ :=
  match env.admitOpen path openWrite with
  | .error e => (.error e, s)
  | .ok path =>
    match fsPathLookup env.keys false path s with
    | (.error e, s) => (.error e, s)
    | (.ok d, s) =>
      if openWrite && (s.dentry d).isslink then
        (.error .rdonlyVolume,
          (ltfsFsopsClose env d false openWrite useIosched sched s).2)
      else (.ok d, s)

/-- `ltfs_fsops_write`, at the end of the file or elsewhere, and likewise a flush
or the writer thread at work: what has been written reaches the extent list of
the dentry at some time. -/
def ltfsFsopsWrite (env : Env) (d : ℕ) (append : Bool) (sched : SchedReply)
    (s : LtfsIndex) : Outcome FsError LtfsIndex Unit :=
  if env.iosched then
    if (s.dentry d).isdir then (.error .isDirectory, s)
    else if (s.dentry d).isImmutable || (s.dentry d).isAppendonly && !append then
      (.error .wormEnabled, s)
    else
      let s := s.modify d (Dentry.extents sched.extentlist)
      match sched.ret with
      | some e => (.error e, s)
      | none => (.ok (), s)
  else (.error .ioschedInit, s)

/-- `ltfs_fsops_truncate`; the result of the scheduler is overwritten by that of
the block count. -/
def ltfsFsopsTruncate (env : Env) (d : ℕ) (length : ℤ) (sched : SchedReply)
    (s : LtfsIndex) : Outcome FsError LtfsIndex Unit :=
  if env.iosched then
    if length < 0 then (.error .badArg, s)
    else if (s.dentry d).isdir then (.error .isDirectory, s)
    else
      match env.volumeReadonly with
      | some e => (.error e, s)
      | none =>
        if (s.dentry d).isWorm then (.error .wormEnabled, s)
        else
          match env.unitReady with
          | some e => (.error e, s)
          | none =>
            ltfsFsopsUpdateUsedBlocks env d
              (s.modify d (Dentry.extents sched.extentlist))
  else (.error .ioschedInit, s)

/-- `ltfs_fsops_truncate_path`. -/
def ltfsFsopsTruncatePath (env : Env) (path : Except FsError Path) (length : ℤ)
    (sched : SchedReply) (s : LtfsIndex) : Outcome FsError LtfsIndex Unit :=
  match ltfsFsopsOpen env path true false sched s with
  | (.error e, s) => (.error e, s)
  | (.ok d, s) =>
    let (ret, s) := ltfsFsopsTruncate env d length sched s
    (ret, (ltfsFsopsClose env d false true false sched s).2)

end AuroraLtfs.Fs
