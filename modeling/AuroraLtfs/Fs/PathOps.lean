import AuroraLtfs.Fs.Ops

/-!
# Operations by path

Calls that name an object by its path and give back every reference to it before
they return: attributes, times, the read-only mark, symbolic links and extended
attributes.  What the layers below answer is an argument of the call.
-/

namespace AuroraLtfs.Fs

/-! ## Calls between an open and a close -/

/-- `struct dentry_attr`, without sizes and times. -/
structure DentryAttr where
  uid : ℕ
  nlink : ℤ
  readonly : Bool
  isdir : Bool
  isslink : Bool

/-- `ltfs_fsops_getattr`. -/
def ltfsFsopsGetattr (env : Env) (d : ℕ) (s : LtfsIndex) :
    Outcome FsError LtfsIndex DentryAttr :=
  match env.scheduler, env.blockLock with
  | some e, _ => (.error e, s)
  | none, some e => (.error e, s)
  | none, none =>
    let dentry := s.dentry d
    (.ok { uid := dentry.uid, nlink := dentry.linkCount, readonly := dentry.readonly,
           isdir := dentry.isdir, isslink := dentry.isslink }, s)

/-- What has to hold before times or marks are changed.  The volume lock is taken
anew. -/
def Env.admitChange (env : Env) : Except FsError Unit := do
  refuse env.writable
  refuse env.unitReady
  refuse env.blockLock

/-- `ltfs_fsops_utimens`; times are not part of the model. -/
def ltfsFsopsUtimens (env : Env) (s : LtfsIndex) : Outcome FsError LtfsIndex Unit :=
  (env.admitChange, s)

def Dentry.setReadonly (readonly : Bool) (d : Dentry) : Dentry := { d with readonly }

/-- `ltfs_fsops_set_readonly`. -/
def ltfsFsopsSetReadonly (env : Env) (d : ℕ) (readonly : Bool) (s : LtfsIndex) :
    Outcome FsError LtfsIndex Unit :=
  match env.admitChange with
  | .error e => (.error e, s)
  | .ok _ => (.ok (), s.modify d (Dentry.setReadonly readonly))

/-- `ltfs_fsops_getattr_path`. -/
def ltfsFsopsGetattrPath (env : Env) (path : Except FsError Path) (s : LtfsIndex) :
    Outcome FsError LtfsIndex DentryAttr :=
  match ltfsFsopsOpen env path false false {} s with
  | (.error e, s) => (.error e, s)
  | (.ok d, s) =>
    let (ret, s) := ltfsFsopsGetattr env d s
    (ret, (ltfsFsopsClose env d false false false {} s).2)

/-- `ltfs_fsops_utimens_path`. -/
def ltfsFsopsUtimensPath (env : Env) (path : Except FsError Path) (s : LtfsIndex) :
    Outcome FsError LtfsIndex Unit :=
  match ltfsFsopsOpen env path false false {} s with
  | (.error e, s) => (.error e, s)
  | (.ok d, s) =>
    let (ret, s) := ltfsFsopsUtimens env s
    (ret, (ltfsFsopsClose env d false false false {} s).2)

/-- `ltfs_fsops_set_readonly_path`. -/
def ltfsFsopsSetReadonlyPath (env : Env) (path : Except FsError Path)
    (readonly : Bool) (s : LtfsIndex) : Outcome FsError LtfsIndex Unit :=
  match ltfsFsopsOpen env path false false {} s with
  | (.error e, s) => (.error e, s)
  | (.ok d, s) =>
    -- The dentry is not closed on this exit.
    if (s.dentry d).isWorm then (.error .wormEnabled, s)
    else
      let (ret, s) := ltfsFsopsSetReadonly env d readonly s
      (ret, (ltfsFsopsClose env d false false false {} s).2)

/-- Where a link leads: the buffer of the caller, the mount point, and in live-link
mode the number the attribute of the link begins with, unless it is zero. -/
structure LinkBuffer where
  size : ℕ
  mountpoint : List UInt8 := []
  livelink : Option ℤ := none

/-- The text of the link does not fit. -/
def LinkBuffer.tooSmall (buf : LinkBuffer) (target : List UInt8) : Bool :=
  buf.size < target.length + 1

/-- The text with the mount point in place of its first bytes does not fit; the
sum is formed in `size_t`. -/
def LinkBuffer.tooSmallLive (buf : LinkBuffer) (target : List UInt8) : Bool :=
  match buf.livelink with
  | none => false
  | some num1 => buf.size <
      ((target.length : ℤ) - num1 + buf.mountpoint.length + 1) % 2 ^ 64

def LinkBuffer.text (buf : LinkBuffer) (target : List UInt8) : List UInt8 :=
  match buf.livelink with
  | none => target
  | some num1 => buf.mountpoint ++ target.drop num1.toNat

/-- `ltfs_fsops_readlink_path`.  Only links are asked for: the target of another dentry
is NULL, and `strlen` is called on it. -/
def ltfsFsopsReadlinkPath (env : Env) (path : Except FsError Path) (buf : LinkBuffer)
    (s : LtfsIndex) : Outcome FsError LtfsIndex (List UInt8) :=
  if env.iosched then
    match ltfsFsopsOpen env path false true {} s with
    | (.error e, s) => (.error e, s)
    | (.ok d, s) =>
      let target := (s.dentry d).target
      -- Neither exit closes the dentry.
      if buf.tooSmall target then (.error .smallBuffer, s)
      else if buf.tooSmallLive target then (.error .smallBuffer, s)
      else
        match ltfsFsopsClose env d false false true {} s with
        | (.error e, s) => (.error e, s)
        | (.ok _, s) => (.ok (buf.text target), s)
  else (.error .ioschedInit, s)

/-! ## Extended attributes -/

/-- The attributes that act on dentries, and the others by their name. -/
inductive XattrName
  | immutable | appendonly | dumpincj
  | named (name : List UInt8)
  deriving DecidableEq

/-- An entry of the incremental journal, with the keys that can be copied on the walk
to its parent. -/
structure JEntry where
  fullPath : Path
  hasDentry : Bool
  keys : Keys := allKeys

/-- The directories `incj_dump` walks to: the parent of every entry with a dentry,
unless the entry before had the same. -/
def incjParents : Option Path → List JEntry → List (Keys × Path)
  | _, [] => []
  | prev, ent :: rest =>
    if ent.hasDentry then
      let parent := (fsSplitPath ent.fullPath).1
      if prev = some parent then incjParents (some parent) rest
      else (ent.keys, parent) :: incjParents (some parent) rest
    else incjParents prev rest

/-- `incj_dump`, with the journal as `incj_sort` leaves it. -/
def incjDump (journal : List JEntry) (s : LtfsIndex) : LtfsIndex :=
  (incjParents none journal).foldl (fun s walk => fsPathClean walk.1 walk.2 s) s

/-- Look a dentry up, call, and give the reference back. -/
def withDentry (keys : Keys) (path : Path) (call : ℕ → LtfsIndex → LtfsIndex)
    (s : LtfsIndex) : Outcome FsError LtfsIndex ℕ :=
  match fsPathLookup keys false path s with
  | (.error e, s) => (.error e, s)
  | (.ok d, s) => (.ok d, fsReleaseDentry d (call d s))

/-- What a round of an attribute call meets: the volume lock, and the copies of keys in
its lookup. -/
structure XattrRound where
  lock : Option FsError := none
  keys : Keys := allKeys

/-- What a round ends in; `worm` is the mark that a change of a WORM attribute
leaves. -/
structure XattrReply extends XattrRound where
  ret : Option FsError := none
  worm : Bool := false

def Dentry.mark (name : XattrName) (worm : Bool) (d : Dentry) : Dentry :=
  match name with
  | .immutable => { d with isImmutable := worm }
  | .appendonly => { d with isAppendonly := worm }
  | _ => d

/-- Set or remove an attribute of `d`. -/
def changeXattr (name : XattrName) (reply : XattrReply) (d : ℕ) (s : LtfsIndex) :
    LtfsIndex :=
  match reply.ret with
  | some _ => s
  | none => s.modify d (Dentry.mark name reply.worm)

/-- `xattr_get`. -/
def xattrGet (name : XattrName) (journal : List JEntry) (d : ℕ) (s : LtfsIndex) :
    LtfsIndex :=
  if name = .dumpincj ∧ d = root then incjDump journal s else s

/-- One round: the volume lock, the lookup, the call, and its result. -/
def xattrRound (path : Path) (reply : XattrReply) (call : ℕ → LtfsIndex → LtfsIndex)
    (s : LtfsIndex) : Outcome FsError LtfsIndex ℕ :=
  match reply.lock with
  | some e => (.error e, s)
  | none =>
    match withDentry reply.keys path call s with
    | (.error e, s) => (.error e, s)
    | (.ok d, s) =>
      match reply.ret with
      | some e => (.error e, s)
      | none => (.ok d, s)

/-- The rounds of `ltfs_fsops_setxattr`: each entry of `again` is a round that is
repeated after a revalidation. -/
def setxattrRounds (path : Path) (name : XattrName) (last : XattrReply) :
    List XattrRound → LtfsIndex → Outcome FsError LtfsIndex Unit
  | [], s =>
    let (ret, s) := xattrRound path last (changeXattr name last) s
    (ret.map fun _ => (), s)
  | round :: again, s =>
    match xattrRound path { round with } (fun _ s => s) s with
    | (.error e, s) => (.error e, s)
    | (.ok _, s) => setxattrRounds path name last again s

/-- The rounds of `ltfs_fsops_getxattr`: a round that has to be repeated is not one
that dumps the journal, since that succeeds. -/
def getxattrRounds (path : Path) (name : XattrName) (journal : List JEntry)
    (last : XattrReply) :
    List XattrRound → LtfsIndex → Outcome FsError LtfsIndex Unit
  | [], s =>
    let (ret, s) := xattrRound path last (xattrGet name journal) s
    (ret.map fun _ => (), s)
  | round :: again, s =>
    match xattrRound path { round with } (xattrGet name journal) s with
    | (.error e, s) => (.error e, s)
    | (.ok d, s) =>
      if name = .dumpincj ∧ d = root then (.ok (), s)
      else getxattrRounds path name journal last again s

/-- Checks that precede a change of an attribute; `exempt` is set for the volume
lock state, which may be changed on a volume that cannot be written. -/
def Env.admitXattr (env : Env) (changes exempt : Bool) (path : Except FsError Path)
    (name : Except FsError XattrName) : Except FsError (Path × XattrName) := do
  refuse (if changes && !exempt then env.writable else none)
  refuse (if changes then env.unitReady else none)
  let path ← sourcePath path
  let name ← name
  return (path, name)

def ltfsMaxXattrSize : ℕ := 4096

/-- `ltfs_fsops_setxattr`. -/
def ltfsFsopsSetxattr (env : Env) (exempt : Bool) (path : Except FsError Path)
    (name : Except FsError XattrName) (size : ℕ) (again : List XattrRound)
    (last : XattrReply) (s : LtfsIndex) : Outcome FsError LtfsIndex Unit :=
  if ltfsMaxXattrSize < size then (.error .largeXattr, s)
  else
    match env.admitXattr true exempt path name with
    | .error e => (.error e, s)
    | .ok (path, name) => setxattrRounds path name last again s

/-- `ltfs_fsops_getxattr`. -/
def ltfsFsopsGetxattr (env : Env) (path : Except FsError Path)
    (name : Except FsError XattrName) (journal : List JEntry)
    (again : List XattrRound) (last : XattrReply) (s : LtfsIndex) :
    Outcome FsError LtfsIndex Unit :=
  match env.admitXattr false false path name with
  | .error e => (.error e, s)
  | .ok (path, name) => getxattrRounds path name journal last again s

/-- `ltfs_fsops_listxattr`. -/
def ltfsFsopsListxattr (path : Except FsError Path) (reply : XattrReply)
    (s : LtfsIndex) : Outcome FsError LtfsIndex Unit :=
  match sourcePath path with
  | .error e => (.error e, s)
  | .ok path =>
    let (ret, s) := xattrRound path reply (fun _ s => s) s
    (ret.map fun _ => (), s)

/-- `ltfs_fsops_removexattr`. -/
def ltfsFsopsRemovexattr (env : Env) (path : Except FsError Path)
    (name : Except FsError XattrName) (reply : XattrReply) (s : LtfsIndex) :
    Outcome FsError LtfsIndex Unit :=
  match env.admitXattr true false path name with
  | .error e => (.error e, s)
  | .ok (path, name) =>
    let (ret, s) := xattrRound path reply (changeXattr name reply) s
    (ret.map fun _ => (), s)

/-! ## All of them -/

/-- The operations by path that return no handle. -/
inductive PathOp
  | rename (source target : Except FsError Path) (mem : Memory)
  | unlink (path : Except FsError Path)
  | setReadonly (path : Except FsError Path) (readonly : Bool)
  | readlink (path : Except FsError Path) (buf : LinkBuffer)
  | utimens (path : Except FsError Path)
  | getattr (path : Except FsError Path)
  | setxattr (exempt : Bool) (path : Except FsError Path)
      (name : Except FsError XattrName) (size : ℕ) (again : List XattrRound)
      (last : XattrReply)
  | getxattr (path : Except FsError Path) (name : Except FsError XattrName)
      (journal : List JEntry) (again : List XattrRound) (last : XattrReply)
  | listxattr (path : Except FsError Path) (reply : XattrReply)
  | removexattr (path : Except FsError Path) (name : Except FsError XattrName)
      (reply : XattrReply)

def PathOp.exec (env : Env) (op : PathOp) (s : LtfsIndex) : LtfsIndex :=
  match op with
  | .rename source target mem => (ltfsFsopsRename env source target mem s).2
  | .unlink path => (ltfsFsopsUnlink env path s).2
  | .setReadonly path readonly => (ltfsFsopsSetReadonlyPath env path readonly s).2
  | .readlink path buf => (ltfsFsopsReadlinkPath env path buf s).2
  | .utimens path => (ltfsFsopsUtimensPath env path s).2
  | .getattr path => (ltfsFsopsGetattrPath env path s).2
  | .setxattr exempt path name size again last =>
    (ltfsFsopsSetxattr env exempt path name size again last s).2
  | .getxattr path name journal again last =>
    (ltfsFsopsGetxattr env path name journal again last s).2
  | .listxattr path reply => (ltfsFsopsListxattr path reply s).2
  | .removexattr path name reply => (ltfsFsopsRemovexattr env path name reply s).2

end AuroraLtfs.Fs
