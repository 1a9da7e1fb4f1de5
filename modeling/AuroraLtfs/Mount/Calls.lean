import AuroraLtfs.Mount.State

/-!
# The calls of a mounted file system

Every call that a FUSE request, the sync thread, the scheduler's writer or the
unmount makes of libltfs, on the volume as a whole.  Tree, scheduler, raw access
and index writer are those of the layers below; what is added here is how they
are reached, and what marks the index dirty on the way.
-/

namespace AuroraLtfs.Mount

open AuroraLtfs.Tape
open AuroraLtfs.Index
open AuroraLtfs.Raw
open AuroraLtfs.Fs (LtfsIndex FsError Env Path Memory PathOp)
open AuroraLtfs.Sched (RequestState)
open AuroraLtfs.Lock (isPwe requestedLock)

variable {β : Type*}

/-- `pending` is a call that still waits for the medium to become valid, and `crash`
one that follows the NULL in `vol->t_attr`. -/
inductive CallError where
  | fs (error : FsError)
  | tape (error : TapeError)
  | pending
  | crash
  deriving DecidableEq, Repr

/-- A call on the mounted volume. -/
abbrev VolCall (β α : Type*) := Outcome CallError (State β) α

/-- `-LTFS_NULL_ARG`: a mount from an index file has no device. -/
def nullArg : TapeError := .other 1000

/-- The result of a call of the layer that takes the volume lock. -/
def lockResult {α : Type*} : Option (Except TapeError α) → Except CallError Unit
  | none => .error .pending
  | some (.error e) => .error (.tape e)
  | some (.ok _) => .ok ()

def tapeResult {α : Type*} (r : Except TapeError α) : Except CallError Unit :=
  (r.map fun _ => ()).mapError .tape

/-! ## Opening and creating -/

/-- `ltfs_fsops_create`. -/
def create (env : Env) (path : Except FsError Path) (isdir readonly overwrite : Bool)
    (mem : Memory) (worm : Option FsError) (m : State β) : VolCall β ℕ :=
  match Fs.ltfsFsopsCreate (m.env env) path isdir readonly overwrite mem worm m.tree with
  | (.error e, t) => (.error (.fs e), m.withTree t)
  | (.ok d, t) => (.ok d, ((m.withTree t).setIndexDirty false).opened d)

/-- `ltfs_fsops_open`. -/
def openFile (env : Env) (path : Except FsError Path) (openWrite useIosched : Bool)
    (m : State β) : VolCall β ℕ :=
  match Fs.ltfsFsopsOpen (m.env env) path openWrite useIosched {} m.tree with
  | (.error e, t) => (.error (.fs e), m.withTree t)
  | (.ok d, t) => (.ok d, (m.withTree t).opened d)

variable (C : Catalog LtfsIndex (List β))

/-- What the scheduler does with a file that is closed. -/
def closeQueued (env : Env) (d : ℕ) (dirty useIosched : Bool) (m : State β) :
    VolCall β Unit :=
  if env.iosched && useIosched && !(m.tree.dentry d).isdir &&
      m.scheduler = .unified then
    let closed := Sched.unifiedClose C m.config dirty (m.file d)
    (tapeResult closed.1, m.withFile d closed.2)
  else (.ok (), m)

/-- `ltfs_fsops_close` of a handle that is held. -/
def close (env : Env) (d : ℕ) (dirty openWrite useIosched : Bool) (m : State β) :
    VolCall β Unit :=
  if d ∈ m.handles then
    let queued := closeQueued C env d dirty useIosched m
    let m := queued.2
    let reply : Fs.SchedReply := { extentlist := (m.tree.dentry d).extentlist }
    let closed := Fs.ltfsFsopsClose (m.env env) d dirty openWrite useIosched reply m.tree
    let ret := queued.1.bind fun _ => closed.1.mapError .fs
    (ret,
      { m.withTree closed.2 with
        handles := if env.iosched then m.handles.erase d else m.handles
        fileOpenCount :=
          if ret = .ok () then m.fileOpenCount - 1 else m.fileOpenCount })
  else (.ok (), m)

/-- `ltfs_fsops_symlink_path`. -/
def symlinkPath (env : Env) (target : Fs.Name) (path : Except FsError Path)
    (mem : Memory) (worm : Option FsError) (m : State β) : VolCall β Unit :=
  if env.iosched then
    match create env path false true false mem worm m with
    | (.error e, m) => (.error e, m)
    | (.ok d, m) => close C env d true true true
        (m.withTree (m.tree.modify d fun x => { x with isslink := true, target }))
  else (.error (.fs .ioschedInit), m)

/-! ## File contents -/

/-- Does a read go down to `ltfs_fsraw_read`, and so update the access time? -/
def readsTape (d offset count : ℕ) (m : State β) : Bool :=
  count ≠ 0 &&
    match m.scheduler with
    | .fcfs => true
    | .unified =>
      let plan := Sched.planRead (m.file d).file.requests offset count
      plan.size ≠ 0 || plan.pieces.any fun piece =>
        match piece with
        | .hole .. => true
        | .cached _ => false

/-- `iosched_read`. -/
def ioschedRead [Zero β] (d offset count : ℕ) (m : State β) : VolCall β Unit :=
  match m.scheduler with
  | .unified =>
    let read := Sched.unifiedRead m.config offset count (m.file d)
    (tapeResult read.1, m.withFile d read.2)
  | .fcfs =>
    let read := Raw.ltfsFsrawRead m.config.blockSize offset count (m.file d).fileState
    (tapeResult read.1, m.withRaw read.2.1)

/-- `ltfs_fsops_read`. -/
def read [Zero β] (env : Env) (d offset count : ℕ) (m : State β) : VolCall β Unit :=
  if env.iosched then
    if (m.tree.dentry d).isdir then (.error (.fs .isDirectory), m)
    else if m.mountType = .rollbackMeta then
      if m.size d ≤ offset then (.ok (), m) else (.error (.fs .indexOnly), m)
    else
      let marks := readsTape d offset count m
      match ioschedRead d offset count m with
      | (.error e, m) => (.error e, m)
      | (.ok (), m) => (.ok (), if marks then m.setIndexDirty true else m)
  else (.error (.fs .ioschedInit), m)

/-- `ltfs_fsops_readdir`; `filled` is what the caller makes of the names. -/
def readdir (env : Env) (d : ℕ) (filled : Bool) (m : State β) : VolCall β Unit :=
  if (m.tree.dentry d).isdir then
    match env.volumeLock with
    | some e => (.error (.fs e), m)
    | none => (.ok (), if filled then m.setIndexDirty true else m)
  else (.error (.fs .isFile), m)

/-- `unified_write`: the buffer is queued in parts, each as long as there are cache
blocks for it.  Only the first part asks whether the volume may be changed. -/
def queueParts (config : Sched.Mount) (resumed : Bool) (blocks : ℕ) :
    List ℕ → ℕ → List β → Sched.State LtfsIndex β →
      TapeCall (Sched.State LtfsIndex β) Unit
  | more, offset, bytes, s =>
    (Sched.unifiedWrite config resumed blocks offset bytes s).andThen fun n s =>
      match more with
      | [] => (.ok (), s)
      | blocks :: more =>
        if n < bytes.length then
          queueParts config true blocks more (offset + n) (bytes.drop n) s
        else (.ok (), s)

/-- `fcfs_write`: the bytes go to the data partition at once. -/
def fcfsWrite (around : Around β) (d offset : ℕ) (bytes : List β) (m : State β) :
    VolCall β Unit :=
  if m.mountType = .rollbackMeta then (.error (.tape nullArg), m)
  else
    let written := Lock.ltfsFsrawWrite C m.config.blockSize offset (some .dp) bytes
      around.passes
      (Lock.entering (m.file d).fileState m.mountType around.outside)
    let m := m.withFile d ((m.file d).withFileState written.2.vol)
    (lockResult written.1,
      if lockResult written.1 = .ok () then m.setIndexDirty false else m)

/-- `ltfs_fsops_write`.  Whether the volume is read-only is left to the
scheduler. -/
def write (around : Around β) (d offset : ℕ) (bytes : List β) (blocks : ℕ)
    (more : List ℕ) (m : State β) : VolCall β Unit :=
  if around.env.iosched then
    if (m.tree.dentry d).isdir then (.error (.fs .isDirectory), m)
    else if (m.tree.dentry d).isImmutable ||
        (m.tree.dentry d).isAppendonly && offset ≠ m.size d then
      (.error (.fs .wormEnabled), m)
    else match m.scheduler with
      | .unified =>
        let queued := queueParts m.config false blocks more offset bytes (m.file d)
        (tapeResult queued.1, m.withFile d queued.2)
      | .fcfs => fcfsWrite C around d offset bytes m
  else (.error (.fs .ioschedInit), m)

/-- `iosched_truncate`. -/
def ioschedTruncate (d length : ℕ) (m : State β) : State β :=
  match m.scheduler with
  | .unified => (m.withFile d (Sched.unifiedTruncate m.config length (m.file d)).2)
  | .fcfs =>
    let x := m.file d
    m.withFile d (x.withFileState (x.raw, ltfsFsrawTruncate length x.file.dentry))

/-- `ltfs_fsops_truncate`. -/
def truncate (env : Env) (d : ℕ) (length : ℤ) (m : State β) : VolCall β Unit :=
  if env.iosched then
    if length < 0 then (.error (.fs .badArg), m)
    else if (m.tree.dentry d).isdir then (.error (.fs .isDirectory), m)
    else match ltfsGetVolumeReadonly m with
      | .error e => (.error (.tape e), m)
      | .ok () =>
        if (m.tree.dentry d).isWorm then (.error (.fs .wormEnabled), m)
        else match env.unitReady with
          | some e => (.error (.fs e), m)
          | none =>
            let m := (ioschedTruncate d length.toNat m).setIndexDirty false
            let counted := Fs.ltfsFsopsUpdateUsedBlocks (m.env env) d m.tree
            (counted.1.mapError .fs, m.withTree counted.2)
  else (.error (.fs .ioschedInit), m)

/-- `ltfs_fsops_truncate_path`. -/
def truncatePath (env : Env) (path : Except FsError Path) (length : ℤ)
    (m : State β) : VolCall β Unit :=
  match openFile env path true false m with
  | (.error e, m) => (.error e, m)
  | (.ok d, m) =>
    let ret := truncate env d length m
    (ret.1, (close C env d false true false ret.2).2)

/-- `ltfs_fsops_flush` of one file; a flush of all files is one for each. -/
def flush (env : Env) (d : ℕ) (m : State β) : VolCall β Unit :=
  if env.iosched then
    if (m.tree.dentry d).isdir then (.error (.fs .isDirectory), m)
    else match m.scheduler with
      | .unified =>
        let flushed := Sched.unifiedFlushUnlocked C m.config (m.file d)
        (tapeResult flushed.1, m.withFile d flushed.2)
      | .fcfs => (.ok (), m)
  else (.error (.fs .ioschedInit), m)

/-- The writer thread of the scheduler at work on one file of a queue. -/
def processQueue (d : ℕ) (queue : RequestState) (m : State β) : VolCall β Unit :=
  match m.scheduler with
  | .fcfs => (.ok (), m)
  | .unified =>
    let processed := if queue = .reqIp
      then Sched.unifiedProcessIndexQueue C m.config (m.file d)
      else Sched.unifiedProcessDataQueue C m.config queue (m.file d)
    (tapeResult processed.1, m.withFile d processed.2)

/-! ## Changes by handle -/

/-- `ltfs_fsops_utimens` and `ltfs_fsops_utimens_all`: whether the access time and
whether another time is set.  Times are not part of the model. -/
def utimens (env : Env) (atime other : Bool) (m : State β) : VolCall β Unit :=
  match Fs.ltfsFsopsUtimens (m.env env) m.tree with
  | (.error e, t) => (.error (.fs e), m.withTree t)
  | (.ok _, t) =>
    let m := m.withTree t
    let m := if atime then m.setIndexDirty true else m
    (.ok (), if other then m.setIndexDirty false else m)

/-- `ltfs_fsops_set_readonly`. -/
def setReadonly (env : Env) (d : ℕ) (readonly : Bool) (m : State β) : VolCall β Unit :=
  match Fs.ltfsFsopsSetReadonly (m.env env) d readonly m.tree with
  | (.error e, t) => (.error (.fs e), m.withTree t)
  | (.ok _, t) =>
    (.ok (), if (m.tree.dentry d).readonly = readonly then m.withTree t
      else (m.withTree t).setIndexDirty false)

/-! ## Syncing and unmounting -/

/-- `ltfs_sync_index`. -/
def syncIndex (around : Around β) (reason : SyncReason) (indexLocking : Bool)
    (type : IndexType) (m : State β) : VolCall β Unit :=
  if m.mountType = .rollbackMeta then (.error (.tape nullArg), m)
  else
    let synced := Lock.ltfsSyncIndex C reason indexLocking type around.passes
      (m.enter around)
    (lockResult synced.1, m.leave synced.2)

/-- One period of `periodic_sync_thread`, after its `ltfs_fsops_flush` of all files,
which is a call `flush` for each. -/
def periodicSync (around : Around β) (m : State β) : VolCall β Unit :=
  if m.mountType = .rollback ∨ m.mountType = .rollbackMeta then (.ok (), m)
  else syncIndex C around .periodic true .auto m

/-- `ltfs_fuse_release`: with `sync_type=close` a file that has been changed has
its index written. -/
def release (around : Around β) (d : ℕ) (dirty openWrite writeIndex : Bool)
    (m : State β) : VolCall β Unit :=
  let closed := close C around.env d dirty openWrite true m
  if writeIndex then
    (closed.1, (syncIndex C around .close true .auto closed.2).2)
  else closed

/-- `ltfs_unmount`. -/
def unmount (around : Around β) (reason : SyncReason) (m : State β) : VolCall β Unit :=
  let ret := Lock.ltfsUnmount C reason around.passes (m.enter around)
  (lockResult ret.1, m.leave ret.2)

/-! ## Operations by path -/

/-- An operation by path, on the tree. -/
def pathOp (env : Env) (op : PathOp) (m : State β) : VolCall β Unit :=
  let ret := op.ret (m.env env) m.tree
  let m := m.withTree (op.exec (m.env env) m.tree)
  (ret.mapError .fs, if op.mutates && ret = .ok () then m.setIndexDirty false else m)

/-- `ltfs_fsops_getxattr`; `attr` tells where the value comes from.  The attributes of
the media pool are read through `vol->t_attr`. -/
def getxattr (around : Around β) (op : PathOp) (attr : Lock.Attr) (mediaPool : Bool)
    (m : State β) : VolCall β Unit :=
  let looked := pathOp around.env op m
  let got := Lock.ltfsFsopsGetxattr C attr around.passes (looked.2.enter around)
  let ret := looked.1.bind fun _ => lockResult got.1
  (if mediaPool && m.attrVollock.isNone then ret.bind fun _ => .error .crash else ret,
    looked.2.leave got.2)

/-- The errors of `_xattr_set_virtual`, by their numbers. -/
def xattrErr : CallError := .fs (.other 1162)

def stringConversion : CallError := .fs (.other 1128)

def rdonlyXattr : CallError := .fs (.other 1047)

/-- What keeps the volume lock state from being set. -/
def lockStateRefusal (value : Option ℕ) (m : State β) : Except CallError VolStat :=
  match value with
  | none => .error stringConversion
  | some value =>
    match m.attrVollock with
    | none => .error .crash
    | some vollock =>
      if isPwe vollock then .error xattrErr
      else if m.indexVollock = .permLocked then .error xattrErr
      else match requestedLock value with
        | none => .error xattrErr
        | some status => if m.fileOpenCount ≠ 0 then .error xattrErr else .ok status

/-- Where there is a `vol->t_attr`, the checks are those of `Lock.setVolumeLockState`. -/
theorem lockStateRefusal_eq {value : ℕ} {vollock : VolStat} {m : State β}
    (hattr : m.attrVollock = some vollock) :
    lockStateRefusal (some value) m = .error xattrErr ↔
      Lock.lockStateRefused vollock m.indexVollock value m.fileOpenCount = true := by
  simp only [lockStateRefusal, hattr, Lock.lockStateRefused]
  cases requestedLock value <;> split_ifs <;> simp_all

/-- The lock state is recorded, and an index is written to both partitions. -/
def setLockState (around : Around β) (status : VolStat) (m : State β) : VolCall β Unit :=
  match around.outside.command 1 with
  | some e => (.error (.tape e), m)
  | none =>
    let m := ({ m with
      indexVollock := status
      attrVollock := some status
      settings := { m.settings with lockStatus := status } }).setIndexDirty false
    let m := (syncIndex C around .advLock false .full m).2
    match around.outside.deviceLock 0 with
    | some e => (.error (.tape e), m)
    | none =>
      let ret := ltfsWriteIndex C .ip .ea .full m.vol
      (tapeResult ret.1, m.withVol ret.2)

/-- `xattr_set` of `ltfs.volumeLockState`. -/
def xattrSetLockState (around : Around β) (d : ℕ) (value : Option ℕ) (m : State β) :
    VolCall β Unit :=
  -- `tape_get_worm_status` comes first
  if m.mountType = .rollbackMeta ∨ (around.outside.command 0).isSome then
    (.error xattrErr, m)
  else if (m.tree.dentry d).isWorm then (.error rdonlyXattr, m)
  else match lockStateRefusal value m with
    | .error e => (.error e, m)
    | .ok status => setLockState C around status m

/-- One pass of `ltfs_fsops_setxattr` for `ltfs.volumeLockState`. -/
def lockStatePass (around : Around β) (path : Path) (value : Option ℕ)
    (m : State β) : Pass (Except CallError Unit) × State β :=
  match around.env.volumeLock with
  | some e => (.done (.error (.fs e)), m)
  | none =>
    match Fs.fsPathLookup around.env.keys false path m.tree with
    | (.error e, t) => (.done (.error (.fs e)), m.withTree t)
    | (.ok d, t) =>
      let set := xattrSetLockState C around d value (m.withTree t)
      let m := set.2.withTree (Fs.fsReleaseDentry d set.2.tree)
      match set.1 with
      | .error (.tape e) =>
        if e.needReval then
          match around.outside.revalidation 0 with
          | none => (.again, m)
          | some e => (.done (.error (.tape e)), m)
        else (.done (.error (.tape e)), m)
      | ret => (.done ret, m)

/-- `ltfs_fsops_setxattr` with the name `user.ltfs.volumeLockState`, which is not
asked whether the volume may be changed. -/
def setVolumeLockState (around : Around β) (path : Except FsError Path)
    (value : Option ℕ) (m : State β) : VolCall β Unit :=
  match around.env.unitReady, Fs.sourcePath path with
  | some e, _ => (.error (.fs e), m)
  | none, .error e => (.error (.fs e), m)
  | none, .ok path =>
    match retry (lockStatePass C around path value) around.passes m with
    | (none, m) => (.error .pending, m)
    | (some ret, m) => (ret, m)

end AuroraLtfs.Mount
