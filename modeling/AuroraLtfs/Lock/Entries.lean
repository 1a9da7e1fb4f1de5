import AuroraLtfs.Lock.Watched

/-!
# The ways to an index write

The entry points of the file system from which an index is written: setting and
reading extended attributes, the explicit and the periodic sync, closing a file,
unmounting, and the scheduler, which writes an index of its own after a
permanent write error.  Each is followed to its calls of `ltfs_write_index`.

What the entry points ask for besides (the formatting of names, the dentry a
path leads to, the requests that wait in the scheduler) is in `Surroundings`.
-/

namespace AuroraLtfs.Lock

open AuroraLtfs.Tape
open AuroraLtfs.Index
open AuroraLtfs.RwLock
open AuroraLtfs.Raw
open Watched (watch quietly)

variable {σ β : Type*}

/-- A write request of the scheduler. -/
structure Request (β : Type*) where
  offset : ℕ
  bytes : List β

/-- A file whose data waits in the scheduler. -/
structure Waiting (β : Type*) where
  dentry : Dentry
  writeError : Option TapeError
  requests : List (Request β)

/-- What `xattr_set` finds out about the dentry, the cartridge and the volume. -/
structure Found where
  isRoot : Bool
  isImmutable : Bool
  isAppendonly : Bool
  isWormCart : Bool
  tapeVollock : VolStat
  indexVollock : VolStat
  fileOpenCount : ℕ
  deriving DecidableEq, Repr

structure Surroundings (σ β : Type*) where
  /-- `pathname_format` of a path, of an attribute name, and of a commit
  message. -/
  formatPath : String → Except TapeError String
  formatName : String → Except TapeError String
  formatMessage : List UInt8 → Bool
  /-- `xattr_strip_name`, which depends on the platform. -/
  stripName : String → Option String
  validateName : String → Option TapeError
  /-- `strtoull` of a value that is a number to its end. -/
  number : List UInt8 → Option ℕ
  /-- `ltfs_get_volume_readonly`. -/
  volumeReadonly : Shared (FileVol σ β) → Option TapeError
  /-- `ltfs_fsraw_cleanup_extent` of the whole tree. -/
  cleanupExtent : FileVol σ β → TapeCall (FileVol σ β) Unit
  found : ℕ → Found
  waiting : ℕ → List (Waiting β)

/-- A watched call on the volume. -/
abbrev WatchedVol (σ β : Type*) := Watched (Shared (FileVol σ β))

variable (C : Catalog σ (List β)) (K : Surroundings σ β) (bs passes : ℕ)

/-! ## The scheduler -/

/-- `ltfs_fsraw_write`, watched. -/
def watchedFsrawWrite (partition : Option Part) (r : Request β) (w : WatchedVol σ β) :
    Option (Except TapeError Unit) × WatchedVol σ β :=
  retry (watch (rawWritePoint bs partition r.bytes 1)
    (rawWritePass C bs partition r.bytes 1 fun start s =>
      ((), saveExtent bs r.offset partition r.bytes start s))) passes w

/-- `_unified_write_index_after_perm`.  What becomes of the lock status and of the
index is not reported to the caller. -/
def unifiedWriteIndexAfterPerm (e : TapeError) (w : WatchedVol σ β) : WatchedVol σ β :=
  if e.isWritePerm then
    let status := quietly
      (onVolume fun v => v.onDevice (tapeSetCartVolumeLockStatus .pweDp)) w
    -- `tape_get_first_untransfered_position`
    match quietly driveCommand status.2 with
    | (.error _, w) => w
    | (.ok (), w) =>
      match quietly (onVol K.cleanupExtent) w with
      | (.error _, w) => w
      | (.ok (), w) =>
        (watch (fun s => some (writing .afterPerm s))
          (onVolume (ltfsWriteIndex C .ip .writePerm .full)) w).2
  else w

/-- The loop of `_unified_flush_unlocked` and `_unified_process_data_queue` over
the requests of a file.  `none` is a raw write that has not come to an end. -/
def writeRequests : List (Request β) → WatchedVol σ β →
    Option (Except TapeError Unit) × WatchedVol σ β
  | [], w => (some (.ok ()), w)
  | r :: rs, w =>
    match watchedFsrawWrite C bs passes (some .dp) r w with
    | (none, w) => (none, w)
    | (some (.error e), w) =>
      (some (.error e), unifiedWriteIndexAfterPerm C K e w)
    | (some (.ok ()), w) => writeRequests rs w

/-- The calls that follow are about another file. -/
def onFile (d : Dentry) (w : WatchedVol σ β) : WatchedVol σ β :=
  { w with state := w.state.withVol (w.state.vol.1, d) }

/-- `_unified_flush_unlocked`. -/
def unifiedFlushUnlocked (file : Waiting β) (w : WatchedVol σ β) :
    Option (Except TapeError Unit) × WatchedVol σ β :=
  match file.writeError with
  | some e => (some (.error e), w)
  | none => writeRequests C K bs passes file.requests (onFile file.dentry w)

/-- `_unified_flush_all`. -/
def unifiedFlushAll : List (Waiting β) → WatchedVol σ β →
    Option (Except TapeError Unit) × WatchedVol σ β
  | [], w => (some (.ok ()), w)
  | file :: files, w =>
    match unifiedFlushUnlocked C K bs passes file w with
    | (some (.ok ()), w) => unifiedFlushAll files w
    | ret => ret

/-- `ltfs_fsops_flush` of all files. -/
def ltfsFsopsFlush (w : WatchedVol σ β) : Option (Except TapeError Unit) × WatchedVol σ β :=
  unifiedFlushAll C K bs passes (K.waiting w.state.asked) w

/-- `_unified_process_data_queue`: the error of one file does not keep the next
one from being written. -/
def unifiedProcessDataQueue : List (Waiting β) → WatchedVol σ β → WatchedVol σ β
  | [], w => w
  | file :: files, w =>
    unifiedProcessDataQueue files
      (writeRequests C K bs passes file.requests (onFile file.dentry w)).2

/-- The loop of `_unified_process_index_queue` over the requests of a file. -/
def writeIpRequests : List (Request β) → WatchedVol σ β → WatchedVol σ β
  | [], w => w
  | r :: rs, w =>
    match retry (watch (rawWritePoint bs (some .ip) r.bytes 1)
      (rawWritePass C bs (some .ip) r.bytes 1 fun start s => (start, s))) passes w with
    | (none, w) => w
    | (some (.error e), w) =>
      if e.isWritePerm then
        (quietly (onVolume fun v => v.onDevice (tapeSetCartVolumeLockStatus .pweIp)) w).2
      else w
    | (some (.ok _), w) => writeIpRequests rs w

/-- `_unified_process_index_queue`. -/
def unifiedProcessIndexQueue : List (Waiting β) → WatchedVol σ β → WatchedVol σ β
  | [], w => w
  | file :: files, w =>
    unifiedProcessIndexQueue files
      (writeIpRequests C bs passes file.requests (onFile file.dentry w))

/-! ## Setting an extended attribute -/

/-- `-LTFS_INVALID_PATH`. -/
def invalidPath : TapeError := .other 1025

/-- `-LTFS_INVALID_SRC_PATH`. -/
def invalidSrcPath : TapeError := .other 1026

/-- `-LTFS_RDONLY_XATTR`. -/
def rdonlyXattr : TapeError := .other 1047

/-- `-LTFS_LARGE_XATTR`. -/
def largeXattr : TapeError := .other 1052

/-- `-LTFS_XATTR_NAMESPACE`. -/
def xattrNamespace : TapeError := .other 1054

/-- `-LTFS_OP_NOT_ALLOWED`. -/
def opNotAllowed : TapeError := .other 1079

/-- `-LTFS_STRING_CONVERSION`. -/
def stringConversion : TapeError := .other 1128

/-- `-LTFS_XATTR_ERR`. -/
def xattrErr : TapeError := .other 1162

/-- `LTFS_MAX_XATTR_SIZE`. -/
def ltfsMaxXattrSize : ℕ := 4096

/-- One pass of `ltfs_test_unit_ready`. -/
def testUnitReadyPass (s : Shared (FileVol σ β)) :
    Pass (Except TapeError Unit) × Shared (FileVol σ β) :=
  match ltfsGetVolumeLock false s with
  | (.error e, s) => (.done (.error e), s)
  | (.ok (), s) =>
    if s.mountType = .rollbackMeta then (.done (.ok ()), releasereadMrsw s)
    else match tapeDeviceLock s with
      | (.error e, s) =>
        if e = .deviceFenced then restartOr (ltfsWaitRevalidation s)
        else (.done (.error e), releasereadMrsw s)
      | (.ok (), s) =>
        match driveCommand s with
        | (.error e, s) =>
          if e.needReval then restartOr (ltfsRevalidate false s)
          else (.done (.error e), releasereadMrsw (noteMove e s))
        | (.ok (), s) => (.done (.ok ()), releasereadMrsw s)

def incrementalSyncName : String := "ltfs.vendor.Aurora.IncrementalSync"

/-- The virtual attributes of the root that write an index when they are set. -/
def syncNames : List String :=
  ["ltfs.commitMessage", "ltfs.sync", "ltfs.vendor.Aurora.FullSync",
    incrementalSyncName]

/-- `ltfs_set_index_dirty` for a change that is not an access time. -/
def setIndexDirty (s : Shared (FileVol σ β)) : Shared (FileVol σ β) :=
  s.withVol ({ s.vol.1 with vol := { s.vol.1.vol with dirty := true, incDirty := true } },
    s.vol.2)

/-- `ltfs_sync_index` without `index_locking`, which never starts over. -/
def syncUnlocked (reason : SyncReason) (type : IndexType) (s : Shared (FileVol σ β)) :
    LockCall (FileVol σ β) Unit :=
  match syncIndexPass C reason false (type, s) with
  | (.done ret, _, s) => (ret, s)
  | (.again, _, s) => (.ok (), s)

/-- `syncUnlocked` on the way from `ltfs_fsops_setxattr`. -/
def watchedSyncUnlocked (path name : String) (reason : SyncReason) (type : IndexType) :
    WatchedVol σ β → Except TapeError Unit × WatchedVol σ β :=
  watch (fun s => syncPoint C (.setxattr path name) false (type, s))
    (syncUnlocked C reason type)

/-- The branch of `_xattr_set_virtual` for `syncNames`.  A message that cannot be
formatted is dropped, and a full index written all the same. -/
def setSync (path name : String) (value : List UInt8) (w : WatchedVol σ β) :
    Except TapeError Unit × WatchedVol σ β :=
  let v := w.state.vol.1.vol
  let type := if name = incrementalSyncName then IndexType.incremental else .full
  if type = .incremental ∧ !ltfsIncrementalIndexAllowed v then (.error opNotAllowed, w)
  else if v.dirty ∧ value ≠ [] ∧ !K.formatMessage value then
    watchedSyncUnlocked C path name .ea .full w
  else
    watchedSyncUnlocked C path name .ea type
      (if v.dirty then { w with state := setIndexDirty w.state } else w)

/-- The branch of `_xattr_set_virtual` for `ltfs.volumeLockState`.  What the index says
about the lock is left to `found`. -/
def setVolumeLockState (path name : String) (value : List UInt8) (found : Found)
    (w : WatchedVol σ β) : Except TapeError Unit × WatchedVol σ β :=
  match K.number value with
  | none => (.error stringConversion, w)
  | some lock =>
    if lockStateRefused found.tapeVollock found.indexVollock lock found.fileOpenCount then
      (.error xattrErr, w)
    else
      -- `update_tape_attribute`
      match quietly driveCommand w with
      | (.error e, w) => (.error e, w)
      | (.ok (), w) =>
        -- the result of this sync is overwritten
        let w := (watchedSyncUnlocked C path name .advLock .full
          { w with state := setIndexDirty w.state }).2
        match quietly tapeDeviceLock w with
        | (.error e, w) => (.error e, w)
        | (.ok (), w) =>
          watch (fun s => some (writing (.setxattr path name) s))
            (onVolume (ltfsWriteIndex C .ip .ea .full)) w

def immutableName : String := "ltfs.vendor.Aurora.immutable"

def appendonlyName : String := "ltfs.vendor.Aurora.appendonly"

/-- Does `xattr_set` refuse to change the attributes of the dentry? -/
def Found.refuses (found : Found) (name : String) : Bool :=
  if found.isWormCart then
    found.isImmutable || (found.isAppendonly && name ≠ immutableName)
  else
    (found.isImmutable || found.isAppendonly) &&
      !(name = immutableName || name = appendonlyName)

/-- `xattr_set`.  Attributes other than the five write no index, and their result
is an answer. -/
def xattrSet (path name : String) (value : List UInt8) (w : WatchedVol σ β) :
    Except TapeError Unit × WatchedVol σ β :=
  let found := K.found w.state.asked
  -- `tape_get_worm_status`
  match quietly driveCommand w with
  | (.error _, w) => (.error xattrErr, w)
  | (.ok (), w) =>
    if found.refuses name then (.error rdonlyXattr, w)
    else if name ∈ syncNames ∧ found.isRoot then setSync C K path name value w
    else if name = "ltfs.volumeLockState" then
      setVolumeLockState C K path name value found w
    else quietly driveCommand w

/-- One pass of `ltfs_fsops_setxattr`, from its label `start` on. -/
def setxattrPass (path name : String) (value : List UInt8) (w : WatchedVol σ β) :
    Pass (Option (Except TapeError Unit)) × WatchedVol σ β :=
  let exclusive : Bool := name = "ltfs.sync" ∧ path = "/"
  match if exclusive then ltfsFsopsFlush C K bs passes w else (some (.ok ()), w) with
  | (none, w) => (.done none, w)
  | (some (.error e), w) => (.done (some (.error e)), w)
  | (some (.ok ()), w) =>
    match quietly (ltfsGetVolumeLock exclusive) w with
    | (.error e, w) => (.done (some (.error e)), w)
    | (.ok (), w) =>
      match quietly fsPathLookup w with
      | (.error e, w) =>
        (.done (some (.error e)), { w with state := releaseMrsw w.state })
      | (.ok (), w) =>
        match xattrSet C K path name value w with
        | (.ok (), w) => (.done (some (.ok ())), { w with state := releaseMrsw w.state })
        | (.error e, w) =>
          if e.needReval then
            match quietly (ltfsRevalidate exclusive) w with
            | (.ok (), w) => (.again, w)
            | (.error e, w) => (.done (some (.error e)), w)
          else
            (.done (some (.error e)),
              { w with state := releaseMrsw (noteMove e w.state) })

/-- The name of an attribute as `ltfs_fsops_setxattr` and
`ltfs_fsops_removexattr` look at it, once the path is known to be well
formed. -/
def strippedName (noNamespace : TapeError) (path name : String) : Except TapeError String :=
  match K.formatPath path with
  | .error e => .error (if e = invalidPath then invalidSrcPath else e)
  | .ok _ =>
    match K.formatName name with
    | .error e => .error e
    | .ok newName =>
      match K.stripName newName with
      | none => .error noNamespace
      | some stripped =>
        match K.validateName stripped with
        | some e => .error e
        | none => .ok stripped

/-- `ltfs_fsops_setxattr`. -/
def ltfsFsopsSetxattr (path name : String) (value : List UInt8) (w : WatchedVol σ β) :
    Option (Except TapeError Unit) × WatchedVol σ β :=
  if ltfsMaxXattrSize < value.length then (some (.error largeXattr), w)
  else
    let refusal := (K.volumeReadonly w.state).filter fun e =>
      e ≠ .lessSpace ∧ name ≠ "user.ltfs.volumeLockState"
    match refusal with
    | some e => (some (.error e), w)
    | none =>
      match quietly (retry testUnitReadyPass passes) w with
      | (none, w) => (none, w)
      | (some (.error e), w) => (some (.error e), w)
      | (some (.ok ()), w) =>
        match strippedName K xattrNamespace path name with
        | .error e => (some (.error e), w)
        | .ok stripped =>
          let ret := retry (setxattrPass C K bs passes path stripped value) passes w
          (ret.1.join, ret.2)

/-- `ltfs_fsops_removexattr`.  `xattr_remove` writes no index, and its result is an
answer. -/
def ltfsFsopsRemovexattr (path name : String) (w : WatchedVol σ β) :
    Option (Except TapeError Unit) × WatchedVol σ β :=
  match (K.volumeReadonly w.state).filter (· ≠ .lessSpace) with
  | some e => (some (.error e), w)
  | none =>
    match quietly (retry testUnitReadyPass passes) w with
    | (none, w) => (none, w)
    | (some (.error e), w) => (some (.error e), w)
    | (some (.ok ()), w) =>
      match strippedName K noXattr path name with
      | .error e => (some (.error e), w)
      | .ok _ =>
        match quietly (ltfsGetVolumeLock false) w with
        | (.error e, w) => (some (.error e), w)
        | (.ok (), w) =>
          match quietly fsPathLookup w with
          | (.error e, w) =>
            (some (.error e), { w with state := releasereadMrsw w.state })
          | (.ok (), w) =>
            let ret := quietly driveCommand w
            (some ret.1, { ret.2 with state := releasereadMrsw ret.2.state })

/-! ## The other entry points -/

/-- `ltfs_sync_index` with `index_locking`, watched. -/
def watchedSyncIndex (reason : SyncReason) (w : WatchedVol σ β) :
    Option (Except TapeError Unit) × WatchedVol σ β :=
  let ret := retry (watch (syncPoint C .syncIndex true) (syncIndexPass C reason true))
    passes ⟨(.auto, w.state), w.indexWrites⟩
  (ret.1, ⟨ret.2.state.2, ret.2.indexWrites⟩)

/-- `ltfs_fsops_volume_sync`. -/
def ltfsFsopsVolumeSync (reason : SyncReason) (w : WatchedVol σ β) :
    Option (Except TapeError Unit) × WatchedVol σ β :=
  match ltfsFsopsFlush C K bs passes w with
  | (some (.ok ()), w) => watchedSyncIndex C passes reason w
  | ret => ret

/-- One round of `periodic_sync_thread`: a flush that fails is reported only. -/
def periodicSyncThread (w : WatchedVol σ β) :
    Option (Except TapeError Unit) × WatchedVol σ β :=
  if w.state.mountType = .rollback ∨ w.state.mountType = .rollbackMeta then
    (some (.ok ()), w)
  else match ltfsFsopsFlush C K bs passes w with
    | (none, w) => (none, w)
    | (some _, w) => watchedSyncIndex C passes .periodic w

/-- `ltfs_fuse_release`, as far as it writes: the data of the file where the
handle is dirty, and an index where one is due on close. -/
def fuseRelease (file : Waiting β) (dirty writeIndex : Bool) (w : WatchedVol σ β) :
    Option (Except TapeError Unit) × WatchedVol σ β :=
  match if dirty then unifiedFlushUnlocked C K bs passes file w
      else (some (.ok ()), w) with
  | (none, w) => (none, w)
  | (some ret, w) =>
    if writeIndex then (some ret, (watchedSyncIndex C passes .close w).2)
    else (some ret, w)

/-- `ltfs_unmount`, watched. -/
def watchedUnmount (reason : SyncReason) (w : WatchedVol σ β) :
    Option (Except TapeError Unit) × WatchedVol σ β :=
  let ret := retry (watch unmountPoint (unmountPass C reason)) passes
    ⟨(.unlocked, w.state), w.indexWrites⟩
  (ret.1, ⟨ret.2.state.2, ret.2.indexWrites⟩)

/-- `ltfs_fsops_getxattr`, watched. -/
def watchedGetxattr (attr : Attr) (w : WatchedVol σ β) :
    Option (Except TapeError ℕ) × WatchedVol σ β :=
  retry (watch (getxattrPoint C attr) (getxattrPass C attr)) passes w

end AuroraLtfs.Lock
