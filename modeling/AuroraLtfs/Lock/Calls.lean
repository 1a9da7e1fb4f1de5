import AuroraLtfs.Lock.Shared
import AuroraLtfs.Raw.Access

/-!
# Calls under the volume lock

The functions that take `vol->lock`, talk to the drive, and hand the lock over
to `ltfs_revalidate` or `ltfs_wait_revalidation` when the drive says that the
medium may have been changed.  Each is a loop: a successful revalidation sends
it back to its label `start`.  What they do to the tape is the work of the
functions of the layers below.
-/

namespace AuroraLtfs.Lock

open AuroraLtfs.Tape
open AuroraLtfs.Index
open AuroraLtfs.Raw

variable {σ β : Type*}

/-- The volume, and the file a raw access is about. -/
abbrev FileVol (σ β : Type*) := RawVol σ β × Dentry

/-- A call of the index layer on the volume below. -/
def onVolume {α : Type*} (call : Vol σ β → TapeCall (Vol σ β) α)
    (s : Shared (FileVol σ β)) : LockCall (FileVol σ β) α :=
  onVol (fun f => (call f.1.vol).within fun v => ({ f.1 with vol := v }, f.2)) s

/-- A medium that the operator wants back is not valid any more. -/
def noteMove (e : TapeError) (s : Shared (FileVol σ β)) : Shared (FileVol σ β) :=
  if e.isUnexpectedMove then
    s.withVol ({ s.vol.1 with vol := { s.vol.1.vol with revalFailed := true } },
      s.vol.2)
  else s

/-- Back to `start` once the medium is valid, or out with the error. -/
def restartOr {τ α : Type*} (ret : LockCall τ Unit) :
    Pass (Except TapeError α) × Shared τ :=
  match ret with
  | (.ok (), s) => (.again, s)
  | (.error e, s) => (.done (.error e), s)

/-- Wait for a revalidation that is under way, or make one. -/
def waitOrRevalidate {τ : Type*} (e : TapeError) (s : Shared τ) : LockCall τ Unit :=
  if e = .deviceFenced then ltfsWaitRevalidation s else ltfsRevalidate false s

variable (C : Catalog σ (List β)) {τ : Type*} (op : Shared τ → Shared τ)

/-! ## Raw access -/

/-- `-LTFS_BAD_PARTNUM`. -/
def badPartnum : TapeError := .other 1005

/-- `_ltfs_fsraw_write_data_unlocked`.  It is entered with a write lock, and
every way out turns it into a read lock.  `none` is a partition the volume does
not have. -/
def ltfsFsrawWriteDataUnlocked (bs : ℕ) (partition : Option Part)
    (bytes : List β) (repetitions : ℕ) (s : Shared (FileVol σ β)) :
    LockCall (FileVol σ β) (Option ℕ) :=
  match partition with
  | none => (.error badPartnum, writetoreadMrsw s)
  | some p =>
    if bytes = [] ∨ repetitions = 0 then (.ok none, writetoreadMrsw s)
    else if 1 < repetitions ∧ bytes.length % bs ≠ 0 then
      (.error .badArg, writetoreadMrsw s)
    else match tapeDeviceLock s with
      | (.error e, s) => (.error e, writetoreadMrsw s)
      | (.ok (), s) =>
        let ret := onVolume (ltfsFsrawWriteData C bs p bytes repetitions) s
        (ret.1, writetoreadMrsw ret.2)

/-- The common part of the two raw writers: `settle` is what is left to do with
the read lock once the data is on the tape. -/
def rawWritePass {α : Type*} (bs : ℕ) (partition : Option Part) (bytes : List β)
    (repetitions : ℕ)
    (settle : Option ℕ → Shared (FileVol σ β) → α × Shared (FileVol σ β))
    (s : Shared (FileVol σ β)) : Pass (Except TapeError α) × Shared (FileVol σ β) :=
  match ltfsGetVolumeLock true s with
  | (.error e, s) => (.done (.error e), s)
  | (.ok (), s) =>
    match ltfsFsrawWriteDataUnlocked C bs partition bytes repetitions s with
    | (.error e, s) =>
      if e = .deviceFenced ∨ e.needReval then restartOr (waitOrRevalidate e s)
      else (.done (.error e), releasereadMrsw (noteMove e s))
    | (.ok start, s) =>
      (.done (.ok (settle start s).1), releasereadMrsw (settle start s).2)

/-- `ltfs_fsraw_write_data`. -/
def ltfsFsrawWriteData (bs : ℕ) (partition : Option Part) (bytes : List β)
    (repetitions passes : ℕ) (s : Shared (FileVol σ β)) :
    Option (Except TapeError (Option ℕ)) × Shared (FileVol σ β) :=
  retry (rawWritePass C bs partition bytes repetitions fun start s => (start, s))
    passes s

/-- The extent of the bytes just written is recorded with the file. -/
def saveExtent (bs offset : ℕ) (partition : Option Part) (bytes : List β)
    (start : Option ℕ) (s : Shared (FileVol σ β)) : Shared (FileVol σ β) :=
  match partition with
  | none => s
  | some p => s.withVol (s.vol.1,
      addExtent bs (writtenExtent p (start.getD 0) offset bytes) s.vol.2)

/-- `ltfs_fsraw_write`. -/
def ltfsFsrawWrite (bs offset : ℕ) (partition : Option Part) (bytes : List β)
    (passes : ℕ) (s : Shared (FileVol σ β)) :
    Option (Except TapeError Unit) × Shared (FileVol σ β) :=
  retry (rawWritePass C bs partition bytes 1 fun start s =>
    ((), saveExtent bs offset partition bytes start s)) passes s

/-- One pass of `ltfs_fsraw_read`. -/
def readPass [Zero β] (bs offset count : ℕ) (s : Shared (FileVol σ β)) :
    Pass (Except TapeError (List β)) × Shared (FileVol σ β) :=
  match ltfsGetVolumeLock false s with
  | (.error e, s) => (.done (.error e), s)
  | (.ok (), s) =>
    match tapeDeviceLock s with
    | (.error e, s) =>
      if e = .deviceFenced then restartOr (ltfsWaitRevalidation s)
      else (.done (.error e), releasereadMrsw s)
    | (.ok (), s) =>
      match onVol (Raw.ltfsFsrawRead bs offset count) s with
      | (.error e, s) =>
        if e.needReval then restartOr (ltfsRevalidate false s)
        else (.done (.error e), releasereadMrsw (noteMove e s))
      | (.ok bytes, s) => (.done (.ok bytes), releasereadMrsw s)

/-- `ltfs_fsraw_read`. -/
def ltfsFsrawRead [Zero β] (bs offset count passes : ℕ)
    (s : Shared (FileVol σ β)) :
    Option (Except TapeError (List β)) × Shared (FileVol σ β) :=
  if count = 0 then (some (.ok []), s)
  else retry (readPass bs offset count) passes s

/-! ## Syncing -/

/-- Lock operations that are made only with `index_locking`. -/
def lockedOnly {τ : Type*} (indexLocking : Bool) (op : Shared τ → Shared τ)
    (s : Shared τ) : Shared τ :=
  if indexLocking then op s else s

def getLockOnly {τ : Type*} (indexLocking exclusive : Bool) (s : Shared τ) :
    LockCall τ Unit :=
  if indexLocking then ltfsGetVolumeLock exclusive s else (.ok (), s)

@[simp]
theorem lockedOnly_false (s : Shared τ) :
    lockedOnly false op s = s := rfl

@[simp]
theorem lockedOnly_true (s : Shared τ) :
    lockedOnly true op s = op s := rfl

@[simp]
theorem getLockOnly_false (exclusive : Bool) (s : Shared τ) :
    getLockOnly false exclusive s = (.ok (), s) := rfl

@[simp]
theorem getLockOnly_true (exclusive : Bool) (s : Shared τ) :
    getLockOnly true exclusive s = ltfsGetVolumeLock exclusive s := rfl

/-- One pass of `ltfs_sync_index`.  The resolved type is what the next pass
starts from. -/
def syncIndexPass (reason : SyncReason) (indexLocking : Bool)
    (ts : IndexType × Shared (FileVol σ β)) :
    Pass (Except TapeError Unit) × IndexType × Shared (FileVol σ β) :=
  let type := ts.1
  let s := ts.2
  match syncRefusal s.vol.1.vol with
  | some e => (.done (.error e), type, s)
  | none =>
    match getLockOnly indexLocking false s with
    | (.error e, s) => (.done (.error e), type, s)
    | (.ok (), s) =>
      let plan := syncPlan C type s.vol.1.vol
      let s := lockedOnly indexLocking releasereadMrsw s
      match plan with
      | none => (.done (.ok ()), type, s)
      | some plan =>
        match getLockOnly indexLocking true s with
        | (.error e, s) => (.done (.error e), plan.2, s)
        | (.ok (), s) =>
          match tapeDeviceLock s with
          | (.error e, s) =>
            (.done (.error e), plan.2, lockedOnly indexLocking releasewriteMrsw s)
          | (.ok (), s) =>
            match onVolume (syncWrite C reason plan) s with
            | (.ok (), s) =>
              (.done (.ok ()), plan.2, lockedOnly indexLocking releasewriteMrsw s)
            | (.error e, s) =>
              let s := noteMove e s
              if indexLocking && e.needReval then
                let ret := restartOr (ltfsRevalidate true s)
                (ret.1, plan.2, ret.2)
              else
                (.done (.error e), plan.2,
                  lockedOnly indexLocking releasewriteMrsw s)

/-- `ltfs_sync_index`. -/
def ltfsSyncIndex (reason : SyncReason) (indexLocking : Bool) (type : IndexType)
    (passes : ℕ) (s : Shared (FileVol σ β)) :
    Option (Except TapeError Unit) × Shared (FileVol σ β) :=
  let ret := retry (syncIndexPass C reason indexLocking) passes (type, s)
  (ret.1, ret.2.2)

/-! ## Unmounting -/

/-- A question to the drive under the device lock, where `ready` asks it first
whether it is ready (`ltfs_get_cartridge_health` and its like). -/
def driveQuery {τ : Type*} (ready : Bool) (s : Shared τ) : LockCall τ Unit :=
  (tapeDeviceLock s).andThen fun _ s =>
    (if ready then driveCommand s else (.ok (), s)).andThen fun _ s =>
      driveCommand s

/-- The end of `ltfs_unmount`: the health of the cartridge is asked for, and
the answer does not matter. -/
def finishUnmount {τ : Type*} (s : Shared τ) : Pass (Except TapeError Unit) × Shared τ :=
  (.done (.ok ()), releasewriteMrsw (driveQuery true s).2)

/-- The index that `ltfs_unmount` writes.  After a revalidation the lock is
released here as well. -/
def unmountWrite (reason : SyncReason) (s : Shared (FileVol σ β)) :
    Pass (Except TapeError Unit) × Shared (FileVol σ β) :=
  match onVolume (ltfsWriteIndex C .ip reason .full) s with
  | (.error e, s) =>
    if e.needReval then
      let ret := restartOr (ltfsRevalidate true s)
      (ret.1, releasewriteMrsw ret.2)
    else (.done (.error e), releasewriteMrsw (noteMove e s))
  | (.ok (), s) => finishUnmount s

/-- One pass of `ltfs_unmount`.  The lock status last read survives into the
next pass. -/
def unmountPass (reason : SyncReason) (vs : VolStat × Shared (FileVol σ β)) :
    Pass (Except TapeError Unit) × VolStat × Shared (FileVol σ β) :=
  match ltfsGetVolumeLock true vs.2 with
  | (.error e, s) => (.done (.error e), vs.1, s)
  | (.ok (), s) =>
    -- `return ret`, with `ret` zero
    if s.mountType = .rollbackMeta then (.done (.ok ()), vs.1, s)
    else
      let status :=
        onVolume (fun v => v.onDevice tapeGetCartVolumeLockStatus) s
      let vollock := match status.1 with
        | .ok vollock => vollock
        | .error _ => vs.1
      let s := status.2
      let ret := if unmountWrites s.mountType vollock s.vol.1.vol then
          unmountWrite C reason s
        else finishUnmount s
      (ret.1, vollock, ret.2)

/-- `ltfs_unmount`. -/
def ltfsUnmount (reason : SyncReason) (passes : ℕ) (s : Shared (FileVol σ β)) :
    Option (Except TapeError Unit) × Shared (FileVol σ β) :=
  let ret := retry (unmountPass C reason) passes (.unlocked, s)
  (ret.1, ret.2.2)

/-! ## The lock state of the volume -/

/-- A lock status that stands for a permanent write error. -/
def isPwe : VolStat → Bool
  | .pwe | .pweDp | .pweIp | .pweBoth => true
  | .unlocked | .locked | .permLocked => false

/-- The status that a value of `ltfs.volumeLockState` stands for: bit 0 is `VOL_LOCKED`,
bit 1 is `VOL_PERM_LOCKED`, and not both may be set. -/
def requestedLock (value : ℕ) : Option VolStat :=
  match value.testBit 0, value.testBit 1 with
  | true, true => none
  | true, false => some .locked
  | false, true => some .permLocked
  | false, false => some .unlocked

/-- Does `_xattr_set_virtual` refuse to set the lock state? -/
def lockStateRefused (tapeVollock indexVollock : VolStat) (value fileOpenCount : ℕ) : Bool :=
  isPwe tapeVollock || indexVollock = .permLocked || (requestedLock value).isNone ||
    fileOpenCount ≠ 0

/-! ## Reading an extended attribute -/

/-- Where the value of a virtual attribute comes from: the index alone, a copy
kept in memory, a question to the drive under the device lock, a drive command
without it, or the result of a sync (`ltfs.sync`). -/
inductive Source where
  | index
  | memory
  | query (ready : Bool)
  | command
  | sync
  deriving DecidableEq, Repr

inductive Attr where
  | stored
  | virtual (source : Source)
  deriving DecidableEq, Repr

/-- `-LTFS_NO_XATTR`. -/
def noXattr : TapeError := .other 1040

/-- `-LTFS_INDEX_ONLY`. -/
def indexOnly : TapeError := .other 1206

/-- `_xattr_get_virtual`. -/
def xattrGetVirtual (source : Source) (s : Shared (FileVol σ β)) :
    LockCall (FileVol σ β) ℕ :=
  match source with
  | .index => indexValue s
  | .memory => indexValue s
  | .query ready => (driveQuery ready s).andThen fun _ s => indexValue s
  | .command => (driveCommand s).andThen fun _ s => indexValue s
  | .sync =>
    -- without locking there is no second pass
    match syncIndexPass C .ea false (.full, s) with
    | (.done (.error e), _, s) => (.error e, s)
    | (_, _, s) => (.ok 0, s)

/-- `xattr_get`.  To begin again is `-LTFS_RESTART_OPERATION`. -/
def xattrGet (attr : Attr) (s : Shared (FileVol σ β)) :
    Pass (Except TapeError ℕ) × Shared (FileVol σ β) :=
  let stored := fun s : Shared (FileVol σ β) =>
    (Pass.done (indexValue s).1, (indexValue s).2)
  match attr with
  | .stored => stored s
  | .virtual source =>
    if s.mountType = .rollbackMeta ∧ source ≠ .index then
      (.done (.error indexOnly), s)
    else match xattrGetVirtual C source s with
      | (.ok n, s) => (.done (.ok n), s)
      | (.error e, s) =>
        if e = .deviceFenced ∨ e.needReval then restartOr (waitOrRevalidate e s)
        else if e = noXattr then stored s
        else (.done (.error e), noteMove e s)

/-- One pass of `ltfs_fsops_getxattr`. -/
def getxattrPass (attr : Attr) (s : Shared (FileVol σ β)) :
    Pass (Except TapeError ℕ) × Shared (FileVol σ β) :=
  match ltfsGetVolumeLock false s with
  | (.error e, s) => (.done (.error e), s)
  | (.ok (), s) =>
    match fsPathLookup s with
    | (.error e, s) => (.done (.error e), releasereadMrsw s)
    | (.ok (), s) =>
      match xattrGet C attr s with
      | (.again, s) => (.again, s)
      | (.done ret, s) => (.done ret, releasereadMrsw s)

/-- `ltfs_fsops_getxattr`. -/
def ltfsFsopsGetxattr (attr : Attr) (passes : ℕ) (s : Shared (FileVol σ β)) :
    Option (Except TapeError ℕ) × Shared (FileVol σ β) :=
  retry (getxattrPass C attr) passes s

end AuroraLtfs.Lock
