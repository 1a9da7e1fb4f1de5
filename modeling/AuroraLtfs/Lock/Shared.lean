import AuroraLtfs.Index.Sync
import AuroraLtfs.Lib.RwLock

/-!
# The volume lock

`vol->lock` protects the volume between the threads of the file system.  A call
sees of the other threads only what they answer: whether the lock is granted or
the medium has become invalid in the meantime, whether the device is fenced, and
how a revalidation it waits for ends.  The revalidation a call makes itself is
such an answer too.

Every operation on the lock is recorded, and so is every answer about the
revalidation of the medium.
-/

namespace AuroraLtfs.Lock

open AuroraLtfs.Tape
open AuroraLtfs.Index
open AuroraLtfs.RwLock

variable {τ : Type*}

/-- How an attempt to take the lock goes: the number of times it is given back
because a revalidation is running again, and whether the medium is valid in the
end. -/
structure Grant where
  restarts : ℕ
  valid : Bool
  deriving DecidableEq, Repr

/-- The answers of the drive and of the other threads.  Each is indexed by the
number of questions asked before. -/
structure Outside (τ : Type*) where
  grant : ℕ → Grant
  /-- What the other threads have done to the volume until the lock is
  granted. -/
  meanwhile : ℕ → τ → τ
  deviceLock : ℕ → Option TapeError
  wait : ℕ → Bool
  revalidation : ℕ → Option TapeError
  /-- What a revalidation changes in the volume. -/
  revalidated : ℕ → τ → τ
  /-- Drive commands that leave the medium alone. -/
  command : ℕ → Option TapeError
  /-- Whether a path names a dentry, and the length of an attribute found in the
  index. -/
  lookup : ℕ → Option TapeError
  value : ℕ → Except TapeError ℕ

/-- An answer about the validity of the medium. -/
inductive Told where
  | granted (valid : Bool)
  | waited (valid : Bool)
  | revalidated (valid : Bool)
  deriving DecidableEq, Repr

structure Shared (τ : Type*) where
  vol : τ
  mountType : MountType
  outside : Outside τ
  asked : ℕ
  lockOps : List LockOp
  told : List Told

/-- A call that holds the lock now and then. -/
abbrev LockCall (τ α : Type*) := Outcome TapeError (Shared τ) α

/-- `-LTFS_REVAL_FAILED`. -/
def revalFailed : TapeError := .other 1068

namespace Shared

/-- How the calling thread holds the lock. -/
def held (s : Shared τ) : Option Held := RwLock.held s.lockOps

def lockOp (op : LockOp) (s : Shared τ) : Shared τ :=
  { s with lockOps := op :: s.lockOps }

def tell (t : Told) (s : Shared τ) : Shared τ := { s with told := t :: s.told }

/-- One more question has been asked. -/
def ask (s : Shared τ) : Shared τ := { s with asked := s.asked + 1 }

def withVol (s : Shared τ) (vol : τ) : Shared τ := { s with vol := vol }

@[simp]
theorem lockOp_held (op : LockOp) (s : Shared τ) :
    (s.lockOp op).held = s.held.bind op.step := rfl

@[simp]
theorem lockOp_told (op : LockOp) (s : Shared τ) : (s.lockOp op).told = s.told := rfl

@[simp]
theorem lockOp_mountType (op : LockOp) (s : Shared τ) :
    (s.lockOp op).mountType = s.mountType := rfl

@[simp]
theorem tell_held (t : Told) (s : Shared τ) : (s.tell t).held = s.held := rfl

@[simp]
theorem tell_told (t : Told) (s : Shared τ) : (s.tell t).told = t :: s.told := rfl

@[simp]
theorem tell_mountType (t : Told) (s : Shared τ) :
    (s.tell t).mountType = s.mountType := rfl

@[simp]
theorem ask_held (s : Shared τ) : s.ask.held = s.held := rfl

@[simp]
theorem ask_told (s : Shared τ) : s.ask.told = s.told := rfl

@[simp]
theorem ask_mountType (s : Shared τ) : s.ask.mountType = s.mountType := rfl

@[simp]
theorem withVol_held (s : Shared τ) (vol : τ) : (s.withVol vol).held = s.held := rfl

@[simp]
theorem withVol_told (s : Shared τ) (vol : τ) : (s.withVol vol).told = s.told := rfl

@[simp]
theorem withVol_mountType (s : Shared τ) (vol : τ) :
    (s.withVol vol).mountType = s.mountType := rfl

end Shared

/-! ## The operations of `ltfs_locking_new.h` -/

def acquirereadMrsw (s : Shared τ) : Shared τ := s.lockOp .acquireRead

def acquirewriteMrsw (s : Shared τ) : Shared τ := s.lockOp .acquireWrite

def releasereadMrsw (s : Shared τ) : Shared τ := s.lockOp .releaseRead

def releasewriteMrsw (s : Shared τ) : Shared τ := s.lockOp .releaseWrite

def writetoreadMrsw (s : Shared τ) : Shared τ := s.lockOp .writeToRead

/-- `release_mrsw`: the lock itself knows whether a writer holds it. -/
def releaseMrsw (s : Shared τ) : Shared τ :=
  if s.held = some .write then releasewriteMrsw s else releasereadMrsw s

/-! ## Taking and giving up the lock -/

def acquireMrsw (exclusive : Bool) (s : Shared τ) : Shared τ :=
  if exclusive then acquirewriteMrsw s else acquirereadMrsw s

/-- The attempts of `ltfs_get_volume_lock` that find a revalidation running. -/
def futileAttempts (exclusive : Bool) : ℕ → Shared τ → Shared τ
  | 0, s => s
  | n + 1, s => futileAttempts exclusive n (releaseMrsw (acquireMrsw exclusive s))

/-- `ltfs_get_volume_lock`. -/
def ltfsGetVolumeLock (exclusive : Bool) (s : Shared τ) : LockCall τ Unit :=
  let grant := s.outside.grant s.asked
  let others := s.outside.meanwhile s.asked
  let s := acquireMrsw exclusive (futileAttempts exclusive grant.restarts s.ask)
  let s := (s.withVol (others s.vol)).tell (.granted grant.valid)
  if grant.valid then (.ok (), s) else (.error revalFailed, releaseMrsw s)

/-- `ltfs_wait_revalidation`: the lock is given up before the wait. -/
def ltfsWaitRevalidation (s : Shared τ) : LockCall τ Unit :=
  let valid := s.outside.wait s.asked
  let s := (releaseMrsw s.ask).tell (.waited valid)
  (if valid then .ok () else .error revalFailed, s)

/-- `ltfs_revalidate`: whatever lock the caller holds becomes a write lock,
which is released in the end. -/
def ltfsRevalidate (haveWriteLock : Bool) (s : Shared τ) : LockCall τ Unit :=
  let ret := s.outside.revalidation s.asked
  let after := s.outside.revalidated s.asked
  let s := if haveWriteLock then s.ask else acquirewriteMrsw (releaseMrsw s.ask)
  let s := releasewriteMrsw (s.withVol (after s.vol))
  match ret with
  | none => (.ok (), s.tell (.revalidated true))
  | some e => (.error e, s.tell (.revalidated false))

/-- `tape_device_lock`. -/
def tapeDeviceLock (s : Shared τ) : LockCall τ Unit :=
  match s.outside.deviceLock s.asked with
  | none => (.ok (), s.ask)
  | some e => (.error e, s.ask)

/-- A drive command that leaves the medium alone. -/
def driveCommand (s : Shared τ) : LockCall τ Unit :=
  match s.outside.command s.asked with
  | none => (.ok (), s.ask)
  | some e => (.error e, s.ask)

/-- `fs_path_lookup`. -/
def fsPathLookup (s : Shared τ) : LockCall τ Unit :=
  match s.outside.lookup s.asked with
  | none => (.ok (), s.ask)
  | some e => (.error e, s.ask)

/-- The length of an attribute that is found in the index. -/
def indexValue (s : Shared τ) : LockCall τ ℕ := (s.outside.value s.asked, s.ask)

/-- A call without lock operations, made on the volume. -/
def onVol {α : Type*} (call : τ → TapeCall τ α) (s : Shared τ) : LockCall τ α :=
  (call s.vol).within s.withVol

end AuroraLtfs.Lock
