import AuroraLtfs.Fs.Refused
import AuroraLtfs.Lock.Orderly
import AuroraLtfs.Raw.ReadFrame
import AuroraLtfs.Sched.Read

/-!
# A mounted volume

The layers together: the name tree is the tree of the volume that the index
writer works on, every dentry may have private data of the I/O scheduler, and the
calls of the file system act on all of it.  `ltfs_get_volume_readonly` is asked
about this state, and no longer an answer from outside.
-/

namespace AuroraLtfs.Mount

open AuroraLtfs.Tape
open AuroraLtfs.Index
open AuroraLtfs.Raw
open AuroraLtfs.Fs (LtfsIndex FsError Env)
open AuroraLtfs.Lock (FileVol Outside Shared)
open AuroraLtfs.Sched (DentryPriv)

inductive Scheduler where
  | unified
  | fcfs
  deriving DecidableEq, Repr

/-- The volume between two calls.  `settings.readonlyMount` is the flag that
`ltfs_set_readonly_mount` sets, `settings.lockStatus` is `vol->lock_status`, and
the other two lock states are those of `vol->t_attr` and `vol->index`.  A mount of an
earlier generation or of an index file leaves `vol->t_attr` NULL. -/
structure State (β : Type*) where
  raw : RawVol LtfsIndex β
  size : ℕ → ℕ
  realsize : ℕ → ℕ
  matchesNameCriteria : ℕ → Bool
  ioschedPriv : ℕ → Option (DentryPriv β)
  handles : List ℕ
  fileOpenCount : ℕ
  mountType : MountType
  settings : Sched.Mount
  attrVollock : Option VolStat
  indexVollock : VolStat
  scheduler : Scheduler

variable {β : Type*}

namespace State

def vol (m : State β) : Vol LtfsIndex β := m.raw.vol

def tree (m : State β) : LtfsIndex := m.raw.vol.tree

def device (m : State β) : Device (List β) := m.raw.vol.device

def session (m : State β) : Fs.Session := ⟨m.tree, m.handles⟩

def withRaw (m : State β) (raw : RawVol LtfsIndex β) : State β := { m with raw := raw }

def withVol (m : State β) (v : Vol LtfsIndex β) : State β :=
  { m with raw := { m.raw with vol := v } }

def withTree (m : State β) (t : LtfsIndex) : State β := m.withVol (m.vol.withTree t)

/-- `ltfs_set_index_dirty`. -/
def setIndexDirty (atime : Bool) (m : State β) : State β :=
  if atime then m.withVol { m.vol with atimeDirty := true }
  else m.withVol { m.vol with dirty := true, incDirty := true }

/-- A call has handed out `d`. -/
def opened (d : ℕ) (m : State β) : State β :=
  { m with handles := d :: m.handles, fileOpenCount := m.fileOpenCount + 1 }

/-! ## One file of the volume -/

/-- What the scheduler sees of the file.  The reference that its private data
holds is counted here and not in the tree. -/
def file (m : State β) (d : ℕ) : Sched.State LtfsIndex β where
  raw := m.raw
  file :=
    { dentry := ⟨m.size d, m.realsize d, (m.tree.dentry d).extentlist⟩
      ioschedPriv := m.ioschedPriv d
      matchesNameCriteria := m.matchesNameCriteria d
      deleted := (m.tree.dentry d).deleted
      numhandles := (m.tree.dentry d).numhandles.toNat +
        (if (m.ioschedPriv d).isSome then 1 else 0) }
  handed := []

/-- Take over what the scheduler has made of the volume and of the file. -/
def withFile (m : State β) (d : ℕ) (x : Sched.State LtfsIndex β) : State β :=
  let tree := x.raw.vol.tree.modify d (Fs.Dentry.extents x.file.dentry.extents)
  { m with
    raw := { x.raw with vol := x.raw.vol.withTree tree }
    size := Function.update m.size d x.file.dentry.size
    realsize := Function.update m.realsize d x.file.dentry.realsize
    ioschedPriv := Function.update m.ioschedPriv d x.file.ioschedPriv }

end State

/-! ## Read-only mounts -/

/-- The mount has been made read-only: on request, or because it shows an earlier
state of the volume or an index file. -/
def Marked (m : State β) : Prop :=
  m.settings.readonlyMount = true ∨ m.mountType = .rollback ∨
    m.mountType = .rollbackMeta

instance (m : State β) : Decidable (Marked m) :=
  inferInstanceAs (Decidable (_ ∨ _))

/-- The settings the scheduler goes by. -/
def State.config (m : State β) : Sched.Mount :=
  { m.settings with readonlyMount := decide (Marked m) }

/-- `ltfs_get_volume_readonly`. -/
def ltfsGetVolumeReadonly (m : State β) : Except TapeError Unit :=
  Sched.ltfsGetVolumeReadonly m.config m.device

/-- The errors of `ltfs_get_volume_readonly`, by their numbers where the
operations on the tree have no name for them. -/
def readonlyError : TapeError → FsError
  | .rdonlyVolume => .rdonlyVolume
  | .noSpace => .noSpace
  | .lessSpace => .lessSpace
  | .writeProtect => .other 1125
  | .writeError => .other 1126
  | .rdonlyDenDrv => .other 1194
  | _ => .other 1000

/-- The environment of the operations on the tree, with the answer of the volume
itself in its place. -/
def State.env (m : State β) (env : Env) : Env :=
  { env with
    volumeReadonly :=
      match ltfsGetVolumeReadonly m with
      | .ok () => none
      | .error e => some (readonlyError e) }

theorem Marked.readonly {m : State β} (h : Marked m) :
    ltfsGetVolumeReadonly m = .error .rdonlyVolume := by
  rw [ltfsGetVolumeReadonly, Sched.ltfsGetVolumeReadonly, State.config]
  simp [h]

theorem Marked.env {m : State β} (h : Marked m) (env : Env) :
    (m.env env).volumeReadonly = some .rdonlyVolume := by
  rw [State.env, h.readonly]
  rfl

/-! ## What a call meets -/

/-- The answers of the drive and of the rest of the system to a call that runs
alone: nobody else works on the volume, and a revalidation uses the device without
writing. -/
structure Around (β : Type*) where
  env : Env := {}
  outside : Outside (FileVol LtfsIndex β)
  passes : ℕ
  meanwhile_eq : ∀ n f, outside.meanwhile n f = f
  revalidated_rests : ∀ n f, Rests f.1.vol (outside.revalidated n f).1.vol

/-- The volume as a call that takes `vol->lock` finds it. -/
def State.enter (m : State β) (around : Around β) : Shared (FileVol LtfsIndex β) :=
  Lock.entering (m.raw, ⟨0, 0, []⟩) m.mountType around.outside

def State.leave (m : State β) (s : Shared (FileVol LtfsIndex β)) : State β :=
  m.withRaw s.vol.1

end AuroraLtfs.Mount
