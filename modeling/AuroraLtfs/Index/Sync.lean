import AuroraLtfs.Index.Writer

/-!
# When an index is written

The decisions of `ltfs_sync_index` and `ltfs_unmount`: whether there is
something to write, which type of index it becomes, and on which partition.
-/

namespace AuroraLtfs.Index

open AuroraLtfs.Tape

variable {σ π : Type*} (C : Catalog σ π)

/-- `vol->mount_type`. -/
inductive MountType where
  | normal
  | rollback
  | rollbackMeta
  | errTape
  deriving DecidableEq, Repr

/-- Is there something for an index of the requested type to record?  A full
index that is due is written even where the journal has nothing new. -/
def syncDirty (type : IndexType) (v : Volume σ π) : Bool :=
  v.dirty && !(type ≠ .full && !v.incDirty &&
    !(type = .auto && ltfsFullIndexDue v))

/-- An incremental index goes to the data partition.  A full one goes there as
well, unless the device is most likely at the end of the index partition. -/
def syncPartition (type : IndexType) (v : Volume σ π) : Part :=
  if type = .incremental then .dp
  else if v.dpIndexFileEnd && !v.ipIndexFileEnd then .ip
  else .dp

/-- What `ltfs_sync_index` finds out before it asks for the write lock: where
to write which index, if any. -/
def syncPlan (type : IndexType) (v : Volume σ π) : Option (Part × IndexType) :=
  if syncDirty type v then
    let type := ltfsResolveIndexType C type v
    some (syncPartition type v, type)
  else none

/-- A sync may go on with a data partition that is running out of space. -/
def syncRefusal (v : Volume σ π) : Option TapeError :=
  match tapeReadOnly .dp v.device with
  | .error e => if e = .lessSpace then none else some e
  | .ok () => none

/-- Write the index.  After a write-permanent error on the data partition the
same index goes to the index partition, and the sync fails all the same. -/
def syncWrite (reason : SyncReason) (plan : Part × IndexType) (v : Volume σ π) :
    TapeCall (Volume σ π) Unit :=
  match ltfsWriteIndex C plan.1 reason plan.2 v with
  | (.ok (), v) => (.ok (), v)
  | (.error e, v) =>
    if e.isWritePerm && plan.1 = .dp then
      match ltfsWriteIndex C .ip .writePerm .full v with
      | (.ok (), v) => (.error .syncFailOnDp, v)
      | (.error _, v) => (.error e, v)
    else (.error e, v)

/-- Does `ltfs_unmount` write an index? -/
def unmountWrites (mountType : MountType) (vollock : VolStat) (v : Volume σ π) : Bool :=
  mountType = .normal &&
    (ltfsIsDirty v || v.header.selfptr.partition ≠ some .ip) &&
    (vollock ≠ .pweIp && vollock ≠ .pweBoth)

end AuroraLtfs.Index
