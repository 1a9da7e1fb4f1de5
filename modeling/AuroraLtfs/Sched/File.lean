import AuroraLtfs.Raw.Access
import AuroraLtfs.Sched.Write

/-!
# The scheduler's view of a file

The private data that `unified.c` keeps for a file, and the functions that
queue, write out, cut and drop its requests.  Most of them hold the lock of the
file from beginning to end, so they are one step.  A write gives it up where it
waits for a cache block, and the background thread gives it up between taking
requests out of the list and sending them to the tape; their parts are functions
of their own here.  What is handed down to be written is recorded.
-/

namespace AuroraLtfs.Sched

open AuroraLtfs.Tape
open AuroraLtfs.Index
open AuroraLtfs.Raw
open RequestState

variable {σ β : Type*}

/-- What the mount fixes for all files: the size of a cache block and of a tape
block, the largest file that is placed on the index partition, and why the
volume may refuse changes. -/
structure Mount where
  cacheSize : ℕ
  blockSize : ℕ
  maxFilesize : ℕ
  readonlyMount : Bool
  lockStatus : VolStat
  cacheSize_pos : 0 < cacheSize
  blockSize_pos : 0 < blockSize
  blockSize_le : blockSize ≤ 2 ^ 63

/-- `struct dentry_priv`.  `extLinks` counts how often it has been linked into
the queue of files with alternate extents. -/
structure DentryPriv (β : Type*) where
  requests : List (WriteRequest β)
  fileSize : ℕ
  writeIp : Bool
  writeError : Option TapeError
  altExtentlist : List Extent
  extLinks : ℕ

/-- The fields of `struct dentry` that the scheduler uses. -/
structure File (β : Type*) where
  dentry : Dentry
  ioschedPriv : Option (DentryPriv β)
  matchesNameCriteria : Bool
  deleted : Bool
  numhandles : ℕ

namespace File

/-- The outstanding requests. -/
def requests (f : File β) : List (WriteRequest β) :=
  match f.ioschedPriv with
  | none => []
  | some p => p.requests

/-- The file size, considering the outstanding requests. -/
def fileSize (f : File β) : ℕ :=
  match f.ioschedPriv with
  | none => f.dentry.size
  | some p => p.fileSize

end File

/-- Bytes handed down to be written to a partition. -/
structure Handed (β : Type*) where
  partition : Part
  offset : ℕ
  bytes : List β

/-- The volume, one file of it, and what has been handed down of that file,
newest first. -/
structure State (σ β : Type*) where
  raw : RawVol σ β
  file : File β
  handed : List (Handed β)

namespace State

/-- What libltfs sees of the file. -/
def fileState (s : State σ β) : RawVol σ β × Dentry := (s.raw, s.file.dentry)

def withFileState (s : State σ β) (x : RawVol σ β × Dentry) : State σ β :=
  { s with raw := x.1, file := { s.file with dentry := x.2 } }

def withPriv (s : State σ β) (p : DentryPriv β) : State σ β :=
  { s with file := { s.file with ioschedPriv := some p } }

def handOver (s : State σ β) (h : Handed β) : State σ β :=
  { s with handed := h :: s.handed }

end State

/-! ## Read-only volumes and write errors -/

/-- `ltfs_get_tape_readonly`. -/
def ltfsGetTapeReadonly (m : Mount) (d : Device (List β)) : Except TapeError Unit :=
  let partitions := match tapeReadOnly .ip d with
    | .ok () | .error .lessSpace => tapeReadOnly .dp d
    | .error e => .error e
  match partitions with
  | .error e => .error e
  | .ok () => match m.lockStatus with
    | .locked | .permLocked => .error .writeProtect
    | .pwe | .pweDp | .pweIp | .pweBoth => .error .writeError
    | .unlocked => .ok ()

/-- `ltfs_get_volume_readonly`. -/
def ltfsGetVolumeReadonly (m : Mount) (d : Device (List β)) : Except TapeError Unit :=
  if m.readonlyMount then .error .rdonlyVolume else ltfsGetTapeReadonly m d

/-- The partition cannot take more data. -/
def outOfSpace (e : TapeError) : Bool := e = .noSpace ∨ e = .lessSpace

def partitionOutOfSpace (p : Part) (d : Device (List β)) : Bool :=
  match tapeReadOnly p d with
  | .ok () => false
  | .error e => outOfSpace e

/-- `_unified_handle_write_error`: the requests for the partition that failed
are dropped, and those for the other one too if it cannot be written either.
`ret` is `none` where the caller passes on a return value that is no error. -/
def unifiedHandleWriteError (ret : Option TapeError) (failedIp : Bool)
    (d : Device (List β)) (dentry : Dentry) (p : DentryPriv β) : DentryPriv β :=
  let nospace := ret.any outOfSpace
  let readonly := fun part => tapeReadOnly part d ≠ .ok ()
  let clearIp := failedIp ∨ ¬nospace ∨ readonly .ip
  let clearDp := ¬failedIp ∨ ¬nospace ∨ readonly .dp
  let kept := p.requests.filter fun r =>
    ¬((r.IsIp ∧ clearIp) ∨ (¬r.IsIp ∧ clearDp))
  { p with
    -- an index partition that is full is not a failure of the file
    writeError := if failedIp ∧ nospace then p.writeError
      else p.writeError.or ret
    fileSize := kept.foldl (fun size r => max size r.stop) dentry.size
    requests := kept }

/-! ## Data placement -/

/-- `_unified_get_dentry_priv`. -/
def unifiedGetDentryPriv (m : Mount) (f : File β) : File β :=
  match f.ioschedPriv with
  | some _ => f
  | none =>
    { f with
      ioschedPriv := some
        { requests := []
          fileSize := f.dentry.size
          writeIp := f.matchesNameCriteria ∧ m.maxFilesize ≠ 0 ∧
            f.dentry.size ≤ m.maxFilesize
          writeError := none
          altExtentlist := []
          extLinks := 0 }
      numhandles := f.numhandles + 1 }

/-- `_unified_clear_alt_extentlist` without saving the extents. -/
def dropAltExtentlist (p : DentryPriv β) : DentryPriv β :=
  if p.altExtentlist = [] then p
  else { p with altExtentlist := [], extLinks := p.extLinks - 1 }

/-- `_unified_set_write_ip`. -/
def unifiedSetWriteIp (p : DentryPriv β) : DentryPriv β :=
  { p with writeIp := true }

/-- `_unified_unset_write_ip`. -/
def unifiedUnsetWriteIp (p : DentryPriv β) : DentryPriv β :=
  dropAltExtentlist
    { p with
      writeIp := false
      requests := p.requests.filter fun r => ¬r.IsIp }

/-- `unified_update_data_placement`. -/
def unifiedUpdateDataPlacement (m : Mount) (f : File β) : File β :=
  match f.ioschedPriv with
  | none => f
  | some p =>
    let wanted := p.fileSize ≤ m.maxFilesize ∧ f.matchesNameCriteria ∧ ¬f.deleted
    let p := if ¬p.writeIp ∧ 0 < m.maxFilesize ∧ wanted then unifiedSetWriteIp p
      else if p.writeIp ∧ ¬wanted then unifiedUnsetWriteIp p
      else p
    { f with ioschedPriv := some p }

/-! ## Writing and truncating -/

/-- The update of the data placement in `unified_write`: a file that becomes
too large, or whose partition is full, is taken off the index partition. -/
def placeWrite (m : Mount) (stop : ℕ) (d : Device (List β))
    (p : DentryPriv β) : DentryPriv β :=
  if p.writeIp ∧ (m.maxFilesize < stop ∨ partitionOutOfSpace .ip d) then
    unifiedUnsetWriteIp p
  else p

/-- Queue as much of the buffer as there are cache blocks for. -/
def queueWrite (m : Mount) (blocks offset : ℕ) (bytes : List β)
    (p : DentryPriv β) : ℕ × DentryPriv β :=
  let queue : Queue β :=
    { requests := p.requests
      fileSize := p.fileSize
      offset := offset
      bytes := bytes
      blocks := blocks }
  let queued := (writeRequests m.cacheSize
    (p.requests.length + bytes.length + 3) queue).2
  (bytes.length - queued.bytes.length,
    { p with requests := queued.requests, fileSize := queued.fileSize })

/-- The part of `unified_write` from `write_start` on that holds the lock of
the file: the number of bytes that are queued.  It is the whole buffer, or the
lock is given up to wait for a cache block and the rest follows in another such
part, which is `resumed`.  `blocks` is the number of requests that find a cache
block. -/
def unifiedWrite (m : Mount) (resumed : Bool) (blocks offset : ℕ)
    (bytes : List β) (s : State σ β) : TapeCall (State σ β) ℕ :=
  if bytes = [] then (.ok 0, s)
  else
    let s := { s with file := unifiedGetDentryPriv m s.file }
    match s.file.ioschedPriv with
    | none => (.ok 0, s)
    | some p =>
      match p.writeError with
      | some e => (.error e, s.withPriv { p with writeError := none })
      | none =>
        match if resumed then .ok () else
            ltfsGetVolumeReadonly m s.raw.vol.device with
        | .error e => (.error e, s)
        | .ok () =>
          let (n, p) := queueWrite m blocks offset bytes
            (placeWrite m (offset + bytes.length) s.raw.vol.device p)
          (.ok n, s.withPriv p)

/-- The requests that are left when the file is cut at `length`, walking back
from the last one. -/
def truncateRequests (length : ℕ) :
    List (WriteRequest β) → List (WriteRequest β)
  | [] => []
  | req :: prev =>
    if length ≤ req.offset then truncateRequests length prev
    else if length < req.stop then
      truncateRequests length prev ++ [req.trimEnd length]
    else (req :: prev).reverse

/-- The alternate extents that are left when the file is cut at `length`. -/
def truncateAltExtents (length : ℕ) (extents : List Extent) : List Extent :=
  (extents.filter fun e => e.fileoffset < length).map fun e =>
    if length < e.fileoffsetEnd then e.trimEnd length else e

/-- The lists and the size of the private data when the file is cut. -/
def cutPriv (length : ℕ) (p : DentryPriv β) : DentryPriv β :=
  if length < p.fileSize then
    { p with
      requests := truncateRequests length p.requests.reverse
      altExtentlist := truncateAltExtents length p.altExtentlist
      fileSize := length }
  else { p with fileSize := length }

/-- The update of the data placement in `unified_truncate`.  A file is placed on
the index partition only when it is rewritten. -/
def placeTruncate (m : Mount) (length : ℕ) (f : File β) (p : DentryPriv β) : DentryPriv β :=
  if ¬p.writeIp ∧ 0 < m.maxFilesize ∧ length = 0 ∧ f.matchesNameCriteria ∧
      ¬f.deleted then unifiedSetWriteIp p
  else if p.writeIp ∧ (m.maxFilesize < p.fileSize ∨ ¬f.matchesNameCriteria ∨
      f.deleted) then unifiedUnsetWriteIp p
  else p

/-- `unified_truncate`. -/
def unifiedTruncate (m : Mount) (length : ℕ) (s : State σ β) : TapeCall (State σ β) Unit :=
  match ltfsGetVolumeReadonly m s.raw.vol.device with
  | .error e => (.error e, s)
  | .ok () =>
    (.ok (), { s with file := { s.file with
      ioschedPriv := s.file.ioschedPriv.map fun p =>
        placeTruncate m length s.file (cutPriv length p)
      dentry := ltfsFsrawTruncate length s.file.dentry } })

/-- `unified_get_filesize`. -/
def unifiedGetFilesize (s : State σ β) : ℕ := s.file.fileSize

/-! ## Writing out -/

/-- A walk that writes out the requests of a file.  `front` are the requests of
the list it has passed, `detached` the ones it has taken out of the list to be
written afterwards. -/
structure Sweep (σ β : Type*) where
  front : List (WriteRequest β)
  detached : List (WriteRequest β)
  fileSize : ℕ
  state : State σ β

namespace Sweep

/-- Pass `req` unchanged. -/
def keep (w : Sweep σ β) (req : WriteRequest β) : Sweep σ β :=
  { w with front := w.front ++ [req] }

/-- Pass `req`, which waits for the index partition, and merge it into the
request before it.  Nothing becomes ready by such a merge, see
`mergeRequests_promoted`. -/
def merge (cs : ℕ) (w : Sweep σ β) (req : WriteRequest β) : Sweep σ β :=
  match w.front.getLast? with
  | none => w.keep req
  | some dest =>
    let merged := mergeRequests cs dest req
    { w with
      front := w.front.dropLast ++ merged.dest :: merged.src.toList
      fileSize := max w.fileSize merged.reached }

end Sweep

variable (C : Catalog σ (List β))

/-- `ltfs_fsraw_write` of a request to the data partition. -/
def writeOut (m : Mount) (req : WriteRequest β) (s : State σ β) :
    TapeCall (State σ β) Unit :=
  (ltfsFsrawWrite C m.blockSize .dp req.offset req.data s.fileState).within
    (s.handOver ⟨.dp, req.offset, req.data⟩).withFileState

/-- The walk of `_unified_flush_unlocked`.  After an error the rest of the list
is left as it is. -/
def flushRequests (m : Mount) (writeIp : Bool) :
    List (WriteRequest β) → Sweep σ β → TapeCall (Sweep σ β) Unit
  | [], w => (.ok (), w)
  | req :: rest, w =>
    if req.IsIp then flushRequests m writeIp rest (w.merge m.cacheSize req)
    else match writeOut C m req w.state with
      | (.error e, s) =>
        (.error e, { w with front := w.front ++ req :: rest, state := s })
      | (.ok (), s) =>
        let w := { w with state := s }
        if writeIp then flushRequests m writeIp rest
          (w.merge m.cacheSize { req with state := reqIp })
        else flushRequests m writeIp rest w

/-- The walk of `_unified_process_data_queue` over one file; `queue` is the
queue that is processed. -/
def processRequests (m : Mount) (queue : RequestState) (writeIp : Bool) :
    List (WriteRequest β) → Sweep σ β → TapeCall (Sweep σ β) Unit
  | [], w => (.ok (), w)
  | req :: rest, w =>
    if req.IsIp then
      processRequests m queue writeIp rest (w.merge m.cacheSize req)
    else if req.state = reqDp ∨ queue = reqPartial then
      if writeIp then match writeOut C m req w.state with
        | (.error e, s) =>
          (.error e, { w with front := w.front ++ req :: rest, state := s })
        | (.ok (), s) => processRequests m queue writeIp rest
            (({ w with state := s }).merge m.cacheSize
              { req with state := reqIp })
      else processRequests m queue writeIp rest
        { w with detached := w.detached ++ [req] }
    else processRequests m queue writeIp rest (w.keep req)

/-- Send the requests taken out of the list to the tape, up to the first
error. -/
def sendDetached (m : Mount) :
    List (WriteRequest β) → State σ β → TapeCall (State σ β) Unit
  | [], s => (.ok (), s)
  | req :: rest, s =>
    (writeOut C m req s).andThen fun _ s => sendDetached m rest s

/-- A walk over the requests of `p` that has not passed any. -/
def startSweep (p : DentryPriv β) (s : State σ β) : Sweep σ β :=
  { front := [], detached := [], fileSize := p.fileSize, state := s }

/-- The private data of the file after a walk; a write error is handled.  What
`_unified_write_index_after_perm` does to all files before that, if the error is
permanent, is a step of its own on the volume. -/
def endSweep (p : DentryPriv β) (ret : Except TapeError Unit)
    (w : Sweep σ β) : State σ β :=
  let p := { p with requests := w.front, fileSize := w.fileSize }
  match ret with
  | .ok () => w.state.withPriv p
  | .error e => w.state.withPriv (unifiedHandleWriteError (some e) false
      w.state.raw.vol.device w.state.file.dentry p)

/-- `_unified_get_write_error`: the error is reset when it is read. -/
def unifiedGetWriteError (s : State σ β) : TapeCall (State σ β) Unit :=
  match s.file.ioschedPriv with
  | none => (.ok (), s)
  | some p => match p.writeError with
    | none => (.ok (), s)
    | some e => (.error e, s.withPriv { p with writeError := none })

/-- `_unified_flush_unlocked`. -/
def unifiedFlushUnlocked (m : Mount) (s : State σ β) : TapeCall (State σ β) Unit :=
  match s.file.ioschedPriv with
  | none => (.ok (), s)
  | some p =>
    (unifiedGetWriteError s).andThen fun _ s =>
      if p.requests = [] then (.ok (), s)
      else
        let walked := flushRequests C m p.writeIp p.requests (startSweep p s)
        unifiedGetWriteError (endSweep p walked.1 walked.2)

/-- `_unified_process_data_queue` for one file of the queue, up to where the
lock of the file is given up: the requests it has taken out of the list. -/
def takeRequests (m : Mount) (queue : RequestState) (s : State σ β) :
    TapeCall (List (WriteRequest β) × State σ β) Unit :=
  match s.file.ioschedPriv with
  | none => (.ok (), [], s)
  | some p =>
    let walked := processRequests C m queue p.writeIp p.requests
      (startSweep p s)
    (walked.1, walked.2.detached, endSweep p walked.1 walked.2)

/-- `_unified_process_data_queue` after a request could not be sent.  The private
data may be gone by then. -/
def recordFailure (e : TapeError) (s : State σ β) : State σ β :=
  match s.file.ioschedPriv with
  | none => s
  | some p => s.withPriv (unifiedHandleWriteError (some e) false
      s.raw.vol.device s.file.dentry p)

/-- `_unified_process_data_queue` for one file of the queue if nothing comes in
between, with the error it reports. -/
def unifiedProcessDataQueue (m : Mount) (queue : RequestState)
    (s : State σ β) : TapeCall (State σ β) Unit :=
  let taken := takeRequests C m queue s
  match sendDetached C m taken.2.1 taken.2.2 with
  | (.ok (), s) => (taken.1, s)
  | (.error e, s) => (.error e, recordFailure e s)

/-! ## The index partition -/

/-- What `_unified_update_alt_extentlist` makes of the entries from some place
on.  `used` tells whether the new extent already has its place. -/
def altWalk (bs : ℕ) (ext : Extent) : Bool → List Extent → List Extent
  | used, [] => if used then [] else [ext]
  | used, entry :: rest =>
    let here := ¬used ∧ ext.fileoffset ≤ entry.fileoffset
    let used := used ∨ here
    let front := if here then [ext] else []
    if entry.fileoffsetEnd < ext.fileoffset then
      front ++ entry :: altWalk bs ext used rest
    else if entry.fileoffsetEnd = ext.fileoffset then
      -- the partition is not compared: all these extents are on one
      if ext.byteoffset = 0 ∧ (entry.byteoffset + entry.bytecount) % bs = 0 ∧
          entry.block + (entry.byteoffset + entry.bytecount) / bs =
            ext.block then
        front ++ { entry with bytecount := entry.bytecount + ext.bytecount } ::
          altWalk bs ext true rest
      else front ++ entry :: altWalk bs ext used rest
    else if entry.fileoffset < ext.fileoffset then
      if entry.fileoffsetEnd ≤ ext.fileoffsetEnd then
        front ++ entry.trimEnd ext.fileoffset :: altWalk bs ext used rest
      else front ++ entry :: altWalk bs ext used rest
    else if entry.fileoffsetEnd ≤ ext.fileoffsetEnd then
      front ++ altWalk bs ext used rest
    else if entry.fileoffset < ext.fileoffsetEnd then
      front ++ entry.trimBegin bs ext.fileoffsetEnd ::
        altWalk bs ext used rest
    else
      -- the loop is left; the extent has found its place by now
      front ++ entry :: rest

/-- `_unified_update_alt_extentlist`. -/
def unifiedUpdateAltExtentlist (bs : ℕ) (ext : Extent)
    (p : DentryPriv β) : DentryPriv β :=
  if p.altExtentlist = [] then
    { p with altExtentlist := [ext], extLinks := p.extLinks + 1 }
  else { p with altExtentlist := altWalk bs ext false p.altExtentlist }

/-- A write to the index partition failed.  A permanent write error is replaced
by what recording it returns. -/
def indexWriteError (e : TapeError) (v : Vol σ β) : Option TapeError × Vol σ β :=
  if e.isWritePerm then
    match v.onDevice (tapeSetCartVolumeLockStatus .pweIp) with
    | (.ok (), v) => (none, v)
    | (.error e, v) => (some e, v)
  else (some e, v)

/-- The walk of `_unified_process_index_queue` over the requests of one file.
`front` are the requests that stay. -/
def indexRequests (m : Mount) : List (WriteRequest β) →
    List (WriteRequest β) → DentryPriv β × State σ β →
      TapeCall (DentryPriv β × State σ β) Unit
  | [], front, (p, s) => (.ok (), { p with requests := front }, s)
  | req :: rest, front, (p, s) =>
    if req.IsIp then
      let s := s.handOver ⟨.ip, req.offset, req.data⟩
      match ltfsFsrawWriteData C m.blockSize .ip req.data 1 s.raw.vol with
      | (.ok start, v) => indexRequests m rest front
          (unifiedUpdateAltExtentlist m.blockSize
            (writtenExtent .ip (start.getD 0) req.offset req.data) p,
          { s with raw := { s.raw with vol := v } })
      | (.error e, v) =>
        let (ret, v) := indexWriteError e v
        (.error e, unifiedHandleWriteError ret true v.device s.file.dentry
          { p with requests := front ++ req :: rest },
          { s with raw := { s.raw with vol := v } })
    else indexRequests m rest (front ++ [req]) (p, s)

/-- `_unified_free_dentry_priv_conditional`. -/
def unifiedFreeDentryPrivConditional (targetHandles : ℕ) (f : File β) : File β :=
  match f.ioschedPriv with
  | none => f
  | some p =>
    if f.numhandles ≤ targetHandles ∧ p.requests = [] ∧ p.altExtentlist = []
    then { f with ioschedPriv := none, numhandles := f.numhandles - 1 }
    else f

/-- `_unified_process_index_queue` for one file of the queue, with the error it
reports. -/
def unifiedProcessIndexQueue (m : Mount) (s : State σ β) : TapeCall (State σ β) Unit :=
  match s.file.ioschedPriv with
  | none => (.ok (), s)
  | some p =>
    let (ret, p, s) := indexRequests C m p.requests [] (p, s)
    let s := s.withPriv p
    (ret, { s with file := unifiedFreeDentryPrivConditional 2 s.file })

/-- `unified_close`. -/
def unifiedClose (m : Mount) (flush : Bool) (s : State σ β) : TapeCall (State σ β) Unit :=
  let (ret, s) := if flush then unifiedFlushUnlocked C m s else (.ok (), s)
  let (writeError, s) := unifiedGetWriteError s
  let f := unifiedFreeDentryPrivConditional 3 s.file
  let s := { s with file := { f with numhandles := f.numhandles - 1 } }
  match ret with
  | .error e => (.error e, s)
  | .ok () => (writeError, s)

end AuroraLtfs.Sched
