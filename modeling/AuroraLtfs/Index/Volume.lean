import AuroraLtfs.Tape.Device

/-!
# The volume as the index writer sees it

The index header, the flags that say how the two partitions end, and the
in-memory tree with its journal.  The tree enters only through a `Catalog`: the
documents that are produced from it, and what producing them does to it.
-/

namespace AuroraLtfs.Index

open AuroraLtfs.Tape

inductive IndexType where
  | full
  | incremental
  | auto
  deriving DecidableEq, Repr

/-- The reasons an index is written for, by the `SYNC_` constants. -/
inductive SyncReason where
  | explicit
  | periodic
  | ea
  | close
  | dnoSpace
  | unmount
  | unmountNomem
  | move (time : ℕ)
  | check
  | rollback
  | format
  | recovery
  | cachePressure
  | scanTape
  | oob
  | writePerm
  | reSelection
  | advLock
  deriving DecidableEq, Repr

/-- A tape pointer of the index header; partition `none` is the zero byte of a
cleared pointer. -/
structure TapeOffset where
  partition : Option Part
  block : ℕ
  deriving DecidableEq, Repr

structure Timespec where
  sec : ℤ
  nsec : ℕ
  deriving DecidableEq, Repr

@[ext]
structure Header where
  generation : UInt32
  modTime : Timespec
  selfptr : TapeOffset
  backptr : TapeOffset
  selfptrInc : TapeOffset
  backptrInc : TapeOffset
  deriving DecidableEq, Repr

/-- How index documents are produced from the tree `σ` and its journal.

`schema` and `incSchema` are the tape blocks of the two kinds of document.
`afterSchema` and `afterIncSchema` are the tree once the document has been
produced; with `some n` the output failed after `n` blocks had been written. -/
structure Catalog (σ π : Type*) where
  journalErr : σ → Bool
  journalCount : σ → ℕ
  incjClear : σ → σ
  schema : Header → σ → List π
  afterSchema : Option ℕ → σ → σ
  incSchema : Header → σ → List π
  afterIncSchema : Option ℕ → σ → σ

structure Volume (σ π : Type*) where
  device : Device π
  header : Header
  tree : σ
  ipIndexFileEnd : Bool
  dpIndexFileEnd : Bool
  dirty : Bool
  incDirty : Bool
  atimeDirty : Bool
  useAtime : Bool
  writeVersion : ℕ
  fullIndexInterval : ℤ
  fullIndexToGo : ℤ
  revalFailed : Bool
  /-- Whether an on-disk index cache is kept, and how its writes turn out. -/
  indexCachePathW : Bool
  cacheAnswers : ℕ → Bool
  cacheIssued : ℕ
  clock : ℕ → Timespec
  ticks : ℕ
  /-- Documents the drive has accepted together with their closing file
  mark. -/
  completed : ℕ

variable {σ π : Type*}

namespace Volume

def withDevice (v : Volume σ π) (d : Device π) : Volume σ π :=
  { v with device := d }

def withHeader (v : Volume σ π) (h : Header) : Volume σ π :=
  { v with header := h }

def withTree (v : Volume σ π) (t : σ) : Volume σ π := { v with tree := t }

/-- Run a call of the tape layer on the volume's device. -/
def onDevice {α : Type*} (v : Volume σ π)
    (call : Device π → TapeCall (Device π) α) : TapeCall (Volume σ π) α :=
  (call v.device).within v.withDevice

variable (v : Volume σ π) (d : Device π)

@[simp]
theorem withDevice_device :
    (v.withDevice d).device = d := rfl

@[simp]
theorem withDevice_header :
    (v.withDevice d).header = v.header := rfl

@[simp]
theorem withDevice_completed :
    (v.withDevice d).completed = v.completed := rfl

@[simp]
theorem withHeader_header (h : Header) :
    (v.withHeader h).header = h := rfl

@[simp]
theorem withHeader_device (h : Header) :
    (v.withHeader h).device = v.device := rfl

@[simp]
theorem withHeader_withHeader (h k : Header) :
    (v.withHeader h).withHeader k = v.withHeader k := rfl

@[simp]
theorem withHeader_completed (h : Header) :
    (v.withHeader h).completed = v.completed := rfl

@[simp]
theorem withTree_header (t : σ) :
    (v.withTree t).header = v.header := rfl

@[simp]
theorem withTree_completed (t : σ) :
    (v.withTree t).completed = v.completed := rfl

end Volume

/-- `LTFS_INDEX_VERSION`, that is `MAKE_LTFS_VERSION(2, 5, 0)`. -/
def ltfsIndexVersion : ℕ := 20500

/-- `ltfs_incremental_index_allowed`. -/
def ltfsIncrementalIndexAllowed (v : Volume σ π) : Bool :=
  ltfsIndexVersion ≤ v.writeVersion

/-- `_ltfs_full_index_due`. -/
def ltfsFullIndexDue (v : Volume σ π) : Bool :=
  0 ≤ v.fullIndexInterval ∧ v.fullIndexToGo = 0

/-- `ltfs_is_dirty`. -/
def ltfsIsDirty (v : Volume σ π) : Bool :=
  v.dirty || (v.useAtime && v.atimeDirty)

/-- `_ltfs_resolve_index_type`: an incremental index turns into a full one
where the journal cannot describe the changes. -/
def ltfsResolveIndexType (C : Catalog σ π) (type : IndexType)
    (v : Volume σ π) : IndexType :=
  let type := if type = .auto then
      if ltfsFullIndexDue v || !ltfsIncrementalIndexAllowed v then .full
      else .incremental
    else type
  if type = .incremental then
    if !ltfsIncrementalIndexAllowed v then .full
    else if C.journalErr v.tree then .full
    else if C.journalCount v.tree = 0 then .full
    else .incremental
  else type

@[simp]
theorem ltfsResolveIndexType_full (C : Catalog σ π) (v : Volume σ π) :
    ltfsResolveIndexType C .full v = .full := by
  simp [ltfsResolveIndexType]

/-- The type `ltfs_write_index` goes on with: an incremental index is a
construct of the data partition. -/
def indexTypeOn (C : Catalog σ π) (p : Part) (type : IndexType)
    (v : Volume σ π) : IndexType :=
  let type := ltfsResolveIndexType C type v
  if type = .incremental ∧ p ≠ .dp then .full else type

end AuroraLtfs.Index
