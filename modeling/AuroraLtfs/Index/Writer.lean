import AuroraLtfs.Index.Volume

/-!
# Writing an index

`ltfs_write_index` and the functions it is built from, at the granularity of
tape commands.  The function is cut at its two natural seams: `enter` runs up
to the read-only check, `commit` starts where the generation is updated.  In
between, a write to the index partition may first put a full index on the data
partition; that recursive call never recurses again.
-/

namespace AuroraLtfs.Index

open AuroraLtfs.Tape

variable {σ π : Type*} (C : Catalog σ π)

/-- A write to the on-disk index cache, if one is kept. -/
def cacheWrite (v : Volume σ π) : TapeCall (Volume σ π) Unit :=
  if v.indexCachePathW then
    (if v.cacheAnswers v.cacheIssued then .ok () else .error .cacheIo,
      { v with cacheIssued := v.cacheIssued + 1 })
  else (.ok (), v)

/-- The output callbacks: each block goes to the tape and then to the on-disk
cache.  The state carries the number of blocks written. -/
def xmlOutput : List π → ℕ × Volume σ π → TapeCall (ℕ × Volume σ π) Unit
  | [], s => (.ok (), s)
  | b :: bs, (n, v) =>
    (((v.onDevice (tapeWrite b true true)).andThen fun _ v =>
      cacheWrite v).within fun v => (n, v)).andThen fun _ s =>
        xmlOutput bs (s.1 + 1, s.2)

/-- The document of the given type, and the tree after producing it. -/
def document (type : IndexType) (v : Volume σ π) : List π :=
  match type with
  | .incremental => C.incSchema v.header v.tree
  | _ => C.schema v.header v.tree

def afterDocument (type : IndexType) (written : Option ℕ) (tree : σ) : σ :=
  match type with
  | .incremental => C.afterIncSchema written tree
  | _ => C.afterSchema written tree

/-- `xml_schema_to_tape`.  The catalog says which blocks the XML writer hands over.  They
need not be a whole document: the status of a writer that gives up in the middle is only
logged, and what it leaves is closed by a file mark like any other. -/
def xmlSchemaToTape (reason : SyncReason) (type : IndexType)
    (v : Volume σ π) : TapeCall (Volume σ π) Unit :=
  match xmlOutput (document C type v) (0, v) with
  | (.error e, (n, v)) =>
    (.error e, v.withTree (afterDocument C type (some n) v.tree))
  | (.ok (), (_, v)) =>
    let v := v.withTree (afterDocument C type none v.tree)
    (v.onDevice (tapeWriteFilemark 1 true true (reason = .format))).andThen
      fun _ v => (.ok (), { v with completed := v.completed + 1 })

/-- The read-only check: an out-of-space condition does not prevent writing an
index. -/
def indexReadOnly (d : Device π) : Option TapeError :=
  let spaceOnly : Except TapeError Unit → Bool := fun r =>
    r = .ok () ∨ r = .error .noSpace ∨ r = .error .lessSpace
  let ret := tapeReadOnly .ip d
  let ret := if spaceOnly ret then tapeReadOnly .dp d else ret
  match ret with
  | .error e => if spaceOnly ret then none else some e
  | .ok () => none

/-- Lift the write-error flag and forget the append position of `p`, so that an
index can be put after everything the partition holds. -/
def armWritePerm (p : Part) (d : Device π) : Device π :=
  { d.setAppendPos p 0 with writeError := false }

/-- `ltfs_write_index` up to the read-only check. -/
def enter (p : Part) (reason : SyncReason) (type : IndexType)
    (v : Volume σ π) : TapeCall (Volume σ π) (VolStat × IndexType) :=
  (v.onDevice tapeGetCartVolumeLockStatus).andThen fun volstat v =>
    let type := indexTypeOn C p type v
    if reason = .writePerm then
      (.ok (volstat, type), v.withDevice (armWritePerm p v.device))
    else match indexReadOnly v.device with
      | some e => (.error e, v)
      | none => (.ok (volstat, type), v)

/-- Entering succeeds when the lock status can be read and, unless a
write-permanent error is being handled, the volume is writable. -/
theorem enter_eq_ok {p : Part} {reason : SyncReason} {type : IndexType} {v w : Volume σ π}
    {entry : VolStat × IndexType} (h : enter C p reason type v = (.ok entry, w)) :
    ∃ d, tapeGetCartVolumeLockStatus v.device = (.ok entry.1, d) ∧
      entry.2 = indexTypeOn C p type v ∧
      ((reason = .writePerm ∧ w = v.withDevice (armWritePerm p d)) ∨
        (reason ≠ .writePerm ∧ indexReadOnly d = none ∧ w = v.withDevice d)) := by
  obtain ⟨volstat, u, hlock, h⟩ := Outcome.andThen_eq_ok h
  obtain ⟨d, hd, rfl⟩ := Outcome.within_eq hlock
  by_cases hperm : reason = .writePerm
  · simp only [hperm, if_true, Prod.mk.injEq, Except.ok.injEq] at h
    obtain ⟨rfl, rfl⟩ := h
    exact ⟨d, hd, rfl, .inl ⟨hperm, rfl⟩⟩
  · simp only [hperm, if_false] at h
    split at h
    · simp at h
    · rename_i hwritable
      simp only [Prod.mk.injEq, Except.ok.injEq] at h
      obtain ⟨rfl, rfl⟩ := h
      exact ⟨d, hd, rfl, .inr ⟨hperm, hwritable, rfl⟩⟩

/-- The lock status that records one more write-permanent error. -/
def nextVolStat (volstat : VolStat) (p : Part) : Option VolStat :=
  match volstat, p with
  | .pweDp, .ip => some .pweBoth
  | .pweIp, .dp => some .pweBoth
  | .unlocked, .ip => some .pweIp
  | .unlocked, .dp => some .pweDp
  | _, _ => none

/-- Restore the write-error flag that was lifted to handle a write-permanent
error. -/
def restoreWriteError (reason : SyncReason) (v : Volume σ π) : Volume σ π :=
  if reason = .writePerm then
    v.withDevice { v.device with writeError := true }
  else v

/-- The label `out_write_perm`. -/
def outWritePerm (p : Part) (reason : SyncReason) (volstat : VolStat)
    (updateVollock : Bool) (ret : Except TapeError Unit) (v : Volume σ π) :
    TapeCall (Volume σ π) Unit :=
  let v := restoreWriteError reason v
  match (if updateVollock then nextVolStat volstat p else none) with
  | none => (ret, v)
  | some status =>
    (v.onDevice (tapeSetCartVolumeLockStatus status)).andThen fun _ v =>
      (ret, v)

/-- Generation and modification time move on when there is something to
write. -/
def advanceGeneration (v : Volume σ π) : Volume σ π :=
  if ltfsIsDirty v then
    { v with
      header := { v.header with
        generation := v.header.generation + 1
        modTime := v.clock v.ticks }
      ticks := v.ticks + 1 }
  else v

/-- Undo `advanceGeneration`. -/
def retractGeneration (generationInc : Bool) (old : Header) (h : Header) : Header :=
  if generationInc then
    { h with generation := h.generation - 1, modTime := old.modTime }
  else h

/-- The back pointer: an older index on the data partition, or the previous
incremental index. -/
def advanceBackptr (type : IndexType) (h : Header) : Header :=
  match type with
  | .incremental => { h with backptrInc := h.selfptrInc }
  | _ => if h.selfptr.partition = some .dp then { h with backptr := h.selfptr }
      else h

/-- The self pointer names the first block after the leading file mark. -/
def advanceSelfptr (type : IndexType) (pos : Position) (h : Header) : Header :=
  let here : TapeOffset := ⟨some pos.partition, pos.block + 1⟩
  match type with
  | .incremental => { h with selfptrInc := here }
  | _ => { h with selfptr := here }

/-- What the exit after a failed position query puts back. -/
def rollbackBackptr (type : IndexType) (generationInc : Bool) (old : Header)
    (h : Header) : Header :=
  match type with
  | .incremental => { h with backptrInc := old.backptrInc }
  | _ => { retractGeneration generationInc old h with backptr := old.backptr }

/-- What the exits of a failed write put back. -/
def rollback (type : IndexType) (generationInc : Bool) (old : Header)
    (h : Header) : Header :=
  match type with
  | .incremental => { h with
      backptrInc := old.backptrInc
      selfptrInc := old.selfptrInc }
  | _ => { retractGeneration generationInc old h with
      backptr := old.backptr
      selfptr := old.selfptr }

/-- The flush that comes before the leading file mark where the index
partition holds data behind its last index. -/
def flushData (p : Part) (v : Volume σ π) : TapeCall (Volume σ π) Unit :=
  if p = .ip ∧ ¬v.ipIndexFileEnd then
    v.onDevice (tapeWriteFilemark 0 true true false)
  else (.ok (), v)

/-- The tape commands of one document. -/
def writeDocument (p : Part) (reason : SyncReason) (type : IndexType)
    (v : Volume σ π) : TapeCall (Volume σ π) Unit :=
  (flushData p v).andThen fun _ v =>
    (v.onDevice (tapeWriteFilemark 1 true true true)).andThen fun _ v =>
      xmlSchemaToTape C reason type v

/-- The bookkeeping once a document is on the tape. -/
def settle (p : Part) (type : IndexType) (v : Volume σ π) : Volume σ π :=
  match type with
  | .incremental =>
    -- the data partition does not end in a full index any more
    { v with
      dpIndexFileEnd := false
      incDirty := false
      fullIndexToGo :=
        if 0 < v.fullIndexToGo then v.fullIndexToGo - 1 else v.fullIndexToGo }
  | _ =>
    let v := match p with
      | .ip => { v with
          ipIndexFileEnd := true
          device := tapeSetIpAppendPosition (v.header.selfptr.block - 1)
            v.device }
      | .dp => { v with dpIndexFileEnd := true }
    { v with
      header := { v.header with
        backptrInc := ⟨none, 0⟩
        selfptrInc := ⟨none, 0⟩ }
      tree := C.incjClear v.tree
      dirty := false
      incDirty := false
      atimeDirty := false
      fullIndexToGo := v.fullIndexInterval }

/-- `ltfs_write_index` from the update of the generation to the end. -/
def commit (p : Part) (reason : SyncReason) (volstat : VolStat)
    (type : IndexType) (v : Volume σ π) : TapeCall (Volume σ π) Unit :=
  let generationInc := ltfsIsDirty v
  let old := v.header
  match (advanceGeneration v).onDevice
      (tapeSeekAppendPosition p (p = .ip)) with
  | (.error e, v) =>
    outWritePerm p reason volstat false (.error e)
      (v.withHeader (retractGeneration generationInc old v.header))
  | (.ok (), v) =>
    let v := v.withHeader (advanceBackptr type v.header)
    match tapeGetPosition v.device with
    | .error e =>
      outWritePerm p reason volstat false (.error e)
        (v.withHeader (rollbackBackptr type generationInc old v.header))
    | .ok pos =>
      let v := v.withHeader (advanceSelfptr type pos v.header)
      match writeDocument C p reason type v with
      | (.error e, v) =>
        outWritePerm p reason volstat e.isWritePerm (.error e)
          (v.withHeader (rollback type generationInc old v.header))
      | (.ok (), v) =>
        outWritePerm p reason volstat false (.ok ()) (settle C p type v)

/-- The volume as the document is written: header moved on, device at the
append position. -/
def prepared (type : IndexType) (d : Device π) (v : Volume σ π) : Volume σ π :=
  ((advanceGeneration v).withDevice d).withHeader
    (advanceSelfptr type d.position
      (advanceBackptr type (advanceGeneration v).header))

@[simp]
theorem advanceGeneration_device (v : Volume σ π) :
    (advanceGeneration v).device = v.device := by
  unfold advanceGeneration
  split_ifs <;> rfl

@[simp]
theorem advanceGeneration_completed (v : Volume σ π) :
    (advanceGeneration v).completed = v.completed := by
  unfold advanceGeneration
  split_ifs <;> rfl

@[simp]
theorem prepared_completed (type : IndexType) (d : Device π)
    (v : Volume σ π) : (prepared type d v).completed = v.completed := by
  simp [prepared]

/-- The three ways through `commit`: the seek fails, the document fails, or the
document is on the tape.  The exit behind the position query is never taken,
because the position is cached. -/
theorem commit_cases (p : Part) (reason : SyncReason) (volstat : VolStat)
    (type : IndexType) (v : Volume σ π) :
    (∃ e d, tapeSeekAppendPosition p (p = .ip) v.device = (.error e, d) ∧
      commit C p reason volstat type v =
        outWritePerm p reason volstat false (.error e)
          (((advanceGeneration v).withDevice d).withHeader
            (retractGeneration (ltfsIsDirty v) v.header
              (advanceGeneration v).header))) ∨
    (∃ d e w, tapeSeekAppendPosition p (p = .ip) v.device = (.ok (), d) ∧
      writeDocument C p reason type (prepared type d v) = (.error e, w) ∧
      commit C p reason volstat type v =
        outWritePerm p reason volstat e.isWritePerm (.error e)
          (w.withHeader (rollback type (ltfsIsDirty v) v.header w.header))) ∨
    (∃ d w, tapeSeekAppendPosition p (p = .ip) v.device = (.ok (), d) ∧
      writeDocument C p reason type (prepared type d v) = (.ok (), w) ∧
      commit C p reason volstat type v =
        (.ok (), restoreWriteError reason (settle C p type w))) := by
  have hlift : ∀ r d, tapeSeekAppendPosition p (p = .ip) v.device = (r, d) →
      (advanceGeneration v).onDevice (tapeSeekAppendPosition p (p = .ip)) =
        (r, (advanceGeneration v).withDevice d) := by
    intro r d hseek
    simp [Volume.onDevice, Outcome.within, hseek]
  rcases hseek : tapeSeekAppendPosition p (p = .ip) v.device with ⟨e | _, d⟩
  · left
    refine ⟨e, d, rfl, ?_⟩
    simp [commit, hlift _ _ hseek]
  · right
    rcases hdoc : writeDocument C p reason type (prepared type d v) with
      ⟨e | _, w⟩
    · left
      refine ⟨d, e, w, rfl, hdoc, ?_⟩
      simp only [prepared] at hdoc
      simp [commit, hlift _ _ hseek, tapeGetPosition, hdoc]
    · right
      refine ⟨d, w, rfl, hdoc, ?_⟩
      simp only [prepared] at hdoc
      simp [commit, hlift _ _ hseek, tapeGetPosition, hdoc, outWritePerm]

/-- `ltfs_write_index` on the data partition. -/
def writeDataIndex (reason : SyncReason) (type : IndexType)
    (v : Volume σ π) : TapeCall (Volume σ π) Unit :=
  (enter C .dp reason type v).andThen fun entry v =>
    commit C .dp reason entry.1 entry.2 v

/-- Does an index have to go to the data partition first? -/
def dataFirst (p : Part) (reason : SyncReason) (v : Volume σ π) : Bool :=
  p = .ip ∧ reason ≠ .writePerm ∧
    (¬v.dpIndexFileEnd ∨
      (v.ipIndexFileEnd ∧ v.header.selfptr.partition = some .ip))

/-- The volume handed to the recursive call: no on-disk cache, and an empty
journal. -/
def cacheSuspended (v : Volume σ π) : Volume σ π :=
  { v with indexCachePathW := false, tree := C.incjClear v.tree }

/-- The full index on the data partition that precedes one on the index
partition.  Only a changed tape stops the caller; a write-permanent error makes
it append on the index partition, any other error is ignored. -/
def writeDataFirst (reason : SyncReason) (volstat : VolStat)
    (v : Volume σ π) : TapeCall (Volume σ π) (SyncReason × VolStat) :=
  let ret := writeDataIndex C reason .full (cacheSuspended C v)
  let v := { ret.2 with indexCachePathW := v.indexCachePathW }
  match ret.1 with
  | .ok () => (.ok (reason, volstat), v)
  | .error e =>
    if e.needReval then (.error e, v)
    else if e.isUnexpectedMove then (.error e, { v with revalFailed := true })
    else if e.isWritePerm then
      (v.onDevice tapeGetCartVolumeLockStatus).andThen fun volstat v =>
        (.ok (.writePerm, volstat), v.withDevice (armWritePerm .ip v.device))
    else (.ok (reason, volstat), v)

/-- `ltfs_write_index`. -/
def ltfsWriteIndex (p : Part) (reason : SyncReason) (type : IndexType)
    (v : Volume σ π) : TapeCall (Volume σ π) Unit :=
  (enter C p reason type v).andThen fun entry v =>
    if dataFirst p reason v then
      (writeDataFirst C reason entry.1 v).andThen fun again v =>
        commit C p again.1 again.2 .full v
    else commit C p reason entry.1 entry.2 v

/-- `ltfs_write_index_conditional`: before data goes to the other partition,
`p` must end in an index. -/
def ltfsWriteIndexConditional (p : Part) (v : Volume σ π) : TapeCall (Volume σ π) Unit :=
  let needed : Bool := match p with
    | .ip => ¬v.ipIndexFileEnd
    | .dp => ¬v.dpIndexFileEnd ∨
        (v.ipIndexFileEnd ∧ v.header.selfptr.partition = some .ip)
  if needed then ltfsWriteIndex C p .cachePressure .full v else (.ok (), v)

end AuroraLtfs.Index
