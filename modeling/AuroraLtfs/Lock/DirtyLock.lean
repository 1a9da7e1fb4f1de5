import AuroraLtfs.Lock.Entries
import AuroraLtfs.Mam.Attribute
import AuroraLtfs.Raw.Refinement

/-!
# The mutex of the index

`index->dirty_lock` guards the flags and texts of the index that the attribute code
changes.  `_xattr_set_virtual` and `_xattr_remove_virtual` take it themselves, and so do
`ltfs_sync_index`, `ltfs_write_index` and what these call.  Every operation on the mutex
is recorded.

The mutex is released as often as it was taken on every way out but one: where the
cartridge memory refuses the label of a new volume name, `_xattr_set_virtual` returns with
the mutex locked (`dirtyLock_balanced_iff`).
-/

namespace AuroraLtfs.DirtyLock

open AuroraLtfs.Tape
open AuroraLtfs.Index
open AuroraLtfs.Lock (incrementalSyncName lockStateRefused noXattr opNotAllowed
  requestedLock stringConversion syncNames xattrErr)

variable {σ π : Type*}

inductive MutexOp
  | lock
  | unlock
  deriving DecidableEq, Repr

/-- The volume as the attribute code sees it, and the operations on
`index->dirty_lock` so far. -/
structure AttrVol (σ π : Type*) where
  volume : Volume σ π
  commitMessage : Option (List UInt8)
  volumeName : Option (List UInt8)
  indexVollock : VolStat
  tapeVollock : VolStat
  fileOpenCount : ℕ
  dirtyLock : List MutexOp

/-- What the calls on the way come back with.  None of these takes the mutex. -/
structure Calls (σ π : Type*) where
  /-- `malloc` or `strndup` of the value -/
  allocates : Bool
  /-- `pathname_format` of a commit message -/
  formatMessage : List UInt8 → Except TapeError (List UInt8)
  /-- `pathname_format` of a volume name -/
  formatName : List UInt8 → Except TapeError (List UInt8)
  /-- the message that a reason gives, if the time can be put in a text -/
  reasonMessage : SyncReason → Option (List UInt8)
  /-- does `xml_parse_time` accept the value? -/
  parseTime : List UInt8 → Bool
  /-- `strtoull` of a value that is a number to its end -/
  number : List UInt8 → Option ℕ
  updateTapeAttribute : Mam.Update → Volume σ π → TapeCall (Volume σ π) Unit
  tapeDeviceLock : Volume σ π → TapeCall (Volume σ π) Unit
  /-- the branches of `_xattr_set_virtual` that leave the index alone -/
  other : String → List UInt8 → Volume σ π → TapeCall (Volume σ π) Unit

/-- `-LTFS_NO_MEMORY`. -/
def noMemory : TapeError := .other 1001

namespace AttrVol

def lock (s : AttrVol σ π) : AttrVol σ π :=
  { s with dirtyLock := s.dirtyLock ++ [.lock] }

def unlock (s : AttrVol σ π) : AttrVol σ π :=
  { s with dirtyLock := s.dirtyLock ++ [.unlock] }

/-- A call that does not take the mutex. -/
def onVolume {α : Type*} (call : Volume σ π → TapeCall (Volume σ π) α) (s : AttrVol σ π) :
    TapeCall (AttrVol σ π) α :=
  (call s.volume).within fun v => { s with volume := v }

end AttrVol

/-! ## Functions that take the mutex -/

section Source

variable (C : Catalog σ π) (K : Calls σ π)

/-- `ltfs_set_index_dirty` for a change that is not an access time. -/
def ltfsSetIndexDirty (locking : Bool) (s : AttrVol σ π) : AttrVol σ π :=
  let s := if locking then s.lock else s
  let s := { s with volume := { s.volume with dirty := true, incDirty := true } }
  if locking then s.unlock else s

/-- `ltfs_set_commit_message_reason_unlocked`. -/
def ltfsSetCommitMessageReasonUnlocked (reason : SyncReason) (s : AttrVol σ π) :
    AttrVol σ π :=
  if s.volume.dirty then
    let message := K.reasonMessage reason
    if s.commitMessage.isSome ∨ message.isSome then
      ltfsSetIndexDirty false { s with commitMessage := message }
    else s
  else s

/-- `ltfs_set_commit_message_reason`. -/
def ltfsSetCommitMessageReason (reason : SyncReason) (s : AttrVol σ π) : AttrVol σ π :=
  (ltfsSetCommitMessageReasonUnlocked K reason s.lock).unlock

/-- The end of `ltfs_write_index`.  Behind a document that is on the tape the flags are
reset, by `ltfs_unset_index_dirty` or for an incremental index in place. -/
def commitIndex (p : Part) (reason : SyncReason) (volstat : VolStat) (type : IndexType)
    (s : AttrVol σ π) : TapeCall (AttrVol σ π) Unit :=
  (s.onVolume (commit C p reason volstat type)).andThen fun _ s => (.ok (), s.lock.unlock)

/-- The recursive call of `ltfs_write_index` and what becomes of its result. -/
def writeDataFirst (reason : SyncReason) (volstat : VolStat) (s : AttrVol σ π) :
    TapeCall (AttrVol σ π) (SyncReason × VolStat) :=
  let ret := (AttrVol.onVolume (enter C .dp reason .full)
    { s with volume := cacheSuspended C s.volume }).andThen fun entry s =>
      commitIndex C .dp reason entry.1 entry.2 s
  let s := { ret.2 with volume :=
    { ret.2.volume with indexCachePathW := s.volume.indexCachePathW } }
  match ret.1 with
  | .ok () => (.ok (reason, volstat), s)
  | .error e =>
    if e.needReval then (.error e, s)
    else if e.isUnexpectedMove then
      (.error e, { s with volume := { s.volume with revalFailed := true } })
    else if e.isWritePerm then
      (s.onVolume fun v => v.onDevice tapeGetCartVolumeLockStatus).andThen fun volstat s =>
        (.ok (.writePerm, volstat), ltfsSetCommitMessageReason K .writePerm
          { s with volume := s.volume.withDevice (armWritePerm .ip s.volume.device) })
    else (.ok (reason, volstat), s)

/-- `ltfs_write_index`. -/
def ltfsWriteIndex (p : Part) (reason : SyncReason) (type : IndexType) (s : AttrVol σ π) :
    TapeCall (AttrVol σ π) Unit :=
  (s.onVolume (enter C p reason type)).andThen fun entry s =>
    if dataFirst p reason s.volume then
      (writeDataFirst C K reason entry.1 s).andThen fun again s =>
        commitIndex C p again.1 again.2 .full s
    else commitIndex C p reason entry.1 entry.2 s

/-- `ltfs_sync_index` without `index_locking`. -/
def ltfsSyncIndex (reason : SyncReason) (type : IndexType) (s : AttrVol σ π) :
    TapeCall (AttrVol σ π) Unit :=
  match syncRefusal s.volume with
  | some e => (.error e, s)
  | none =>
    -- the flags are read under the mutex
    let s := s.lock.unlock
    match syncPlan C type s.volume with
    | none => (.ok (), s)
    | some plan =>
      (s.onVolume K.tapeDeviceLock).andThen fun _ s =>
        match ltfsWriteIndex C K plan.1 reason plan.2 s with
        | (.ok (), s) => (.ok (), s)
        | (.error e, s) =>
          if e.isWritePerm && plan.1 = .dp then
            match ltfsWriteIndex C K .ip .writePerm .full
                (ltfsSetCommitMessageReason K .writePerm s) with
            | (.ok (), s) => (.error .syncFailOnDp, s)
            | (.error _, s) => (.error e, s)
          else if e.isUnexpectedMove then
            (.error e, { s with volume := { s.volume with revalFailed := true } })
          else (.error e, s)

/-! ## Setting and removing attributes -/

/-- The branch for `syncNames`.  That a value is too long has no consequence. -/
def setSync (name : String) (value : List UInt8) (s : AttrVol σ π) :
    TapeCall (AttrVol σ π) Unit :=
  let type := if name = incrementalSyncName then IndexType.incremental else .full
  if type = .incremental ∧ !ltfsIncrementalIndexAllowed s.volume then
    (.error opNotAllowed, s)
  else
    let s := s.lock
    if !s.volume.dirty then ltfsSyncIndex C K .ea type s.unlock
    else if value = [] then
      ltfsSyncIndex C K .ea type
        (ltfsSetIndexDirty false { s with commitMessage := none }).unlock
    else if !K.allocates then (.error noMemory, s.unlock)
    else match K.formatMessage value with
      | .error _ =>
        ltfsSyncIndex C K .ea .full (ltfsSetCommitMessageReasonUnlocked K .ea s).unlock
      | .ok message =>
        ltfsSyncIndex C K .ea type
          (ltfsSetIndexDirty false { s with commitMessage := some message }).unlock

/-- The branch for `ltfs.volumeName`.  Without a value the result of the update does not
end the call; with one it does, and the mutex stays locked. -/
def setVolumeName (value : List UInt8) (s : AttrVol σ π) : TapeCall (AttrVol σ π) Unit :=
  let s := s.lock
  if value = [] then
    let ret := AttrVol.onVolume (K.updateTapeAttribute (.userMediumLabel none 0))
      { s with volumeName := none }
    (ret.1, (ltfsSetIndexDirty false ret.2).unlock)
  else if !K.allocates then (.error noMemory, s.unlock)
  else match K.formatName value with
    | .error e => (.error e, s.unlock)
    | .ok name =>
      match AttrVol.onVolume
          (K.updateTapeAttribute (.userMediumLabel (some name) value.length))
          { s with volumeName := some name } with
      | (.error e, s) => (.error e, s)
      | (.ok (), s) => (.ok (), (ltfsSetIndexDirty false s).unlock)

def timeNames : List String :=
  ["ltfs.createTime", "ltfs.modifyTime", "ltfs.changeTime", "ltfs.accessTime",
    "ltfs.backupTime"]

/-- `_xattr_set_time`. -/
def xattrSetTime (value : List UInt8) (s : AttrVol σ π) : TapeCall (AttrVol σ π) Unit :=
  if !K.allocates then (.error noMemory, s)
  else if !K.parseTime value then (.error .badArg, s)
  else (.ok (), ltfsSetIndexDirty true s)

/-- The lock state that the bits of the value ask for, and its code. -/
def newVollock (lock : ℕ) : VolStat × UInt8 :=
  if lock.testBit 0 then (.locked, 1)
  else if lock.testBit 1 then (.permLocked, 3)
  else (.unlocked, 0)

/-- A value that is not refused asks for one state. -/
theorem requestedLock_eq_newVollock {lock : ℕ} (h : (requestedLock lock).isNone = false) :
    requestedLock lock = some (newVollock lock).1 := by
  rw [requestedLock] at h ⊢
  rw [newVollock]
  cases hlow : lock.testBit 0 <;> cases hhigh : lock.testBit 1 <;> simp_all

/-- The branch for `ltfs.volumeLockState`. -/
def setVolumeLockState (value : List UInt8) (s : AttrVol σ π) :
    TapeCall (AttrVol σ π) Unit :=
  if !K.allocates then (.error noMemory, s)
  else match K.number value with
    | none => (.error stringConversion, s)
    | some lock =>
      if lockStateRefused s.tapeVollock s.indexVollock lock s.fileOpenCount then
        (.error xattrErr, s)
      else
        let new := newVollock lock
        (s.onVolume (K.updateTapeAttribute (.lockedMam (some new.2) 1))).andThen fun _ s =>
          let s := ltfsSetIndexDirty false
            { s with indexVollock := new.1, tapeVollock := new.1 }
          let s := ltfsSetCommitMessageReasonUnlocked K .advLock s
          -- the result of this sync is overwritten
          let s := (ltfsSyncIndex C K .advLock .full s).2
          (s.onVolume K.tapeDeviceLock).andThen fun _ s =>
            ltfsWriteIndex C K .ip .ea .full s

/-- `_xattr_set_virtual` on a dentry that is the root or not. -/
def xattrSetVirtual (isRoot : Bool) (name : String) (value : List UInt8)
    (s : AttrVol σ π) : TapeCall (AttrVol σ π) Unit :=
  if name ∈ syncNames ∧ isRoot then setSync C K name value s
  else if name = "ltfs.volumeName" ∧ isRoot then setVolumeName K value s
  else if name ∈ timeNames then xattrSetTime K value s
  else if name = "ltfs.volumeLockState" then setVolumeLockState C K value s
  else s.onVolume (K.other name value)

/-- `_xattr_remove_virtual`. -/
def xattrRemoveVirtual (isRoot : Bool) (name : String) (s : AttrVol σ π) :
    TapeCall (AttrVol σ π) Unit :=
  if name = "ltfs.commitMessage" ∧ isRoot then
    let s := s.lock
    (.ok (), (if s.commitMessage.isSome then
      ltfsSetIndexDirty false { s with commitMessage := none } else s).unlock)
  else if name = "ltfs.volumeName" ∧ isRoot then
    let s := s.lock
    let s := if s.volumeName.isSome then
      ltfsSetIndexDirty false { s with volumeName := none } else s
    let ret := s.onVolume (K.updateTapeAttribute (.userMediumLabel none 0))
    (ret.1, ret.2.unlock)
  else (.error noXattr, s)

end Source

/-! ## Without the mutex

But for the mutex and the commit message, the two functions are those of the index
writer. -/

section Volumes

variable (C : Catalog σ π) (K : Calls σ π) {s : AttrVol σ π}

/-- What has changed since the last full index has changed since the last index. -/
def Marked (v : Volume σ π) : Prop := v.dirty = true → v.incDirty = true

section Marks

variable {v w : Volume σ π} {p : Part} {reason : SyncReason}
  {volstat : VolStat} {type : IndexType}

theorem Marked.onTape (hv : Marked v) (h : OnTape v w) : Marked w := by
  rw [OnTape] at h
  rw [h]
  exact hv

theorem commit_error_marked (hv : Marked v)
    (herror : (commit C p reason volstat type v).1 ≠ .ok ()) :
    Marked (commit C p reason volstat type v).2 := by
  have hadvance : Marked (advanceGeneration v) := by
    rw [advanceGeneration]
    split_ifs <;> exact hv
  rcases commit_cases C p reason volstat type v with
    ⟨e, d, -, h⟩ | ⟨d, e, w, -, hdoc, h⟩ | ⟨d, w, -, -, h⟩
  · have hback : Marked (((advanceGeneration v).withDevice d).withHeader
        (retractGeneration (ltfsIsDirty v) v.header (advanceGeneration v).header)) := hadvance
    rw [h]
    exact hback.onTape (outWritePerm_counts p reason volstat false _ _).onTape
  · have hcounts := writeDocument_countsDocument C p reason type (prepared type d v)
    rw [hdoc] at hcounts
    have hprepared : Marked (prepared type d v) := hadvance
    have hwritten : Marked w := hprepared.onTape hcounts.onTape
    have hback : Marked (w.withHeader (rollback type (ltfsIsDirty v) v.header w.header)) :=
      hwritten
    rw [h]
    exact hback.onTape (outWritePerm_counts p reason volstat _ _ _).onTape
  · exact absurd (by rw [h]) herror

theorem writeDataIndex_error_marked (hv : Marked v)
    (herror : (writeDataIndex C reason type v).1 ≠ .ok ()) :
    Marked (writeDataIndex C reason type v).2 := by
  have hentered := Marked.onTape hv (enter_counts C .dp reason type v).onTape
  rw [writeDataIndex] at herror ⊢
  generalize enter C .dp reason type v = r at hentered herror ⊢
  obtain ⟨_ | entry, w⟩ := r
  · exact hentered
  · exact commit_error_marked C hentered herror

theorem ltfsWriteIndex_error_marked (hv : Marked v)
    (herror : (Index.ltfsWriteIndex C .dp reason type v).1 ≠ .ok ()) :
    Marked (Index.ltfsWriteIndex C .dp reason type v).2 := by
  have hdata : Index.ltfsWriteIndex C .dp reason type v = writeDataIndex C reason type v := by
    simp [Index.ltfsWriteIndex, writeDataIndex, dataFirst]
  rw [hdata] at herror ⊢
  exact writeDataIndex_error_marked C hv herror

theorem setCommitMessageReason_volume (hs : Marked s.volume) :
    (ltfsSetCommitMessageReason K reason s).volume = s.volume := by
  change (ltfsSetCommitMessageReasonUnlocked K reason s.lock).volume = s.lock.volume
  have hs : Marked s.lock.volume := hs
  generalize s.lock = t at hs ⊢
  rw [ltfsSetCommitMessageReasonUnlocked]
  by_cases hdirty : t.volume.dirty = true
  · have hinc := hs hdirty
    rw [if_pos hdirty]
    dsimp only
    split_ifs
    · obtain ⟨v, message, name, index, tape, count, ops⟩ := t
      cases v
      simp only at hdirty hinc
      subst hdirty hinc
      rfl
    · rfl
  · rw [if_neg hdirty]

end Marks

theorem andThen_volume {α β : Type*} {r : TapeCall (AttrVol σ π) α}
    {next : α → AttrVol σ π → TapeCall (AttrVol σ π) β}
    {step : α → Volume σ π → TapeCall (Volume σ π) β}
    (hnext : ∀ a t, r = (.ok a, t) → (next a t).within AttrVol.volume = step a t.volume) :
    (r.andThen next).within AttrVol.volume = (r.within AttrVol.volume).andThen step := by
  obtain ⟨_ | a, t⟩ := r
  · rfl
  · exact hnext a t rfl

theorem commitIndex_volume (p : Part) (reason : SyncReason) (volstat : VolStat)
    (type : IndexType) (s : AttrVol σ π) :
    (commitIndex C p reason volstat type s).within AttrVol.volume =
      commit C p reason volstat type s.volume := by
  rw [commitIndex, AttrVol.onVolume]
  generalize commit C p reason volstat type s.volume = r
  obtain ⟨_ | _, v⟩ := r <;> rfl

theorem writeDataFirst_volume (reason : SyncReason) (volstat : VolStat)
    (hs : Marked s.volume) :
    (writeDataFirst C K reason volstat s).within AttrVol.volume =
      Index.writeDataFirst C reason volstat s.volume := by
  have hdata : ((AttrVol.onVolume (enter C .dp reason .full)
      { s with volume := cacheSuspended C s.volume }).andThen fun entry s =>
        commitIndex C .dp reason entry.1 entry.2 s).within AttrVol.volume =
      writeDataIndex C reason .full (cacheSuspended C s.volume) :=
    andThen_volume fun entry t _ => commitIndex_volume C .dp reason entry.1 entry.2 t
  have hmarked : (writeDataIndex C reason .full (cacheSuspended C s.volume)).1 ≠ .ok () →
      Marked (writeDataIndex C reason .full (cacheSuspended C s.volume)).2 :=
    writeDataIndex_error_marked C hs
  rw [writeDataFirst, Index.writeDataFirst]
  rw [← hdata] at hmarked ⊢
  generalize (AttrVol.onVolume (enter C .dp reason .full)
    { s with volume := cacheSuspended C s.volume }).andThen (fun entry s =>
      commitIndex C .dp reason entry.1 entry.2 s) = ret at hmarked ⊢
  obtain ⟨e | x, t⟩ := ret
  · have hmarked : Marked t.volume := hmarked (by rintro ⟨⟩)
    dsimp only [Outcome.within]
    split_ifs
    · rfl
    · rfl
    · refine andThen_volume fun volstat u hu => ?_
      obtain ⟨v, hv, rfl⟩ := Outcome.within_eq hu
      obtain ⟨d, -, rfl⟩ := Outcome.within_eq hv
      exact Prod.ext rfl (setCommitMessageReason_volume K hmarked)
    · rfl
  · rfl

theorem ltfsWriteIndex_volume (p : Part) (reason : SyncReason) (type : IndexType)
    (hs : Marked s.volume) :
    (ltfsWriteIndex C K p reason type s).within AttrVol.volume =
      Index.ltfsWriteIndex C p reason type s.volume := by
  have hentered := Marked.onTape hs (enter_counts C p reason type s.volume).onTape
  refine andThen_volume fun entry t ht => ?_
  have hvolume : t.volume = (enter C p reason type s.volume).2 := by
    obtain ⟨v, hv, rfl⟩ := Outcome.within_eq ht
    rw [hv]
  rw [← hvolume] at hentered
  split_ifs
  · refine (andThen_volume fun again u _ => commitIndex_volume C p again.1 again.2 .full u).trans ?_
    rw [writeDataFirst_volume C K reason entry.1 hentered]
  · exact commitIndex_volume C p reason entry.1 entry.2 t

/-- The end of `ltfs_sync_index`: a medium that is wanted back is not valid any more. -/
def noteMoved (r : TapeCall (Volume σ π) Unit) : TapeCall (Volume σ π) Unit :=
  match r with
  | (.ok (), v) => (.ok (), v)
  | (.error e, v) =>
    (.error e, if e.isUnexpectedMove then { v with revalFailed := true } else v)

theorem isUnexpectedMove_of_isWritePerm {e : TapeError} (h : e.isWritePerm = true) :
    e.isUnexpectedMove = false := by
  cases e <;> first | rfl | cases h

theorem ltfsSyncIndex_volume (reason : SyncReason) (type : IndexType)
    (hs : Marked s.volume) (hlock : ∀ v, Marked v → Marked (K.tapeDeviceLock v).2) :
    (ltfsSyncIndex C K reason type s).within AttrVol.volume =
      match syncRefusal s.volume, syncPlan C type s.volume with
      | some e, _ => (.error e, s.volume)
      | none, none => (.ok (), s.volume)
      | none, some plan =>
        (K.tapeDeviceLock s.volume).andThen fun _ v =>
          noteMoved (syncWrite C reason plan v) := by
  rw [ltfsSyncIndex]
  have hplan : syncPlan C type s.lock.unlock.volume = syncPlan C type s.volume := rfl
  cases syncRefusal s.volume with
  | some e => rfl
  | none =>
    dsimp only
    rw [hplan]
    cases syncPlan C type s.volume with
    | none => rfl
    | some plan =>
      refine andThen_volume fun _ t ht => ?_
      have hmarked : Marked t.volume := by
        have hkept := hlock s.volume hs
        obtain ⟨v, hv, rfl⟩ := Outcome.within_eq ht
        rwa [show K.tapeDeviceLock s.volume = _ from hv] at hkept
      have hfirst := ltfsWriteIndex_volume C K plan.1 reason plan.2 hmarked
      rw [syncWrite, ← hfirst]
      generalize hret : ltfsWriteIndex C K plan.1 reason plan.2 t = ret at hfirst ⊢
      obtain ⟨e | _, u⟩ := ret
      · dsimp only [Outcome.within]
        split_ifs with hperm hmove
        · have hdp : plan.1 = .dp := by simpa using (Bool.and_eq_true_iff.1 hperm).2
          have hkept : Marked u.volume := by
            have herror := @ltfsWriteIndex_error_marked _ _ C t.volume reason plan.2 hmarked
            rw [← hdp, ← hfirst] at herror
            exact herror (by rintro ⟨⟩)
          have hsecond := ltfsWriteIndex_volume C K .ip .writePerm .full
            (s := ltfsSetCommitMessageReason K .writePerm u)
            (by rwa [setCommitMessageReason_volume K hkept])
          rw [setCommitMessageReason_volume K hkept] at hsecond
          rw [← hsecond]
          generalize ltfsWriteIndex C K .ip .writePerm .full
            (ltfsSetCommitMessageReason K .writePerm u) = again
          have hstays : e.isUnexpectedMove = false :=
            isUnexpectedMove_of_isWritePerm (Bool.and_eq_true_iff.1 hperm).1
          obtain ⟨_ | _, w⟩ := again
          · simp [noteMoved, Outcome.within, hstays]
          · rfl
        · simp [noteMoved, hmove]
        · simp [noteMoved, hmove]
      · rfl

end Volumes

/-! ## Balance -/

/-- Between the two states the mutex has been released as often as it was taken. -/
def Balanced (s t : AttrVol σ π) : Prop :=
  ∃ ops, t.dirtyLock = s.dirtyLock ++ ops ∧ ops.count .lock = ops.count .unlock

section Balance

variable (C : Catalog σ π) (K : Calls σ π) {s t u : AttrVol σ π}

namespace Balanced

theorem of_eq (h : t.dirtyLock = s.dirtyLock) : Balanced s t :=
  ⟨[], by rw [h, List.append_nil], rfl⟩

theorem trans (hst : Balanced s t) (htu : Balanced t u) : Balanced s u := by
  obtain ⟨first, hfirst, hcount⟩ := hst
  obtain ⟨second, hsecond, hcount'⟩ := htu
  refine ⟨first ++ second, by rw [hsecond, hfirst, List.append_assoc], ?_⟩
  rw [List.count_append, List.count_append, hcount, hcount']

/-- What is done under the mutex does not touch it. -/
theorem guarded (h : t.dirtyLock = s.lock.dirtyLock) : Balanced s t.unlock := by
  refine ⟨[.lock, .unlock], ?_, rfl⟩
  rw [AttrVol.unlock, h, AttrVol.lock, List.append_assoc]
  rfl

/-- A state with the mutex still locked. -/
theorem not_locked (h : t.dirtyLock = s.lock.dirtyLock) : ¬Balanced s t := by
  rintro ⟨ops, hops, hcount⟩
  rw [h] at hops
  obtain rfl := List.append_cancel_left hops
  exact absurd hcount (by decide)

theorem onVolume {α : Type*} (call : Volume σ π → TapeCall (Volume σ π) α)
    (s : AttrVol σ π) : Balanced s (s.onVolume call).2 := .of_eq rfl

/-- A chain of calls is balanced if each of them is. -/
theorem andThen {α β : Type*} {r : TapeCall (AttrVol σ π) α}
    {next : α → AttrVol σ π → TapeCall (AttrVol σ π) β} (hr : Balanced s r.2)
    (hnext : ∀ a t, Balanced t (next a t).2) : Balanced s (r.andThen next).2 :=
  Outcome.andThen_rel (R := Balanced) trans hr fun a t _ => hnext a t

end Balanced

@[simp]
theorem setIndexDirty_dirtyLock (s : AttrVol σ π) :
    (ltfsSetIndexDirty false s).dirtyLock = s.dirtyLock := rfl

@[simp]
theorem setCommitMessageReasonUnlocked_dirtyLock (reason : SyncReason) (s : AttrVol σ π) :
    (ltfsSetCommitMessageReasonUnlocked K reason s).dirtyLock = s.dirtyLock := by
  rw [ltfsSetCommitMessageReasonUnlocked]
  split
  · dsimp only
    split <;> rfl
  · rfl

theorem setCommitMessageReason_balanced (reason : SyncReason) (s : AttrVol σ π) :
    Balanced s (ltfsSetCommitMessageReason K reason s) :=
  .guarded (setCommitMessageReasonUnlocked_dirtyLock K reason s.lock)

theorem commitIndex_balanced (p : Part) (reason : SyncReason) (volstat : VolStat)
    (type : IndexType) (s : AttrVol σ π) :
    Balanced s (commitIndex C p reason volstat type s).2 :=
  .andThen (.onVolume _ s) fun _ _ => .guarded rfl

theorem writeDataFirst_balanced (reason : SyncReason) (volstat : VolStat)
    (s : AttrVol σ π) : Balanced s (writeDataFirst C K reason volstat s).2 := by
  have hdata : Balanced s ((AttrVol.onVolume (enter C .dp reason .full)
      { s with volume := cacheSuspended C s.volume }).andThen fun entry s =>
        commitIndex C .dp reason entry.1 entry.2 s).2 :=
    .andThen (.of_eq rfl) fun entry t => commitIndex_balanced C _ _ _ _ t
  rw [writeDataFirst]
  generalize (AttrVol.onVolume (enter C .dp reason .full)
    { s with volume := cacheSuspended C s.volume }).andThen (fun entry s =>
      commitIndex C .dp reason entry.1 entry.2 s) = ret at hdata ⊢
  obtain ⟨e | x, t⟩ := ret
  · dsimp only
    split_ifs
    · exact hdata.trans (.of_eq rfl)
    · exact hdata.trans (.of_eq rfl)
    · refine hdata.trans (.andThen (.of_eq rfl) fun volstat t => ?_)
      exact .trans (.of_eq rfl) (setCommitMessageReason_balanced K .writePerm _)
    · exact hdata.trans (.of_eq rfl)
  · exact hdata.trans (.of_eq rfl)

theorem ltfsWriteIndex_balanced (p : Part) (reason : SyncReason) (type : IndexType)
    (s : AttrVol σ π) : Balanced s (ltfsWriteIndex C K p reason type s).2 := by
  refine .andThen (.onVolume _ s) fun entry t => ?_
  split_ifs
  · exact .andThen (writeDataFirst_balanced C K _ _ t)
      fun again u => commitIndex_balanced C _ _ _ _ u
  · exact commitIndex_balanced C _ _ _ _ t

theorem ltfsSyncIndex_balanced (reason : SyncReason) (type : IndexType)
    (s : AttrVol σ π) : Balanced s (ltfsSyncIndex C K reason type s).2 := by
  rw [ltfsSyncIndex]
  split
  · exact .of_eq rfl
  have hread : Balanced s s.lock.unlock := .guarded rfl
  dsimp only
  split
  · exact hread
  next plan _ =>
  refine hread.trans (.andThen (.onVolume _ _) fun _ t => ?_)
  have hwrite := ltfsWriteIndex_balanced C K plan.1 reason plan.2 t
  generalize ltfsWriteIndex C K plan.1 reason plan.2 t = ret at hwrite ⊢
  obtain ⟨e | x, t⟩ := ret
  · dsimp only
    split_ifs
    · have hsecond := (setCommitMessageReason_balanced K .writePerm t).trans
        (ltfsWriteIndex_balanced C K .ip .writePerm .full _)
      generalize ltfsWriteIndex C K .ip .writePerm .full
        (ltfsSetCommitMessageReason K .writePerm t) = ret at hsecond ⊢
      obtain ⟨_ | _, t⟩ := ret
      · exact hwrite.trans hsecond
      · exact hwrite.trans hsecond
    · exact hwrite.trans (.of_eq rfl)
    · exact hwrite
  · exact hwrite

theorem setSync_balanced (name : String) (value : List UInt8) (s : AttrVol σ π) :
    Balanced s (setSync C K name value s).2 := by
  have hsync : ∀ {t : AttrVol σ π} (type : IndexType), t.dirtyLock = s.lock.dirtyLock →
      Balanced s (ltfsSyncIndex C K .ea type t.unlock).2 := fun type h =>
    (Balanced.guarded h).trans (ltfsSyncIndex_balanced C K .ea type _)
  unfold setSync
  generalize (if name = incrementalSyncName then IndexType.incremental else .full) = type
  dsimp only
  split_ifs
  · exact .of_eq rfl
  · exact hsync _ rfl
  · exact hsync _ rfl
  · exact .guarded rfl
  · split
    · exact hsync _ (setCommitMessageReasonUnlocked_dirtyLock K .ea _)
    · exact hsync _ rfl

theorem xattrSetTime_balanced (value : List UInt8) (s : AttrVol σ π) :
    Balanced s (xattrSetTime K value s).2 := by
  rw [xattrSetTime]
  split_ifs
  · exact .of_eq rfl
  · exact .of_eq rfl
  · exact .guarded rfl

theorem setVolumeLockState_balanced (value : List UInt8) (s : AttrVol σ π) :
    Balanced s (setVolumeLockState C K value s).2 := by
  rw [setVolumeLockState]
  split_ifs
  · exact .of_eq rfl
  split
  · exact .of_eq rfl
  next lock _ =>
  split_ifs
  · exact .of_eq rfl
  refine .andThen (.onVolume _ s) fun _ t => ?_
  have hmarked : Balanced t (ltfsSetCommitMessageReasonUnlocked K .advLock
      (ltfsSetIndexDirty false
        { t with indexVollock := (newVollock lock).1, tapeVollock := (newVollock lock).1 })) :=
    .of_eq (setCommitMessageReasonUnlocked_dirtyLock K .advLock _)
  have hsynced := hmarked.trans (ltfsSyncIndex_balanced C K .advLock .full _)
  exact hsynced.trans
    (.andThen (.onVolume _ _) fun _ u => ltfsWriteIndex_balanced C K _ _ _ u)

theorem xattrRemoveVirtual_balanced (isRoot : Bool) (name : String) (s : AttrVol σ π) :
    Balanced s (xattrRemoveVirtual K isRoot name s).2 := by
  rw [xattrRemoveVirtual]
  split_ifs
  · refine .guarded ?_
    split_ifs <;> rfl
  · refine .guarded ?_
    dsimp only [AttrVol.onVolume, Outcome.within]
    split_ifs <;> rfl
  · exact .of_eq rfl

/-- The name is accepted, and the cartridge memory refuses its label. -/
def LabelRefused (value : List UInt8) (s : AttrVol σ π) : Prop :=
  value ≠ [] ∧ K.allocates ∧ ∃ name, K.formatName value = .ok name ∧
    ∃ e, (K.updateTapeAttribute (.userMediumLabel (some name) value.length) s.volume).1 =
      .error e

theorem setVolumeName_balanced_iff (value : List UInt8) (s : AttrVol σ π) :
    Balanced s (setVolumeName K value s).2 ↔ ¬LabelRefused K value s := by
  rw [setVolumeName, LabelRefused]
  dsimp only
  split_ifs with hvalue hallocates
  · exact iff_of_true (.guarded rfl) fun h => h.1 hvalue
  · refine iff_of_true (.guarded rfl) fun h => ?_
    simp [h.2.1] at hallocates
  have hallocates : K.allocates = true := by simpa using hallocates
  split
  next hformat =>
    refine iff_of_true (.guarded rfl) ?_
    rintro ⟨-, -, name, hname, -⟩
    cases hformat.symm.trans hname
  next name hformat =>
  have hrefused : (∃ new, K.formatName value = .ok new ∧ ∃ e, (K.updateTapeAttribute
      (.userMediumLabel (some new) value.length) s.volume).1 = .error e) ↔
        ∃ e, (K.updateTapeAttribute (.userMediumLabel (some name) value.length)
          s.volume).1 = .error e := by
    simp [hformat]
  rw [hrefused, AttrVol.onVolume, Outcome.within]
  dsimp only [AttrVol.lock]
  obtain ⟨e | x, v⟩ := K.updateTapeAttribute (.userMediumLabel (some name) value.length)
    s.volume
  · -- the mutex has been taken once, and this is the way out
    exact iff_of_false (Balanced.not_locked rfl)
      (not_not_intro ⟨hvalue, hallocates, e, rfl⟩)
  · refine iff_of_true (.guarded rfl) ?_
    rintro ⟨-, -, e, he⟩
    cases he

/-- The mutex is released as often as it was taken, on every way out and whatever the calls
on the way come back with, unless the label of a new volume name is refused. -/
theorem dirtyLock_balanced_iff (isRoot : Bool) (name : String) (value : List UInt8)
    (s : AttrVol σ π) :
    (Balanced s (xattrSetVirtual C K isRoot name value s).2 ↔
      ¬(name = "ltfs.volumeName" ∧ isRoot ∧ LabelRefused K value s)) ∧
    Balanced s (xattrRemoveVirtual K isRoot name s).2 := by
  refine ⟨?_, xattrRemoveVirtual_balanced K isRoot name s⟩
  rw [xattrSetVirtual]
  by_cases hname : name = "ltfs.volumeName" ∧ isRoot
  · have hsync : ¬(name ∈ syncNames ∧ isRoot) := by
      rw [hname.1]
      exact fun h => absurd h.1 (by decide)
    rw [if_neg hsync, if_pos hname, setVolumeName_balanced_iff]
    simp [hname]
  · refine iff_of_true ?_ fun h => hname ⟨h.1, h.2.1⟩
    split_ifs
    · exact setSync_balanced C K name value s
    · exact xattrSetTime_balanced K value s
    · exact setVolumeLockState_balanced C K value s
    · exact .onVolume _ s

end Balance

/-! ## A refused label -/

/-- A drive that cannot write attributes. -/
def noAttributes : Calls Unit (List ℕ) where
  allocates := true
  formatMessage value := .ok value
  formatName value := .ok value
  reasonMessage _ := none
  parseTime _ := true
  number _ := none
  updateTapeAttribute _ v := (.error (.other 21705), v)
  tapeDeviceLock v := (.ok (), v)
  other _ _ v := (.error noXattr, v)

def cleanVol : AttrVol Unit (List ℕ) where
  volume := mounted () fun _ => []
  commitMessage := none
  volumeName := none
  indexVollock := .unlocked
  tapeVollock := .unlocked
  fileOpenCount := 0
  dirtyLock := []

/-- The name `A` is refused by the cartridge memory, and the mutex is locked ever after. -/
theorem setVolumeName_leaves_locked :
    (xattrSetVirtual Raw.emptyCatalog noAttributes true "ltfs.volumeName" [0x41]
        cleanVol).1 = .error (.other 21705) ∧
      (xattrSetVirtual Raw.emptyCatalog noAttributes true "ltfs.volumeName" [0x41]
        cleanVol).2.dirtyLock = [.lock] ∧
      ¬Balanced cleanVol (xattrSetVirtual Raw.emptyCatalog noAttributes true
        "ltfs.volumeName" [0x41] cleanVol).2 := by
  refine ⟨?_, ?_, Balanced.not_locked ?_⟩
  all_goals
    rw [xattrSetVirtual, if_neg (by decide), if_pos (by decide)]
    rfl

end AuroraLtfs.DirtyLock
