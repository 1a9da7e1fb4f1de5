import AuroraLtfs.Lock.Entries
import AuroraLtfs.Lock.Orderly

/-!
# Index writes and the volume lock

On every way from an entry point to `ltfs_write_index`, the thread holds the
volume lock for writing exactly where the way sees to it.  Four ways do not.
Setting an attribute takes the write lock only for `ltfs.sync` on the path `/`,
while four more attributes write an index.  Reading `ltfs.sync` takes the read
lock.  The scheduler writes its index after `ltfs_fsraw_write` has given the lock
back.  `ltfs_unmount` loses the lock when it starts over after a revalidation.
-/

namespace AuroraLtfs.Lock

open AuroraLtfs.Tape
open AuroraLtfs.Index
open AuroraLtfs.RwLock
open AuroraLtfs.Raw
open Watched (watch quietly)

variable {σ β ρ : Type*} {call : Shared (FileVol σ β) → ρ × Shared (FileVol σ β)}

/-- How the lock is held, after index writes that were all as planned. -/
structure Under (h : Held) (w : WatchedVol σ β) : Prop where
  held : w.state.held = some h
  planned : w.AsPlanned

section Steps

variable {h h' : Held} {w : WatchedVol σ β}

/-- A call that writes no index. -/
theorem Under.quietly (hw : Under h w) (hheld : (call w.state).2.held = some h') :
    Under h' (quietly call w).2 :=
  ⟨hheld, hw.planned⟩

/-- A call that does not touch the lock. -/
theorem Under.kept (hw : Under h w) (hkeeps : Keeps w.state (call w.state).2) :
    Under h (Watched.quietly call w).2 :=
  hw.quietly (hkeeps.held.trans hw.held)

/-- A call that does not touch the lock, and writes an index under it. -/
theorem Under.watch (hw : Under h w) (path : CallPath) (hpath : h = .write ↔ path.Exclusive)
    {point : Shared (FileVol σ β) → Option IndexWrite}
    (hpoint : ∀ e ∈ point w.state, e = ⟨path, w.state.held⟩)
    (hkeeps : Keeps w.state (call w.state).2) : Under h (Watched.watch point call w).2 := by
  refine ⟨hkeeps.held.trans hw.held, hw.planned.watch ?_ call⟩
  intro e he
  rw [hpoint e he, IndexWrite.AsPlanned, hw.held]
  simpa using hpath

theorem Under.release (hw : Under h w) (hne : h ≠ .free) :
    Under .free { w with state := releaseMrsw w.state } :=
  ⟨releaseMrsw_held hw.held hne, hw.planned⟩

end Steps

section Calls

variable (C : Catalog σ (List β)) (K : Surroundings σ β) (bs passes : ℕ)
variable {h : Held} {w : WatchedVol σ β} (reason : SyncReason) (files : List (Waiting β))
  (partition : Option Part) (rs : List (Request β))

/-! ## The scheduler -/

/-- A raw write of which the last part is left open. -/
theorem rawWrite_under {α : Type*} (bytes : List β)
    (settle : Option ℕ → Shared (FileVol σ β) → α × Shared (FileVol σ β))
    (hsettle : ∀ start s, Keeps s (settle start s).2) (hw : Under .free w) :
    Under .free (retry (Watched.watch (rawWritePoint bs partition bytes 1)
      (rawWritePass C bs partition bytes 1 settle)) passes w).2 := by
  have hpass := rawWritePass_free C bs partition bytes 1 hsettle
  constructor
  · have hstate : (retry (Watched.watch (rawWritePoint bs partition bytes 1)
        (rawWritePass C bs partition bytes 1 settle)) passes w).2.state =
        (retry (rawWritePass C bs partition bytes 1 settle) passes w.state).2 :=
      congrArg Prod.snd (Watched.retry_watch _ _ passes w)
    rw [hstate]
    exact retry_preserves hpass passes hw.held
  · exact hw.planned.retry hpass (rawWritePoint_asPlanned bs partition bytes 1)
      passes hw.held

theorem watchedFsrawWrite_under (r : Request β) (hw : Under .free w) :
    Under .free (watchedFsrawWrite C bs passes partition r w).2 :=
  rawWrite_under C bs passes partition r.bytes _
    (saveExtent_keeps bs r.offset partition r.bytes) hw

theorem unifiedWriteIndexAfterPerm_under (e : TapeError) (hw : Under .free w) :
    Under .free (unifiedWriteIndexAfterPerm C K e w) := by
  unfold unifiedWriteIndexAfterPerm
  split_ifs
  · have hstatus := hw.kept (onVolume_keeps
      (fun v => v.onDevice (tapeSetCartVolumeLockStatus .pweDp)) w.state)
    have hposition := hstatus.kept (driveCommand_keeps _)
    simp only
    generalize Watched.quietly driveCommand _ = r at hposition ⊢
    obtain ⟨_ | _, t⟩ := r
    · exact hposition
    · have hcleaned := hposition.kept (onVol_keeps K.cleanupExtent t.state)
      simp only
      generalize Watched.quietly (onVol K.cleanupExtent) t = r at hcleaned ⊢
      obtain ⟨_ | _, u⟩ := r
      · exact hcleaned
      · apply hcleaned.watch .afterPerm (by simp [CallPath.Exclusive])
        · intro e he
          cases he
          rfl
        · exact onVolume_keeps _ u.state
  · exact hw

theorem writeRequests_under (hw : Under .free w) :
    Under .free (writeRequests C K bs passes rs w).2 := by
  induction rs generalizing w with
  | nil => exact hw
  | cons r rs ih =>
    have hwritten := watchedFsrawWrite_under C bs passes (some .dp) r hw
    rw [writeRequests]
    generalize watchedFsrawWrite C bs passes (some .dp) r w = ret at hwritten ⊢
    obtain ⟨_ | _ | _, t⟩ := ret
    · exact hwritten
    · exact unifiedWriteIndexAfterPerm_under C K _ hwritten
    · exact ih hwritten

theorem Under.onFile (d : Dentry) (hw : Under h w) : Under h (onFile d w) :=
  ⟨hw.held, hw.planned⟩

theorem unifiedFlushUnlocked_under (file : Waiting β) (hw : Under .free w) :
    Under .free (unifiedFlushUnlocked C K bs passes file w).2 := by
  unfold unifiedFlushUnlocked
  cases file.writeError with
  | some e => exact hw
  | none => exact writeRequests_under C K bs passes file.requests (hw.onFile _)

theorem unifiedFlushAll_under (hw : Under .free w) :
    Under .free (unifiedFlushAll C K bs passes files w).2 := by
  induction files generalizing w with
  | nil => exact hw
  | cons file files ih =>
    have hflushed := unifiedFlushUnlocked_under C K bs passes file hw
    rw [unifiedFlushAll]
    generalize unifiedFlushUnlocked C K bs passes file w = ret at hflushed ⊢
    obtain ⟨_ | _ | _, t⟩ := ret
    · exact hflushed
    · exact hflushed
    · exact ih hflushed

theorem ltfsFsopsFlush_under (hw : Under .free w) :
    Under .free (ltfsFsopsFlush C K bs passes w).2 :=
  unifiedFlushAll_under C K bs passes _ hw

theorem unifiedProcessDataQueue_under (hw : Under .free w) :
    Under .free (unifiedProcessDataQueue C K bs passes files w) := by
  induction files generalizing w with
  | nil => exact hw
  | cons file files ih =>
    exact ih (writeRequests_under C K bs passes file.requests (hw.onFile _))

theorem writeIpRequests_under (hw : Under .free w) :
    Under .free (writeIpRequests C bs passes rs w) := by
  induction rs generalizing w with
  | nil => exact hw
  | cons r rs ih =>
    have hwritten := rawWrite_under C bs passes (some .ip) r.bytes
      (fun start s => (start, s)) (fun _ => Keeps.refl) hw
    rw [writeIpRequests]
    generalize retry (Watched.watch _ _) passes w = ret at hwritten ⊢
    obtain ⟨_ | _ | _, t⟩ := ret
    · exact hwritten
    · simp only
      split_ifs
      · exact hwritten.kept (onVolume_keeps _ t.state)
      · exact hwritten
    · exact ih hwritten

theorem unifiedProcessIndexQueue_under (hw : Under .free w) :
    Under .free (unifiedProcessIndexQueue C bs passes files w) := by
  induction files generalizing w with
  | nil => exact hw
  | cons file files ih =>
    exact ih (writeIpRequests_under C bs passes file.requests (hw.onFile _))

/-! ## Setting an extended attribute -/

theorem testUnitReadyPass_free (s : Shared (FileVol σ β)) (hs : Free s) :
    Pass.Meets Free (fun _ => Free) (testUnitReadyPass s) := by
  unfold testUnitReadyPass
  have hlock := ltfsGetVolumeLock_spec false hs
  generalize ltfsGetVolumeLock false s = r at hlock ⊢
  cases hlock with
  | refused e t hheld => exact hheld
  | taken t hheld =>
    simp only
    split_ifs
    · exact releasereadMrsw_held hheld
    · have hdevice := (tapeDeviceLock_keeps t).held.trans hheld
      generalize tapeDeviceLock t = r at hdevice ⊢
      obtain ⟨e | _, u⟩ := r
      · simp only
        split_ifs
        · exact (ltfsWaitRevalidation_settles hdevice (by decide)).restartOr_free
        · exact releasereadMrsw_held hdevice
      · have hready := (driveCommand_keeps u).held.trans hdevice
        simp only
        generalize driveCommand u = r at hready ⊢
        obtain ⟨e | _, v⟩ := r
        · simp only
          split_ifs
          · exact (ltfsRevalidate_settles hready false (by decide)).restartOr_free
          · exact releasereadMrsw_held ((noteMove_keeps e v).held.trans hready)
        · exact releasereadMrsw_held hready

theorem testUnitReady_under (hw : Under .free w) :
    Under .free (Watched.quietly (retry testUnitReadyPass passes) w).2 :=
  hw.quietly (retry_preserves testUnitReadyPass_free passes hw.held)

theorem syncUnlocked_keeps (type : IndexType) (s : Shared (FileVol σ β)) :
    Keeps s (syncUnlocked C reason type s).2 := by
  have hkeeps := syncIndexPass_keeps C reason type s
  unfold syncUnlocked
  generalize syncIndexPass C reason false (type, s) = r at hkeeps ⊢
  obtain ⟨_ | _, t⟩ := r <;> exact hkeeps

section Attribute

variable {path name : String} (value : List UInt8)

theorem watchedSyncUnlocked_under (type : IndexType)
    (hpath : h = .write ↔ (CallPath.setxattr path name).Exclusive) (hw : Under h w) :
    Under h (watchedSyncUnlocked C path name reason type w).2 :=
  hw.watch (.setxattr path name) hpath (fun _ he => syncPoint_held C he)
    (syncUnlocked_keeps C reason type w.state)

theorem Under.setIndexDirty (hw : Under h w) :
    Under h { w with state := setIndexDirty w.state } :=
  ⟨hw.held, hw.planned⟩

theorem setSync_under (hpath : h = .write ↔ (CallPath.setxattr path name).Exclusive)
    (hw : Under h w) : Under h (setSync C K path name value w).2 := by
  unfold setSync
  simp only
  generalize (if name = incrementalSyncName then IndexType.incremental else .full) = type
  split_ifs
  · exact hw
  · exact watchedSyncUnlocked_under C .ea .full hpath hw
  · exact watchedSyncUnlocked_under C .ea type hpath hw.setIndexDirty
  · exact watchedSyncUnlocked_under C .ea type hpath hw

theorem setVolumeLockState_under (found : Found)
    (hpath : h = .write ↔ (CallPath.setxattr path name).Exclusive) (hw : Under h w) :
    Under h (setVolumeLockState C K path name value found w).2 := by
  unfold setVolumeLockState
  cases K.number value with
  | none => exact hw
  | some lock =>
    simp only
    split_ifs
    · exact hw
    · have hupdated := hw.kept (driveCommand_keeps w.state)
      generalize Watched.quietly driveCommand w = r at hupdated ⊢
      obtain ⟨_ | _, t⟩ := r
      · exact hupdated
      · have hsynced := watchedSyncUnlocked_under C .advLock .full hpath
          hupdated.setIndexDirty
        have hdevice := hsynced.kept (tapeDeviceLock_keeps _)
        simp only
        generalize Watched.quietly tapeDeviceLock _ = r at hdevice ⊢
        obtain ⟨_ | _, u⟩ := r
        · exact hdevice
        · apply hdevice.watch (.setxattr path name) hpath
          · intro e he
            cases he
            rfl
          · exact onVolume_keeps _ u.state

theorem xattrSet_under (hpath : h = .write ↔ (CallPath.setxattr path name).Exclusive)
    (hw : Under h w) : Under h (xattrSet C K path name value w).2 := by
  unfold xattrSet
  have hstatus := hw.kept (driveCommand_keeps w.state)
  simp only
  generalize Watched.quietly driveCommand w = r at hstatus ⊢
  obtain ⟨_ | _, t⟩ := r
  · exact hstatus
  · simp only
    split_ifs
    · exact hstatus
    · exact setSync_under C K value hpath hstatus
    · exact setVolumeLockState_under C K value _ hpath hstatus
    · exact hstatus.kept (driveCommand_keeps t.state)

end Attribute

/-- What a pass of `ltfs_fsops_setxattr` leaves behind, whether it begins again or
returns. -/
theorem setxattrPass_under (path name : String) (value : List UInt8)
    (hw : Under .free w) :
    Pass.Meets (Under .free) (fun _ => Under .free)
      (setxattrPass C K bs passes path name value w) := by
  unfold setxattrPass
  simp only
  generalize hexclusive : decide (name = "ltfs.sync" ∧ path = "/") = exclusive
  -- the write lock is taken for the one attribute only
  have hpath : mode exclusive = .write ↔ (CallPath.setxattr path name).Exclusive := by
    have hiff : (name = "ltfs.sync" ∧ path = "/") ↔ exclusive = true := by
      rw [← hexclusive, decide_eq_true_iff]
    rw [CallPath.Exclusive, hiff]
    cases exclusive <;> decide
  have hflushed : Under .free (if exclusive then ltfsFsopsFlush C K bs passes w
      else (some (.ok ()), w)).2 := by
    split_ifs
    · exact ltfsFsopsFlush_under C K bs passes hw
    · exact hw
  generalize (if exclusive then ltfsFsopsFlush C K bs passes w
    else (some (.ok ()), w)) = r at hflushed ⊢
  obtain ⟨_ | _ | _, s⟩ := r
  · exact hflushed
  · exact hflushed
  · have hlock := ltfsGetVolumeLock_spec exclusive hflushed.held
    simp only [Watched.quietly]
    generalize ltfsGetVolumeLock exclusive s.state = r at hlock ⊢
    cases hlock with
    | refused e t hheld => exact ⟨hheld, hflushed.planned⟩
    | taken t hheld =>
      have hfound : Under (mode exclusive) ⟨(fsPathLookup t).2, s.indexWrites⟩ :=
        ⟨(fsPathLookup_keeps t).held.trans hheld, hflushed.planned⟩
      simp only
      generalize fsPathLookup t = r at hfound ⊢
      obtain ⟨e | _, u⟩ := r
      · exact hfound.release (mode_ne_free exclusive)
      · have hset := xattrSet_under C K value hpath hfound
        simp only
        generalize xattrSet C K path name value _ = r at hset ⊢
        obtain ⟨e | _, v⟩ := r
        · simp only
          split_ifs
          · have hsettled := ltfsRevalidate_settles hset.held exclusive
              (by cases exclusive <;> decide)
            generalize ltfsRevalidate exclusive v.state = r at hsettled ⊢
            obtain ⟨_ | _, x⟩ := r <;> exact ⟨hsettled.held, hset.planned⟩
          · exact ⟨releaseMrsw_held ((noteMove_keeps e v.state).held.trans hset.held)
              (mode_ne_free exclusive), hset.planned⟩
        · exact hset.release (mode_ne_free exclusive)

theorem ltfsFsopsSetxattr_under (path name : String) (value : List UInt8)
    (hw : Under .free w) :
    Under .free (ltfsFsopsSetxattr C K bs passes path name value w).2 := by
  unfold ltfsFsopsSetxattr
  simp only
  split_ifs
  · exact hw
  · split
    · exact hw
    · have hready := testUnitReady_under passes hw
      generalize Watched.quietly (retry testUnitReadyPass passes) w = r at hready ⊢
      obtain ⟨_ | _ | _, t⟩ := r
      · exact hready
      · exact hready
      · simp only
        cases strippedName K xattrNamespace path name with
        | error e => exact hready
        | ok stripped =>
          exact retry_preserves
            (fun _ => setxattrPass_under C K bs passes path stripped value) passes hready

theorem ltfsFsopsRemovexattr_planned (path name : String) (hw : Under .free w) :
    (ltfsFsopsRemovexattr K passes path name w).2.AsPlanned := by
  unfold ltfsFsopsRemovexattr
  split
  · exact hw.planned
  · have hready := testUnitReady_under passes hw
    generalize Watched.quietly (retry testUnitReadyPass passes) w = r at hready ⊢
    obtain ⟨_ | _ | _, t⟩ := r
    · exact hready.planned
    · exact hready.planned
    · simp only [Watched.quietly]
      cases strippedName K noXattr path name with
      | error e => exact hready.planned
      | ok stripped =>
        simp only
        obtain ⟨_ | _, u⟩ := ltfsGetVolumeLock false t.state
        · exact hready.planned
        · simp only
          obtain ⟨_ | _, v⟩ := fsPathLookup u <;> exact hready.planned

/-! ## The other entry points -/

theorem watchedSyncIndex_planned (hw : Under .free w) :
    (watchedSyncIndex C passes reason w).2.AsPlanned := by
  have hplanned : (⟨(IndexType.auto, w.state), w.indexWrites⟩ :
      Watched (IndexType × Shared (FileVol σ β))).AsPlanned := hw.planned
  exact hplanned.retry (P := fun ts : IndexType × Shared (FileVol σ β) => Free ts.2)
    (fun ts => syncIndexPass_free C reason ts.1 ts.2) (syncPoint_asPlanned C) passes
    hw.held

theorem ltfsFsopsVolumeSync_planned (hw : Under .free w) :
    (ltfsFsopsVolumeSync C K bs passes reason w).2.AsPlanned := by
  have hflushed := ltfsFsopsFlush_under C K bs passes hw
  unfold ltfsFsopsVolumeSync
  generalize ltfsFsopsFlush C K bs passes w = r at hflushed ⊢
  obtain ⟨_ | _ | _, t⟩ := r
  · exact hflushed.planned
  · exact hflushed.planned
  · exact watchedSyncIndex_planned C passes reason hflushed

theorem periodicSyncThread_planned (hw : Under .free w) :
    (periodicSyncThread C K bs passes w).2.AsPlanned := by
  unfold periodicSyncThread
  split_ifs
  · exact hw.planned
  · have hflushed := ltfsFsopsFlush_under C K bs passes hw
    generalize ltfsFsopsFlush C K bs passes w = r at hflushed ⊢
    obtain ⟨_ | _, t⟩ := r
    · exact hflushed.planned
    · exact watchedSyncIndex_planned C passes .periodic hflushed

theorem fuseRelease_planned (file : Waiting β) (dirty writeIndex : Bool)
    (hw : Under .free w) :
    (fuseRelease C K bs passes file dirty writeIndex w).2.AsPlanned := by
  unfold fuseRelease
  have hflushed : Under .free (if dirty then unifiedFlushUnlocked C K bs passes file w
      else (some (.ok ()), w)).2 := by
    split_ifs
    · exact unifiedFlushUnlocked_under C K bs passes file hw
    · exact hw
  generalize (if dirty then unifiedFlushUnlocked C K bs passes file w
    else (some (.ok ()), w)) = r at hflushed ⊢
  obtain ⟨_ | _, t⟩ := r
  · exact hflushed.planned
  · simp only
    split_ifs
    · exact watchedSyncIndex_planned C passes .close hflushed
    · exact hflushed.planned

theorem watchedUnmount_planned (hw : Under .free w) (htold : w.state.told = []) :
    (watchedUnmount C passes reason w).2.AsPlanned := by
  have hplanned : (⟨(VolStat.unlocked, w.state), w.indexWrites⟩ :
      Watched (VolStat × Shared (FileVol σ β))).AsPlanned := hw.planned
  exact hplanned.retry (P := fun vs => UnmountStart w.state.mountType vs.2)
    (unmountPass_meets C reason w.state.mountType)
    (unmountPoint_asPlanned w.state.mountType) passes (Or.inl ⟨hw.held, htold, rfl⟩)

theorem watchedGetxattr_planned (attr : Attr) (hw : Under .free w)
    (htold : w.state.told = []) : (watchedGetxattr C passes attr w).2.AsPlanned :=
  hw.planned.retry (getxattrPass_meets C attr)
    (fun s hs => getxattrPoint_asPlanned C attr s hs.1) passes
    ⟨hw.held, by simp [Sure, htold]⟩

end Calls

/-- The entry points from which an index is written, and those two that might. -/
inductive EntryPoint (β : Type*) where
  | setxattr (path name : String) (value : List UInt8)
  | removexattr (path name : String)
  | getxattr (attr : Attr)
  | volumeSync (reason : SyncReason)
  | periodicSync
  | release (file : Waiting β) (dirty writeIndex : Bool)
  | unmount (reason : SyncReason)
  | flush (file : Option (Waiting β))
  | dataQueue (files : List (Waiting β))
  | indexQueue (files : List (Waiting β))

/-- The index writes of a thread that enters without holding anything. -/
def EntryPoint.indexWrites (C : Catalog σ (List β)) (K : Surroundings σ β)
    (bs passes : ℕ) (entry : EntryPoint β) (s : Shared (FileVol σ β)) : List IndexWrite :=
  let w : WatchedVol σ β := ⟨s, []⟩
  match entry with
  | .setxattr path name value =>
    (ltfsFsopsSetxattr C K bs passes path name value w).2.indexWrites
  | .removexattr path name => (ltfsFsopsRemovexattr K passes path name w).2.indexWrites
  | .getxattr attr => (watchedGetxattr C passes attr w).2.indexWrites
  | .volumeSync reason => (ltfsFsopsVolumeSync C K bs passes reason w).2.indexWrites
  | .periodicSync => (periodicSyncThread C K bs passes w).2.indexWrites
  | .release file dirty writeIndex =>
    (fuseRelease C K bs passes file dirty writeIndex w).2.indexWrites
  | .unmount reason => (watchedUnmount C passes reason w).2.indexWrites
  | .flush none => (ltfsFsopsFlush C K bs passes w).2.indexWrites
  | .flush (some file) => (unifiedFlushUnlocked C K bs passes file w).2.indexWrites
  | .dataQueue files => (unifiedProcessDataQueue C K bs passes files w).indexWrites
  | .indexQueue files => (unifiedProcessIndexQueue C bs passes files w).indexWrites

/-- Whatever the drive and the other threads answer, a thread that comes to
`ltfs_write_index` holds the volume lock for writing if and only if it came there
on a way that sees to it. -/
theorem indexWrite_exclusive_iff (C : Catalog σ (List β)) (K : Surroundings σ β)
    (bs passes : ℕ) (entry : EntryPoint β) (vol : FileVol σ β) (mountType : MountType)
    (outside : Outside (FileVol σ β)) :
    ∀ e ∈ entry.indexWrites C K bs passes (entering vol mountType outside),
      e.held = some .write ↔ e.path.Exclusive := by
  have hw : Under .free ⟨entering vol mountType outside, []⟩ :=
    ⟨rfl, fun _ he => absurd he List.not_mem_nil⟩
  cases entry with
  | setxattr path name value =>
    exact (ltfsFsopsSetxattr_under C K bs passes path name value hw).planned
  | removexattr path name => exact ltfsFsopsRemovexattr_planned K passes path name hw
  | getxattr attr => exact watchedGetxattr_planned C passes attr hw rfl
  | volumeSync reason => exact ltfsFsopsVolumeSync_planned C K bs passes reason hw
  | periodicSync => exact periodicSyncThread_planned C K bs passes hw
  | release file dirty writeIndex =>
    exact fuseRelease_planned C K bs passes file dirty writeIndex hw
  | unmount reason => exact watchedUnmount_planned C passes reason hw rfl
  | flush file =>
    cases file with
    | none => exact (ltfsFsopsFlush_under C K bs passes hw).planned
    | some file => exact (unifiedFlushUnlocked_under C K bs passes file hw).planned
  | dataQueue files => exact (unifiedProcessDataQueue_under C K bs passes files hw).planned
  | indexQueue files => exact (unifiedProcessIndexQueue_under C bs passes files hw).planned

/-! ## Three index writes without the write lock -/

/-- Every name is well formed, every path leads to the root, and the scheduler is
empty. -/
def plainSurroundings : Surroundings Unit ℕ where
  formatPath := .ok
  formatName := .ok
  formatMessage _ := true
  stripName name := if name = "user.ltfs.commitMessage" then some "ltfs.commitMessage"
    else none
  validateName _ := none
  number _ := none
  volumeReadonly _ := none
  cleanupExtent vol := (.ok (), vol)
  found _ := ⟨true, false, false, false, .unlocked, .unlocked, 0⟩
  waiting _ := []

/-- A volume with changes, and the answers of its drive. -/
def changedVolume (answers : ℕ → Answer) : FileVol Unit ℕ :=
  let f := resetVolume 0
  let v := f.1.vol.withDevice { f.1.vol.device with answers := answers }
  ({ f.1 with vol := { v with dirty := true } }, f.2)

/-- An index that is written for `ltfs.sync` on the root, by a thread that holds the
lock for writing. -/
theorem indexWrite_exclusive_iff_sync :
    (⟨.setxattr "/" "ltfs.sync", some .write⟩ : IndexWrite) ∈
      (EntryPoint.setxattr "/" "user.ltfs.sync" []).indexWrites emptyCatalog
        { plainSurroundings with stripName := fun _ => some "ltfs.sync" } 4 1
        (entering (changedVolume fun _ => .done .clear) .normal (answering none none)) ∧
    (CallPath.setxattr "/" "ltfs.sync").Exclusive := by
  have hmem : (⟨.setxattr "/" "ltfs.sync", some .write⟩ : IndexWrite) ∈
      (EntryPoint.setxattr "/" "user.ltfs.sync" []).indexWrites emptyCatalog
        { plainSurroundings with stripName := fun _ => some "ltfs.sync" } 4 1
        (entering (changedVolume fun _ => .done .clear) .normal (answering none none)) := by
    decide +kernel
  exact ⟨hmem, (indexWrite_exclusive_iff _ _ _ _ _ _ _ _ _ hmem).1 rfl⟩

/-- Setting `ltfs.commitMessage` writes an index under the read lock, and so does
reading `ltfs.sync`.  The scheduler writes one with no lock at all, after a
permanent write error. -/
theorem indexWrite_unlocked :
    (EntryPoint.setxattr "/" "user.ltfs.commitMessage" []).indexWrites emptyCatalog
        plainSurroundings 4 1
        (entering (changedVolume fun _ => .done .clear) .normal (answering none none)) =
      [⟨.setxattr "/" "ltfs.commitMessage", some .read⟩] ∧
    (EntryPoint.getxattr (.virtual .sync)).indexWrites emptyCatalog plainSurroundings 4 1
        (entering (changedVolume fun _ => .done .clear) .normal (answering none none)) =
      [⟨.getxattr, some .read⟩] ∧
    (EntryPoint.dataQueue [⟨⟨0, 0, []⟩, none, [⟨0, [7]⟩]⟩]).indexWrites emptyCatalog
        plainSurroundings 4 1
        (entering (changedVolume fun n =>
          if n = 1 then .failed .writePerm .untouched else .done .clear) .normal
          (answering none none)) =
      [⟨.afterPerm, some .free⟩] := by
  decide +kernel

end AuroraLtfs.Lock
