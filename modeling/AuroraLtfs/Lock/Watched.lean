import AuroraLtfs.Lock.Balance

/-!
# Where an index is written

`ltfs_write_index` wants its caller to hold the volume lock for writing.  For
every call that may end up there, the point is named at which it does: what the
thread has done by then is the beginning of the call (`syncPoint_cases` and its like),
and how it holds the lock is read off the state it has reached.  A `Watched` run keeps
a list of these points beside what the calls themselves do.
-/

namespace AuroraLtfs.Lock

open AuroraLtfs.Tape
open AuroraLtfs.Index
open AuroraLtfs.RwLock
open AuroraLtfs.Raw

variable {σ β ς ρ : Type*}

/-- The way to a call of `ltfs_write_index`. -/
inductive CallPath where
  /-- `ltfs_write_index_conditional`, before data goes to the other partition. -/
  | rawWrite
  /-- `ltfs_sync_index` with `index_locking`. -/
  | syncIndex
  /-- `ltfs_unmount`, and whether it has had the medium revalidated. -/
  | unmount (revalidated : Bool)
  /-- `ltfs_fsops_setxattr`, with the path it was given and the stripped name. -/
  | setxattr (path name : String)
  | getxattr
  /-- `_unified_write_index_after_perm`. -/
  | afterPerm
  deriving DecidableEq, Repr

/-- The ways on which the lock is held for writing. -/
def CallPath.Exclusive : CallPath → Prop
  | .rawWrite => True
  | .syncIndex => True
  | .unmount revalidated => revalidated = false
  | .setxattr path name => name = "ltfs.sync" ∧ path = "/"
  | .getxattr => False
  | .afterPerm => False

instance : DecidablePred CallPath.Exclusive := by
  intro path
  cases path <;> unfold CallPath.Exclusive <;> infer_instance

/-- A call of `ltfs_write_index`, and how the calling thread holds the lock. -/
structure IndexWrite where
  path : CallPath
  held : Option Held
  deriving DecidableEq, Repr

/-- The lock is held for writing exactly on the ways that see to it. -/
def IndexWrite.AsPlanned (e : IndexWrite) : Prop :=
  e.held = some .write ↔ e.path.Exclusive

/-- A run, and the index writes it has come to, the latest first. -/
structure Watched (ς : Type*) where
  state : ς
  indexWrites : List IndexWrite

namespace Watched

def AsPlanned (w : Watched ς) : Prop := ∀ e ∈ w.indexWrites, e.AsPlanned

/-- Make a call that writes an index at most at the point given. -/
def watch (point : ς → Option IndexWrite) (call : ς → ρ × ς) (w : Watched ς) :
    ρ × Watched ς :=
  ((call w.state).1,
    { state := (call w.state).2
      indexWrites := (point w.state).toList ++ w.indexWrites })

/-- Make a call that writes no index. -/
def quietly (call : ς → ρ × ς) (w : Watched ς) : ρ × Watched ς :=
  ((call w.state).1, { w with state := (call w.state).2 })

theorem AsPlanned.watch {w : Watched ς} (hw : w.AsPlanned)
    {point : ς → Option IndexWrite} (hpoint : ∀ e ∈ point w.state, e.AsPlanned)
    (call : ς → ρ × ς) : (watch point call w).2.AsPlanned := by
  intro e he
  rcases List.mem_append.mp he with he | he
  · exact hpoint e (Option.mem_toList.mp he)
  · exact hw e he

/-- What holds between the passes of a call makes every point of it as
planned. -/
theorem AsPlanned.retry {pass : ς → Pass ρ × ς} {point : ς → Option IndexWrite}
    {P : ς → Prop} {Q : ρ → ς → Prop} (hpass : ∀ s, P s → Pass.Meets P Q (pass s))
    (hpoint : ∀ s, P s → ∀ e ∈ point s, e.AsPlanned) (passes : ℕ) {w : Watched ς}
    (hw : w.AsPlanned) (hstate : P w.state) :
    (retry (Watched.watch point pass) passes w).2.AsPlanned := by
  have hwatched : ∀ w : Watched ς, P w.state ∧ w.AsPlanned →
      Pass.Meets (fun w => P w.state ∧ w.AsPlanned) (fun _ w => w.AsPlanned)
        (Watched.watch point pass w) := by
    intro w hw
    have hmeets := hpass w.state hw.1
    have hplanned := hw.2.watch (hpoint w.state hw.1) pass
    revert hmeets hplanned
    unfold Watched.watch
    generalize pass w.state = r
    intro hmeets hplanned
    obtain ⟨_ | _, s⟩ := r
    · exact ⟨hmeets, hplanned⟩
    · exact hplanned
  have hrun := retry_meets hwatched passes ⟨hstate, hw⟩
  generalize AuroraLtfs.retry (Watched.watch point pass) passes w = r at hrun ⊢
  obtain ⟨_ | _, w⟩ := r
  · exact hrun.2
  · exact hrun

/-- Watching a call does not change it. -/
theorem retry_watch (point : ς → Option IndexWrite) (pass : ς → Pass ρ × ς)
    (passes : ℕ) (w : Watched ς) :
    ((retry (watch point pass) passes w).1, (retry (watch point pass) passes w).2.state) =
      retry pass passes w.state := by
  induction passes generalizing w with
  | zero => rfl
  | succ passes ih =>
    rcases hpass : pass w.state with ⟨_ | r, s⟩
    · have hagain : watch point pass w =
          (.again, ⟨s, (point w.state).toList ++ w.indexWrites⟩) := by
        simp [watch, hpass]
      simp only [retry, hagain, hpass]
      exact ih _
    · have hdone : watch point pass w =
          (.done r, ⟨s, (point w.state).toList ++ w.indexWrites⟩) := by
        simp [watch, hpass]
      simp only [retry, hdone, hpass]

end Watched

variable (C : Catalog σ (List β))

/-- An index write on a given way. -/
def writing (path : CallPath) (s : Shared (FileVol σ β)) : IndexWrite := ⟨path, s.held⟩

/-! ## Raw writes -/

/-- Does `ltfs_write_index_conditional` write an index? -/
def conditionalWrites (p : Part) (v : Vol σ β) : Bool :=
  match p with
  | .ip => ¬v.ipIndexFileEnd
  | .dp => ¬v.dpIndexFileEnd ∨ (v.ipIndexFileEnd ∧ v.header.selfptr.partition = some .ip)

/-- The index write in one pass of a raw write. -/
def rawWritePoint (bs : ℕ) (partition : Option Part) (bytes : List β)
    (repetitions : ℕ) (s : Shared (FileVol σ β)) : Option IndexWrite :=
  match ltfsGetVolumeLock true s with
  | (.error _, _) => none
  | (.ok (), s) =>
    match partition with
    | none => none
    | some p =>
      if bytes = [] ∨ repetitions = 0 then none
      else if 1 < repetitions ∧ bytes.length % bs ≠ 0 then none
      else match tapeDeviceLock s with
        | (.error _, _) => none
        | (.ok (), s) =>
          match tapeReadOnly p s.vol.1.vol.device with
          | .error _ => none
          | .ok () =>
            if conditionalWrites (otherPart p) s.vol.1.vol then
              some (writing .rawWrite s)
            else none

/-- `_ltfs_fsraw_write_data_unlocked` behind its index write. -/
def writeBehindIndex (bs : ℕ) (p : Part) (bytes : List β) (repetitions : ℕ)
    (v : Vol σ β) : TapeCall (Vol σ β) (Option ℕ) :=
  ((leaveIndex p v).onDevice (tapeSeekAppendPosition p (p = .ip))).andThen fun _ v =>
    match tapeGetPosition v.device with
    | .error e => (.error e, v)
    | .ok start => (writeRepeated bs bytes repetitions v).andThen
        fun _ v => (.ok (some start.block), v)

section RawWritePoint

variable {bs : ℕ} {partition : Option Part} {bytes : List β} {repetitions : ℕ}
  {s : Shared (FileVol σ β)}

theorem ltfsWriteIndexConditional_eq (p : Part) (v : Vol σ β) :
    ltfsWriteIndexConditional C p v =
      if conditionalWrites p v then ltfsWriteIndex C p .cachePressure .full v
      else (.ok (), v) := by
  cases p <;> rfl

/-- At the point, the work on the volume begins with the index write.  Without a point, a
pass does not depend on how documents are produced. -/
theorem rawWritePoint_cases {α : Type*}
    (settle : Option ℕ → Shared (FileVol σ β) → α × Shared (FileVol σ β))
    (C' : Catalog σ (List β)) :
    (rawWritePoint bs partition bytes repetitions s = none ∧
      rawWritePass C bs partition bytes repetitions settle s =
        rawWritePass C' bs partition bytes repetitions settle s) ∨
    ∃ p t u, ltfsGetVolumeLock true s = (.ok (), t) ∧
      rawWritePoint bs partition bytes repetitions s = some (writing .rawWrite u) ∧
      ltfsFsrawWriteDataUnlocked C bs partition bytes repetitions t =
        (onVolume (fun v =>
          (ltfsWriteIndex C (otherPart p) .cachePressure .full v).andThen fun _ v =>
            writeBehindIndex bs p bytes repetitions v) u).within writetoreadMrsw := by
  unfold rawWritePoint rawWritePass
  rcases hlock : ltfsGetVolumeLock true s with ⟨_ | _, t⟩
  · exact .inl ⟨rfl, rfl⟩
  cases partition with
  | none => exact .inl ⟨rfl, rfl⟩
  | some p =>
    dsimp only [ltfsFsrawWriteDataUnlocked]
    split_ifs with hempty hragged
    · exact .inl ⟨rfl, rfl⟩
    · exact .inl ⟨rfl, rfl⟩
    rcases hdevice : tapeDeviceLock t with ⟨_ | _, u⟩
    · exact .inl ⟨rfl, rfl⟩
    have hcall : ∀ C, Raw.ltfsFsrawWriteData C bs p bytes repetitions u.vol.1.vol =
        match tapeReadOnly p u.vol.1.vol.device with
        | .error e => (.error e, u.vol.1.vol)
        | .ok () => Outcome.andThen
          (if conditionalWrites (otherPart p) u.vol.1.vol then
            ltfsWriteIndex C (otherPart p) .cachePressure .full u.vol.1.vol
          else (.ok (), u.vol.1.vol))
          fun _ v => writeBehindIndex bs p bytes repetitions v := by
      intro C
      rw [Raw.ltfsFsrawWriteData, if_neg hempty, if_neg hragged,
        ltfsWriteIndexConditional_eq]
      rfl
    dsimp only
    cases hreadonly : tapeReadOnly p u.vol.1.vol.device with
    | error e =>
      refine .inl ⟨rfl, ?_⟩
      simp only [onVolume, onVol, hcall, hreadonly]
    | ok =>
      dsimp only
      split_ifs with hneeded
      · refine .inr ⟨p, t, u, rfl, rfl, ?_⟩
        simp only [hdevice, onVolume, onVol, hcall, hreadonly, if_pos hneeded]
        rfl
      · refine .inl ⟨rfl, ?_⟩
        simp only [onVolume, onVol, hcall, hreadonly, if_neg hneeded]

end RawWritePoint

theorem rawWritePoint_asPlanned (bs : ℕ) (partition : Option Part) (bytes : List β)
    (repetitions : ℕ) (s : Shared (FileVol σ β)) (hs : Free s) :
    ∀ e ∈ rawWritePoint bs partition bytes repetitions s, e.AsPlanned := by
  intro e he
  have hlock := ltfsGetVolumeLock_spec true hs
  revert he hlock
  unfold rawWritePoint
  generalize ltfsGetVolumeLock true s = r
  intro he hlock
  cases hlock with
  | refused e t hheld => cases he
  | taken t hheld =>
    cases partition with
    | none => cases he
    | some p =>
      have hdevice := (tapeDeviceLock_keeps t).held.trans hheld
      simp only at he
      generalize tapeDeviceLock t = r at hdevice he
      obtain ⟨_ | _, u⟩ := r
      · simp at he
      · cases hreadonly : tapeReadOnly p u.vol.1.vol.device with
        | error e => simp [hreadonly] at he
        | ok =>
          simp only [hreadonly, Option.mem_def] at he
          split_ifs at he
          cases he
          exact iff_of_true hdevice trivial

/-! ## Syncing -/

/-- The index write in one pass of `ltfs_sync_index`. -/
def syncPoint (path : CallPath) (indexLocking : Bool)
    (ts : IndexType × Shared (FileVol σ β)) : Option IndexWrite :=
  match syncRefusal ts.2.vol.1.vol with
  | some _ => none
  | none =>
    match getLockOnly indexLocking false ts.2 with
    | (.error _, _) => none
    | (.ok (), s) =>
      match syncPlan C ts.1 s.vol.1.vol with
      | none => none
      | some _ =>
        match getLockOnly indexLocking true (lockedOnly indexLocking releasereadMrsw s) with
        | (.error _, _) => none
        | (.ok (), s) =>
          match tapeDeviceLock s with
          | (.error _, _) => none
          | (.ok (), s) => some (writing path s)

/-- `ltfs_sync_index` behind its index write. -/
def afterSyncWrite (indexLocking : Bool) (type : IndexType)
    (ret : LockCall (FileVol σ β) Unit) :
    Pass (Except TapeError Unit) × IndexType × Shared (FileVol σ β) :=
  match ret with
  | (.ok (), s) => (.done (.ok ()), type, lockedOnly indexLocking releasewriteMrsw s)
  | (.error e, s) =>
    let s := noteMove e s
    if indexLocking && e.needReval then
      let ret := restartOr (ltfsRevalidate true s)
      (ret.1, type, ret.2)
    else (.done (.error e), type, lockedOnly indexLocking releasewriteMrsw s)

section SyncPoint

variable {path : CallPath} {indexLocking : Bool} {ts : IndexType × Shared (FileVol σ β)}

/-- Without a point, a pass only asks the catalog for the plan. -/
theorem syncPoint_cases {C' : Catalog σ (List β)}
    (hplan : ∀ v, syncPlan C' ts.1 v = syncPlan C ts.1 v) (reason : SyncReason) :
    (syncPoint C path indexLocking ts = none ∧
      syncIndexPass C reason indexLocking ts = syncIndexPass C' reason indexLocking ts) ∨
    ∃ plan s, syncPoint C path indexLocking ts = some (writing path s) ∧
      syncIndexPass C reason indexLocking ts =
        afterSyncWrite indexLocking plan.2 (onVolume (syncWrite C reason plan) s) := by
  simp only [syncPoint, syncIndexPass, hplan]
  cases syncRefusal ts.2.vol.1.vol with
  | some e => exact .inl ⟨rfl, rfl⟩
  | none =>
    dsimp only
    generalize getLockOnly indexLocking false ts.2 = r
    obtain ⟨_ | _, s⟩ := r
    · exact .inl ⟨rfl, rfl⟩
    dsimp only
    cases syncPlan C ts.1 s.vol.1.vol with
    | none => exact .inl ⟨rfl, rfl⟩
    | some plan =>
      dsimp only
      generalize getLockOnly indexLocking true
        (lockedOnly indexLocking releasereadMrsw s) = r
      obtain ⟨_ | _, t⟩ := r
      · exact .inl ⟨rfl, rfl⟩
      dsimp only
      generalize tapeDeviceLock t = r
      obtain ⟨_ | _, u⟩ := r
      · exact .inl ⟨rfl, rfl⟩
      · exact .inr ⟨plan, u, rfl, rfl⟩

end SyncPoint

/-- Without `index_locking` an index is written under the lock of the caller. -/
theorem syncPoint_held {path : CallPath} {ts : IndexType × Shared (FileVol σ β)}
    {e : IndexWrite} (he : e ∈ syncPoint C path false ts) : e = ⟨path, ts.2.held⟩ := by
  simp only [syncPoint, getLockOnly_false, lockedOnly_false] at he
  split at he
  · cases he
  · split at he
    · cases he
    · have hdevice := (tapeDeviceLock_keeps ts.2).held
      generalize tapeDeviceLock ts.2 = r at hdevice he
      obtain ⟨_ | _, u⟩ := r
      · cases he
      · cases he
        exact congrArg (IndexWrite.mk path) hdevice

theorem syncPoint_asPlanned (ts : IndexType × Shared (FileVol σ β)) (hs : Free ts.2) :
    ∀ e ∈ syncPoint C .syncIndex true ts, e.AsPlanned := by
  intro e he
  have hlock := ltfsGetVolumeLock_spec false hs
  simp only [syncPoint, getLockOnly_true, lockedOnly_true] at he
  split at he
  · cases he
  · revert hlock he
    generalize ltfsGetVolumeLock false ts.2 = r
    intro hlock he
    cases hlock with
    | refused e t hheld => cases he
    | taken t hheld =>
      simp only at he
      split at he
      · cases he
      · have hlock := ltfsGetVolumeLock_spec true (releasereadMrsw_held hheld)
        revert he hlock
        generalize ltfsGetVolumeLock true (releasereadMrsw t) = r
        intro he hlock
        cases hlock with
        | refused e u hheld => cases he
        | taken u hheld =>
          have hdevice := (tapeDeviceLock_keeps u).held.trans hheld
          simp only at he
          generalize tapeDeviceLock u = r at hdevice he
          obtain ⟨_ | _, w⟩ := r
          · cases he
          · cases he
            exact iff_of_true hdevice trivial

/-! ## Unmounting -/

/-- Has the medium been revalidated since the call began? -/
def revalidatedBefore (s : Shared (FileVol σ β)) : Bool :=
  s.told.contains (.revalidated true) || s.told.contains (.revalidated false)

/-- The index write in one pass of `ltfs_unmount`. -/
def unmountPoint (vs : VolStat × Shared (FileVol σ β)) : Option IndexWrite :=
  match ltfsGetVolumeLock true vs.2 with
  | (.error _, _) => none
  | (.ok (), s) =>
    if s.mountType = .rollbackMeta then none
    else
      let status := onVolume (fun v => v.onDevice tapeGetCartVolumeLockStatus) s
      let vollock := match status.1 with
        | .ok vollock => vollock
        | .error _ => vs.1
      let s := status.2
      if unmountWrites s.mountType vollock s.vol.1.vol then
        some (writing (.unmount (revalidatedBefore s)) s)
      else none

theorem unmountPoint_cases (reason : SyncReason) (vs : VolStat × Shared (FileVol σ β))
    (C' : Catalog σ (List β)) :
    (unmountPoint vs = none ∧ unmountPass C reason vs = unmountPass C' reason vs) ∨
    ∃ vollock s, unmountPoint vs = some (writing (.unmount (revalidatedBefore s)) s) ∧
      unmountPass C reason vs =
        ((unmountWrite C reason s).1, vollock, (unmountWrite C reason s).2) := by
  unfold unmountPoint unmountPass
  generalize ltfsGetVolumeLock true vs.2 = r
  obtain ⟨_ | _, t⟩ := r
  · exact .inl ⟨rfl, rfl⟩
  dsimp only
  generalize onVolume (fun v => v.onDevice tapeGetCartVolumeLockStatus) t = status
  obtain ⟨_ | vollock, u⟩ := status
  · dsimp only
    split_ifs
    · exact .inl ⟨rfl, rfl⟩
    · exact .inr ⟨_, u, rfl, rfl⟩
    · exact .inl ⟨rfl, rfl⟩
  · dsimp only
    split_ifs
    · exact .inl ⟨rfl, rfl⟩
    · exact .inr ⟨_, u, rfl, rfl⟩
    · exact .inl ⟨rfl, rfl⟩

theorem ReleasedTwice.asPlanned {s : Shared (FileVol σ β)} (h : ReleasedTwice s) :
    (writing (.unmount (revalidatedBefore s)) s).AsPlanned := by
  obtain ⟨hheld, valid, htold⟩ := h
  apply iff_of_false
  · simp [writing, hheld]
  · cases valid <;> simp [writing, CallPath.Exclusive, revalidatedBefore, htold]

/-- An unmount writes its index under the write lock, unless an earlier pass has
released the lock twice. -/
theorem unmountPoint_asPlanned (mountType : MountType)
    (vs : VolStat × Shared (FileVol σ β)) (hs : UnmountStart mountType vs.2) :
    ∀ e ∈ unmountPoint vs, e.AsPlanned := by
  intro e he
  rcases hs with ⟨hheld, htold, -⟩ | htwice
  · have hlock := ltfsGetVolumeLock_spec true hheld
    revert he hlock
    unfold unmountPoint
    generalize ltfsGetVolumeLock true vs.2 = r
    intro he hlock
    cases hlock with
    | refused e t hheld => cases he
    | taken t hheld hsaid =>
      have hstatus := onVolume_keeps (fun v => v.onDevice tapeGetCartVolumeLockStatus) t
      simp only at he
      generalize onVolume (fun v => v.onDevice tapeGetCartVolumeLockStatus) t = r
        at hstatus he
      rw [Option.mem_def] at he
      split_ifs at he
      cases he
      apply iff_of_true
      · exact hstatus.held.trans hheld
      · simp [writing, CallPath.Exclusive, revalidatedBefore, hstatus.told, hsaid, htold]
  · have hlock := htwice.follows (ltfsGetVolumeLock_follows true vs.2)
    revert he hlock
    unfold unmountPoint
    generalize ltfsGetVolumeLock true vs.2 = r
    intro he hlock
    obtain ⟨_ | _, t⟩ := r
    · cases he
    · have hstatus := hlock.follows (onVolume_keeps
        (fun v => v.onDevice tapeGetCartVolumeLockStatus) t).follows
      simp only at he
      generalize onVolume (fun v => v.onDevice tapeGetCartVolumeLockStatus) t = r
        at hstatus he
      rw [Option.mem_def] at he
      split_ifs at he
      cases he
      exact hstatus.asPlanned

/-! ## Reading an extended attribute -/

/-- The index write in one pass of `ltfs_fsops_getxattr`: only the value of
`ltfs.sync` is the result of a sync. -/
def getxattrPoint (attr : Attr) (s : Shared (FileVol σ β)) : Option IndexWrite :=
  match ltfsGetVolumeLock false s with
  | (.error _, _) => none
  | (.ok (), s) =>
    match fsPathLookup s with
    | (.error _, _) => none
    | (.ok (), s) =>
      if attr = .virtual .sync ∧ s.mountType ≠ .rollbackMeta then
        syncPoint C .getxattr false (.full, s)
      else none

/-- The point is the one of the sync that `_xattr_get_virtual` makes. -/
theorem getxattrPoint_cases (attr : Attr) (s : Shared (FileVol σ β))
    (C' : Catalog σ (List β)) :
    (getxattrPoint C attr s = none ∧ getxattrPass C attr s = getxattrPass C' attr s) ∨
    ∃ t, ((ltfsGetVolumeLock false s).andThen fun _ => fsPathLookup) = (.ok (), t) ∧
      attr = .virtual .sync ∧
      getxattrPoint C attr s = syncPoint C .getxattr false (.full, t) ∧
      (syncPoint C .getxattr false (.full, t)).isSome := by
  unfold getxattrPoint getxattrPass
  generalize ltfsGetVolumeLock false s = r
  obtain ⟨_ | _, t⟩ := r
  · exact .inl ⟨rfl, rfl⟩
  dsimp only [Outcome.andThen]
  generalize fsPathLookup t = r
  obtain ⟨_ | _, u⟩ := r
  · exact .inl ⟨rfl, rfl⟩
  dsimp only
  split_ifs with hsync
  · have hplan : ∀ v, syncPlan C' .full v = syncPlan C .full v := by
      intro v
      simp [syncPlan]
    rcases @syncPoint_cases σ β C .getxattr false (.full, u) C' hplan .ea with
      ⟨hnone, hpass⟩ | ⟨_, _, hsome, -⟩
    · refine .inl ⟨hnone, ?_⟩
      simp only [hsync.1, xattrGet, xattrGetVirtual, hpass]
    · exact .inr ⟨u, rfl, hsync.1, rfl, by simp [hsome]⟩
  · refine .inl ⟨rfl, ?_⟩
    unfold xattrGet
    cases attr with
    | stored => rfl
    | virtual source =>
      dsimp only
      split_ifs with honly
      · rfl
      · cases source with
        | sync => exact absurd ⟨rfl, fun hmeta => honly ⟨hmeta, by decide⟩⟩ hsync
        | index | memory | query ready | command => rfl

theorem getxattrPoint_asPlanned (attr : Attr) (s : Shared (FileVol σ β)) (hs : Free s) :
    ∀ e ∈ getxattrPoint C attr s, e.AsPlanned := by
  intro e he
  have hlock := ltfsGetVolumeLock_spec false hs
  revert he hlock
  unfold getxattrPoint
  generalize ltfsGetVolumeLock false s = r
  intro he hlock
  cases hlock with
  | refused e t hheld => cases he
  | taken t hheld =>
    have hfound := (fsPathLookup_keeps t).held.trans hheld
    simp only at he
    generalize fsPathLookup t = r at hfound he
    obtain ⟨_ | _, u⟩ := r
    · cases he
    · simp only [Option.mem_def] at he
      split_ifs at he
      rw [syncPoint_held C he]
      apply iff_of_false
      · rw [hfound]
        decide
      · exact id

end AuroraLtfs.Lock
