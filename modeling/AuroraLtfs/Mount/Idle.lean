import AuroraLtfs.Mount.Calls

/-!
# Calls that find nothing to write

A scheduler without queued requests does not touch the tape when it flushes,
works off its queues or closes a file.  An index that has nothing new to record
is not written by a sync, and neither a sync nor an unmount nor an attribute that
is read does anything else to the volume than use its device.
-/

namespace AuroraLtfs.Mount

open AuroraLtfs.Tape
open AuroraLtfs.Index
open AuroraLtfs.Raw
open AuroraLtfs.Fs (LtfsIndex)
open AuroraLtfs.Lock (FileVol Shared LockCall)
open AuroraLtfs.Sched (DentryPriv)

variable {σ β : Type*} {type : IndexType}

/-! ## The scheduler -/

/-- Nothing is queued, and no write error waits to be reported. -/
def IdlePriv (priv : Option (DentryPriv β)) : Prop :=
  ∀ p, priv = some p → p.requests = [] ∧ p.writeError = none

theorem IdlePriv.none : IdlePriv (none : Option (DentryPriv β)) := by
  intro p hp
  cases hp

theorem IdlePriv.some {p : DentryPriv β} (hrequests : p.requests = [])
    (herror : p.writeError = .none) : IdlePriv (Option.some p) := by
  intro q hq
  cases hq
  exact ⟨hrequests, herror⟩

/-- The scheduler has at most used the device, and it still has nothing to do. -/
structure Idles (s t : Sched.State σ β) : Prop where
  vol : Rests s.raw.vol t.raw.vol
  dentry : t.file.dentry = s.file.dentry
  idle : IdlePriv t.file.ioschedPriv

section Scheduler

variable (C : Catalog σ (List β)) (config : Sched.Mount) {s : Sched.State σ β}
  (flush : Bool)

theorem Idles.refl (hidle : IdlePriv s.file.ioschedPriv) : Idles s s :=
  ⟨Rests.refl _, rfl, hidle⟩

theorem unifiedFlushUnlocked_idle (hidle : IdlePriv s.file.ioschedPriv) :
    Sched.unifiedFlushUnlocked C config s = (.ok (), s) := by
  rw [Sched.unifiedFlushUnlocked]
  cases hpriv : s.file.ioschedPriv with
  | none => rfl
  | some p =>
    obtain ⟨hrequests, herror⟩ := hidle p hpriv
    simp [Sched.unifiedGetWriteError, hpriv, herror, hrequests]

theorem unifiedFreeDentryPrivConditional_idle {f : Sched.File β} (handles : ℕ)
    (hidle : IdlePriv f.ioschedPriv) :
    IdlePriv (Sched.unifiedFreeDentryPrivConditional handles f).ioschedPriv := by
  rw [Sched.unifiedFreeDentryPrivConditional]
  split
  · exact hidle
  · split
    · exact IdlePriv.none
    · exact hidle

theorem unifiedFreeDentryPrivConditional_dentry (handles : ℕ) (f : Sched.File β) :
    (Sched.unifiedFreeDentryPrivConditional handles f).dentry = f.dentry := by
  rw [Sched.unifiedFreeDentryPrivConditional]
  split
  · rfl
  · split <;> rfl

/-- Closing a file of an idle scheduler gives back a reference, and perhaps frees
the private data. -/
theorem unifiedClose_eq (hidle : IdlePriv s.file.ioschedPriv) :
    Sched.unifiedClose C config flush s =
      (.ok (), { s with file :=
        { Sched.unifiedFreeDentryPrivConditional 3 s.file with
          numhandles :=
            (Sched.unifiedFreeDentryPrivConditional 3 s.file).numhandles - 1 } }) := by
  have hflush : (if flush then Sched.unifiedFlushUnlocked C config s
      else (.ok (), s)) = (.ok (), s) := by
    rw [unifiedFlushUnlocked_idle C config hidle]
    exact ite_self _
  have herror : Sched.unifiedGetWriteError s = (.ok (), s) := by
    rw [Sched.unifiedGetWriteError]
    cases hpriv : s.file.ioschedPriv with
    | none => rfl
    | some p => simp [(hidle p hpriv).2]
  simp only [Sched.unifiedClose, hflush, herror]

theorem unifiedClose_idle (hidle : IdlePriv s.file.ioschedPriv) :
    Idles s (Sched.unifiedClose C config flush s).2 := by
  rw [unifiedClose_eq C config flush hidle]
  constructor
  · exact Rests.refl _
  · exact unifiedFreeDentryPrivConditional_dentry 3 s.file
  · exact unifiedFreeDentryPrivConditional_idle 3 hidle

/-- The volume itself is not looked at. -/
theorem unifiedClose_raw (hidle : IdlePriv s.file.ioschedPriv) :
    (Sched.unifiedClose C config flush s).2.raw = s.raw := by
  rw [unifiedClose_eq C config flush hidle]

theorem unifiedProcessDataQueue_idle (queue : Sched.RequestState)
    (hidle : IdlePriv s.file.ioschedPriv) :
    Idles s (Sched.unifiedProcessDataQueue C config queue s).2 := by
  rw [Sched.unifiedProcessDataQueue, Sched.takeRequests]
  cases hpriv : s.file.ioschedPriv with
  | none => exact Idles.refl hidle
  | some p =>
    obtain ⟨hrequests, herror⟩ := hidle p hpriv
    simp only [hrequests, Sched.processRequests, Sched.startSweep, Sched.endSweep,
      Sched.sendDetached]
    exact ⟨Rests.refl _, rfl, IdlePriv.some rfl herror⟩

theorem unifiedProcessIndexQueue_idle (hidle : IdlePriv s.file.ioschedPriv) :
    Idles s (Sched.unifiedProcessIndexQueue C config s).2 := by
  rw [Sched.unifiedProcessIndexQueue]
  cases hpriv : s.file.ioschedPriv with
  | none => exact Idles.refl hidle
  | some p =>
    obtain ⟨hrequests, herror⟩ := hidle p hpriv
    simp only [hrequests, Sched.indexRequests]
    constructor
    · exact Rests.refl _
    · exact unifiedFreeDentryPrivConditional_dentry 2 _
    · exact unifiedFreeDentryPrivConditional_idle 2 (IdlePriv.some rfl herror)

theorem unifiedGetDentryPriv_idle {f : Sched.File β} (hidle : IdlePriv f.ioschedPriv) :
    IdlePriv (Sched.unifiedGetDentryPriv config f).ioschedPriv := by
  rw [Sched.unifiedGetDentryPriv]
  cases hpriv : f.ioschedPriv with
  | none => exact IdlePriv.some rfl rfl
  | some p =>
    dsimp only
    exact hidle

theorem unifiedGetDentryPriv_dentry (f : Sched.File β) :
    (Sched.unifiedGetDentryPriv config f).dentry = f.dentry := by
  rw [Sched.unifiedGetDentryPriv]
  cases f.ioschedPriv <;> rfl

/-- A write that the volume refuses has allocated the private data by then. -/
theorem unifiedWrite_refused (hro : config.readonlyMount = true) (blocks offset : ℕ)
    {bytes : List β} (hbytes : bytes ≠ []) (hidle : IdlePriv s.file.ioschedPriv) :
    (∃ e, (Sched.unifiedWrite config false blocks offset bytes s).1 = .error e) ∧
      Idles s (Sched.unifiedWrite config false blocks offset bytes s).2 := by
  have hidle' := unifiedGetDentryPriv_idle config hidle
  have hdentry := unifiedGetDentryPriv_dentry config s.file
  have hsome : ∃ p, (Sched.unifiedGetDentryPriv config s.file).ioschedPriv = some p := by
    rw [Sched.unifiedGetDentryPriv]
    cases hpriv : s.file.ioschedPriv with
    | none => exact ⟨_, rfl⟩
    | some p => exact ⟨p, hpriv⟩
  obtain ⟨p, hp⟩ := hsome
  have herror := (hidle' p hp).2
  have hrdonly (d : Device (List β)) :
      Sched.ltfsGetVolumeReadonly config d = .error .rdonlyVolume := by
    rw [Sched.ltfsGetVolumeReadonly, hro, if_pos rfl]
  simp only [Sched.unifiedWrite, hbytes, if_false, hp, herror, Bool.false_eq_true, hrdonly]
  exact ⟨⟨_, rfl⟩, Rests.refl _, hdentry, hidle'⟩

end Scheduler

/-! ## Reading through the scheduler -/

section Reading

variable {s : Sched.State σ β}

/-- The relation that reads respect. -/
def ReadsFile (x y : RawVol σ β × Raw.Dentry) : Prop :=
  Rests x.1.vol y.1.vol ∧ y.2 = x.2

theorem ReadsFile.trans {x y z : RawVol σ β × Raw.Dentry} (hxy : ReadsFile x y)
    (hyz : ReadsFile y z) : ReadsFile x z :=
  ⟨hxy.1.trans hyz.1, hyz.2.trans hxy.2⟩

theorem ReadsFile.refl (x : RawVol σ β × Raw.Dentry) : ReadsFile x x :=
  ⟨Rests.refl _, rfl⟩

variable [Zero β]

theorem unifiedRead_idles (config : Sched.Mount) (offset size : ℕ)
    (hidle : IdlePriv s.file.ioschedPriv) :
    Idles s (Sched.unifiedRead config offset size s).2 := by
  obtain ⟨y, hy, hreads⟩ := Sched.unifiedRead_rel (R := ReadsFile) ReadsFile.refl
    ReadsFile.trans config (fun offset count x =>
      ltfsFsrawRead_rests config.blockSize offset count x) offset size s
  rw [hy]
  exact ⟨hreads.1, hreads.2, hidle⟩

end Reading

/-! ## Calls that take the volume lock -/

section Locking

variable {around : Around β} {v : Vol LtfsIndex β} {mountType : MountType}
variable {s t : Shared (FileVol LtfsIndex β)} (exclusive : Bool)

/-- Only lock operations and questions lie between the two. -/
structure SameVol (s t : Shared (FileVol LtfsIndex β)) : Prop where
  outside : t.outside = s.outside
  mountType : t.mountType = s.mountType
  vol : t.vol = s.vol

theorem SameVol.refl (s : Shared (FileVol LtfsIndex β)) : SameVol s s :=
  ⟨rfl, rfl, rfl⟩

theorem SameVol.trans {s u : Shared (FileVol LtfsIndex β)} (hst : SameVol s t)
    (htu : SameVol t u) : SameVol s u :=
  ⟨htu.outside.trans hst.outside, htu.mountType.trans hst.mountType,
    htu.vol.trans hst.vol⟩

theorem releaseMrsw_same (s : Shared (FileVol LtfsIndex β)) :
    SameVol s (Lock.releaseMrsw s) := by
  rw [Lock.releaseMrsw]
  split
  · exact ⟨rfl, rfl, rfl⟩
  · exact ⟨rfl, rfl, rfl⟩

theorem acquireMrsw_same (s : Shared (FileVol LtfsIndex β)) :
    SameVol s (Lock.acquireMrsw exclusive s) := by
  rw [Lock.acquireMrsw]
  split
  · exact ⟨rfl, rfl, rfl⟩
  · exact ⟨rfl, rfl, rfl⟩

theorem futileAttempts_same (n : ℕ) (s : Shared (FileVol LtfsIndex β)) :
    SameVol s (Lock.futileAttempts exclusive n s) := by
  induction n generalizing s with
  | zero => exact SameVol.refl s
  | succ n ih =>
    apply (acquireMrsw_same exclusive s).trans
    exact (releaseMrsw_same _).trans (ih _)

theorem ltfsGetVolumeLock_same (hout : s.outside = around.outside) :
    SameVol s (Lock.ltfsGetVolumeLock exclusive s).2 := by
  obtain ⟨t, ht⟩ : ∃ t, t = Lock.acquireMrsw exclusive (Lock.futileAttempts exclusive
      (s.outside.grant s.asked).restarts s.ask) := ⟨_, rfl⟩
  have hsame : SameVol s t := by
    rw [ht]
    have hask : SameVol s s.ask := ⟨rfl, rfl, rfl⟩
    exact hask.trans ((futileAttempts_same _ _ _).trans (acquireMrsw_same _ _))
  have halone : s.outside.meanwhile s.asked t.vol = t.vol := by
    rw [hout]
    exact around.meanwhile_eq _ _
  have hgranted : SameVol s
      ((t.withVol (s.outside.meanwhile s.asked t.vol)).tell
        (.granted (s.outside.grant s.asked).valid)) := by
    rw [halone]
    exact hsame.trans ⟨rfl, rfl, rfl⟩
  simp only [Lock.ltfsGetVolumeLock, ← ht]
  split
  · exact hgranted
  · exact hgranted.trans (releaseMrsw_same _)

theorem tapeDeviceLock_same (s : Shared (FileVol LtfsIndex β)) :
    SameVol s (Lock.tapeDeviceLock s).2 := by
  rw [Lock.tapeDeviceLock]
  cases s.outside.deviceLock s.asked with
  | none => exact ⟨rfl, rfl, rfl⟩
  | some e => exact ⟨rfl, rfl, rfl⟩

theorem driveCommand_same (s : Shared (FileVol LtfsIndex β)) :
    SameVol s (Lock.driveCommand s).2 := by
  rw [Lock.driveCommand]
  cases s.outside.command s.asked with
  | none => exact ⟨rfl, rfl, rfl⟩
  | some e => exact ⟨rfl, rfl, rfl⟩

theorem driveQuery_same (ready : Bool) (s : Shared (FileVol LtfsIndex β)) :
    SameVol s (Lock.driveQuery ready s).2 := by
  rw [Lock.driveQuery]
  apply Outcome.andThen_rel (R := SameVol) SameVol.trans (tapeDeviceLock_same s)
  intro _ t _
  apply Outcome.andThen_rel (R := SameVol) SameVol.trans
  · cases ready with
    | true => exact driveCommand_same t
    | false => exact SameVol.refl t
  · intro _ u _
    exact driveCommand_same u

theorem fsPathLookup_same (s : Shared (FileVol LtfsIndex β)) :
    SameVol s (Lock.fsPathLookup s).2 := by
  rw [Lock.fsPathLookup]
  cases s.outside.lookup s.asked with
  | none => exact ⟨rfl, rfl, rfl⟩
  | some e => exact ⟨rfl, rfl, rfl⟩

theorem ltfsWaitRevalidation_same (s : Shared (FileVol LtfsIndex β)) :
    SameVol s (Lock.ltfsWaitRevalidation s).2 := by
  have hask : SameVol s s.ask := ⟨rfl, rfl, rfl⟩
  exact (hask.trans (releaseMrsw_same _)).trans ⟨rfl, rfl, rfl⟩

/-- The call runs alone, and has only used the device since it found `v`. -/
structure Near (around : Around β) (mountType : MountType) (v : Vol LtfsIndex β)
    (s : Shared (FileVol LtfsIndex β)) : Prop where
  outside : s.outside = around.outside
  mountType : s.mountType = mountType
  vol : Rests v s.vol.1.vol

theorem enter_near (around : Around β) (m : State β) :
    Near around m.mountType m.vol (m.enter around) :=
  ⟨rfl, rfl, Rests.refl _⟩

theorem Near.same (h : Near around mountType v s) (hst : SameVol s t) :
    Near around mountType v t := by
  constructor
  · exact hst.outside.trans h.outside
  · exact hst.mountType.trans h.mountType
  · rw [hst.vol]
    exact h.vol

theorem Near.revalidate (haveWriteLock : Bool) (h : Near around mountType v s) :
    Near around mountType v (Lock.ltfsRevalidate haveWriteLock s).2 := by
  obtain ⟨t, ht⟩ : ∃ t, t = (if haveWriteLock then s.ask
      else Lock.acquirewriteMrsw (Lock.releaseMrsw s.ask)) := ⟨_, rfl⟩
  have hsame : SameVol s t := by
    have hask : SameVol s s.ask := ⟨rfl, rfl, rfl⟩
    rw [ht]
    split
    · exact hask
    · exact (hask.trans (releaseMrsw_same _)).trans ⟨rfl, rfl, rfl⟩
  have hafter : Near around mountType v
      (Lock.releasewriteMrsw (t.withVol (s.outside.revalidated s.asked t.vol))) := by
    have hnear := h.same hsame
    refine ⟨hnear.outside, hnear.mountType, hnear.vol.trans ?_⟩
    change Rests t.vol.1.vol (s.outside.revalidated s.asked t.vol).1.vol
    rw [h.outside]
    exact around.revalidated_rests _ _
  simp only [Lock.ltfsRevalidate, ← ht]
  cases s.outside.revalidation s.asked with
  | none => exact hafter.same ⟨rfl, rfl, rfl⟩
  | some e => exact hafter.same ⟨rfl, rfl, rfl⟩

/-! ## Syncs with nothing to record -/

/-- There is nothing for an index of this type to record, or the data partition
cannot be written. -/
def Settled (type : IndexType) (v : Vol LtfsIndex β) : Prop :=
  v.dirty = false ∨
    (type ≠ .full ∧ v.incDirty = false ∧ ¬(type = .auto ∧ ltfsFullIndexDue v = true)) ∨
    ∃ e, tapeReadOnly .dp v.device = .error e ∧ e ≠ .lessSpace

theorem Settled.cases (h : Settled type v) :
    syncDirty type v = false ∨ ∃ e, syncRefusal v = some e := by
  rcases h with hclean | ⟨hfull, hinc, hdue⟩ | ⟨e, he, hless⟩
  · left
    simp [syncDirty, hclean]
  · left
    simp only [not_and, Bool.not_eq_true] at hdue
    by_cases hauto : type = .auto
    · simp [syncDirty, hinc, hauto, hdue hauto]
    · simp [syncDirty, hinc, hauto, hfull]
  · right
    exact ⟨e, by simp [syncRefusal, he, hless]⟩

/-- What `tape_read_only` refuses has nothing to do with a revalidation. -/
theorem tapeReadOnly_calm {π : Type*} {p : Part} {d : Device π} {e : TapeError}
    (h : tapeReadOnly p d = .error e) : e ≠ .deviceFenced ∧ e.needReval = false := by
  rw [tapeReadOnly] at h
  split at h
  · cases h
    exact ⟨by decide, rfl⟩
  · split at h
    · cases h
      exact ⟨by decide, rfl⟩
    · split at h
      · cases h
        exact ⟨by decide, rfl⟩
      · cases h
        exact ⟨by decide, rfl⟩
      · split at h
        · cases h
          exact ⟨by decide, rfl⟩
        · cases h

theorem syncRefusal_calm {e : TapeError} (h : syncRefusal v = some e) :
    e ≠ .deviceFenced ∧ e.needReval = false := by
  rw [syncRefusal] at h
  split at h
  · next e' he =>
    split at h
    · cases h
    · cases h
      exact tapeReadOnly_calm he
  · cases h

variable (C : Catalog LtfsIndex (List β)) (reason : SyncReason)

/-- A sync of a settled volume returns in its first pass without having touched
the volume.  It fails, if it holds the lock already, only where the data partition
cannot be written. -/
theorem syncIndexPass_settled (indexLocking : Bool) (hout : s.outside = around.outside)
    (hsettled : Settled type s.vol.1.vol) :
    ∃ ret t, Lock.syncIndexPass C reason indexLocking (type, s) = (.done ret, type, t) ∧
      SameVol s t ∧ (indexLocking = false → ∀ e, ret = .error e →
        syncRefusal s.vol.1.vol = some e) := by
  rw [Lock.syncIndexPass]
  cases hrefusal : syncRefusal s.vol.1.vol with
  | some e =>
    refine ⟨_, _, rfl, SameVol.refl s, ?_⟩
    intro _ e' he'
    cases he'
    rfl
  | none =>
    have hclean : syncDirty type s.vol.1.vol = false := by
      rcases hsettled.cases with hclean | ⟨e, he⟩
      · exact hclean
      · rw [hrefusal] at he
        cases he
    have hlocked : SameVol s (Lock.getLockOnly indexLocking false s).2 := by
      cases indexLocking with
      | true => exact ltfsGetVolumeLock_same false hout
      | false => exact SameVol.refl s
    have hplain : indexLocking = false →
        Lock.getLockOnly indexLocking false s = (.ok (), s) := by
      intro h
      rw [h, Lock.getLockOnly_false]
    dsimp only
    generalize Lock.getLockOnly indexLocking false s = r at hlocked hplain ⊢
    obtain ⟨ret, t⟩ := r
    cases ret with
    | error e =>
      refine ⟨_, _, rfl, hlocked, ?_⟩
      intro h
      cases hplain h
    | ok _ =>
      have hplan : syncPlan C type t.vol.1.vol = none := by
        rw [hlocked.vol, syncPlan, hclean]
        rfl
      simp only [hplan]
      refine ⟨_, _, rfl, hlocked.trans ?_, ?_⟩
      · cases indexLocking with
        | true => exact ⟨rfl, rfl, rfl⟩
        | false => exact SameVol.refl t
      · intro _ e he
        cases he

theorem ltfsSyncIndex_settled (indexLocking : Bool) (passes : ℕ)
    (hout : s.outside = around.outside) (hsettled : Settled type s.vol.1.vol) :
    SameVol s (Lock.ltfsSyncIndex C reason indexLocking type passes s).2 := by
  cases passes with
  | zero => exact SameVol.refl s
  | succ passes =>
    obtain ⟨ret, t, hpass, hsame, -⟩ :=
      syncIndexPass_settled C reason indexLocking hout hsettled
    rw [Lock.ltfsSyncIndex, retry, hpass]
    exact hsame

/-! ## Unmounting -/

/-- `ltfs_unmount` has no index to write: the mount is not one that writes, or the
index partition ends in the newest index, or that partition is known to be
broken. -/
def Unmountable (mountType : MountType) (v : Vol LtfsIndex β) : Prop :=
  mountType ≠ .normal ∨
    (v.dirty = false ∧ ¬(v.useAtime = true ∧ v.atimeDirty = true) ∧
      v.header.selfptr.partition = some .ip) ∨
    ((v.device.volStat = .pweIp ∨ v.device.volStat = .pweBoth) ∧
      ∃ warning, v.device.answer = .done warning)

theorem finishUnmount_same (s : Shared (FileVol LtfsIndex β)) :
    SameVol s (Lock.finishUnmount s).2 :=
  (driveQuery_same true s).trans ⟨rfl, rfl, rfl⟩

theorem unmountWrites_of_unmountable (hun : Unmountable mountType v) {vollock : VolStat}
    (hlock : ∀ warning, v.device.answer = .done warning → vollock = v.device.volStat)
    (d : Device (List β)) : unmountWrites mountType vollock (v.withDevice d) = false := by
  rcases hun with hmount | ⟨hclean, hatime, hself⟩ | ⟨hpwe, warning, hanswer⟩
  · simp [unmountWrites, hmount]
  · have hdirty : ltfsIsDirty (v.withDevice d) = false := by
      simp only [ltfsIsDirty, Volume.withDevice, hclean, Bool.false_or]
      simpa using hatime
    simp [unmountWrites, hdirty, hself]
  · rw [hlock warning hanswer]
    rcases hpwe with hpwe | hpwe <;> simp [unmountWrites, hpwe]

/-- An unmount that has no index to write returns in its first pass. -/
theorem unmountPass_near (vollock : VolStat) (h : Near around mountType v s)
    (hv : s.vol.1.vol = v) (hun : Unmountable mountType v) :
    ∃ ret status t, Lock.unmountPass C reason (vollock, s) = (.done ret, status, t) ∧
      Near around mountType v t := by
  have hlocked := ltfsGetVolumeLock_same true h.outside
  rw [Lock.unmountPass]
  generalize Lock.ltfsGetVolumeLock true s = r at hlocked ⊢
  obtain ⟨ret, t⟩ := r
  cases ret with
  | error e => exact ⟨_, _, _, rfl, h.same hlocked⟩
  | ok _ =>
    have hnear := h.same hlocked
    dsimp only
    split
    · exact ⟨_, _, _, rfl, hnear⟩
    · have htv : t.vol.1.vol = v := by rw [hlocked.vol, hv]
      have huntouched := tapeGetCartVolumeLockStatus_untouched t.vol.1.vol.device
      have hread : ∀ warning, v.device.answer = .done warning →
          (tapeGetCartVolumeLockStatus t.vol.1.vol.device).1 = .ok v.device.volStat := by
        intro warning hanswer
        rw [tapeGetCartVolumeLockStatus, htv, hanswer]
      rcases hstatus : tapeGetCartVolumeLockStatus t.vol.1.vol.device with ⟨status, d⟩
      rw [hstatus] at huntouched
      simp only [hstatus] at hread
      simp only [Lock.onVolume, Lock.onVol, Volume.onDevice, Outcome.within_fst,
        Outcome.within_snd, hstatus]
      obtain ⟨u, hu⟩ : ∃ u : Shared (FileVol LtfsIndex β),
          u = t.withVol ({ t.vol.1 with vol := t.vol.1.vol.withDevice d }, t.vol.2) :=
        ⟨_, rfl⟩
      have hnearU : Near around mountType v u := by
        rw [hu]
        exact ⟨hnear.outside, hnear.mountType, hnear.vol.trans (.withDevice huntouched)⟩
      have hwrites (vollock : VolStat)
          (hlock : ∀ warning, v.device.answer = .done warning →
            vollock = v.device.volStat) :
          unmountWrites u.mountType vollock u.vol.1.vol = false := by
        have huvol : u.vol.1.vol = v.withDevice d := by
          rw [hu, ← htv]
          rfl
        rw [huvol, hnearU.mountType]
        exact unmountWrites_of_unmountable hun hlock d
      rw [← hu]
      have hsame := finishUnmount_same u
      cases status with
      | ok status =>
        have hfalse := hwrites status fun warning hanswer => by
          have hok := hread warning hanswer
          cases hok
          rfl
        simp only [hfalse, Bool.false_eq_true, if_false]
        exact ⟨_, _, _, rfl, hnearU.same hsame⟩
      | error e =>
        have hfalse := hwrites vollock fun warning hanswer => by
          cases hread warning hanswer
        simp only [hfalse, Bool.false_eq_true, if_false]
        exact ⟨_, _, _, rfl, hnearU.same hsame⟩

theorem ltfsUnmount_near (passes : ℕ) (h : Near around mountType v s) (hv : s.vol.1.vol = v)
    (hun : Unmountable mountType v) :
    Near around mountType v (Lock.ltfsUnmount C reason passes s).2 := by
  cases passes with
  | zero => exact h
  | succ passes =>
    obtain ⟨ret, status, t, hpass, hnear⟩ := unmountPass_near C reason .unlocked h hv hun
    rw [Lock.ltfsUnmount, retry, hpass]
    exact hnear

/-! ## Reading an attribute -/

theorem Near.restartOr {α : Type*} {r : LockCall (FileVol LtfsIndex β) Unit}
    (h : Near around mountType v r.2) :
    Near around mountType v (Lock.restartOr (α := α) r).2 := by
  obtain ⟨ret, t⟩ := r
  cases ret with
  | error e => exact h
  | ok _ => exact h

theorem Near.waitOrRevalidate (e : TapeError) (h : Near around mountType v s) :
    Near around mountType v (Lock.waitOrRevalidate e s).2 := by
  rw [Lock.waitOrRevalidate]
  split
  · exact h.same (ltfsWaitRevalidation_same s)
  · exact h.revalidate false

theorem Near.noteMove (e : TapeError) (h : Near around mountType v s) :
    Near around mountType v (Lock.noteMove e s) := by
  rw [Lock.noteMove]
  split
  · refine ⟨h.outside, h.mountType, h.vol.trans ?_⟩
    exact ⟨rfl, .refl _⟩
  · exact h

theorem Near.indexValue (h : Near around mountType v s) :
    Near around mountType v (Lock.indexValue s).2 :=
  h.same ⟨rfl, rfl, rfl⟩

/-- The value of a virtual attribute, other than the one that syncs. -/
theorem xattrGetVirtual_same {source : Lock.Source} (hsource : source ≠ .sync)
    (s : Shared (FileVol LtfsIndex β)) : SameVol s (Lock.xattrGetVirtual C source s).2 := by
  have hvalue (t : Shared (FileVol LtfsIndex β)) : SameVol t (Lock.indexValue t).2 :=
    ⟨rfl, rfl, rfl⟩
  cases source with
  | index => exact hvalue s
  | memory => exact hvalue s
  | query ready =>
    apply Outcome.andThen_rel (R := SameVol) SameVol.trans (driveQuery_same ready s)
    intro _ t _
    exact hvalue t
  | command =>
    apply Outcome.andThen_rel (R := SameVol) SameVol.trans (driveCommand_same s)
    intro _ t _
    exact hvalue t
  | sync => exact absurd rfl hsource

/-- What `xattr_get` makes of an attribute that does not sync. -/
theorem xattrGet_near {attr : Lock.Attr} (hattr : attr ≠ .virtual .sync)
    (h : Near around mountType v s) :
    Near around mountType v (Lock.xattrGet C attr s).2 := by
  cases attr with
  | stored => exact h.indexValue
  | virtual source =>
    have hsource : source ≠ .sync := by
      intro hsync
      exact hattr (congrArg Lock.Attr.virtual hsync)
    have hget := h.same (xattrGetVirtual_same C hsource s)
    rw [Lock.xattrGet]
    dsimp only
    split
    · exact h
    · generalize Lock.xattrGetVirtual C source s = r at hget ⊢
      obtain ⟨ret, t⟩ := r
      cases ret with
      | ok n => exact hget
      | error e =>
        dsimp only
        split
        · exact (hget.waitOrRevalidate e).restartOr
        · split
          · exact hget.indexValue
          · exact hget.noteMove e

/-- `ltfs.sync` with nothing to sync does not make the call begin again. -/
theorem xattrGet_settled (h : Near around mountType v s)
    (hsync : mountType = .rollbackMeta ∨ Settled .full s.vol.1.vol) :
    ∃ ret t, Lock.xattrGet C (.virtual .sync) s = (.done ret, t) ∧
      Near around mountType v t := by
  rw [Lock.xattrGet]
  dsimp only
  split
  · exact ⟨_, _, rfl, h⟩
  · next hmeta =>
    have hsettled : Settled .full s.vol.1.vol := by
      rcases hsync with hmount | hsettled
      · exact absurd ⟨h.mountType.trans hmount, by decide⟩ hmeta
      · exact hsettled
    obtain ⟨ret, t, hpass, hsame, hrefused⟩ :=
      syncIndexPass_settled C .ea false h.outside hsettled
    rw [Lock.xattrGetVirtual, hpass]
    cases ret with
    | ok _ => exact ⟨_, _, rfl, h.same hsame⟩
    | error e =>
      obtain ⟨hfenced, hreval⟩ := syncRefusal_calm (hrefused rfl e rfl)
      simp only [hfenced, hreval, Bool.false_eq_true, or_self, if_false]
      split
      · exact ⟨_, _, rfl, (h.same hsame).indexValue⟩
      · exact ⟨_, _, rfl, (h.same hsame).noteMove e⟩

/-- One pass of `ltfs_fsops_getxattr`, given what `xattr_get` does. -/
theorem getxattrPass_meets {attr : Lock.Attr}
    {P : Shared (FileVol LtfsIndex β) → Prop} (h : Near around mountType v s)
    (hget : ∀ t, SameVol s t → Pass.Meets P (fun _ => Near around mountType v)
      (Lock.xattrGet C attr t)) :
    Pass.Meets P (fun _ => Near around mountType v) (Lock.getxattrPass C attr s) := by
  have hlocked := ltfsGetVolumeLock_same false h.outside
  rw [Lock.getxattrPass]
  generalize Lock.ltfsGetVolumeLock false s = r at hlocked ⊢
  obtain ⟨ret, t⟩ := r
  cases ret with
  | error e => exact h.same hlocked
  | ok _ =>
    have hlooked := hlocked.trans (fsPathLookup_same t)
    dsimp only at hlooked ⊢
    generalize Lock.fsPathLookup t = r at hlooked ⊢
    obtain ⟨ret, u⟩ := r
    cases ret with
    | error e => exact (h.same hlooked).same ⟨rfl, rfl, rfl⟩
    | ok _ =>
      have hgot := hget u hlooked
      dsimp only
      generalize Lock.xattrGet C attr u = r at hgot ⊢
      obtain ⟨ret, w⟩ := r
      cases ret with
      | again => exact hgot
      | done ret => exact Near.same hgot ⟨rfl, rfl, rfl⟩

/-- Where an attribute is not the one that syncs, or there is nothing to sync, to
read it is to use the device. -/
theorem ltfsFsopsGetxattr_near (attr : Lock.Attr) (passes : ℕ)
    (h : Near around mountType v s) (hv : s.vol.1.vol = v)
    (hsync : attr = .virtual .sync → mountType = .rollbackMeta ∨ Settled .full v) :
    Near around mountType v (Lock.ltfsFsopsGetxattr C attr passes s).2 := by
  by_cases hattr : attr = .virtual .sync
  · cases passes with
    | zero => exact h
    | succ passes =>
      have hpass : Pass.Meets (fun _ => False) (fun _ => Near around mountType v)
          (Lock.getxattrPass C attr s) := by
        apply getxattrPass_meets C h
        intro t ht
        have hsettled : mountType = .rollbackMeta ∨ Settled .full t.vol.1.vol := by
          rw [ht.vol, hv]
          exact hsync hattr
        obtain ⟨ret, u, hget, hnear⟩ := xattrGet_settled C (h.same ht) hsettled
        rw [hattr, hget]
        exact hnear
      rw [Lock.ltfsFsopsGetxattr, retry]
      generalize Lock.getxattrPass C attr s = r at hpass ⊢
      obtain ⟨ret, t⟩ := r
      cases ret with
      | again => exact absurd hpass id
      | done ret => exact hpass
  · apply retry_preserves _ passes h
    intro t ht
    apply getxattrPass_meets C ht
    intro u hu
    have hget := xattrGet_near C hattr (ht.same hu)
    generalize Lock.xattrGet C attr u = r at hget ⊢
    obtain ⟨ret, w⟩ := r
    cases ret with
    | again => exact hget
    | done ret => exact hget

end Locking

end AuroraLtfs.Mount
