import AuroraLtfs.Lock.Calls

/-!
# Balance of the volume lock

Every call gives the volume lock back in the mode it holds it, and once, with
two exceptions.  `ltfs_unmount` releases the lock again after a revalidation has
released it, and keeps it on a mount from an index file.  `ltfs_fsops_getxattr`
releases it again when the wait or the revalidation in `xattr_get` fails.
-/

namespace AuroraLtfs.Lock

open AuroraLtfs.Tape
open AuroraLtfs.Index
open AuroraLtfs.RwLock

section Answers

variable {τ α : Type*} (exclusive : Bool) {s t : Shared τ}

/-- A wait or a revalidation that ended with an invalid medium. -/
def Told.failed : Told → Bool
  | .waited false => true
  | .revalidated false => true
  | _ => false

/-! ## Calls without lock operations -/

/-- Nothing has happened to the lock, and nothing was said about the medium. -/
structure Keeps (s t : Shared τ) : Prop where
  held : t.held = s.held
  told : t.told = s.told
  mountType : t.mountType = s.mountType

theorem Keeps.refl (s : Shared τ) : Keeps s s := ⟨rfl, rfl, rfl⟩

theorem Keeps.trans {u : Shared τ} (hst : Keeps s t) (htu : Keeps t u) : Keeps s u :=
  ⟨htu.held.trans hst.held, htu.told.trans hst.told,
    htu.mountType.trans hst.mountType⟩

theorem tapeDeviceLock_keeps (s : Shared τ) : Keeps s (tapeDeviceLock s).2 := by
  unfold tapeDeviceLock
  cases s.outside.deviceLock s.asked <;> exact ⟨rfl, rfl, rfl⟩

theorem driveCommand_keeps (s : Shared τ) : Keeps s (driveCommand s).2 := by
  unfold driveCommand
  cases s.outside.command s.asked <;> exact ⟨rfl, rfl, rfl⟩

theorem fsPathLookup_keeps (s : Shared τ) : Keeps s (fsPathLookup s).2 := by
  unfold fsPathLookup
  cases s.outside.lookup s.asked <;> exact ⟨rfl, rfl, rfl⟩

theorem indexValue_keeps (s : Shared τ) : Keeps s (indexValue s).2 := ⟨rfl, rfl, rfl⟩

theorem onVol_keeps (call : τ → TapeCall τ α) (s : Shared τ) :
    Keeps s (onVol call s).2 := ⟨rfl, rfl, rfl⟩

theorem driveQuery_keeps (ready : Bool) (s : Shared τ) :
    Keeps s (driveQuery ready s).2 := by
  unfold driveQuery
  apply Outcome.andThen_rel (R := Keeps) Keeps.trans (tapeDeviceLock_keeps s)
  intro _ t _
  apply Outcome.andThen_rel (R := Keeps) Keeps.trans
  · cases ready
    · exact Keeps.refl t
    · exact driveCommand_keeps t
  · intro _ u _
    exact driveCommand_keeps u

/-! ## Taking and giving up the lock -/

def mode (exclusive : Bool) : Held := if exclusive then .write else .read

theorem mode_ne_free : mode exclusive ≠ .free := by
  cases exclusive <;> decide

theorem releaseMrsw_held {h : Held} (hs : s.held = some h) (hne : h ≠ .free) :
    (releaseMrsw s).held = some .free := by
  cases h
  · exact absurd rfl hne
  · simp [releaseMrsw, releasereadMrsw, hs, LockOp.step]
  · simp [releaseMrsw, releasewriteMrsw, hs, LockOp.step]

@[simp]
theorem releaseMrsw_told (s : Shared τ) : (releaseMrsw s).told = s.told := by
  unfold releaseMrsw
  split_ifs <;> rfl

@[simp]
theorem releaseMrsw_mountType (s : Shared τ) : (releaseMrsw s).mountType = s.mountType := by
  unfold releaseMrsw
  split_ifs <;> rfl

theorem releasereadMrsw_held (hs : s.held = some .read) :
    (releasereadMrsw s).held = some .free := by
  simp [releasereadMrsw, hs, LockOp.step]

theorem releasewriteMrsw_held (hs : s.held = some .write) :
    (releasewriteMrsw s).held = some .free := by
  simp [releasewriteMrsw, hs, LockOp.step]

theorem writetoreadMrsw_held (hs : s.held = some .write) :
    (writetoreadMrsw s).held = some .read := by
  simp [writetoreadMrsw, hs, LockOp.step]

theorem acquireMrsw_held (hs : s.held = some .free) :
    (acquireMrsw exclusive s).held = some (mode exclusive) := by
  cases exclusive <;>
    simp [acquireMrsw, acquirereadMrsw, acquirewriteMrsw, mode, hs, LockOp.step]

@[simp]
theorem acquireMrsw_told (s : Shared τ) : (acquireMrsw exclusive s).told = s.told := by
  cases exclusive <;> rfl

@[simp]
theorem acquireMrsw_mountType (s : Shared τ) :
    (acquireMrsw exclusive s).mountType = s.mountType := by
  cases exclusive <;> rfl

/-- An attempt that finds a revalidation running leaves the lock as it was. -/
theorem futileAttempts_keeps (n : ℕ) (hs : s.held = some .free) :
    Keeps s (futileAttempts exclusive n s) := by
  induction n generalizing s with
  | zero => exact Keeps.refl s
  | succ n ih =>
    have hback : (releaseMrsw (acquireMrsw exclusive s)).held = some .free :=
      releaseMrsw_held (acquireMrsw_held exclusive hs) (mode_ne_free exclusive)
    have hround : Keeps s (releaseMrsw (acquireMrsw exclusive s)) := by
      constructor
      · rw [hback, hs]
      · simp
      · simp
    exact hround.trans (ih hback)

/-- What taking the free lock comes to. -/
inductive LockOutcome (exclusive : Bool) (s : Shared τ) : LockCall τ Unit → Prop
  | taken (t : Shared τ) (hheld : t.held = some (mode exclusive))
      (htold : t.told = .granted true :: s.told)
      (hmount : t.mountType = s.mountType) : LockOutcome exclusive s (.ok (), t)
  | refused (e : TapeError) (t : Shared τ) (hheld : t.held = some .free)
      (htold : t.told = .granted false :: s.told)
      (hmount : t.mountType = s.mountType) : LockOutcome exclusive s (.error e, t)

theorem ltfsGetVolumeLock_spec (hs : s.held = some .free) :
    LockOutcome exclusive s (ltfsGetVolumeLock exclusive s) := by
  have hfutile := futileAttempts_keeps exclusive
    (s.outside.grant s.asked).restarts (s := s.ask) (by simpa using hs)
  dsimp only [ltfsGetVolumeLock]
  generalize futileAttempts exclusive (s.outside.grant s.asked).restarts s.ask = u
    at hfutile ⊢
  have hfree : u.held = some .free := by
    rw [hfutile.held]
    simpa using hs
  cases hvalid : (s.outside.grant s.asked).valid
  · simp only [Bool.false_eq_true, if_false]
    apply LockOutcome.refused
    · apply releaseMrsw_held _ (mode_ne_free exclusive)
      simpa using acquireMrsw_held exclusive hfree
    · simp [hfutile.told]
    · simp [hfutile.mountType]
  · simp only [if_true]
    apply LockOutcome.taken
    · simpa using acquireMrsw_held exclusive hfree
    · simp [hfutile.told]
    · simp [hfutile.mountType]

/-- The caller's lock is gone, and one answer about the medium has come in. -/
structure Settles (s : Shared τ) (r : LockCall τ Unit) : Prop where
  held : r.2.held = some .free
  mountType : r.2.mountType = s.mountType
  told : ∃ t : Told, r.2.told = t :: s.told ∧ (t.failed = true ↔ r.1 ≠ .ok ())

theorem ltfsWaitRevalidation_settles {h : Held} (hs : s.held = some h) (hne : h ≠ .free) :
    Settles s (ltfsWaitRevalidation s) := by
  constructor
  · have hask : s.ask.held = some h := by simpa using hs
    simpa [ltfsWaitRevalidation] using releaseMrsw_held hask hne
  · simp [ltfsWaitRevalidation]
  · refine ⟨.waited (s.outside.wait s.asked), ?_, ?_⟩
    · simp [ltfsWaitRevalidation]
    · cases hvalid : s.outside.wait s.asked <;>
        simp [ltfsWaitRevalidation, hvalid, Told.failed]

/-- The lock as a revalidation works under it. -/
theorem revalidate_lock {h : Held} (hs : s.held = some h) (haveWriteLock : Bool)
    (hlock : if haveWriteLock then h = .write else h ≠ .free) :
    (if haveWriteLock then s.ask else acquirewriteMrsw (releaseMrsw s.ask)).held =
      some .write := by
  cases haveWriteLock
  · have hfree : (releaseMrsw s.ask).held = some .free :=
      releaseMrsw_held (by simpa using hs) (by simpa using hlock)
    simp [acquirewriteMrsw, hfree, LockOp.step]
  · simp only [if_true] at hlock ⊢
    rw [Shared.ask_held, hs, hlock]

theorem ltfsRevalidate_told (haveWriteLock : Bool) (s : Shared τ) :
    ∃ valid, (ltfsRevalidate haveWriteLock s).2.told = .revalidated valid :: s.told ∧
      (valid = false ↔ (ltfsRevalidate haveWriteLock s).1 ≠ .ok ()) := by
  unfold ltfsRevalidate
  cases s.outside.revalidation s.asked with
  | none =>
    refine ⟨true, ?_, by simp⟩
    cases haveWriteLock <;> simp [releasewriteMrsw, acquirewriteMrsw]
  | some e =>
    refine ⟨false, ?_, by simp⟩
    cases haveWriteLock <;> simp [releasewriteMrsw, acquirewriteMrsw]

theorem ltfsRevalidate_settles {h : Held} (hs : s.held = some h) (haveWriteLock : Bool)
    (hlock : if haveWriteLock then h = .write else h ≠ .free) :
    Settles s (ltfsRevalidate haveWriteLock s) := by
  have hwrite := revalidate_lock hs haveWriteLock hlock
  constructor
  · unfold ltfsRevalidate
    cases s.outside.revalidation s.asked <;>
      simp [releasewriteMrsw, hwrite, LockOp.step]
  · unfold ltfsRevalidate
    cases s.outside.revalidation s.asked <;> cases haveWriteLock <;>
      simp [releasewriteMrsw, acquirewriteMrsw]
  · obtain ⟨valid, htold, hvalid⟩ := ltfsRevalidate_told haveWriteLock s
    refine ⟨.revalidated valid, htold, ?_⟩
    rw [← hvalid]
    cases valid <;> simp [Told.failed]

theorem waitOrRevalidate_settles {h : Held} (e : TapeError) (hs : s.held = some h)
    (hne : h ≠ .free) : Settles s (waitOrRevalidate e s) := by
  unfold waitOrRevalidate
  split_ifs
  · exact ltfsWaitRevalidation_settles hs hne
  · exact ltfsRevalidate_settles hs false hne

/-- The call holds nothing. -/
def Free (s : Shared τ) : Prop := s.held = some .free

theorem Settles.restartOr_free {ret : LockCall τ Unit} (hret : Settles s ret) :
    Pass.Meets Free (fun _ => Free) (restartOr ret : Pass (Except TapeError α) × _) := by
  have hheld := hret.held
  obtain ⟨_ | _, t⟩ := ret <;> exact hheld

end Answers

section Calls

variable {σ β α : Type*} (C : Catalog σ (List β)) (reason : SyncReason) (exclusive : Bool)
  {s t : Shared (FileVol σ β)}
  (attr : Attr)

theorem noteMove_keeps (e : TapeError) (s : Shared (FileVol σ β)) :
    Keeps s (noteMove e s) := by
  unfold noteMove
  split_ifs
  · exact ⟨rfl, rfl, rfl⟩
  · exact Keeps.refl s

theorem onVolume_keeps (call : Raw.Vol σ β → TapeCall (Raw.Vol σ β) α)
    (s : Shared (FileVol σ β)) : Keeps s (onVolume call s).2 := onVol_keeps _ s

/-! ## Raw access -/

theorem ltfsFsrawWriteDataUnlocked_held (hs : s.held = some .write) (bs : ℕ)
    (partition : Option Part) (bytes : List β) (repetitions : ℕ) :
    (ltfsFsrawWriteDataUnlocked C bs partition bytes repetitions s).2.held =
      some .read := by
  cases partition with
  | none => exact writetoreadMrsw_held hs
  | some p =>
    unfold ltfsFsrawWriteDataUnlocked
    simp only
    split_ifs
    · exact writetoreadMrsw_held hs
    · exact writetoreadMrsw_held hs
    · have hlock := (tapeDeviceLock_keeps s).held
      generalize tapeDeviceLock s = r at hlock ⊢
      obtain ⟨_ | _, t⟩ := r
      · exact writetoreadMrsw_held (hlock.trans hs)
      · apply writetoreadMrsw_held
        rw [(onVolume_keeps _ t).held]
        exact hlock.trans hs

theorem rawWritePass_free (bs : ℕ) (partition : Option Part) (bytes : List β)
    (repetitions : ℕ) {settle : Option ℕ → Shared (FileVol σ β) → α × Shared (FileVol σ β)}
    (hsettle : ∀ start s, Keeps s (settle start s).2) (s : Shared (FileVol σ β))
    (hs : Free s) :
    Pass.Meets Free (fun _ => Free)
      (rawWritePass C bs partition bytes repetitions settle s) := by
  unfold rawWritePass
  have hlock := ltfsGetVolumeLock_spec true hs
  generalize ltfsGetVolumeLock true s = r at hlock ⊢
  cases hlock with
  | refused e t hheld => exact hheld
  | taken t hheld =>
    have hwritten := ltfsFsrawWriteDataUnlocked_held C hheld bs partition bytes repetitions
    simp only
    generalize ltfsFsrawWriteDataUnlocked C bs partition bytes repetitions t = r
      at hwritten ⊢
    obtain ⟨e | start, u⟩ := r
    · simp only
      split_ifs
      · exact (waitOrRevalidate_settles e hwritten (by decide)).restartOr_free
      · apply releasereadMrsw_held
        rw [(noteMove_keeps e u).held]
        exact hwritten
    · apply releasereadMrsw_held
      rw [(hsettle start u).held]
      exact hwritten

theorem saveExtent_keeps (bs offset : ℕ) (partition : Option Part)
    (bytes : List β) (start : Option ℕ) (s : Shared (FileVol σ β)) :
    Keeps s (saveExtent bs offset partition bytes start s) := by
  cases partition
  · exact Keeps.refl s
  · exact ⟨rfl, rfl, rfl⟩

theorem ltfsFsrawWrite_free (bs offset : ℕ) (partition : Option Part) (bytes : List β)
    (passes : ℕ) (hs : Free s) :
    Free (ltfsFsrawWrite C bs offset partition bytes passes s).2 := by
  apply retry_preserves _ passes hs
  apply rawWritePass_free
  exact saveExtent_keeps bs offset partition bytes

theorem ltfsFsrawWriteData_free (bs : ℕ) (partition : Option Part) (bytes : List β)
    (repetitions passes : ℕ) (hs : Free s) :
    Free (ltfsFsrawWriteData C bs partition bytes repetitions passes s).2 := by
  apply retry_preserves _ passes hs
  apply rawWritePass_free
  exact fun _ => Keeps.refl

theorem readPass_free [Zero β] (bs offset count : ℕ) (s : Shared (FileVol σ β))
    (hs : Free s) : Pass.Meets Free (fun _ => Free) (readPass bs offset count s) := by
  unfold readPass
  have hlock := ltfsGetVolumeLock_spec false hs
  generalize ltfsGetVolumeLock false s = r at hlock ⊢
  cases hlock with
  | refused e t hheld => exact hheld
  | taken t hheld =>
    have hdevice := (tapeDeviceLock_keeps t).held.trans hheld
    simp only
    generalize tapeDeviceLock t = r at hdevice ⊢
    obtain ⟨e | _, u⟩ := r
    · simp only
      split_ifs
      · exact (ltfsWaitRevalidation_settles hdevice (by decide)).restartOr_free
      · exact releasereadMrsw_held hdevice
    · have hread := (onVol_keeps (Raw.ltfsFsrawRead bs offset count) u).held.trans hdevice
      simp only
      generalize onVol (Raw.ltfsFsrawRead bs offset count) u = r at hread ⊢
      obtain ⟨e | bytes, w⟩ := r
      · simp only
        split_ifs
        · exact (ltfsRevalidate_settles hread false (by decide)).restartOr_free
        · apply releasereadMrsw_held
          rw [(noteMove_keeps e w).held]
          exact hread
      · exact releasereadMrsw_held hread

theorem ltfsFsrawRead_free [Zero β] (bs offset count passes : ℕ) (hs : Free s) :
    Free (ltfsFsrawRead bs offset count passes s).2 := by
  unfold ltfsFsrawRead
  split_ifs
  · exact hs
  · exact retry_preserves (readPass_free bs offset count) passes hs

/-! ## Syncing -/

/-- Without `index_locking` a sync leaves the lock to its caller. -/
theorem syncIndexPass_keeps (type : IndexType) (s : Shared (FileVol σ β)) :
    Keeps s (syncIndexPass C reason false (type, s)).2.2 := by
  simp only [syncIndexPass, getLockOnly_false, lockedOnly_false, Bool.false_and,
    Bool.false_eq_true, if_false]
  cases syncRefusal s.vol.1.vol with
  | some e => exact Keeps.refl s
  | none =>
    simp only
    cases syncPlan C type s.vol.1.vol with
    | none => exact Keeps.refl s
    | some plan =>
      have hdevice := tapeDeviceLock_keeps s
      simp only
      generalize tapeDeviceLock s = r at hdevice ⊢
      obtain ⟨e | _, t⟩ := r
      · exact hdevice
      · have hwritten := hdevice.trans (onVolume_keeps (syncWrite C reason plan) t)
        simp only
        generalize onVolume (syncWrite C reason plan) t = r at hwritten ⊢
        obtain ⟨e | _, u⟩ := r
        · exact hwritten.trans (noteMove_keeps e u)
        · exact hwritten

/-- The part of a sync that holds the write lock. -/
theorem syncIndexPass_free (type : IndexType) (s : Shared (FileVol σ β)) (hs : Free s) :
    Pass.Meets (fun ts => Free ts.2) (fun _ ts => Free ts.2)
      (syncIndexPass C reason true (type, s)) := by
  simp only [syncIndexPass, getLockOnly_true, lockedOnly_true, Bool.true_and]
  cases syncRefusal s.vol.1.vol with
  | some e => exact hs
  | none =>
    have hlock := ltfsGetVolumeLock_spec false hs
    simp only
    generalize ltfsGetVolumeLock false s = r at hlock ⊢
    cases hlock with
    | refused e t hheld => exact hheld
    | taken t hheld =>
      have hfree := releasereadMrsw_held hheld
      simp only
      cases syncPlan C type t.vol.1.vol with
      | none => exact hfree
      | some plan =>
        have hlock := ltfsGetVolumeLock_spec true hfree
        simp only
        generalize ltfsGetVolumeLock true (releasereadMrsw t) = r at hlock ⊢
        cases hlock with
        | refused e u hheld => exact hheld
        | taken u hheld =>
          have hdevice := (tapeDeviceLock_keeps u).held.trans hheld
          simp only
          generalize tapeDeviceLock u = r at hdevice ⊢
          obtain ⟨e | _, w⟩ := r
          · exact releasewriteMrsw_held hdevice
          · have hwritten := (onVolume_keeps (syncWrite C reason plan) w).held.trans hdevice
            simp only
            generalize onVolume (syncWrite C reason plan) w = r at hwritten ⊢
            obtain ⟨e | _, x⟩ := r
            · have hmoved := (noteMove_keeps e x).held.trans hwritten
              simp only
              split_ifs
              · have hsettled := ltfsRevalidate_settles hmoved true rfl
                have hmeets := hsettled.restartOr_free (α := Unit)
                generalize restartOr (ltfsRevalidate true (noteMove e x)) = r at hmeets ⊢
                obtain ⟨_ | _, y⟩ := r <;> exact hmeets
              · exact releasewriteMrsw_held hmoved
            · exact releasewriteMrsw_held hwritten

theorem ltfsSyncIndex_free (indexLocking : Bool) (type : IndexType) (passes : ℕ)
    (s : Shared (FileVol σ β)) (hs : Free s) :
    Free (ltfsSyncIndex C reason indexLocking type passes s).2 := by
  have hpass : ∀ ts : IndexType × Shared (FileVol σ β), Free ts.2 →
      Pass.Meets (fun ts => Free ts.2) (fun _ ts => Free ts.2)
        (syncIndexPass C reason indexLocking ts) := by
    rintro ⟨type, s⟩ hs
    cases indexLocking with
    | true => exact syncIndexPass_free C reason type s hs
    | false =>
      have hkeeps := (syncIndexPass_keeps C reason type s).held.trans hs
      generalize syncIndexPass C reason false (type, s) = r at hkeeps ⊢
      obtain ⟨_ | _, ts⟩ := r <;> exact hkeeps
  exact retry_preserves hpass passes (s := (type, s)) hs

/-! ## Unmounting -/

/-- A lock that has been misused stays so, and no answer is forgotten. -/
structure Follows (s t : Shared (FileVol σ β)) : Prop where
  misused : s.held = none → t.held = none
  told : s.told ⊆ t.told

theorem Follows.trans {u : Shared (FileVol σ β)} (hst : Follows s t) (htu : Follows t u) :
    Follows s u :=
  ⟨fun h => htu.misused (hst.misused h), List.Subset.trans hst.told htu.told⟩

theorem Keeps.follows (h : Keeps s t) : Follows s t :=
  ⟨fun hs => h.held.trans hs, by rw [h.told]; exact List.Subset.refl _⟩

theorem Follows.lockOp (op : LockOp) (s : Shared (FileVol σ β)) : Follows s (s.lockOp op) :=
  ⟨fun hs => by rw [Shared.lockOp_held, hs]; rfl, List.Subset.refl _⟩

theorem Follows.release (s : Shared (FileVol σ β)) : Follows s (releaseMrsw s) := by
  unfold releaseMrsw
  split_ifs
  · exact Follows.lockOp _ s
  · exact Follows.lockOp _ s

theorem Follows.acquire (s : Shared (FileVol σ β)) :
    Follows s (acquireMrsw exclusive s) := by
  cases exclusive
  · exact Follows.lockOp _ s
  · exact Follows.lockOp _ s

theorem futileAttempts_follows (n : ℕ) (s : Shared (FileVol σ β)) :
    Follows s (futileAttempts exclusive n s) := by
  induction n generalizing s with
  | zero => exact (Keeps.refl s).follows
  | succ n ih =>
    exact (Follows.acquire exclusive s).trans ((Follows.release _).trans (ih _))

theorem ltfsGetVolumeLock_follows (s : Shared (FileVol σ β)) :
    Follows s (ltfsGetVolumeLock exclusive s).2 := by
  have hask : Follows s s.ask := ⟨id, List.Subset.refl _⟩
  have htaken := (hask.trans (futileAttempts_follows exclusive
    (s.outside.grant s.asked).restarts s.ask)).trans (Follows.acquire exclusive _)
  dsimp only [ltfsGetVolumeLock]
  generalize acquireMrsw exclusive
    (futileAttempts exclusive (s.outside.grant s.asked).restarts s.ask) = u
    at htaken ⊢
  have htold : Follows s ((u.withVol (s.outside.meanwhile s.asked u.vol)).tell
      (.granted (s.outside.grant s.asked).valid)) :=
    htaken.trans ⟨id, List.subset_cons_self _ _⟩
  split_ifs
  · exact htold
  · exact htold.trans (Follows.release _)

theorem ltfsRevalidate_follows (s : Shared (FileVol σ β)) :
    Follows s (ltfsRevalidate true s).2 := by
  unfold ltfsRevalidate
  have hreleased := Follows.lockOp .releaseWrite
    (s.ask.withVol (s.outside.revalidated s.asked s.vol))
  cases s.outside.revalidation s.asked <;>
    exact ⟨hreleased.misused, List.subset_cons_self _ _⟩

theorem unmountWrite_follows (s : Shared (FileVol σ β)) :
    Follows s (unmountWrite C reason s).2 := by
  unfold unmountWrite
  have hwritten := (onVolume_keeps (ltfsWriteIndex C .ip reason .full) s).follows
  generalize onVolume (ltfsWriteIndex C .ip reason .full) s = r at hwritten ⊢
  obtain ⟨e | _, t⟩ := r
  · simp only
    split_ifs
    · have hrevalidated := hwritten.trans (ltfsRevalidate_follows t)
      generalize ltfsRevalidate true t = r at hrevalidated ⊢
      obtain ⟨_ | _, u⟩ := r <;> exact hrevalidated.trans (Follows.lockOp _ u)
    · exact (hwritten.trans (noteMove_keeps e t).follows).trans (Follows.lockOp _ _)
  · exact (hwritten.trans (driveQuery_keeps true t).follows).trans (Follows.lockOp _ _)

theorem unmountPass_follows (vs : VolStat × Shared (FileVol σ β)) :
    Follows vs.2 (unmountPass C reason vs).2.2 := by
  unfold unmountPass
  have hlock := ltfsGetVolumeLock_follows true vs.2
  generalize ltfsGetVolumeLock true vs.2 = r at hlock ⊢
  obtain ⟨_ | _, s⟩ := r
  · exact hlock
  · simp only
    split_ifs
    · exact hlock
    · have hstatus := hlock.trans (onVolume_keeps
        (fun v => v.onDevice tapeGetCartVolumeLockStatus) s).follows
      exact hstatus.trans (unmountWrite_follows C reason _)
    · have hstatus := hlock.trans (onVolume_keeps
        (fun v => v.onDevice tapeGetCartVolumeLockStatus) s).follows
      exact (hstatus.trans (driveQuery_keeps true _).follows).trans (Follows.lockOp _ _)

/-- The lock has been released twice, after a revalidation. -/
def ReleasedTwice (s : Shared (FileVol σ β)) : Prop :=
  s.held = none ∧ ∃ valid, Told.revalidated valid ∈ s.told

theorem ReleasedTwice.follows (h : ReleasedTwice s) (hst : Follows s t) : ReleasedTwice t := by
  obtain ⟨hheld, valid, htold⟩ := h
  exact ⟨hst.misused hheld, valid, hst.told htold⟩

/-- What an unmount comes to.  Only on a mount from an index file is the lock
still held, and it has been released twice exactly if the medium had to be
revalidated. -/
inductive UnmountEnd (mountType : MountType) (s : Shared (FileVol σ β)) : Prop
  | balanced (hheld : s.held = some .free)
      (hsure : ∀ valid, Told.revalidated valid ∉ s.told)
      (hmeta : mountType = .rollbackMeta → Told.granted true ∉ s.told)
  | kept (hheld : s.held = some .write) (hmount : mountType = .rollbackMeta)
      (htold : Told.granted true ∈ s.told)
  | twice (h : ReleasedTwice s)

/-- The regular end: one release of the write lock. -/
theorem UnmountEnd.released {mountType : MountType} (hheld : s.held = some .write)
    (htold : s.told = [.granted true]) (hmount : mountType ≠ .rollbackMeta) :
    UnmountEnd mountType (releasewriteMrsw s) := by
  apply UnmountEnd.balanced (releasewriteMrsw_held hheld)
  · simp [releasewriteMrsw, htold]
  · exact fun hmeta => absurd hmeta hmount

theorem unmountWrite_meets (mountType : MountType) (hheld : s.held = some .write)
    (htold : s.told = [.granted true]) (hmount : mountType ≠ .rollbackMeta) :
    Pass.Meets ReleasedTwice (fun _ => UnmountEnd mountType)
      (unmountWrite C reason s) := by
  unfold unmountWrite
  have hwritten := onVolume_keeps (ltfsWriteIndex C .ip reason .full) s
  generalize onVolume (ltfsWriteIndex C .ip reason .full) s = r at hwritten ⊢
  obtain ⟨e | _, t⟩ := r
  · have hwrite : t.held = some .write := hwritten.held.trans hheld
    simp only
    split_ifs
    · have hsettled := ltfsRevalidate_settles hwrite true rfl
      obtain ⟨valid, hsaid, -⟩ := ltfsRevalidate_told true t
      generalize ltfsRevalidate true t = r at hsettled hsaid ⊢
      have htwice : ReleasedTwice (releasewriteMrsw r.2) := by
        refine ⟨?_, valid, ?_⟩
        · simp [releasewriteMrsw, hsettled.held, LockOp.step]
        · simp [releasewriteMrsw, hsaid]
      obtain ⟨_ | _, u⟩ := r
      · exact UnmountEnd.twice htwice
      · exact htwice
    · have hmoved := hwritten.trans (noteMove_keeps e t)
      exact UnmountEnd.released (hmoved.held.trans hheld) (hmoved.told.trans htold) hmount
  · have hquery := hwritten.trans (driveQuery_keeps true t)
    exact UnmountEnd.released (hquery.held.trans hheld) (hquery.told.trans htold) hmount

/-- A pass of an unmount starts on a lock that nothing was done to, or after one
that has released it twice. -/
def UnmountStart (mountType : MountType) (s : Shared (FileVol σ β)) : Prop :=
  (s.held = some .free ∧ s.told = [] ∧ s.mountType = mountType) ∨ ReleasedTwice s

theorem unmountPass_meets (mountType : MountType) (vs : VolStat × Shared (FileVol σ β))
    (hs : UnmountStart mountType vs.2) :
    Pass.Meets (fun vs => UnmountStart mountType vs.2)
      (fun _ vs => UnmountEnd mountType vs.2) (unmountPass C reason vs) := by
  rcases hs with ⟨hheld, htold, hmount⟩ | htwice
  · unfold unmountPass
    have hlock := ltfsGetVolumeLock_spec true hheld
    generalize ltfsGetVolumeLock true vs.2 = r at hlock ⊢
    cases hlock with
    | refused e t hheld hsaid =>
      apply UnmountEnd.balanced hheld
      · simp [hsaid, htold]
      · simp [hsaid, htold]
    | taken t hheld hsaid hkept =>
      rw [htold] at hsaid
      rw [hmount] at hkept
      simp only
      split_ifs with hmeta hwrites
      · apply UnmountEnd.kept hheld
        · rw [← hkept, hmeta]
        · simp [hsaid]
      · have hstatus := onVolume_keeps (fun v => v.onDevice tapeGetCartVolumeLockStatus) t
        have hmeets := unmountWrite_meets C reason mountType
          (hstatus.held.trans hheld) (hstatus.told.trans hsaid) (hkept ▸ hmeta)
        generalize unmountWrite C reason _ = r at hmeets ⊢
        obtain ⟨_ | _, u⟩ := r
        · exact Or.inr hmeets
        · exact hmeets
      · have hquery := (onVolume_keeps
          (fun v => v.onDevice tapeGetCartVolumeLockStatus) t).trans
          (driveQuery_keeps true _)
        exact UnmountEnd.released (hquery.held.trans hheld)
          (hquery.told.trans hsaid) (hkept ▸ hmeta)
  · have hfollows := htwice.follows (unmountPass_follows C reason vs)
    generalize unmountPass C reason vs = r at hfollows ⊢
    obtain ⟨_ | _, us⟩ := r
    · exact Or.inr hfollows
    · exact UnmountEnd.twice hfollows

theorem ltfsUnmount_end (passes : ℕ) (hheld : s.held = some .free) (htold : s.told = []) :
    match ltfsUnmount C reason passes s with
    | (none, t) => UnmountStart s.mountType t
    | (some _, t) => UnmountEnd s.mountType t := by
  have hrun := retry_meets (unmountPass_meets C reason s.mountType)
    passes (s := (VolStat.unlocked, s)) (Or.inl ⟨hheld, htold, rfl⟩)
  unfold ltfsUnmount
  generalize retry (unmountPass C reason) passes (VolStat.unlocked, s) = r at hrun ⊢
  obtain ⟨_ | _, vs⟩ := r <;> exact hrun

/-! ## Reading an extended attribute -/

/-- No wait and no revalidation has failed. -/
def Sure (s : Shared (FileVol σ β)) : Prop := ∀ t ∈ s.told, t.failed = false

theorem Keeps.sure (h : Keeps s t) (hs : Sure s) : Sure t := by
  intro x hx
  rw [h.told] at hx
  exact hs x hx

theorem Sure.granted (hs : Sure s) {valid : Bool}
    (htold : t.told = .granted valid :: s.told) : Sure t := by
  intro x hx
  rw [htold, List.mem_cons] at hx
  rcases hx with rfl | hx
  · rfl
  · exact hs x hx

theorem Settles.restartOr_sure {ret : LockCall (FileVol σ β) Unit} (hret : Settles s ret)
    (hs : Sure s) :
    Pass.Meets (fun t => Free t ∧ Sure t) (fun _ t => Free t ∧ ¬Sure t)
      (restartOr ret : Pass (Except TapeError α) × _) := by
  obtain ⟨hheld, -, x, htold, hfailed⟩ := hret
  obtain ⟨e | _, t⟩ := ret
  · refine ⟨hheld, fun hsure => ?_⟩
    have hmem : x ∈ t.told := htold ▸ List.mem_cons_self
    simp [hsure x hmem] at hfailed
  · refine ⟨hheld, fun y hy => ?_⟩
    rw [htold, List.mem_cons] at hy
    rcases hy with rfl | hy
    · simpa using hfailed
    · exact hs y hy

theorem xattrGetVirtual_keeps (source : Source) (s : Shared (FileVol σ β)) :
    Keeps s (xattrGetVirtual C source s).2 := by
  cases source with
  | index => exact indexValue_keeps s
  | memory => exact indexValue_keeps s
  | query ready =>
    apply Outcome.andThen_rel (R := Keeps) Keeps.trans (driveQuery_keeps ready s)
    exact fun _ t _ => indexValue_keeps t
  | command =>
    apply Outcome.andThen_rel (R := Keeps) Keeps.trans (driveCommand_keeps s)
    exact fun _ t _ => indexValue_keeps t
  | sync =>
    have hsync := syncIndexPass_keeps C .ea .full s
    unfold xattrGetVirtual
    simp only
    generalize syncIndexPass C .ea false (.full, s) = r at hsync ⊢
    obtain ⟨_ | (_ | _), type, t⟩ := r <;> exact hsync

/-- The lock is still held, or was handed over to a wait or a revalidation; if
that failed, the error is all that is left to return. -/
theorem xattrGet_meets (hheld : s.held = some .read) (hs : Sure s) :
    Pass.Meets (fun t => Free t ∧ Sure t)
      (fun _ t => (t.held = some .read ∧ Sure t) ∨ (Free t ∧ ¬Sure t))
      (xattrGet C attr s) := by
  unfold xattrGet
  cases attr with
  | stored =>
    have hkeeps := indexValue_keeps s
    exact Or.inl ⟨hkeeps.held.trans hheld, hkeeps.sure hs⟩
  | virtual source =>
    simp only
    split_ifs
    · exact Or.inl ⟨hheld, hs⟩
    · have hkeeps := xattrGetVirtual_keeps C source s
      generalize xattrGetVirtual C source s = r at hkeeps ⊢
      obtain ⟨e | n, t⟩ := r
      · have hread : t.held = some .read := hkeeps.held.trans hheld
        have hsure : Sure t := hkeeps.sure hs
        simp only
        split_ifs
        · have hmeets := (waitOrRevalidate_settles e hread (by decide)).restartOr_sure
            (α := ℕ) hsure
          generalize restartOr (waitOrRevalidate e t) = r at hmeets ⊢
          obtain ⟨_ | _, u⟩ := r
          · exact hmeets
          · exact Or.inr hmeets
        · have hvalue := indexValue_keeps t
          exact Or.inl ⟨hvalue.held.trans hread, hvalue.sure hsure⟩
        · have hmoved := noteMove_keeps e t
          exact Or.inl ⟨hmoved.held.trans hread, hmoved.sure hsure⟩
      · exact Or.inl ⟨hkeeps.held.trans hheld, hkeeps.sure hs⟩

/-- Where `ltfs_fsops_getxattr` returns: balanced, or after a release of a lock
that it did not hold any more. -/
def GetxattrEnd (s : Shared (FileVol σ β)) : Prop :=
  (Free s ∧ Sure s) ∨ (s.held = none ∧ ¬Sure s)

theorem GetxattrEnd.released (h : (s.held = some .read ∧ Sure s) ∨ (Free s ∧ ¬Sure s)) :
    GetxattrEnd (releasereadMrsw s) := by
  rcases h with ⟨hheld, hsure⟩ | ⟨hfree, hsure⟩
  · exact Or.inl ⟨releasereadMrsw_held hheld, hsure⟩
  · refine Or.inr ⟨?_, hsure⟩
    rw [Free] at hfree
    simp [releasereadMrsw, hfree, LockOp.step]

theorem getxattrPass_meets (s : Shared (FileVol σ β)) (hs : Free s ∧ Sure s) :
    Pass.Meets (fun t => Free t ∧ Sure t) (fun _ => GetxattrEnd)
      (getxattrPass C attr s) := by
  unfold getxattrPass
  have hlock := ltfsGetVolumeLock_spec false hs.1
  generalize ltfsGetVolumeLock false s = r at hlock ⊢
  cases hlock with
  | refused e t hheld htold => exact Or.inl ⟨hheld, hs.2.granted htold⟩
  | taken t hheld htold =>
    have hfound := fsPathLookup_keeps t
    simp only
    generalize fsPathLookup t = r at hfound ⊢
    obtain ⟨e | _, u⟩ := r
    · exact GetxattrEnd.released
        (Or.inl ⟨hfound.held.trans hheld, hfound.sure (hs.2.granted htold)⟩)
    · have hmeets := xattrGet_meets C attr (hfound.held.trans hheld)
        (hfound.sure (hs.2.granted htold))
      simp only
      generalize xattrGet C attr u = r at hmeets ⊢
      obtain ⟨_ | _, w⟩ := r
      · exact hmeets
      · exact GetxattrEnd.released hmeets

theorem ltfsFsopsGetxattr_end (passes : ℕ) (hheld : Free s) (hs : Sure s) :
    GetxattrEnd (ltfsFsopsGetxattr C attr passes s).2 := by
  have hrun := retry_meets (getxattrPass_meets C attr) passes (s := s) ⟨hheld, hs⟩
  unfold ltfsFsopsGetxattr
  generalize retry (getxattrPass C attr) passes s = r at hrun ⊢
  obtain ⟨_ | _, t⟩ := r
  · exact Or.inl hrun
  · exact hrun

end Calls

end AuroraLtfs.Lock
