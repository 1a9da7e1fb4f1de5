import AuroraLtfs.Fs.Handles
import AuroraLtfs.Mount.Idle

/-!
# Read-only mounts

On a mount that is marked read-only, every call that would change something is
refused and leaves the tree alone.  The tape stays as it was as long as no call
meets one of the gaps in the checks: an unmount or a sync that finds something to
write, the volume lock state, and a write through the `fcfs` scheduler.
-/

namespace AuroraLtfs.Mount

open AuroraLtfs.Tape
open AuroraLtfs.Index
open AuroraLtfs.Raw
open AuroraLtfs.Fs (LtfsIndex FsError Env Path Memory PathOp Frame WellKept)
open AuroraLtfs.Sched (RequestState)
open AuroraLtfs.Lock (isPwe requestedLock)

variable {β : Type*} {op : PathOp} {value : Option ℕ} {x : Sched.State LtfsIndex β}

/-! ## Calls -/

/-- The calls of the file system, of its sync thread, of the scheduler's writer and
of the unmount. -/
inductive Call (β : Type*) where
  | create (path : Except FsError Path) (isdir readonly overwrite : Bool)
      (mem : Memory) (worm : Option FsError)
  | symlink (target : Fs.Name) (path : Except FsError Path) (mem : Memory)
      (worm : Option FsError)
  | openFile (path : Except FsError Path) (openWrite useIosched : Bool)
  | close (d : ℕ) (dirty openWrite useIosched : Bool)
  | release (d : ℕ) (dirty openWrite writeIndex : Bool)
  | read (d offset count : ℕ)
  | readdir (d : ℕ) (filled : Bool)
  | write (d offset : ℕ) (bytes : List β) (blocks : ℕ) (more : List ℕ)
  | truncate (d : ℕ) (length : ℤ)
  | truncatePath (path : Except FsError Path) (length : ℤ)
  | flush (d : ℕ)
  | processQueue (d : ℕ) (queue : RequestState)
  | utimens (d : ℕ) (atime other : Bool)
  | setReadonly (d : ℕ) (readonly : Bool)
  | byPath (op : { op : PathOp // op.exempt = false })
  | getxattr (path : Except FsError Path) (name : Except FsError Fs.XattrName)
      (journal : List Fs.JEntry) (again : List Fs.XattrRound)
      (last : Fs.XattrReply) (attr : Lock.Attr) (mediaPool : Bool)
  | setVolumeLockState (path : Except FsError Path) (value : Option ℕ)
  | periodicSync
  /-- `ltfs_fsops_volume_sync`, after its flush of all files, which is a call `flush`
  for each -/
  | volumeSync (reason : SyncReason)
  | unmount (reason : SyncReason)

/-- The value a call returns does not matter here. -/
def discard {α : Type*} (r : VolCall β α) : VolCall β Unit :=
  (r.1.map fun _ => (), r.2)

def Call.exec [Zero β] (C : Catalog LtfsIndex (List β)) (around : Around β)
    (call : Call β) (m : State β) : VolCall β Unit :=
  let env := around.env
  match call with
  | .create path isdir readonly overwrite mem worm =>
    discard (Mount.create env path isdir readonly overwrite mem worm m)
  | .symlink target path mem worm => symlinkPath C env target path mem worm m
  | .openFile path openWrite useIosched =>
    discard (Mount.openFile env path openWrite useIosched m)
  | .close d dirty openWrite useIosched =>
    Mount.close C env d dirty openWrite useIosched m
  | .release d dirty openWrite writeIndex =>
    Mount.release C around d dirty openWrite writeIndex m
  | .read d offset count => Mount.read env d offset count m
  | .readdir d filled => Mount.readdir env d filled m
  | .write d offset bytes blocks more => Mount.write C around d offset bytes blocks more m
  | .truncate d length => Mount.truncate env d length m
  | .truncatePath path length => Mount.truncatePath C env path length m
  | .flush d => Mount.flush C env d m
  | .processQueue d queue => Mount.processQueue C d queue m
  | .utimens _ atime other => Mount.utimens env atime other m
  | .setReadonly d readonly => Mount.setReadonly env d readonly m
  | .byPath op => pathOp env op.1 m
  | .getxattr path name journal again last attr mediaPool =>
    Mount.getxattr C around (.getxattr path name journal again last) attr mediaPool m
  | .setVolumeLockState path value => Mount.setVolumeLockState C around path value m
  | .periodicSync => Mount.periodicSync C around m
  | .volumeSync reason => syncIndex C around reason true .auto m
  | .unmount reason => Mount.unmount C around reason m

/-- The calls that are there to change something.  To write no bytes is not. -/
def Call.Mutates : Call β → Prop
  | .create .. | .symlink .. | .truncate .. | .truncatePath .. | .utimens ..
  | .setReadonly .. | .setVolumeLockState .. => True
  | .openFile _ openWrite _ => openWrite = true
  | .write _ _ bytes _ _ => bytes ≠ []
  | .byPath op => op.1.mutates = true
  | _ => False

/-! ## The gaps -/

/-- A sync has nothing to write, or no device to write to. -/
def Synced (type : IndexType) (m : State β) : Prop :=
  m.mountType = .rollbackMeta ∨ Settled type m.vol

/-- The volume lock state cannot be set to this value now, and there is a
`vol->t_attr` to find that out from. -/
def LockStateKept (value : Option ℕ) (m : State β) : Prop :=
  value = none ∨ ∃ vollock, m.attrVollock = some vollock ∧
    (isPwe vollock = true ∨ m.indexVollock = .permLocked ∨
      (∃ n, value = some n ∧ n.testBit 0 = true ∧ n.testBit 1 = true) ∨
      m.fileOpenCount ≠ 0)

/-- The condition on a call, to be met by the state before it. -/
def Call.Quiet (call : Call β) (m : State β) : Prop :=
  match call with
  | .write d offset .. => m.scheduler = .unified ∨ m.mountType = .rollbackMeta ∨
      (m.tree.dentry d).isdir = true ∨ (m.tree.dentry d).isImmutable = true ∨
      ((m.tree.dentry d).isAppendonly = true ∧ offset ≠ m.size d)
  | .setVolumeLockState _ value =>
    m.mountType = .rollbackMeta ∨ LockStateKept value m
  | .periodicSync => m.mountType = .rollback ∨ Synced .auto m
  | .volumeSync _ => Synced .auto m
  | .release _ _ _ writeIndex => writeIndex = true → Synced .auto m
  | .getxattr _ _ _ _ _ attr _ => attr = .virtual .sync → Synced .full m
  | .unmount _ => Unmountable m.mountType m.vol
  | _ => True

/-- The states that calls lead to, where every call meets `ok`. -/
inductive Reached [Zero β] (C : Catalog LtfsIndex (List β))
    (ok : Call β → State β → Prop) (m₀ : State β) : State β → Prop
  | start : Reached C ok m₀ m₀
  | call (around : Around β) (call : Call β) (m : State β) : Reached C ok m₀ m →
      ok call m → Reached C ok m₀ (call.exec C around m).2

/-! ## What calls keep -/

/-- What every quiet call keeps on a read-only mount. -/
structure Kept (d₀ : Device (List β)) (m : State β) : Prop where
  marked : Marked m
  tree : WellKept m.session
  idle : ∀ d, IdlePriv (m.ioschedPriv d)
  device : Untouched d₀ m.device

/-- A call that is refused, with no more done to the tree than taking and giving
back references, and nothing to the sizes of the files. -/
structure Refused (m : State β) (r : VolCall β Unit) : Prop where
  failed : ∃ e, e ≠ .crash ∧ r.1 = .error e
  frame : Frame m.tree r.2.tree
  size : r.2.size = m.size
  realsize : r.2.realsize = m.realsize

section Kept

variable {d₀ : Device (List β)} {m : State β}

theorem Kept.withTree {t : LtfsIndex} (h : Kept d₀ m) (ht : WellKept ⟨t, m.handles⟩) :
    Kept d₀ (m.withTree t) :=
  ⟨h.marked, ht, h.idle, h.device⟩

theorem Kept.idles {t : LtfsIndex} (h : Kept d₀ m)
    (ht : Fs.Idles m.handles m.tree t) : Kept d₀ (m.withTree t) :=
  h.withTree (ht.wellKept h.tree)

theorem Kept.withRaw {raw : RawVol LtfsIndex β} (h : Kept d₀ m)
    (hraw : Rests m.vol raw.vol) : Kept d₀ (m.withRaw raw) := by
  refine ⟨h.marked, ?_, h.idle, h.device.trans hraw.device⟩
  have hsession : (m.withRaw raw).session = m.session := by
    rw [State.session, State.session, State.tree, State.tree]
    exact congrArg (fun t => (⟨t, m.handles⟩ : Fs.Session)) hraw.tree
  rw [hsession]
  exact h.tree

theorem Kept.setIndexDirty (atime : Bool) (h : Kept d₀ m) :
    Kept d₀ (m.setIndexDirty atime) := by
  cases atime with
  | true => exact ⟨h.marked, h.tree, h.idle, h.device⟩
  | false => exact ⟨h.marked, h.tree, h.idle, h.device⟩

theorem modify_extents_self (s : LtfsIndex) (d : ℕ) :
    s.modify d (Fs.Dentry.extents (s.dentry d).extentlist) = s := by
  have hself : Fs.Dentry.extents (s.dentry d).extentlist (s.dentry d) = s.dentry d := rfl
  rw [LtfsIndex.modify, hself, Function.update_eq_self]

theorem withFile_tree {d : ℕ} (hx : Idles (m.file d) x) :
    (m.withFile d x).tree = m.tree := by
  have htree : x.raw.vol.tree = m.tree := hx.vol.tree
  have hextents : x.file.dentry.extents = (m.tree.dentry d).extentlist := by
    rw [hx.dentry]
    rfl
  change x.raw.vol.tree.modify d (Fs.Dentry.extents x.file.dentry.extents) = m.tree
  rw [htree, hextents]
  exact modify_extents_self m.tree d

theorem withFile_size {d : ℕ} (hx : Idles (m.file d) x) :
    (m.withFile d x).size = m.size ∧ (m.withFile d x).realsize = m.realsize := by
  simp only [State.withFile, hx.dentry]
  exact ⟨Function.update_eq_self d m.size, Function.update_eq_self d m.realsize⟩

theorem Refused.of_withTree {e : CallError} {t : LtfsIndex} (he : e ≠ .crash)
    (ht : Frame m.tree t) : Refused m (.error e, m.withTree t) :=
  ⟨⟨e, he, rfl⟩, ht, rfl, rfl⟩

theorem Kept.withFile {d : ℕ} (h : Kept d₀ m) (hx : Idles (m.file d) x) :
    Kept d₀ (m.withFile d x) := by
  refine ⟨h.marked, ?_, ?_, h.device.trans hx.vol.device⟩
  · have hsession : (m.withFile d x).session = m.session :=
      congrArg (fun t => (⟨t, m.handles⟩ : Fs.Session)) (withFile_tree hx)
    rw [hsession]
    exact h.tree
  · intro e
    by_cases hed : e = d
    · rw [hed]
      simpa [State.withFile] using hx.idle
    · simpa [State.withFile, hed] using h.idle e

theorem Kept.isTree (h : Kept d₀ m) : Fs.Tree m.tree := h.tree.sound.tree

theorem Kept.counted (h : Kept d₀ m) : ∃ base, Fs.Counted base m.handles m.tree :=
  h.tree.counted

/-! ## Calls on the tree -/

variable (env : Env) (C : Catalog LtfsIndex (List β))

variable (h : Kept d₀ m)

include h

theorem create_refused (path : Except FsError Path) (isdir readonly overwrite : Bool)
    (mem : Memory) (worm : Option FsError) :
    create env path isdir readonly overwrite mem worm m =
      (.error (.fs .rdonlyVolume), m) := by
  rw [create, Fs.ltfsFsopsCreate_refused (h.marked.env env)]
  rfl

theorem symlinkPath_refused (target : Fs.Name) (path : Except FsError Path) (mem : Memory)
    (worm : Option FsError) :
    ∃ e, symlinkPath C env target path mem worm m = (.error (.fs e), m) := by
  rw [symlinkPath]
  split
  · rw [create_refused env h]
    exact ⟨_, rfl⟩
  · exact ⟨_, rfl⟩

theorem openFile_refused (path : Except FsError Path) (useIosched : Bool) :
    ∃ e, openFile env path true useIosched m = (.error (.fs e), m) := by
  obtain ⟨e, he⟩ := Fs.ltfsFsopsOpen_refused (h.marked.env env) path useIosched {} m.tree
  rw [openFile, he]
  exact ⟨_, rfl⟩

theorem openFile_kept (path : Except FsError Path) (openWrite useIosched : Bool) :
    Kept d₀ (openFile env path openWrite useIosched m).2 := by
  cases openWrite with
  | true =>
    obtain ⟨e, he⟩ := openFile_refused env h path useIosched
    rw [he]
    exact h
  | false =>
    obtain ⟨base, hc⟩ := h.counted
    have hopen := Fs.ltfsFsopsOpen_read (m.env env) path useIosched {} h.isTree hc
    rw [openFile]
    generalize Fs.ltfsFsopsOpen (m.env env) path false useIosched {} m.tree = r at hopen ⊢
    cases hopen with
    | failed e t _ ht hct => exact h.idles ⟨ht, base, hct⟩
    | found d t _ _ _ ht hct =>
      exact ⟨h.marked, Fs.Idles.wellKept h.tree ⟨ht, base, hct⟩, h.idle, h.device⟩

theorem truncate_refused (d : ℕ) (length : ℤ) :
    ∃ e, e ≠ .crash ∧ truncate env d length m = (.error e, m) := by
  rw [truncate, h.marked.readonly]
  split
  · split
    · exact ⟨.fs .badArg, by decide, rfl⟩
    · split
      · exact ⟨.fs .isDirectory, by decide, rfl⟩
      · exact ⟨.tape .rdonlyVolume, by decide, rfl⟩
  · exact ⟨.fs .ioschedInit, by decide, rfl⟩

theorem utimens_refused (atime other : Bool) :
    utimens env atime other m = (.error (.fs .rdonlyVolume), m) := by
  rw [utimens, Fs.ltfsFsopsUtimens, Fs.Env.admitChange_refused (h.marked.env env)]
  rfl

theorem setReadonly_refused (d : ℕ) (readonly : Bool) :
    setReadonly env d readonly m = (.error (.fs .rdonlyVolume), m) := by
  rw [setReadonly, Fs.ltfsFsopsSetReadonly, Fs.Env.admitChange_refused (h.marked.env env)]
  rfl

theorem truncatePath_refused (path : Except FsError Path) (length : ℤ) :
    ∃ e, truncatePath C env path length m = (.error (.fs e), m) := by
  obtain ⟨e, he⟩ := openFile_refused env h path false
  rw [truncatePath, he]
  exact ⟨_, rfl⟩

theorem pathOp_state (hop : op.exempt = false) :
    (pathOp env op m).2 = m.withTree (op.exec (m.env env) m.tree) := by
  obtain ⟨base, hc⟩ := h.counted
  rw [pathOp]
  cases hmutates : op.mutates with
  | false => rfl
  | true =>
    obtain ⟨e, he⟩ := op.ret_refused (h.marked.env env) hop hmutates h.isTree hc
    simp [he]

theorem pathOp_idles (hop : op.exempt = false) :
    Fs.Idles m.handles m.tree (op.exec (m.env env) m.tree) := by
  obtain ⟨base, hc⟩ := h.counted
  exact op.exec_idles (h.marked.env env) hop h.isTree hc

theorem pathOp_kept (hop : op.exempt = false) : Kept d₀ (pathOp env op m).2 := by
  rw [pathOp_state env h hop]
  exact h.idles (pathOp_idles env h hop)

theorem pathOp_refused (hop : op.exempt = false) (hmutates : op.mutates = true) :
    Refused m (pathOp env op m) := by
  obtain ⟨base, hc⟩ := h.counted
  have hstate := pathOp_state env h hop
  constructor
  · obtain ⟨e, he⟩ := op.ret_refused (h.marked.env env) hop hmutates h.isTree hc
    exact ⟨.fs e, by simp, by simp [pathOp, he, Except.mapError]⟩
  · rw [hstate]
    exact (pathOp_idles env h hop).frame
  · rw [hstate]
    rfl
  · rw [hstate]
    rfl

end Kept

/-! ## Calls on open files -/

section Files

variable {d₀ : Device (List β)} {m : State β}
variable (C : Catalog LtfsIndex (List β)) (env : Env)

section Open

variable (h : Kept d₀ m)

include h

/-- The scheduler closes a file without looking at the volume. -/
theorem closeQueued_spec (d : ℕ) (dirty useIosched : Bool) :
    Kept d₀ (closeQueued C env d dirty useIosched m).2 ∧
      (closeQueued C env d dirty useIosched m).2.handles = m.handles ∧
      (closeQueued C env d dirty useIosched m).2.mountType = m.mountType ∧
      ∀ type, Settled type m.vol →
        Settled type (closeQueued C env d dirty useIosched m).2.vol := by
  rw [closeQueued]
  split
  · have hidle := unifiedClose_idle C m.config dirty (s := m.file d) (h.idle d)
    have hraw := unifiedClose_raw C m.config dirty (s := m.file d) (h.idle d)
    refine ⟨h.withFile hidle, rfl, rfl, ?_⟩
    intro type hsettled
    change Settled type (Volume.withTree
      (Sched.unifiedClose C m.config dirty (m.file d)).2.raw.vol _)
    rw [hraw]
    exact hsettled
  · exact ⟨h, rfl, rfl, fun _ hsettled => hsettled⟩

theorem close_kept (d : ℕ) (dirty openWrite useIosched : Bool) :
    Kept d₀ (close C env d dirty openWrite useIosched m).2 := by
  rw [close]
  split
  · next hd =>
    obtain ⟨hkept, hhandles, -, -⟩ := closeQueued_spec C env h d dirty useIosched
    generalize closeQueued C env d dirty useIosched m = queued at hkept hhandles ⊢
    obtain ⟨ret, n⟩ := queued
    dsimp only at hkept hhandles ⊢
    have hclosed : WellKept (n.session.closed (n.env env) d
        (Fs.ltfsFsopsClose (n.env env) d dirty openWrite useIosched
          { extentlist := (n.tree.dentry d).extentlist } n.tree)) :=
      hkept.tree.closed
    have hheld : d ∈ n.session.handles := by
      change d ∈ n.handles
      rw [hhandles]
      exact hd
    rw [Fs.Session.closed, if_pos hheld] at hclosed
    exact ⟨hkept.marked, hclosed, hkept.idle, hkept.device⟩
  · exact h

theorem close_settled (d : ℕ) (dirty openWrite useIosched : Bool) {type : IndexType}
    (hsettled : Settled type m.vol) :
    Settled type (close C env d dirty openWrite useIosched m).2.vol := by
  rw [close]
  split
  · exact (closeQueued_spec C env h d dirty useIosched).2.2.2 type hsettled
  · exact hsettled

theorem close_mountType (d : ℕ) (dirty openWrite useIosched : Bool) :
    (close C env d dirty openWrite useIosched m).2.mountType = m.mountType := by
  rw [close]
  split
  · exact (closeQueued_spec C env h d dirty useIosched).2.2.1
  · rfl

theorem ioschedRead_kept [Zero β] (d offset count : ℕ) :
    Kept d₀ (ioschedRead d offset count m).2 := by
  rw [ioschedRead]
  split
  · exact h.withFile (unifiedRead_idles m.config offset count (h.idle d))
  · exact h.withRaw (ltfsFsrawRead_rests _ offset count (m.file d).fileState).1

theorem read_kept [Zero β] (d offset count : ℕ) : Kept d₀ (read env d offset count m).2 := by
  rw [read]
  split
  · split
    · exact h
    · split
      · split
        · exact h
        · exact h
      · have hread := ioschedRead_kept h d offset count
        dsimp only
        generalize ioschedRead d offset count m = r at hread ⊢
        obtain ⟨ret, n⟩ := r
        cases ret with
        | error e => exact hread
        | ok _ =>
          dsimp only
          split
          · exact hread.setIndexDirty true
          · exact hread
  · exact h

theorem readdir_kept (d : ℕ) (filled : Bool) : Kept d₀ (readdir env d filled m).2 := by
  rw [readdir]
  split
  · split
    · exact h
    · dsimp only
      split
      · exact h.setIndexDirty true
      · exact h
  · exact h

/-- The first part of a write is refused, and there is no second. -/
theorem queueParts_refused (d offset blocks : ℕ) (more : List ℕ) {bytes : List β}
    (hbytes : bytes ≠ []) :
    (∃ e, (queueParts m.config false blocks more offset bytes (m.file d)).1 = .error e) ∧
      Idles (m.file d)
        (queueParts m.config false blocks more offset bytes (m.file d)).2 := by
  have hro : m.config.readonlyMount = true := decide_eq_true h.marked
  have hwrite := unifiedWrite_refused m.config hro blocks offset hbytes
    (s := m.file d) (h.idle d)
  rw [queueParts]
  generalize Sched.unifiedWrite m.config false blocks offset bytes (m.file d) = r
    at hwrite ⊢
  obtain ⟨ret, s⟩ := r
  obtain ⟨⟨e, he⟩, hidles⟩ := hwrite
  dsimp only at he
  rw [he]
  exact ⟨⟨e, rfl⟩, hidles⟩

end Open

theorem queueParts_nil (config : Sched.Mount) (resumed : Bool) (blocks offset : ℕ)
    (more : List ℕ) (s : Sched.State LtfsIndex β) :
    (queueParts config resumed blocks more offset [] s).2 = s := by
  rw [queueParts, Sched.unifiedWrite, if_pos rfl, Outcome.andThen_ok]
  cases more with
  | nil => rfl
  | cons blocks more => simp

variable (around : Around β)

section Calls

variable (h : Kept d₀ m)

include h

omit env in
/-- A write is refused by the checks on the file or by the scheduler. -/
theorem write_spec {d offset : ℕ} {bytes : List β} (blocks : ℕ) (more : List ℕ)
    (hquiet : (Call.write d offset bytes blocks more).Quiet m) :
    Kept d₀ (write C around d offset bytes blocks more m).2 ∧
      (bytes ≠ [] → Refused m (write C around d offset bytes blocks more m)) := by
  have hfail (e : CallError) (he : e ≠ .crash) :
      Kept d₀ ((.error e, m) : VolCall β Unit).2 ∧
        (bytes ≠ [] → Refused m (.error e, m)) :=
    ⟨h, fun _ => .of_withTree he (Frame.refl _)⟩
  rw [write]
  split
  · split
    · exact hfail (.fs .isDirectory) (by decide)
    · next hdir =>
      split
      · exact hfail (.fs .wormEnabled) (by decide)
      · next hworm =>
        cases hsched : m.scheduler with
        | unified =>
          by_cases hbytes : bytes = []
          · have hidle : Idles (m.file d)
                (queueParts m.config false blocks more offset bytes (m.file d)).2 := by
              rw [hbytes, queueParts_nil]
              exact Idles.refl (h.idle d)
            exact ⟨h.withFile hidle, fun hne => absurd hbytes hne⟩
          · obtain ⟨⟨e, he⟩, hidle⟩ := queueParts_refused h d offset blocks more hbytes
            obtain ⟨hsize, hrealsize⟩ := withFile_size hidle
            refine ⟨h.withFile hidle,
              fun _ => ⟨⟨.tape e, by simp, ?_⟩, ?_, hsize, hrealsize⟩⟩
            · dsimp only
              rw [he]
              rfl
            · dsimp only
              rw [withFile_tree hidle]
              exact Frame.refl _
        | fcfs =>
          have hmeta : m.mountType = .rollbackMeta := by
            rcases hquiet with hu | hmeta | hd | hi | ⟨ha, ho⟩
            · rw [hsched] at hu
              cases hu
            · exact hmeta
            · exact absurd hd hdir
            · simp [hi] at hworm
            · simp [ha, ho] at hworm
          dsimp only
          rw [fcfsWrite, if_pos hmeta]
          exact hfail (.tape nullArg) (by decide)
  · exact hfail (.fs .ioschedInit) (by decide)

theorem flush_kept (d : ℕ) : Kept d₀ (flush C env d m).2 := by
  rw [flush]
  split
  · split
    · exact h
    · split
      · rw [unifiedFlushUnlocked_idle C m.config (h.idle d)]
        exact h.withFile (Idles.refl (h.idle d))
      · exact h
  · exact h

theorem processQueue_kept (d : ℕ) (queue : RequestState) :
    Kept d₀ (processQueue C d queue m).2 := by
  rw [processQueue]
  split
  · exact h
  · dsimp only
    split
    · exact h.withFile (unifiedProcessIndexQueue_idle C m.config (h.idle d))
    · exact h.withFile (unifiedProcessDataQueue_idle C m.config queue (h.idle d))

/-! ## Calls that may write an index -/

theorem syncIndex_kept (reason : SyncReason) (indexLocking : Bool) {type : IndexType}
    (hsynced : Synced type m) : Kept d₀ (syncIndex C around reason indexLocking type m).2 := by
  rw [syncIndex]
  split
  · exact h
  · next hmeta =>
    have hsettled : Settled type m.vol := hsynced.resolve_left hmeta
    have hout : (m.enter around).outside = around.outside := rfl
    have hsame := ltfsSyncIndex_settled C reason indexLocking around.passes hout hsettled
    apply h.withRaw
    rw [hsame.vol]
    exact Rests.refl _

theorem release_kept (d : ℕ) (dirty openWrite writeIndex : Bool)
    (hsynced : writeIndex = true → Synced .auto m) :
    Kept d₀ (release C around d dirty openWrite writeIndex m).2 := by
  have hclose := close_kept C around.env h d dirty openWrite true
  rw [release]
  split
  · next hwrite =>
    apply syncIndex_kept C around hclose
    rcases hsynced hwrite with hmeta | hsettled
    · left
      rw [close_mountType C around.env h]
      exact hmeta
    · right
      exact close_settled C around.env h d dirty openWrite true hsettled
  · exact hclose

theorem getxattr_kept (hop : op.exempt = false) (attr : Lock.Attr) (mediaPool : Bool)
    (hsynced : attr = .virtual .sync → Synced .full m) :
    Kept d₀ (getxattr C around op attr mediaPool m).2 := by
  have hlooked := pathOp_kept around.env h hop
  have hstate := pathOp_state around.env h hop
  have hnear := ltfsFsopsGetxattr_near C attr around.passes
    (enter_near around (pathOp around.env op m).2) rfl (by
      intro hattr
      rw [hstate]
      exact hsynced hattr)
  exact hlooked.withRaw hnear.vol

end Calls

theorem lockStateRefusal_of_kept (hkept : LockStateKept value m) :
    ∃ e, lockStateRefusal value m = .error (.fs e) := by
  unfold lockStateRefusal
  cases value with
  | none => exact ⟨_, rfl⟩
  | some n =>
    obtain ⟨vollock, hattr, hkept⟩ := hkept.resolve_left (by simp)
    simp only [hattr]
    rcases hkept with hpwe | hperm | ⟨_, ⟨⟩, hbit₀, hbit₁⟩ | hopen
    · simp only [hpwe, if_true]
      exact ⟨_, rfl⟩
    · simp only [hperm, if_true, ite_self]
      exact ⟨_, rfl⟩
    · simp only [requestedLock, hbit₀, hbit₁, ite_self]
      exact ⟨_, rfl⟩
    · split
      · exact ⟨_, rfl⟩
      · split
        · exact ⟨_, rfl⟩
        · split
          · exact ⟨_, rfl⟩
          · exact ⟨_, rfl⟩

theorem xattrSetLockState_refused (d : ℕ)
    (hkept : m.mountType = .rollbackMeta ∨ LockStateKept value m) :
    ∃ e, xattrSetLockState C around d value m = (.error (.fs e), m) := by
  rw [xattrSetLockState]
  split
  · exact ⟨_, rfl⟩
  · next hdevice =>
    split
    · exact ⟨_, rfl⟩
    · have hstate : LockStateKept value m :=
        hkept.resolve_left fun hmeta => hdevice (.inl hmeta)
      obtain ⟨e, he⟩ := lockStateRefusal_of_kept hstate
      rw [he]
      exact ⟨e, rfl⟩

theorem setVolumeLockState_refused (h : Kept d₀ m) (path : Except FsError Path)
    (hkept : m.mountType = .rollbackMeta ∨ LockStateKept value m) :
    Kept d₀ (setVolumeLockState C around path value m).2 ∧
      Refused m (setVolumeLockState C around path value m) := by
  have hfail (e : CallError) (he : e ≠ .crash) {t : LtfsIndex}
      (ht : Fs.Idles m.handles m.tree t) :
      Kept d₀ ((.error e, m.withTree t) : VolCall β Unit).2 ∧
        Refused m (.error e, m.withTree t) :=
    ⟨h.idles ht, .of_withTree he ht.frame⟩
  obtain ⟨base, hc⟩ := h.counted
  have hhere : Fs.Idles m.handles m.tree m.tree := .of_counted hc
  rw [setVolumeLockState]
  split
  · exact hfail (.fs _) (by simp) hhere
  · exact hfail (.fs _) (by simp) hhere
  · next path' _ _ =>
    -- the one pass that is made ends in an error of the attribute
    have hpass : ∃ e t, lockStatePass C around path' value m =
        (.done (.error (.fs e)), m.withTree t) ∧ Fs.Idles m.handles m.tree t := by
      rw [lockStatePass]
      split
      · exact ⟨_, m.tree, rfl, hhere⟩
      · have hwalk := Fs.fsPathLookup_spec around.env.keys false path' h.isTree hc
        generalize Fs.fsPathLookup around.env.keys false path' m.tree = r at hwalk ⊢
        cases hwalk with
        | failed e t _ ht hct => exact ⟨_, t, rfl, ht, base, hct⟩
        | kept _ _ _ hkeep => cases hkeep
        | found d t _ _ ht _ hct =>
          have hheld : Fs.Idles (d :: m.handles) m.tree t := ⟨ht, base, hct⟩
          obtain ⟨e, he⟩ := xattrSetLockState_refused C around (m := m.withTree t) d hkept
          refine ⟨e, Fs.fsReleaseDentry d t, ?_, hheld.release h.isTree⟩
          simp only [he]
          rfl
    obtain ⟨e, t, hpass, ht⟩ := hpass
    cases around.passes with
    | zero => exact hfail .pending (by decide) hhere
    | succ passes =>
      rw [retry, hpass]
      exact hfail (.fs e) (by simp) ht

theorem unmount_kept (h : Kept d₀ m) (reason : SyncReason)
    (hun : Unmountable m.mountType m.vol) : Kept d₀ (unmount C around reason m).2 := by
  have hnear := ltfsUnmount_near C reason around.passes (enter_near around m) rfl hun
  exact h.withRaw hnear.vol

end Files

/-! ## Runs -/

section Runs

variable [Zero β] {d₀ : Device (List β)} {m m₀ : State β}
variable (C : Catalog LtfsIndex (List β)) (around : Around β)

theorem Call.exec_kept (h : Kept d₀ m) (call : Call β) (hquiet : call.Quiet m) :
    Kept d₀ (call.exec C around m).2 := by
  cases call with
  | create path isdir readonly overwrite mem worm =>
    rw [Call.exec, create_refused around.env h]
    exact h
  | symlink target path mem worm =>
    obtain ⟨e, he⟩ := symlinkPath_refused around.env C h target path mem worm
    rw [Call.exec, he]
    exact h
  | openFile path openWrite useIosched =>
    exact openFile_kept around.env h path openWrite useIosched
  | close d dirty openWrite useIosched =>
    exact close_kept C around.env h d dirty openWrite useIosched
  | release d dirty openWrite writeIndex =>
    exact release_kept C around h d dirty openWrite writeIndex hquiet
  | read d offset count => exact read_kept around.env h d offset count
  | readdir d filled => exact readdir_kept around.env h d filled
  | write d offset bytes blocks more => exact (write_spec C around h blocks more hquiet).1
  | truncate d length =>
    obtain ⟨e, -, he⟩ := truncate_refused around.env h d length
    rw [Call.exec, he]
    exact h
  | truncatePath path length =>
    obtain ⟨e, he⟩ := truncatePath_refused around.env C h path length
    rw [Call.exec, he]
    exact h
  | flush d => exact flush_kept C around.env h d
  | processQueue d queue => exact processQueue_kept C h d queue
  | utimens d atime other =>
    rw [Call.exec, utimens_refused around.env h]
    exact h
  | setReadonly d readonly =>
    rw [Call.exec, setReadonly_refused around.env h]
    exact h
  | byPath op => exact pathOp_kept around.env h op.2
  | getxattr path name journal again last attr mediaPool =>
    exact getxattr_kept C around h rfl attr mediaPool hquiet
  | setVolumeLockState path value =>
    exact (setVolumeLockState_refused C around h path hquiet).1
  | periodicSync =>
    rw [Call.exec, Mount.periodicSync]
    split
    · exact h
    · next hskip =>
      apply syncIndex_kept C around h
      exact Or.resolve_left hquiet fun hrollback => hskip (.inl hrollback)
  | volumeSync reason => exact syncIndex_kept C around h reason true hquiet
  | unmount reason => exact unmount_kept C around h reason hquiet

theorem Call.exec_refused (h : Kept d₀ m) (call : Call β) (hquiet : call.Quiet m)
    (hmutates : call.Mutates) : Refused m (call.exec C around m) := by
  have hfail {r : VolCall β Unit} (hr : ∃ e, r = (.error (.fs e), m)) : Refused m r := by
    obtain ⟨e, rfl⟩ := hr
    exact .of_withTree (by simp) (Frame.refl _)
  cases call with
  | create path isdir readonly overwrite mem worm =>
    rw [Call.exec, create_refused around.env h]
    exact hfail ⟨_, rfl⟩
  | symlink target path mem worm =>
    exact hfail (symlinkPath_refused around.env C h target path mem worm)
  | openFile path openWrite useIosched =>
    obtain rfl : openWrite = true := hmutates
    obtain ⟨e, he⟩ := openFile_refused around.env h path useIosched
    rw [Call.exec, he]
    exact hfail ⟨e, rfl⟩
  | write d offset bytes blocks more =>
    exact (write_spec C around h blocks more hquiet).2 hmutates
  | truncate d length =>
    obtain ⟨e, hcrash, he⟩ := truncate_refused around.env h d length
    rw [Call.exec, he]
    exact .of_withTree hcrash (Frame.refl _)
  | truncatePath path length =>
    exact hfail (truncatePath_refused around.env C h path length)
  | utimens d atime other => exact hfail ⟨_, utimens_refused around.env h atime other⟩
  | setReadonly d readonly =>
    exact hfail ⟨_, setReadonly_refused around.env h d readonly⟩
  | byPath op => exact pathOp_refused around.env h op.2 hmutates
  | setVolumeLockState path value =>
    exact (setVolumeLockState_refused C around h path hquiet).2
  | _ => exact absurd hmutates id

omit around in
theorem Reached.kept (h₀ : Kept d₀ m₀) (h : Reached C Call.Quiet m₀ m) : Kept d₀ m := by
  induction h with
  | start => exact h₀
  | call around call m _ hquiet ih => exact call.exec_kept C around ih hquiet

end Runs

/-- A volume that has just been mounted: no file is open and nothing is queued. -/
structure AtMount (blocksize : ℕ) (m : State β) : Prop where
  tree : Fs.Mounted blocksize m.tree
  handles : m.handles = []
  ioschedPriv : ∀ d, m.ioschedPriv d = none

theorem AtMount.kept {blocksize : ℕ} {m : State β} (h : AtMount blocksize m)
    (hmarked : Marked m) : Kept m.device m := by
  refine ⟨hmarked, ?_, ?_, .refl _⟩
  · rw [State.session, h.handles]
    exact h.tree.wellKept
  · intro d
    rw [h.ioschedPriv d]
    exact IdlePriv.none

/-- After quiet calls on a read-only mount the medium is the one that was mounted,
and so was every medium in between.  The next call that would change something
fails, without a crash, and leaves the tree and the sizes of the files alone. -/
theorem readonlyMount_untouched [Zero β] (C : Catalog LtfsIndex (List β))
    {blocksize : ℕ} {m₀ m : State β} (hmarked : Marked m₀) (hmount : AtMount blocksize m₀)
    (hrun : Reached C Call.Quiet m₀ m) :
    Untouched m₀.device m.device ∧
      ∀ (around : Around β) (call : Call β), call.Quiet m → call.Mutates →
        (∃ e, e ≠ .crash ∧ (call.exec C around m).1 = .error e) ∧
          Frame m.tree (call.exec C around m).2.tree ∧
          (call.exec C around m).2.size = m.size ∧
          (call.exec C around m).2.realsize = m.realsize := by
  have hkept := hrun.kept C (hmount.kept hmarked)
  refine ⟨hkept.device, ?_⟩
  intro around call hquiet hmutates
  have hrefused := call.exec_refused C around hkept hquiet hmutates
  exact ⟨hrefused.failed, hrefused.frame, hrefused.size, hrefused.realsize⟩

/-! ## The gaps, met -/

/-- Every lock is granted and every command succeeds. -/
def smooth (β : Type*) (passes : ℕ) : Around β where
  outside := Lock.answering none none
  passes := passes
  meanwhile_eq := fun _ _ => rfl
  revalidated_rests := fun _ _ => Rests.refl _

def sampleCatalog : Catalog LtfsIndex (List ℕ) where
  journalErr _ := false
  journalCount _ := 0
  incjClear := id
  schema _ _ := [[1]]
  afterSchema _ := id
  incSchema _ _ := [[2]]
  afterIncSchema _ := id

def plainFile : Fs.Loaded where
  name := [0x61]
  uid := 2
  plain := Fs.sampleFile.plain

/-- A volume with the file `/a`. -/
def plainVolume : LtfsIndex := Fs.loadDentry Fs.root plainFile (Fs.ltfsIndexAlloc 512)

theorem plainVolume_mounted : Fs.Mounted 512 plainVolume :=
  .load Fs.root _ _ .alloc (.inl rfl) rfl rfl

/-- A mount of that volume.  Its newest index is on the partition `newest`, and
`vol->t_attr` is there on a normal mount. -/
def sampleMount (mountType : MountType) (readonlyMount useAtime : Bool)
    (newest : Part) (scheduler : Scheduler) : State ℕ :=
  let v := mounted plainVolume fun _ =>
    [Record.block [0], .filemark, .block [1], .filemark]
  { raw :=
      { vol := { v with
          header := { v.header with selfptr := ⟨some newest, 2⟩ }
          useAtime := useAtime }
        lastPos := none
        lastBlock := [] }
    size := fun _ => 1
    realsize := fun _ => 1
    matchesNameCriteria := fun _ => false
    ioschedPriv := fun _ => none
    handles := []
    fileOpenCount := 0
    mountType := mountType
    settings :=
      { cacheSize := 4
        blockSize := 4
        maxFilesize := 0
        readonlyMount := readonlyMount
        lockStatus := .unlocked
        cacheSize_pos := by decide
        blockSize_pos := by decide
        blockSize_le := by decide }
    attrVollock := if mountType = .normal then some .unlocked else none
    indexVollock := .unlocked
    scheduler := scheduler }

theorem sampleMount_atMount (mountType : MountType) (readonlyMount useAtime : Bool)
    (newest : Part) (scheduler : Scheduler) :
    AtMount 512 (sampleMount mountType readonlyMount useAtime newest scheduler) :=
  ⟨plainVolume_mounted, rfl, fun _ => rfl⟩

/-- Listing the root of a rollback mount leaves its tape alone, and so does a
mkdir, which fails. -/
theorem readonlyMount_untouched_mkdir :
    let m := ((Call.readdir Fs.root true).exec sampleCatalog (smooth ℕ 1)
      (sampleMount .rollback false false .dp .unified)).2
    Untouched (sampleMount .rollback false false .dp .unified).device m.device ∧
      ∃ e, e ≠ .crash ∧ ((Call.create (.ok [[100]]) true false false {} none).exec
        sampleCatalog (smooth ℕ 1) m).1 = .error e := by
  have hmarked : Marked (sampleMount .rollback false false .dp .unified) := .inr (.inl rfl)
  have hrun := readonlyMount_untouched sampleCatalog hmarked
    (sampleMount_atMount .rollback false false .dp .unified)
    (.call (smooth ℕ 1) (.readdir Fs.root true) _ .start trivial)
  exact ⟨hrun.1, (hrun.2 (smooth ℕ 1) (.create (.ok [[100]]) true false false {} none)
    trivial trivial).1⟩

/-- The two partitions. -/
def tape (m : State ℕ) : List (Record (List ℕ)) × List (Record (List ℕ)) :=
  (m.device.medium .ip, m.device.medium .dp)

def after (call : Call ℕ) (m : State ℕ) : State ℕ :=
  (call.exec sampleCatalog (smooth ℕ 2) m).2

/-- An unmount writes an index on a mount that was made read-only on request, if
the newest one is on the data partition, or if a listing has updated access times.
To set the volume lock state writes an index there too; on a mount of an earlier
state it follows the NULL in `vol->t_attr`.  Through the `fcfs` scheduler a write on a
handle that was opened for reading reaches the tape, which takes a mount of an index
file with a device: that of an earlier generation makes the drive itself refuse. -/
theorem readonlyMount_written :
    (let m := sampleMount .normal true false .dp .unified
     tape (after (.unmount .unmount) m) ≠ tape m) ∧
    (let m := sampleMount .normal true true .ip .unified
     tape (after (.unmount .unmount) (after (.readdir Fs.root true) m)) ≠ tape m) ∧
    (let m := sampleMount .normal true false .ip .unified
     tape (after (.setVolumeLockState (.ok []) (some 1)) m) ≠ tape m) ∧
    ((Call.setVolumeLockState (.ok []) (some 1)).exec sampleCatalog (smooth ℕ 2)
      (sampleMount .rollback false false .dp .unified)).1 = .error .crash ∧
    (let m := after (.openFile (.ok [[0x61]]) false true)
      (sampleMount .rollback false false .dp .fcfs)
     m.handles ≠ [] ∧ ∀ d ∈ m.handles,
      tape (after (.write d 0 [7] 1 []) m) ≠ tape m) := by
  refine ⟨?_, ?_, ?_, ?_, ?_⟩ <;> decide

end AuroraLtfs.Mount
