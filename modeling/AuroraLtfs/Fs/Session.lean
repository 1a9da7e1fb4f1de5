import AuroraLtfs.Fs.RenameSpec

/-!
# Sessions

A session is the index of a mounted volume together with the handles its callers
hold.  It starts from the index that the loader builds and goes from one call to
the next; a call on a handle is only made by a caller who holds it.
-/

namespace AuroraLtfs.Fs

variable {base : ℕ → ℕ} {refs : List ℕ} {s t u : LtfsIndex} {env : Env} {d : ℕ}
  {r : Outcome FsError LtfsIndex Unit}

/-! ## The volume as it is mounted -/

/-- What the index on tape says about an object; only files have extents. -/
structure Loaded where
  name : Name
  isdir : Bool := false
  isslink : Bool := false
  target : List UInt8 := []
  readonly : Bool := false
  isImmutable : Bool := false
  isAppendonly : Bool := false
  extentlist : List Raw.Extent := []
  uid : ℕ
  plain : isdir = true → extentlist = []

def Loaded.usedBlocks (blocksize : ℕ) (obj : Loaded) : ℕ :=
  fsGetUsedBlocks blocksize { extentlist := obj.extentlist }

/-- The loader keeps no reference to the dentry it fills in. -/
def Dentry.load (obj : Loaded) (used : ℕ) (d : Dentry) : Dentry :=
  { d.handle (-1) with
    isslink := obj.isslink
    target := obj.target
    isImmutable := obj.isImmutable
    isAppendonly := obj.isAppendonly
    extentlist := obj.extentlist
    usedBlocks := used }

/-- `fs_allocate_dentry` below `p`, and what the parser then adds to it and to
the totals of the index. -/
def loadDentry (p : ℕ) (obj : Loaded) (s : LtfsIndex) : LtfsIndex :=
  let d := s.next
  let used := obj.usedBlocks s.blocksize
  let s := s.allocate (newDentry p obj.name obj.isdir obj.readonly obj.uid)
  let s := fsAddKey {} p obj.name d (linkDir 1 obj.isdir p s)
  let s := s.modify d (Dentry.load obj used)
  (s.countFile 1 obj.isdir).addBlocks used

/-- The index of a volume that has just been mounted: the root, and objects
entered one after the other into directories under new names. -/
inductive Mounted (blocksize : ℕ) : LtfsIndex → Prop
  | alloc : Mounted blocksize (ltfsIndexAlloc blocksize)
  | load (p : ℕ) (obj : Loaded) (s : LtfsIndex) : Mounted blocksize s →
      Attached s p → (s.dentry p).isdir = true →
      (s.dentry p).findKey obj.name = none →
      Mounted blocksize (loadDentry p obj s)

theorem loadDentry_dentry (p : ℕ) (obj : Loaded) (s : LtfsIndex) :
    (loadDentry p obj s).dentry =
      ((entered p obj.name obj.isdir obj.readonly {} obj.uid s).modify s.next
        (Dentry.load obj (obj.usedBlocks s.blocksize))).dentry :=
  countFile_dentry 1 obj.isdir

theorem loadDentry_sameTree (p : ℕ) (obj : Loaded) (s : LtfsIndex) :
    SameTree (entered p obj.name obj.isdir obj.readonly {} obj.uid s)
      (loadDentry p obj s) :=
  (SameTree.modify rfl rfl).trans
    (SameTree.of_dentry (loadDentry_dentry p obj s) (countFile_next 1 obj.isdir))

theorem ltfsIndexAlloc_dentry (blocksize : ℕ) {x : ℕ} (hx : x ≠ root) :
    (ltfsIndexAlloc blocksize).dentry x = {} := by
  unfold ltfsIndexAlloc
  exact Function.update_of_ne hx _ fun _ => ({} : Dentry)

theorem ltfsIndexAlloc_childList (blocksize x : ℕ) :
    ((ltfsIndexAlloc blocksize).dentry x).childList = [] := by
  by_cases hx : x = root
  · rw [hx]
    rfl
  · rw [ltfsIndexAlloc_dentry blocksize hx]

theorem ltfsIndexAlloc_parent (blocksize x : ℕ) :
    ((ltfsIndexAlloc blocksize).dentry x).parent = none := by
  by_cases hx : x = root
  · rw [hx]
    rfl
  · rw [ltfsIndexAlloc_dentry blocksize hx]

theorem ltfsIndexAlloc_tree (blocksize : ℕ) : Tree (ltfsIndexAlloc blocksize) := by
  have hempty {p : ℕ} {n : Name} {c : ℕ}
      (h : (n, c) ∈ ((ltfsIndexAlloc blocksize).dentry p).childList) : False := by
    rw [ltfsIndexAlloc_childList] at h
    cases h
  have hfresh {x : ℕ} (hx : (ltfsIndexAlloc blocksize).next ≤ x) :
      (ltfsIndexAlloc blocksize).dentry x = {} :=
    ltfsIndexAlloc_dentry blocksize (Nat.one_le_iff_ne_zero.1 hx)
  exact {
    root_isdir := rfl
    root_parent := rfl
    root_deleted := rfl
    root_freed := rfl
    entry_freed := fun h => (hempty h).elim
    entry_deleted := fun h => (hempty h).elim
    entry_parent := fun h => (hempty h).elim
    entry_name := fun h => (hempty h).elim
    owner_isdir := fun {p} hne => absurd (ltfsIndexAlloc_childList blocksize p) hne
    owner_attached := fun {p} hne => absurd (ltfsIndexAlloc_childList blocksize p) hne
    nodup := fun p => by
      rw [ltfsIndexAlloc_childList]
      exact List.nodup_nil
    gone_parent := fun {x} _ => ltfsIndexAlloc_parent blocksize x
    ends := fun x => ParentChain.Ends.of_none (ltfsIndexAlloc_parent blocksize x)
    fresh_freed := fun hx => by rw [hfresh hx]
    fresh_deleted := fun hx => by rw [hfresh hx]
    fresh_parent := fun hx => by rw [hfresh hx]
    parent_lt := fun {x p} hp => by
      rw [ltfsIndexAlloc_parent] at hp
      cases hp }

theorem ltfsIndexAlloc_counted (blocksize : ℕ) :
    Counted (fun _ => 0) [] (ltfsIndexAlloc blocksize) where
  count := fun x hx => by
    by_cases hroot : x = root
    · rw [hroot]
      rfl
    · rw [ltfsIndexAlloc_dentry blocksize hroot] at hx
      cases hx
  live := fun x hx => by cases hx
  kept := fun x hx => absurd hx (lt_irrefl 0)
  idle := fun x hx hzero => by
    by_cases hroot : x = root
    · rw [hroot] at hzero
      cases hzero
    · rw [ltfsIndexAlloc_dentry blocksize hroot] at hx
      cases hx

theorem loadDentry_tree {p : ℕ} {obj : Loaded} (hs : Tree s) (hp : Attached s p)
    (hdir : (s.dentry p).isdir = true) (hnew : (s.dentry p).findKey obj.name = none) :
    Tree (loadDentry p obj s) := by
  have hfit : Fits s s.next (newPlace p obj.name {})
      (entered p obj.name obj.isdir obj.readonly {} obj.uid s) :=
    entered_fits hs hp (fun _ => hdir) hnew
  exact ((entered_rehung hs).tree hs hfit).same (loadDentry_sameTree p obj s)

theorem loadDentry_counted {p : ℕ} {obj : Loaded} (hs : Tree s)
    (hc : Counted base refs s) : Counted base refs (loadDentry p obj s) := by
  obtain ⟨v, hv⟩ : ∃ v, v = entered p obj.name obj.isdir obj.readonly {} obj.uid s :=
    ⟨_, rfl⟩
  have hentered : Counted base (s.next :: refs) v := hv ▸ hc.entered hs
  have hfill {γ : Type} (f : Dentry → γ)
      (hf : ∀ used x, f (Dentry.load obj used x) = f (Dentry.handle (-1) x)) (x : ℕ) :
      f ((loadDentry p obj s).dentry x) =
        f ((v.modify s.next (Dentry.handle (-1))).dentry x) := by
    rw [loadDentry_dentry, ← hv, LtfsIndex.modify_dentry, LtfsIndex.modify_dentry]
    split
    · exact hf _ _
    · rfl
  have halive : (v.dentry s.next).deleted = false := by
    rw [hv]
    exact entered_self Dentry.deleted (fun _ _ => rfl) fun _ _ _ => rfl
  exact (hentered.drop (.inl halive)).same (hfill Dentry.numhandles fun _ _ => rfl)
    (hfill Dentry.deleted fun _ _ => rfl) (hfill Dentry.freed fun _ _ => rfl)
    (hfill Dentry.outOfSync fun _ _ => rfl)

theorem Mounted.tree {blocksize : ℕ} (h : Mounted blocksize s) : Tree s := by
  induction h with
  | alloc => exact ltfsIndexAlloc_tree blocksize
  | load p obj s _ hp hdir hnew ih => exact loadDentry_tree ih hp hdir hnew

theorem Mounted.counted {blocksize : ℕ} (h : Mounted blocksize s) :
    Counted (fun _ => 0) [] s := by
  induction h with
  | alloc => exact ltfsIndexAlloc_counted blocksize
  | load p obj s hm _ _ _ ih => exact loadDentry_counted hm.tree ih

/-! ## Calls -/

structure Session where
  fs : LtfsIndex
  handles : List ℕ := []

inductive Op
  | create (path : Except FsError Path) (isdir readonly overwrite : Bool)
      (mem : Memory) (worm : Option FsError)
  | unlink (path : Except FsError Path)
  | rename (source target : Except FsError Path) (mem : Memory)
  | openFile (path : Except FsError Path) (openWrite useIosched : Bool)
      (sched : SchedReply)
  | write (d : ℕ) (append : Bool) (sched : SchedReply)
  | truncate (d : ℕ) (length : ℤ) (sched : SchedReply)
  | truncatePath (path : Except FsError Path) (length : ℤ) (sched : SchedReply)
  | close (d : ℕ) (dirty openWrite useIosched : Bool) (sched : SchedReply)

namespace Session

/-- A call that succeeds hands out the dentry it returns. -/
def opened (σ : Session) (r : Outcome FsError LtfsIndex ℕ) : Session where
  fs := r.2
  handles :=
    match r.1 with
    | .ok d => d :: σ.handles
    | .error _ => σ.handles

/-- Calls on a handle nobody holds are not made. -/
def through (σ : Session) (d : ℕ) (r : Outcome FsError LtfsIndex Unit) : Session :=
  if d ∈ σ.handles then { σ with fs := r.2 } else σ

/-- A close gives the handle back unless it is refused. -/
def closed (σ : Session) (env : Env) (d : ℕ)
    (r : Outcome FsError LtfsIndex Unit) : Session :=
  if d ∈ σ.handles then
    { fs := r.2, handles := if env.iosched then σ.handles.erase d else σ.handles }
  else σ

end Session

def Op.exec (env : Env) (op : Op) (σ : Session) : Session :=
  match op with
  | .create path isdir readonly overwrite mem worm =>
    σ.opened (ltfsFsopsCreate env path isdir readonly overwrite mem worm σ.fs)
  | .unlink path => { σ with fs := (ltfsFsopsUnlink env path σ.fs).2 }
  | .rename source target mem =>
    { σ with fs := (ltfsFsopsRename env source target mem σ.fs).2 }
  | .openFile path openWrite useIosched sched =>
    σ.opened (ltfsFsopsOpen env path openWrite useIosched sched σ.fs)
  | .write d append sched =>
    σ.through d (ltfsFsopsWrite env d append sched σ.fs)
  | .truncate d length sched =>
    σ.through d (ltfsFsopsTruncate env d length sched σ.fs)
  | .truncatePath path length sched =>
    { σ with fs := (ltfsFsopsTruncatePath env path length sched σ.fs).2 }
  | .close d dirty openWrite useIosched sched =>
    σ.closed env d (ltfsFsopsClose env d dirty openWrite useIosched sched σ.fs)

/-- The sessions that calls lead to, where every call meets `ok`. -/
inductive Reached (ok : Env → Op → LtfsIndex → Prop) (σ₀ : Session) : Session → Prop
  | start : Reached ok σ₀ σ₀
  | call (env : Env) (op : Op) (σ : Session) : Reached ok σ₀ σ →
      ok env op σ.fs → Reached ok σ₀ (op.exec env σ)

/-! ## Calls on open files -/

/-- Directories have no extents and use no blocks. -/
def Dentry.Plain (d : Dentry) : Prop :=
  d.isdir = true → d.extentlist = [] ∧ d.usedBlocks = 0

def Plain (s : LtfsIndex) : Prop := ∀ d, (s.dentry d).Plain

theorem Plain.same (hs : Plain s) (htree : SameTree s t) (htotals : SameTotals s t) :
    Plain t := by
  intro d hd
  rw [htree.isdir] at hd
  rw [htotals.extentlist, htotals.usedBlocks]
  exact hs d hd

theorem Plain.frame (hs : Plain s) (h : Frame s t) : Plain t :=
  hs.same h.sameTree h.sameTotals

/-- What calls on a file may change: its extents and its block count, and the
total with it where the volume could be locked. -/
structure Recounted (env : Env) (base : ℕ → ℕ) (refs : List ℕ) (d : ℕ)
    (s t : LtfsIndex) : Prop where
  tree : SameTree s t
  usedBlocks : ∀ x, x ≠ d → (t.dentry x).usedBlocks = (s.dentry x).usedBlocks
  fileCount : t.fileCount = s.fileCount
  blocksize : t.blocksize = s.blocksize
  plain : Plain s → Plain t
  validBlocks : t.validBlocks = s.validBlocks +
    if env.blockLock = none then
      ((t.dentry d).usedBlocks : ℤ) - (s.dentry d).usedBlocks
    else 0
  counted : Counted base refs t

namespace Recounted

theorem trans {refs' : List ℕ} (hst : Recounted env base refs d s t)
    (htu : Recounted env base refs' d t u) : Recounted env base refs' d s u where
  tree := hst.tree.trans htu.tree
  usedBlocks := fun x hx => (htu.usedBlocks x hx).trans (hst.usedBlocks x hx)
  fileCount := htu.fileCount.trans hst.fileCount
  blocksize := htu.blocksize.trans hst.blocksize
  plain := fun hs => htu.plain (hst.plain hs)
  validBlocks := by
    rw [htu.validBlocks, hst.validBlocks]
    split <;> ring
  counted := htu.counted

theorem of_frame (h : Frame s t) (hc : Counted base refs t) :
    Recounted env base refs d s t where
  tree := h.sameTree
  usedBlocks := fun x _ => h.usedBlocks x
  fileCount := h.fileCount
  blocksize := h.blocksize
  plain := fun hs => hs.frame h
  validBlocks := by
    rw [h.validBlocks, h.usedBlocks]
    split <;> ring
  counted := hc

theorem extents (env : Env) (l : List Raw.Extent) (hc : Counted base refs s)
    (hfile : (s.dentry d).isdir = false) :
    Recounted env base refs d s (s.modify d (Dentry.extents l)) where
  tree := SameTree.modify rfl rfl
  usedBlocks := fun x _ => modify_field Dentry.usedBlocks rfl x
  fileCount := rfl
  blocksize := rfl
  plain := fun hs x hx => by
    rw [modify_field Dentry.isdir rfl] at hx
    have hxd : x ≠ d := by
      rintro rfl
      rw [hfile] at hx
      cases hx
    rw [LtfsIndex.modify_dentry_of_ne hxd]
    exact hs x hx
  validBlocks := by
    rw [modify_field Dentry.usedBlocks rfl, sub_self, ite_self, add_zero]
    rfl
  counted := hc.modify rfl rfl rfl rfl

end Recounted

theorem ltfsFsopsUpdateUsedBlocks_spec (hc : Counted base refs s) :
    Recounted env base refs d s (ltfsFsopsUpdateUsedBlocks env d s).2 := by
  obtain ⟨used, hused⟩ : ∃ used, used = fsGetUsedBlocks s.blocksize (s.dentry d) := ⟨_, rfl⟩
  have hcount : Counted base refs (s.modify d (Dentry.recount used)) :=
    hc.modify rfl rfl rfl rfl
  have htree : SameTree s (s.modify d (Dentry.recount used)) := SameTree.modify rfl rfl
  have hothers (x : ℕ) (hx : x ≠ d) :
      ((s.modify d (Dentry.recount used)).dentry x).usedBlocks =
        (s.dentry x).usedBlocks := by
    rw [LtfsIndex.modify_dentry_of_ne hx]
  have hself : ((s.modify d (Dentry.recount used)).dentry d).usedBlocks = used := by
    rw [LtfsIndex.modify_dentry_self]
    rfl
  have hplain (hs : Plain s) : Plain (s.modify d (Dentry.recount used)) := by
    intro x hx
    rw [modify_field Dentry.isdir rfl] at hx
    rw [modify_field Dentry.extentlist rfl]
    refine ⟨(hs x hx).1, ?_⟩
    by_cases hxd : x = d
    · subst hxd
      rw [hself, hused, fsGetUsedBlocks, (hs x hx).1]
      rfl
    · rw [hothers x hxd]
      exact (hs x hx).2
  unfold ltfsFsopsUpdateUsedBlocks
  rw [← hused]
  cases hlock : env.blockLock with
  | none =>
    refine ⟨htree.trans (SameTree.of_dentry rfl rfl), hothers, rfl, rfl, hplain, ?_,
      hcount.of_dentry rfl⟩
    rw [if_pos hlock]
    exact congrArg (fun n : ℕ => s.validBlocks + ((n : ℤ) - (s.dentry d).usedBlocks))
      hself.symm
  | some e =>
    refine ⟨htree, hothers, rfl, rfl, hplain, ?_, hcount⟩
    rw [if_neg (by rw [hlock]; exact Option.some_ne_none e), add_zero]
    rfl

theorem ltfsFsopsUpdateUsedBlocks_used (env : Env) (d : ℕ) (s : LtfsIndex) :
    ((ltfsFsopsUpdateUsedBlocks env d s).2.dentry d).usedBlocks =
      fsGetUsedBlocks s.blocksize (s.dentry d) := by
  unfold ltfsFsopsUpdateUsedBlocks
  cases env.blockLock with
  | none => exact congrArg Dentry.usedBlocks (LtfsIndex.modify_dentry_self ..)
  | some e => exact congrArg Dentry.usedBlocks (LtfsIndex.modify_dentry_self ..)

theorem ltfsFsopsClose_spec {dirty openWrite useIosched : Bool} {sched : SchedReply}
    (hs : Tree s) (hc : Counted base (d :: refs) s)
    (hr : ltfsFsopsClose env d dirty openWrite useIosched sched s = r) :
    Recounted env base (if env.iosched then refs else d :: refs) d s r.2 ∧
      (r.2.dentry d).usedBlocks = if env.iosched && openWrite then
        fsGetUsedBlocks s.blocksize (s.dentry d) else (s.dentry d).usedBlocks := by
  subst hr
  rw [ltfsFsopsClose]
  cases env.iosched with
  | false => exact ⟨.of_frame (Frame.refl s) hc, rfl⟩
  | true =>
    rw [if_pos rfl, if_pos rfl, Bool.true_and]
    obtain ⟨r, hr⟩ : ∃ r, r = if openWrite = true then
        ltfsFsopsUpdateUsedBlocks env d s else (.ok (), s) := ⟨_, rfl⟩
    have hfirst : Recounted env base (d :: refs) d s r.2 ∧
        (r.2.dentry d).usedBlocks = if openWrite then
          fsGetUsedBlocks s.blocksize (s.dentry d) else (s.dentry d).usedBlocks := by
      rw [hr]
      split
      · exact ⟨ltfsFsopsUpdateUsedBlocks_spec hc, ltfsFsopsUpdateUsedBlocks_used env d s⟩
      · exact ⟨.of_frame (Frame.refl s) hc, rfl⟩
    rw [← hr, ← hfirst.2]
    obtain ⟨v, hv⟩ : ∃ v, v = if (useIosched && !(r.2.dentry d).isdir && dirty) = true then
        r.2.modify d (Dentry.extents sched.extentlist) else r.2 := ⟨_, rfl⟩
    have hsecond : Recounted env base (d :: refs) d r.2 v ∧
        (v.dentry d).usedBlocks = (r.2.dentry d).usedBlocks := by
      rw [hv]
      split
      · next hqueued =>
        have hfile : (r.2.dentry d).isdir = false := by
          rw [Bool.and_eq_true, Bool.and_eq_true, Bool.not_eq_true'] at hqueued
          exact hqueued.1.2
        exact ⟨.extents env _ hfirst.1.counted hfile, modify_field Dentry.usedBlocks rfl d⟩
      · exact ⟨.of_frame (Frame.refl r.2) hfirst.1.counted, rfl⟩
    have hboth := hfirst.1.trans hsecond.1
    have hrel := fsReleaseDentry_spec (hs.same hboth.tree).gone hboth.counted
    have hall : Recounted env base refs d s (fsReleaseDentry d v) ∧
        ((fsReleaseDentry d v).dentry d).usedBlocks = (r.2.dentry d).usedBlocks :=
      ⟨hboth.trans (.of_frame hrel.frame hrel.counted),
        (hrel.frame.usedBlocks d).trans hsecond.2⟩
    dsimp only
    rw [← hv]
    split <;> exact hall

/-- A failed open leaves its references as they were; one that fails because a
symbolic link cannot be written has counted the blocks of the link. -/
inductive OpenOutcome (env : Env) (openWrite : Bool) (base : ℕ → ℕ) (refs : List ℕ)
    (s : LtfsIndex) : Outcome FsError LtfsIndex ℕ → Prop
  | unchanged (e : FsError) (t : LtfsIndex) : Frame s t → Counted base refs t →
      OpenOutcome env openWrite base refs s (.error e, t)
  | refused (d : ℕ) (e : FsError) (t : LtfsIndex) : openWrite = true → Attached s d →
      Recounted env base refs d s t →
      OpenOutcome env openWrite base refs s (.error e, t)
  | opened (d : ℕ) (t : LtfsIndex) : Attached s d → Frame s t →
      Counted base (d :: refs) t →
      OpenOutcome env openWrite base refs s (.ok d, t)

theorem Env.admitOpen_iosched {path : Except FsError Path} {openWrite : Bool}
    {norm : Path} (h : env.admitOpen path openWrite = .ok norm) : env.iosched = true := by
  cases hio : env.iosched with
  | true => rfl
  | false =>
    rw [Env.admitOpen, Env.scheduler, hio] at h
    cases h

theorem ltfsFsopsOpen_spec (env : Env) (path : Except FsError Path)
    (openWrite useIosched : Bool) (sched : SchedReply) (hs : Tree s)
    (hc : Counted base refs s) :
    OpenOutcome env openWrite base refs s
      (ltfsFsopsOpen env path openWrite useIosched sched s) := by
  rw [ltfsFsopsOpen]
  cases hadm : env.admitOpen path openWrite with
  | error e => exact .unchanged e s (Frame.refl s) hc
  | ok norm =>
    have hwalk := fsPathLookup_spec env.keys false norm hs hc
    dsimp only
    generalize fsPathLookup env.keys false norm s = found at hwalk ⊢
    cases hwalk with
    | failed e u _ hu hcu => exact .unchanged e u hu hcu
    | kept _ _ _ hkeep => cases hkeep
    | found d u _ hd hu _ hcu =>
      dsimp only
      split
      · next hlink =>
        have hclose : Recounted env base (if env.iosched then refs else d :: refs) d u
            (ltfsFsopsClose env d false openWrite useIosched sched u).2 :=
          (ltfsFsopsClose_spec (hs.frame hu) hcu rfl).1
        rw [Env.admitOpen_iosched hadm, if_pos rfl] at hclose
        have hfirst : Recounted env base (d :: refs) d s u := .of_frame hu hcu
        rw [Bool.and_eq_true] at hlink
        exact .refused d _ _ hlink.1 hd (hfirst.trans hclose)
      · exact .opened d u hd hu hcu

theorem ltfsFsopsWrite_spec {append : Bool} {sched : SchedReply} (hc : Counted base refs s)
    (hr : ltfsFsopsWrite env d append sched s = r) :
    Recounted env base refs d s r.2 ∧
      (r.2.dentry d).usedBlocks = (s.dentry d).usedBlocks := by
  subst hr
  have hsame : Recounted env base refs d s s ∧
      (s.dentry d).usedBlocks = (s.dentry d).usedBlocks :=
    ⟨.of_frame (Frame.refl s) hc, rfl⟩
  rw [ltfsFsopsWrite]
  split
  · split
    · exact hsame
    · next hfile =>
      split
      · exact hsame
      · have hext := Recounted.extents env sched.extentlist hc (Bool.not_eq_true _ ▸ hfile)
        dsimp only
        split <;> exact ⟨hext, modify_field Dentry.usedBlocks rfl d⟩
  · exact hsame

theorem ltfsFsopsTruncate_spec (length : ℤ) (sched : SchedReply) (hc : Counted base refs s)
    (hr : ltfsFsopsTruncate env d length sched s = r) :
    Recounted env base refs d s r.2 ∧
      ((r.2.dentry d).usedBlocks = (s.dentry d).usedBlocks ∨
        (r.2.dentry d).usedBlocks = fsGetUsedBlocks s.blocksize
          ((s.dentry d).extents sched.extentlist)) := by
  subst hr
  have hsame : Recounted env base refs d s s ∧
      ((s.dentry d).usedBlocks = (s.dentry d).usedBlocks ∨
        (s.dentry d).usedBlocks = fsGetUsedBlocks s.blocksize
          ((s.dentry d).extents sched.extentlist)) :=
    ⟨.of_frame (Frame.refl s) hc, .inl rfl⟩
  rw [ltfsFsopsTruncate]
  split
  · split
    · exact hsame
    · split
      · exact hsame
      · next hfile =>
        split
        · exact hsame
        · split
          · exact hsame
          · split
            · exact hsame
            · have hext := Recounted.extents env sched.extentlist hc
                (Bool.not_eq_true _ ▸ hfile)
              refine ⟨hext.trans (ltfsFsopsUpdateUsedBlocks_spec hext.counted), .inr ?_⟩
              rw [ltfsFsopsUpdateUsedBlocks_used, LtfsIndex.modify_dentry_self]
              rfl
  · exact hsame

/-- Truncating by path holds the file open meanwhile. -/
theorem ltfsFsopsTruncatePath_spec (env : Env) (path : Except FsError Path)
    (length : ℤ) (sched : SchedReply) (hs : Tree s) (hc : Counted base refs s) :
    ∃ d, Attached s d ∧
      Recounted env base refs d s (ltfsFsopsTruncatePath env path length sched s).2 := by
  rw [ltfsFsopsTruncatePath]
  have hopen := ltfsFsopsOpen_spec env path true false sched hs hc
  have hio : ∀ d t, ltfsFsopsOpen env path true false sched s = (.ok d, t) →
      env.iosched = true := by
    intro d t h
    rw [ltfsFsopsOpen] at h
    cases hadm : env.admitOpen path true with
    | error e => rw [hadm] at h; cases h
    | ok norm => exact Env.admitOpen_iosched hadm
  generalize ltfsFsopsOpen env path true false sched s = r at hopen hio ⊢
  cases hopen with
  | unchanged e t ht hct => exact ⟨root, .inl rfl, .of_frame ht hct⟩
  | refused d e t _ hd ht => exact ⟨d, hd, ht⟩
  | opened d t hd ht hct =>
    have hfirst : Recounted env base (d :: refs) d s t := .of_frame ht hct
    have htrunc := hfirst.trans (ltfsFsopsTruncate_spec length sched hct rfl).1
    have hclose : Recounted env base (if env.iosched then refs else d :: refs) d
        (ltfsFsopsTruncate env d length sched t).2
        (ltfsFsopsClose env d false true false sched
          (ltfsFsopsTruncate env d length sched t).2).2 :=
      (ltfsFsopsClose_spec (hs.same htrunc.tree) htrunc.counted rfl).1
    rw [hio d t rfl, if_pos rfl] at hclose
    exact ⟨d, hd, htrunc.trans hclose⟩

end AuroraLtfs.Fs
