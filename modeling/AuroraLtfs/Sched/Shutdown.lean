import AuroraLtfs.Sched.Pool
import AuroraLtfs.Sched.Report

/-!
# Shutting the scheduler down

`unified_destroy` lets the writer thread flush all files and work off the index
queue, and then pushes the alternate extents into the dentries.  The flush of all
files stops at the first file whose flush returns an error, also if that is an
error of an earlier failure that nobody has asked for yet.  But such a file has
nothing left to be written to the data partition, so it stands in neither queue:
what another file has accepted reaches the tape whatever is stored with it.
-/

namespace AuroraLtfs.Sched

open AuroraLtfs.Tape
open AuroraLtfs.Index
open AuroraLtfs.Raw
open RequestState

variable {ι σ β : Type*} [DecidableEq ι]

/-- The orders in which files stand in the queues. -/
structure Queues (ι : Type*) where
  dp : List ι
  workingSet : List ι
  ip : List ι
  ext : List ι

/-- A file is in a queue if it has a request of that state. -/
def HasRequest (queue : RequestState) (f : File β) : Prop :=
  ∃ r ∈ f.requests, r.state = queue

instance (queue : RequestState) (f : File β) : Decidable (HasRequest queue f) :=
  inferInstanceAs (Decidable (∃ r ∈ f.requests, r.state = queue))

/-- How often the file has been linked into the queue of files with alternate
extents. -/
def File.extLinks (f : File β) : ℕ :=
  match f.ioschedPriv with
  | none => 0
  | some p => p.extLinks

section Source

variable (C : Catalog σ (List β)) (m : Mount)

/-- One of the loops of `_unified_flush_all`. -/
def flushFiles : List ι → Pool ι σ β → TapeCall (Pool ι σ β) Unit
  | [], v => (.ok (), v)
  | i :: rest, v => (v.onFile i (unifiedFlushUnlocked C m)).andThen
      fun _ v => flushFiles rest v

/-- The files in a queue, in the order in which they stand there. -/
def inQueue (queue : RequestState) (order : List ι) (v : Pool ι σ β) : List ι :=
  order.filter fun i => HasRequest queue (v.files i)

/-- `_unified_flush_all`. -/
def unifiedFlushAll (q : Queues ι) (v : Pool ι σ β) : TapeCall (Pool ι σ β) Unit :=
  (flushFiles C m (inQueue reqDp q.dp v) v).andThen
    fun _ v => flushFiles C m (inQueue reqPartial q.workingSet v) v

/-- `_unified_process_index_queue`. -/
def processIndexFiles : List ι → Pool ι σ β → Pool ι σ β
  | [], v => v
  | i :: rest, v =>
    processIndexFiles rest (v.onFile i (unifiedProcessIndexQueue C m)).2

/-- `_unified_free_dentry_priv`. -/
def unifiedFreeDentryPriv (f : File β) : File β :=
  match f.ioschedPriv with
  | none => f
  | some p =>
    { f with
      dentry := if p.writeIp ∧ p.altExtentlist ≠ [] then
          p.altExtentlist.foldl (fun d ext => addExtent m.blockSize ext d) f.dentry
        else f.dentry
      ioschedPriv := none
      numhandles := f.numhandles - 1 }

def freeFiles (files : List ι) (v : Pool ι σ β) : Pool ι σ β :=
  { v with files := fun i =>
      if i ∈ files then unifiedFreeDentryPriv m (v.files i) else v.files i }

/-- `unified_destroy`, with what the writer thread does when it ends.  The result
of the flush is not looked at.  A file that has been linked twice into the queue
of files with alternate extents leads the walk over it back to what it has just
freed: there is no state after that. -/
def unifiedDestroy (q : Queues ι) (v : Pool ι σ β) : Option (Pool ι σ β) :=
  let v := (unifiedFlushAll C m q v).2
  let v := processIndexFiles C m (inQueue reqIp q.ip v) v
  if ∃ i ∈ q.ext, 1 < (v.files i).extLinks then none
  else some (freeFiles m (q.ext.filter fun i => 0 < (v.files i).extLinks) v)

/-- What the tape writes of a flush of the file return. -/
def tapeWrites (s : State σ β) : Except TapeError Unit :=
  match s.file.ioschedPriv with
  | none => .ok ()
  | some p => (flushRequests C m p.writeIp p.requests (startSweep p s)).1

/-- No tape write of the loop fails. -/
def WritesSucceed : List ι → Pool ι σ β → Prop
  | [], _ => True
  | i :: rest, v => tapeWrites C m (v.state i) = .ok () ∧
      WritesSucceed rest (v.onFile i (unifiedFlushUnlocked C m)).2

instance decidableWritesSucceed (files : List ι) (v : Pool ι σ β) :
    Decidable (WritesSucceed C m files v) :=
  match files with
  | [] => .isTrue trivial
  | i :: rest =>
    have := decidableWritesSucceed rest (v.onFile i (unifiedFlushUnlocked C m)).2
    inferInstanceAs (Decidable (_ ∧ _))

/-- No tape write of `_unified_flush_all` fails. -/
def FlushAllSucceeds (q : Queues ι) (v : Pool ι σ β) : Prop :=
  WritesSucceed C m (inQueue reqDp q.dp v) v ∧
    WritesSucceed C m (inQueue reqPartial q.workingSet
        (flushFiles C m (inQueue reqDp q.dp v) v).2)
      (flushFiles C m (inQueue reqDp q.dp v) v).2

instance (q : Queues ι) (v : Pool ι σ β) : Decidable (FlushAllSucceeds C m q v) :=
  inferInstanceAs (Decidable (_ ∧ _))

end Source

section InQueue

variable {queue : RequestState} {order : List ι} {v : Pool ι σ β} {i : ι}

omit [DecidableEq ι] in
theorem mem_inQueue (hi : i ∈ order) (hrequest : HasRequest queue (v.files i)) :
    i ∈ inQueue queue order v :=
  List.mem_filter.2 ⟨hi, by simpa using hrequest⟩

omit [DecidableEq ι] in
theorem of_mem_inQueue (hi : i ∈ inQueue queue order v) : HasRequest queue (v.files i) := by
  simpa using (List.mem_filter.1 hi).2

end InQueue

/-! ## The flush of all files -/

/-- All requests of the file wait for the index partition. -/
def OnlyIp (f : File β) : Prop := ∀ r ∈ f.requests, r.IsIp

section Flush

variable (C : Catalog σ (List β)) {m : Mount} {s : State σ β}

/-- Without a stored error and with tape writes that succeed, a flush succeeds
and leaves only requests for the index partition. -/
theorem unifiedFlushUnlocked_writes (hstored : storedError s = none)
    (hwrites : tapeWrites C m s = .ok ()) :
    (unifiedFlushUnlocked C m s).1 = .ok () ∧
      OnlyIp (unifiedFlushUnlocked C m s).2.file := by
  rw [unifiedFlushUnlocked]
  rw [tapeWrites] at hwrites
  cases hp : s.file.ioschedPriv with
  | none =>
    refine ⟨rfl, ?_⟩
    intro r hr
    simp only [File.requests, hp] at hr
    simp at hr
  | some p =>
    rw [storedError_eq hp] at hstored
    rw [hp] at hwrites
    dsimp only at hwrites ⊢
    rw [unifiedGetWriteError_eq_ok hp hstored, Outcome.andThen_ok]
    by_cases hempty : p.requests = []
    · rw [if_pos hempty]
      refine ⟨rfl, ?_⟩
      intro r hr
      simp only [File.requests, hp] at hr
      simp [hempty] at hr
    rw [if_neg hempty]
    have hip := flushRequests_isIp C p.writeIp p.requests
      (w := startSweep p s) (by simp [startSweep]) hwrites
    generalize flushRequests C m p.writeIp p.requests (startSweep p s) = walked
      at hwrites hip ⊢
    obtain ⟨ret, w⟩ := walked
    obtain rfl : ret = .ok () := hwrites
    have hget : unifiedGetWriteError (endSweep p (.ok ()) w) =
        (.ok (), endSweep p (.ok ()) w) :=
      unifiedGetWriteError_eq_ok (p := sweptPriv p w) rfl hstored
    rw [hget]
    exact ⟨rfl, hip⟩

variable [Zero β] {accepted : ι → Set ℕ} {v : Pool ι σ β}

/-- What the flush of some files leaves. -/
structure Flushed (m : Mount) (accepted : ι → Set ℕ) (files : List ι)
    (v : Pool ι σ β) (r : TapeCall (Pool ι σ β) Unit) : Prop where
  ok : r.1 = .ok ()
  intact : PoolIntact m accepted r.2
  flushed : ∀ i ∈ files, OnlyIp (r.2.files i)
  others : ∀ i, i ∉ files → r.2.files i = v.files i
  onlyIp : ∀ i, OnlyIp (v.files i) → OnlyIp (r.2.files i)

theorem flushFiles_spec (files : List ι) (h : PoolIntact m accepted v)
    (hstored : ∀ i ∈ files, storedError (v.state i) = none)
    (hwrites : WritesSucceed C m files v) :
    Flushed m accepted files v (flushFiles C m files v) := by
  induction files generalizing v with
  | nil => exact ⟨rfl, h, by simp, fun _ _ => rfl, fun _ hi => hi⟩
  | cons i rest ih =>
    obtain ⟨hok, hip⟩ := unifiedFlushUnlocked_writes C (hstored i (by simp)) hwrites.1
    have hclears := unifiedFlushUnlocked_clears C m (v.state i)
    have hintact := h.onFile i (unifiedFlushUnlocked C m) ((h i).flush C)
    rw [hok] at hintact
    have hself : Function.update accepted i
        (acceptedAfter (accepted i) (v.state i) (.ok ())) = accepted :=
      Function.update_eq_self i accepted
    rw [hself] at hintact
    have hcall : v.onFile i (unifiedFlushUnlocked C m) =
        (.ok (), (v.onFile i (unifiedFlushUnlocked C m)).2) :=
      Prod.ext hok rfl
    have hrest := hwrites.2
    rw [flushFiles, hcall, Outcome.andThen_ok]
    have hfile : (v.onFile i (unifiedFlushUnlocked C m)).2.files i =
        (unifiedFlushUnlocked C m (v.state i)).2.file :=
      Function.update_self ..
    have hother : ∀ j, j ≠ i →
        (v.onFile i (unifiedFlushUnlocked C m)).2.files j = v.files j :=
      fun j hj => Function.update_of_ne hj ..
    generalize (v.onFile i (unifiedFlushUnlocked C m)).2 = w at hintact hrest hfile hother ⊢
    have hnone : ∀ j ∈ rest, storedError (w.state j) = none := by
      intro j hj
      by_cases hji : j = i
      · subst hji
        have hsame : storedError (w.state j) =
            storedError (unifiedFlushUnlocked C m (v.state j)).2 :=
          congrArg (fun f : File β => f.ioschedPriv.bind DentryPriv.writeError)
            hfile
        rw [hsame, hclears]
      · have hsame : storedError (w.state j) = storedError (v.state j) :=
          congrArg (fun f : File β => f.ioschedPriv.bind DentryPriv.writeError)
            (hother j hji)
        rw [hsame]
        exact hstored j (by simp [hj])
    obtain ⟨hok', hintact', hflushed, hothers, honly⟩ := ih hintact hnone hrest
    refine ⟨hok', hintact', ?_, ?_, ?_⟩
    · intro j hj
      rcases List.mem_cons.1 hj with rfl | hj
      · exact honly j (hfile ▸ hip)
      · exact hflushed j hj
    · intro j hj
      rw [List.mem_cons, not_or] at hj
      rw [hothers j hj.2, hother j hj.1]
    · intro j hj
      apply honly j
      by_cases hji : j = i
      · subst hji
        exact hfile ▸ hip
      · rw [hother j hji]
        exact hj

omit [DecidableEq ι] in
/-- A file with a request for the data partition has no stored error. -/
theorem PoolIntact.stored_none (h : PoolIntact m accepted v)
    (queue : RequestState) (hqueue : queue ≠ reqIp) {i : ι}
    (hi : HasRequest queue (v.files i)) : storedError (v.state i) = none := by
  obtain ⟨r, hr, hstate⟩ := hi
  by_contra hsome
  have hpriv := (h i).priv
  rw [File.requests] at hr
  cases hp : (v.files i).ioschedPriv with
  | none =>
    rw [hp] at hr
    simp at hr
  | some p =>
    rw [hp] at hr
    have hp : (v.state i).file.ioschedPriv = some p := hp
    rw [storedError_eq hp] at hsome
    exact hqueue (hstate.symm.trans ((hpriv p hp).cleared hsome r hr))

/-- The flush of all files reaches every request that has to be written, whatever
errors are stored with files. -/
theorem unifiedFlushAll_spec {q : Queues ι} (hdp : ∀ i, i ∈ q.dp)
    (hset : ∀ i, i ∈ q.workingSet) (h : PoolIntact m accepted v)
    (hwrites : FlushAllSucceeds C m q v) :
    PoolIntact m accepted (unifiedFlushAll C m q v).2 ∧
      ∀ i, OnlyIp ((unifiedFlushAll C m q v).2.files i) := by
  have hfirst := flushFiles_spec C (inQueue reqDp q.dp v) h
    (fun i hi => h.stored_none reqDp (by decide) (of_mem_inQueue hi)) hwrites.1
  have hcall : flushFiles C m (inQueue reqDp q.dp v) v =
      (.ok (), (flushFiles C m (inQueue reqDp q.dp v) v).2) :=
    Prod.ext hfirst.ok rfl
  have hrest := hwrites.2
  rw [unifiedFlushAll, hcall, Outcome.andThen_ok]
  obtain ⟨-, hintact, hflushed, hothers, -⟩ := hfirst
  generalize (flushFiles C m (inQueue reqDp q.dp v) v).2 = w
    at hintact hflushed hothers hrest ⊢
  have hsecond := flushFiles_spec C (inQueue reqPartial q.workingSet w) hintact
    (fun i hi => hintact.stored_none reqPartial (by decide)
      (of_mem_inQueue hi)) hrest
  refine ⟨hsecond.intact, ?_⟩
  intro i
  by_cases hpartial : HasRequest reqPartial (w.files i)
  · exact hsecond.flushed i (mem_inQueue (hset i) hpartial)
  rw [hsecond.others i fun hi => hpartial (of_mem_inQueue hi)]
  by_cases hready : HasRequest reqDp (v.files i)
  · exact hflushed i (mem_inQueue (hdp i) hready)
  have hsame := hothers i fun hi => hready (of_mem_inQueue hi)
  intro r hr
  cases hstate : r.state with
  | reqPartial => exact absurd ⟨r, hr, hstate⟩ hpartial
  | reqDp => exact absurd ⟨r, hsame ▸ hr, hstate⟩ hready
  | reqIp => exact hstate

end Flush

/-! ## After the flush -/

section Free

variable (C : Catalog σ (List β)) {m : Mount} {v : Pool ι σ β}

/-- Writing to the index partition leaves the dentry of the file alone. -/
theorem unifiedProcessIndexQueue_dentry (s : State σ β) :
    (unifiedProcessIndexQueue C m s).2.file.dentry = s.file.dentry := by
  rw [unifiedProcessIndexQueue]
  cases hp : s.file.ioschedPriv with
  | none => rfl
  | some p =>
    have hdentry := congrArg File.dentry (indexRequests_stored C m p.requests [] p s).file
    dsimp only
    rw [freeConditional_dentry]
    exact hdentry

theorem processIndexFiles_dentry (files : List ι) (i : ι) :
    ((processIndexFiles C m files v).files i).dentry = (v.files i).dentry := by
  induction files generalizing v with
  | nil => rfl
  | cons j rest ih =>
    rw [processIndexFiles, ih]
    by_cases hij : i = j
    · subst hij
      have hfile : (v.onFile i (unifiedProcessIndexQueue C m)).2.files i =
          (unifiedProcessIndexQueue C m (v.state i)).2.file :=
        Function.update_self ..
      rw [hfile, unifiedProcessIndexQueue_dentry]
      rfl
    · have hfile : (v.onFile j (unifiedProcessIndexQueue C m)).2.files i =
          v.files i := Function.update_of_ne hij ..
      rw [hfile]

/-- Pushing the alternate extents loses no offset. -/
theorem unifiedFreeDentryPriv_covers (f : File β) {x : ℕ}
    (h : Covered f.dentry.extents x) :
    Covered (unifiedFreeDentryPriv m f).dentry.extents x := by
  have hpush : ∀ (exts : List Extent) (d : Dentry), Covered d.extents x →
      Covered (exts.foldl (fun d ext => addExtent m.blockSize ext d)
        d).extents x := by
    intro exts
    induction exts with
    | nil => exact fun d hd => hd
    | cons ext exts ih => exact fun d hd => ih _ (addExtent_covers (.inr hd))
  rw [unifiedFreeDentryPriv]
  cases f.ioschedPriv with
  | none => exact h
  | some p =>
    dsimp only
    split_ifs
    · exact hpush _ _ h
    · exact h

variable [Zero β]

theorem processIndexFiles_intact (files : List ι) (h : PoolIntact m (fun _ => ∅) v) :
    PoolIntact m (fun _ => ∅) (processIndexFiles C m files v) := by
  induction files generalizing v with
  | nil => exact h
  | cons i rest ih =>
    rw [processIndexFiles]
    apply ih
    have hnext := h.onFile i (unifiedProcessIndexQueue C m)
      (unifiedProcessIndexQueue_intact C (h i))
    intro j
    exact (hnext j).subset (Set.empty_subset _)

omit [DecidableEq ι] in
/-- An intact file is linked at most once. -/
theorem PoolIntact.extLinks_le {accepted : ι → Set ℕ}
    (h : PoolIntact m accepted v) (i : ι) : (v.files i).extLinks ≤ 1 := by
  rw [File.extLinks]
  cases hp : (v.files i).ioschedPriv with
  | none => exact Nat.zero_le _
  | some p =>
    dsimp only
    rw [((h i).priv p hp).linked]
    split_ifs
    · exact Nat.zero_le _
    · exact le_rfl

end Free

/-! ## The shutdown -/

variable [Zero β]

/-- Empty files on a volume whose drive fails command `n` and carries out all
others. -/
def emptyPool (ι : Type*) (n : ℕ) (e : TapeError) (onIp : Bool) :
    Pool ι Unit ℕ where
  raw := (failingAt n e onIp 1).work.state.raw
  files := fun _ => (failingAt n e onIp 1).work.state.file

/-- Carry out steps on the files in turn. -/
def runPool (m : Mount) (steps : List (ι × Op ℕ)) (v : PoolWork ι Unit ℕ) :
    PoolWork ι Unit ℕ :=
  steps.foldl (fun v x => v.put x.1 (x.2.exec emptyCatalog m (v.work x.1)).2) v

/-- All files stand in all queues. -/
def allQueues (files : List ι) : Queues ι := ⟨files, files, files, files⟩

theorem emptyPool_fresh (ι : Type*) (n : ℕ) (e : TapeError) (onIp : Bool)
    (cacheSize : ℕ) (h : 0 < cacheSize) :
    PoolFresh (smallMount cacheSize h) (emptyPool ι n e onIp) := by
  have hsound := (emptyFile_valid (β := ℕ) 16).sound
  exact ⟨fun _ => ⟨hsound.sane, hsound.dentry⟩, fun _ => rfl,
    fun _ => by simp [emptyPool, failingAt, Work.ofState, emptyState, emptyFile]⟩

theorem keepsAltExtents_of_all {length : ℕ} {s : State Unit ℕ}
    (h : s.file.ioschedPriv.all (·.altExtentlist = [])) : KeepsAltExtents length s := by
  intro p hp halt
  rw [hp] at h
  simp [halt] at h

/-- Some run of this kind, behind which `flush_all` succeeds, ends in a shutdown with
`P`. -/
def FlushedRun (m : Mount) (ok : Work Unit ℕ → Op ℕ → Prop)
    (okPerm : Pool ι Unit ℕ → Position → Prop) (v₀ : Pool ι Unit ℕ) (q : Queues ι)
    (P : Option (Pool ι Unit ℕ) → (ι → Set ℕ) → Prop) : Prop :=
  ∃ v accepted, PoolRun emptyCatalog m ok okPerm v₀ v accepted ∧
    FlushAllSucceeds emptyCatalog m q v.toPool ∧
    P (unifiedDestroy emptyCatalog m q v.toPool) accepted

/-- The accepted offset `x` of file `i` is in no extent behind the shutdown. -/
def Loses (i : ι) (x : ℕ) (r : Option (Pool ι Unit ℕ)) (accepted : ι → Set ℕ) : Prop :=
  x ∈ accepted i ∧ ∃ w, r = some w ∧ ¬Covered (w.files i).dentry.extents x

/-- A write between two requests for the index partition loses an offset. -/
theorem garbled_loses :
    FlushedRun (smallMount 8) (fun w op => op.KeepsLinks w.state)
      (Pool.SparesExtents (smallMount 8)) (emptyPool Unit 1000 .noSpace true)
      (allQueues [()]) (Loses () 10) := by
  have hstart : PoolRun emptyCatalog (smallMount 8) (fun w op => op.KeepsLinks w.state)
      (Pool.SparesExtents (smallMount 8)) (emptyPool Unit 1000 .noSpace true) _ _ := .start
  have hgarbled := (((((hstart.step () (.write 9 0 [1, 2, 3, 4, 5, 6, 7, 8]) trivial
    (by simp [Op.InRange]) trivial).step () (.write 4 8 [9, 10, 11]) trivial
    (by simp [Op.InRange]) trivial).step () .flush
    (by rw [Op.Enabled]; decide +kernel) trivial trivial).step ()
    (.write 5 20 [20, 21, 22, 23]) trivial (by simp [Op.InRange]) trivial).step ()
    (.write 2 6 [60]) trivial (by simp [Op.InRange]) trivial).step ()
    (.write 3 8 [99, 98]) trivial (by simp [Op.InRange]) trivial
  have hcut := hgarbled.step () (.truncate 10) (by rw [Op.Enabled]; decide +kernel)
    (by simp [Op.InRange]) (keepsAltExtents_of_all (by decide +kernel))
  have hrun := ((hcut.step () (.write 2 10 [1]) trivial (by simp [Op.InRange])
    trivial).step () (.write 3 6 [60, 70]) trivial (by simp [Op.InRange])
    trivial).step () (.place false false) trivial trivial trivial
  refine ⟨_, _, hrun, by decide +kernel, ?_, _, rfl, by decide +kernel⟩
  simp only [Op.accepted, Function.update_self]
  exact .inl (.inr ⟨by decide, by decide⟩)

/-- A truncation that cuts away all alternate extents has the file linked twice. -/
theorem truncated_loses :
    FlushedRun (smallMount 8)
      (fun w op => op.Clean (smallMount 8) w) (Pool.SparesExtents (smallMount 8))
      (emptyPool Unit 1000 .noSpace true) (allQueues [()]) fun r _ => r = none := by
  have hstart : PoolRun emptyCatalog (smallMount 8)
      (fun w op => op.Clean (smallMount 8) w) (Pool.SparesExtents (smallMount 8))
      (emptyPool Unit 1000 .noSpace true) _ _ := .start
  have hlinked := ((hstart.step () (.write 5 0 [1, 2, 3, 4]) trivial
    (by simp [Op.InRange]) (Op.clean_write (by decide +kernel))).step () .flush
    (by rw [Op.Enabled]; decide +kernel) trivial trivial).step ()
    .index (by rw [Op.Enabled]; decide +kernel) trivial trivial
  have hcut := hlinked.step () (.truncate 0) (by rw [Op.Enabled]; decide +kernel)
    (by simp [Op.InRange]) trivial
  have hrun := hcut.step () (.write 2 0 [5]) trivial (by simp [Op.InRange])
    (Op.clean_write (by decide +kernel))
  exact ⟨_, _, hrun, by decide +kernel, rfl⟩

/-- A permanent write error of another file takes an extent away. -/
theorem perm_loses :
    FlushedRun (smallMount 4)
      (fun w op => op.Clean (smallMount 4) w ∧ op.KeepsLinks w.state)
      (fun _ _ => True) (emptyPool Bool 3 .writePerm false) (allQueues [true, false])
      (Loses false 4) := by
  have hstart : PoolRun emptyCatalog (smallMount 4)
      (fun w op => op.Clean (smallMount 4) w ∧ op.KeepsLinks w.state)
      (fun _ _ => True) (emptyPool Bool 3 .writePerm false) _ _ := .start
  have hsent := (((hstart.step false (.write 9 0 [1, 2, 3, 4, 5, 6, 7, 8]) trivial
    (by simp [Op.InRange]) ⟨Op.clean_write (by decide +kernel), trivial⟩).step false (.take .reqDp)
    (by rw [Op.Enabled]; decide +kernel)
    trivial ⟨trivial, trivial⟩).step false .send (by rw [Op.Enabled]; decide +kernel) trivial
    ⟨trivial, trivial⟩).step false .send (by rw [Op.Enabled]; decide +kernel) trivial
    ⟨trivial, trivial⟩
  have hfailed := ((hsent.step true (.write 5 0 [1, 2, 3, 4]) trivial
    (by simp [Op.InRange]) ⟨Op.clean_write (by decide +kernel), trivial⟩).step true (.take .reqDp)
    (by rw [Op.Enabled]; decide +kernel)
    trivial ⟨trivial, trivial⟩).step true .send (by rw [Op.Enabled]; decide +kernel) trivial
    ⟨trivial, trivial⟩
  -- the drive had not written the block of the other file yet
  have hrun := (hfailed.perm true (fun _ _ => none) ⟨.dp, 1⟩ trivial).step true .record
    ⟨.writePerm, rfl⟩ trivial ⟨trivial, trivial⟩
  refine ⟨_, _, hrun, by decide +kernel, ?_, _, rfl, by decide +kernel⟩
  have hne : false ≠ true := by decide
  simp only [Function.update_of_ne hne, Function.update_self, Op.accepted]
  exact .inr ⟨by decide, by decide⟩

end AuroraLtfs.Sched
