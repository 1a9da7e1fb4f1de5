import AuroraLtfs.Sched.Refinement

/-!
# Write errors reach the file's user

The error that is stored with a file is returned by the next write, flush or
close.  The background thread works on the data queue in three parts: it takes
requests out of the list, sends them to the tape, and records a failure; writes
and closes may come in between.

An error is lost where recording it is the last thing that is known of the file:
the private data may be freed together with the error it holds, or be gone when
the error is to be recorded.  A permanent write error on the index partition is
replaced by the result of updating the cartridge memory.  And the flush of all
files takes the errors of the files it gets to; the periodic sync, which calls it,
only logs them.  In every run in which none of this happens, the first error that
has not been reported is what the next call returns.
-/

namespace AuroraLtfs.Sched

open AuroraLtfs.Tape
open AuroraLtfs.Index
open AuroraLtfs.Raw
open RequestState

variable {σ β : Type*} [Zero β]

/-- The work on the file, and the first error of a write to the tape that has not
been reported yet. -/
structure Watched (σ β : Type*) where
  work : Work σ β
  owed : Option TapeError

namespace Watched

variable (C : Catalog σ (List β)) (m : Mount)

/-- A write with bytes to queue, a flush and a close report. -/
def owedAfter (x : Watched σ β) (op : Op β) : Option TapeError :=
  match op.call x.work with
  | some c => if c.bytes = [] then x.owed else none
  | none => match op with
    | .flush | .close _ => none
    -- whoever uses the file does not see what this flush returns
    | .flushAll => owedByData (unifiedFlushUnlocked C m x.work.state).1 x.owed
    | .index => owedByIndex (unifiedProcessIndexQueue C m x.work.state).1 x.owed
    | .take queue => match x.work.background with
      | .idle => owedByData (takeRequests C m queue x.work.state).1 x.owed
      | _ => x.owed
    | .record => match x.work.background with
      | .failed e => x.owed.or (some e)
      | _ => x.owed
    | _ => x.owed

def exec (x : Watched σ β) (op : Op β) : Watched σ β :=
  ⟨(op.exec C m x.work).2, owedAfter C m x op⟩

/-- The step loses no error: nothing written to the index partition fails with
a permanent error, and where a request for it fails, or an error has not been
reported, the file is open or has alternate extents; the private data is still
there when the background thread records a failure; and the flush of all files
finds no error and meets none at this file. -/
def Keeps (x : Watched σ β) : Op β → Prop
  | .flushAll => (unifiedFlushUnlocked C m x.work.state).1 = .ok ()
  | .index =>
    (∀ e, (unifiedProcessIndexQueue C m x.work.state).1 = .error e →
      e.isWritePerm = false) ∧
    (((unifiedProcessIndexQueue C m x.work.state).1 = .ok () ∧ x.owed = none) ∨
      2 < x.work.state.file.numhandles ∨
      ∃ p, x.work.state.file.ioschedPriv = some p ∧ p.altExtentlist ≠ [])
  | .record =>
    ∀ e, x.work.background = .failed e → x.work.state.file.ioschedPriv ≠ none
  | _ => True

end Watched

/-- What a run reaches whose steps all lose no error.  The steps come in any order,
also in those that the locks rule out. -/
inductive Watch (C : Catalog σ (List β)) (m : Mount) (x₀ : Watched σ β) :
    Watched σ β → Prop
  | start : Watch C m x₀ x₀
  | step {x : Watched σ β} (op : Op β) (hrun : Watch C m x₀ x)
      (hkeeps : x.Keeps C m op) : Watch C m x₀ (x.exec C m op)

section Runs

variable (C : Catalog σ (List β)) {m : Mount} {x x₀ : Watched σ β}

omit [Zero β] in
/-- A part of a write reports, if it has bytes to queue. -/
theorem writePart_stored (resumed : Bool) (blocks : ℕ) (c : Waiting β) (w : Work σ β) :
    storedError (writePart m resumed blocks c w).2.state =
      if c.bytes = [] then storedError w.state else none := by
  have hstate : (writePart m resumed blocks c w).2.state =
      (unifiedWrite m resumed blocks c.offset c.bytes w.state).2 := by
    rw [writePart]
    generalize unifiedWrite m resumed blocks c.offset c.bytes w.state = r
    obtain ⟨_ | n, t⟩ := r
    · rfl
    · dsimp only
      split_ifs <;> rfl
  rw [hstate]
  split_ifs with hbytes
  · rw [unifiedWrite, if_pos hbytes]
  · exact (unifiedWrite_reports m resumed blocks c.offset hbytes w.state).1

/-- The error that is stored is the one that is to be reported. -/
theorem exec_stored (op : Op β) (h : storedError x.work.state = x.owed)
    (hkeeps : x.Keeps C m op) :
    storedError (x.exec C m op).work.state = (x.exec C m op).owed := by
  obtain ⟨w, owed⟩ := x
  obtain rfl : storedError w.state = owed := h
  cases op with
  | write blocks offset bytes => exact writePart_stored false blocks _ w
  | resume call blocks =>
    simp only [Watched.exec, Watched.owedAfter, Op.exec, Op.call]
    cases w.waiting[call]? with
    | none => rfl
    | some c => exact writePart_stored true blocks c _
  | truncate length =>
    simp only [Watched.exec, Op.exec, Outcome.within, andThen_reply]
    exact unifiedTruncate_stored m length w.state
  | flush =>
    simp only [Watched.exec, Op.exec, Outcome.within, andThen_reply]
    exact unifiedFlushUnlocked_clears C m w.state
  | flushAll =>
    have hok : (unifiedFlushUnlocked C m w.state).1 = .ok () := hkeeps
    have hnone := stored_of_unifiedFlushUnlocked_ok C m hok
    simp only [Watched.exec, Watched.owedAfter, Op.call, Op.exec, Outcome.within,
      andThen_reply, hok, owedByData, hnone]
    exact unifiedFlushUnlocked_clears C m w.state
  | close flushed =>
    simp only [Watched.exec, Op.exec, Outcome.within, andThen_reply]
    exact unifiedClose_clears C m flushed w.state
  | place matchesNameCriteria deleted => exact place_stored m _
  | openFile => rfl
  | read offset size =>
    simp only [Watched.exec, Op.exec, Outcome.within, andThen_reply]
    have hpriv := unifiedRead_priv m offset size w.state
    rw [storedError, Work.withState, hpriv]
    rfl
  | index =>
    simp only [Watched.exec, Op.exec, Outcome.within, andThen_reply]
    exact unifiedProcessIndexQueue_stored C m hkeeps.1 hkeeps.2
  | take queue =>
    simp only [Watched.exec, Watched.owedAfter, Op.call, Op.exec]
    cases w.background with
    | idle =>
      simp only [Outcome.within, andThen_reply]
      exact takeRequests_stored C m queue w.state
    | sending requests => rfl
    | failed e => rfl
  | send =>
    simp only [Watched.exec, Watched.owedAfter, Op.call, Op.exec]
    rcases w.background with _ | (_ | ⟨req, rest⟩) | e
    · rfl
    · rfl
    · have hstored : storedError (writeOut C m req w.state).2 = storedError w.state := rfl
      dsimp only
      generalize writeOut C m req w.state = r at hstored ⊢
      obtain ⟨_ | _, t⟩ := r <;> exact hstored
    · rfl
  | record =>
    simp only [Watched.exec, Watched.owedAfter, Op.call, Op.exec]
    cases hbackground : w.background with
    | idle => rfl
    | sending requests => rfl
    | failed e => exact recordFailure_stored e (hkeeps e hbackground)

theorem Watch.stored (hrun : Watch C m x₀ x)
    (hstart : storedError x₀.work.state = x₀.owed) : storedError x.work.state = x.owed := by
  induction hrun with
  | start => exact hstart
  | step op _ hkeeps ih => exact exec_stored C op ih hkeeps

end Runs

/-! ## A drive that fails once -/

/-- An empty file with the given number of handles, on a volume whose drive
fails command `n` and carries out all others. -/
def failingAt (n : ℕ) (e : TapeError) (onIp : Bool) (handles : ℕ) :
    Watched Unit ℕ where
  work :=
    let s := emptyState ℕ
    let device := { s.raw.vol.device with
      answers := fun k => if k = n then .failed e .untouched else .done .clear }
    .ofState { s with
      raw := { s.raw with vol := s.raw.vol.withDevice device }
      file := { s.file with matchesNameCriteria := onIp, numhandles := handles } }
  owed := none

def runWatched (m : Mount) (ops : List (Op ℕ)) (x : Watched Unit ℕ) : Watched Unit ℕ :=
  ops.foldl (fun x op => x.exec emptyCatalog m op) x

end AuroraLtfs.Sched
