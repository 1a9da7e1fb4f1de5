import AuroraLtfs.Sched.FileSpec
import AuroraLtfs.Sched.Read

/-!
# The steps of the scheduler on one file

What may happen to a file, at the granularity of the parts of the source that hold
its locks.  A write that finds no cache block waits and goes on later.  The
background thread takes requests out of the list under the lock of the file, sends
them to the tape one by one holding only the I/O lock, and if one fails gives that
up too before it records the failure.  Meanwhile it keeps the scheduler's lock for
reading, so that no flush and no work on the index queue can start; what else is let
through is `Op.Enabled`.
-/

namespace AuroraLtfs.Sched

open AuroraLtfs.Tape
open AuroraLtfs.Index
open AuroraLtfs.Raw
open RequestState

variable {σ β : Type*}

/-- What the background thread is doing with the file: nothing, sending the
requests it has taken out of the list, or about to record that one of them
failed. -/
inductive Background (β : Type*)
  | idle
  | sending (requests : List (WriteRequest β))
  | failed (error : TapeError)
  deriving DecidableEq

namespace Background

/-- The requests that are neither in the list nor handed down yet. -/
def taken : Background β → List (WriteRequest β)
  | sending requests => requests
  | _ => []

/-- The thread goes on with these requests. -/
def ofTaken : List (WriteRequest β) → Background β
  | [] => idle
  | req :: rest => sending (req :: rest)

@[simp]
theorem taken_ofTaken (requests : List (WriteRequest β)) :
    (ofTaken requests).taken = requests := by
  cases requests <;> rfl

end Background

/-- A call of `unified_write` that waits for a cache block: what is left of its
buffer, and the size that the whole buffer had. -/
structure Waiting (β : Type*) where
  offset : ℕ
  bytes : List β
  size : ℕ

/-- A file, what the background thread is doing with it, and the calls that
wait. -/
structure Work (σ β : Type*) where
  state : State σ β
  background : Background β
  waiting : List (Waiting β)

namespace Work

/-- Nothing is going on. -/
def ofState (s : State σ β) : Work σ β := ⟨s, .idle, []⟩

def withState (w : Work σ β) (s : State σ β) : Work σ β := { w with state := s }

end Work

/-- The steps of the scheduler on one file.  `blocks` is the number of requests
that find a cache block. -/
inductive Op (β : Type*)
  | write (blocks offset : ℕ) (bytes : List β)
  /-- one of the waiting calls goes on -/
  | resume (call blocks : ℕ)
  | truncate (length : ℕ)
  | flush
  /-- `_unified_flush_all`, a flush that is not for this file, gets to it -/
  | flushAll
  | close (flushed : Bool)
  /-- the file is renamed or unlinked, and its data placement updated -/
  | place (matchesNameCriteria deleted : Bool)
  | openFile
  | read (offset size : ℕ)
  /-- `_unified_process_index_queue` gets to the file -/
  | index
  /-- `_unified_process_data_queue` gets to the file -/
  | take (queue : RequestState)
  /-- it sends one of the requests it has taken -/
  | send
  /-- it records that a request could not be sent -/
  | record

/-- What a step returns: a write that waits has queued some bytes, and one that is
through returns the size of its buffer. -/
inductive Reply (β : Type*)
  | queued (count : ℕ)
  | written (size : ℕ)
  | data (bytes : List β)
  | done

/-- What a call returns does not touch the state. -/
theorem andThen_reply {τ α γ : Type*} (r : TapeCall τ α) (reply : α → γ) :
    (r.andThen fun a s => (.ok (reply a), s)).2 = r.2 := by
  obtain ⟨_ | _, t⟩ := r <;> rfl

/-- `unified_write` from `write_start` on, until it is through or waits. -/
def writePart (m : Mount) (resumed : Bool) (blocks : ℕ) (call : Waiting β)
    (w : Work σ β) : TapeCall (Work σ β) (Reply β) :=
  match unifiedWrite m resumed blocks call.offset call.bytes w.state with
  | (.error e, s) => (.error e, w.withState s)
  | (.ok n, s) =>
    if n = call.bytes.length then (.ok (.written call.size), w.withState s)
    else (.ok (.queued n),
      { w with
        state := s
        waiting := ⟨call.offset + n, call.bytes.drop n, call.size⟩ :: w.waiting })

namespace Op

/-- The call of `unified_write` that a step carries on. -/
def call (w : Work σ β) : Op β → Option (Waiting β)
  | .write _ offset bytes => some ⟨offset, bytes, bytes.length⟩
  | .resume call _ => w.waiting[call]?
  | _ => none

def exec [Zero β] (C : Catalog σ (List β)) (m : Mount) (w : Work σ β) :
    Op β → TapeCall (Work σ β) (Reply β)
  | .write blocks offset bytes =>
    writePart m false blocks ⟨offset, bytes, bytes.length⟩ w
  | .resume call blocks => match w.waiting[call]? with
    | none => (.ok .done, w)
    | some waiting => writePart m true blocks waiting
        { w with waiting := w.waiting.eraseIdx call }
  | .truncate length => ((unifiedTruncate m length w.state).andThen
      fun _ s => (.ok .done, s)).within w.withState
  | .flush | .flushAll => ((unifiedFlushUnlocked C m w.state).andThen
      fun _ s => (.ok .done, s)).within w.withState
  | .close flushed => ((unifiedClose C m flushed w.state).andThen
      fun _ s => (.ok .done, s)).within w.withState
  | .place matchesNameCriteria deleted =>
    let named := { w.state.file with
      matchesNameCriteria := matchesNameCriteria
      deleted := deleted }
    (.ok .done, w.withState
      { w.state with file := unifiedUpdateDataPlacement m named })
  | .openFile => (.ok .done, w.withState { w.state with file := { w.state.file with
      numhandles := w.state.file.numhandles + 1 } })
  | .read offset size => ((unifiedRead m offset size w.state).andThen
      fun bytes s => (.ok (.data bytes), s)).within w.withState
  | .index => ((unifiedProcessIndexQueue C m w.state).andThen
      fun _ s => (.ok .done, s)).within w.withState
  | .take queue => match w.background with
    | .idle => ((takeRequests C m queue w.state).andThen
        fun _ s => (.ok .done, s)).within fun taken =>
          { w with state := taken.2, background := .ofTaken taken.1 }
    | _ => (.ok .done, w)
  | .send => match w.background with
    | .sending (req :: rest) => match writeOut C m req w.state with
      | (.ok (), s) =>
        (.ok .done, { w with state := s, background := .ofTaken rest })
      | (.error e, s) => (.error e, { w with state := s, background := .failed e })
    | _ => (.ok .done, w)
  | .record => match w.background with
    | .failed e =>
      (.ok .done, { w with state := recordFailure e w.state, background := .idle })
    | _ => (.ok .done, w)

end Op

/-- The byte file behind a part of a write.  A write that is through has put down
all that was left of its buffer, one that waits a part of it. -/
def afterPart [Zero β] (f : ByteFile β) (c : Waiting β) :
    Except TapeError (Reply β) → ByteFile β
  | .ok (.written _) => f.write c.offset c.bytes
  | .ok (.queued n) => f.write c.offset (c.bytes.take n)
  | .ok _ | .error _ => f

/-! ## What the locks let through -/

/-- The read finds all it wants in the requests of the list, and does not wait for
the I/O lock. -/
def ServedFromCache (offset size : ℕ) (s : State σ β) : Prop :=
  size ≠ 0 → (planRead s.file.requests offset size).size = 0 ∧
    ∀ piece ∈ (planRead s.file.requests offset size).pieces,
      ∃ bytes, piece = .cached bytes

/-- The close has nothing to write and nothing to free, and does not wait for the
I/O lock. -/
structure ClosesAtOnce (flushed : Bool) (s : State σ β) : Prop where
  flushed : flushed = true → s.file.requests = []
  kept : ∀ p, s.file.ioschedPriv = some p →
    ¬(s.file.numhandles ≤ 3 ∧ p.requests = [] ∧ p.altExtentlist = [])

namespace Op

/-- The step does not have to wait for a lock of the background thread.  One that
has to is carried out when the thread has given the lock up. -/
def Enabled (w : Work σ β) : Op β → Prop
  | .write .. | .place .. | .openFile => True
  | .resume call _ => call < w.waiting.length
  | .truncate _ => w.background.taken = []
  | .close flushed => w.background.taken = [] ∨ ClosesAtOnce flushed w.state
  | .read offset size =>
    w.background.taken = [] ∨ ServedFromCache offset size w.state
  | .flush | .flushAll | .index | .take _ => w.background = .idle
  | .send => w.background.taken ≠ []
  | .record => ∃ e, w.background = .failed e

/-- Offsets and lengths are file offsets. -/
def InRange : Op β → Prop
  | .write _ offset bytes => offset + bytes.length ≤ 2 ^ 63
  | .truncate length => length ≤ 2 ^ 63
  | .read offset size => offset + size < 2 ^ 64
  | _ => True

/-- The step is not a write that is garbled. -/
def Clean (m : Mount) (w : Work σ β) : Op β → Prop
  | .write blocks offset bytes => ¬GarblesWrite m blocks offset bytes w.state
  | .resume call blocks => ∀ c, w.waiting[call]? = some c →
      ¬GarblesWrite m blocks c.offset c.bytes w.state
  | _ => True

/-- The step is not a write over a request that the background thread has taken
and not yet sent. -/
def Apart (w : Work σ β) (op : Op β) : Prop :=
  ∀ c, op.call w = some c → ∀ r ∈ w.background.taken,
    c.offset + c.bytes.length ≤ r.offset ∨ r.stop ≤ c.offset

/-- The byte file behind a step. -/
def after [Zero β] (f : ByteFile β) (w : Work σ β) (op : Op β)
    (reply : Except TapeError (Reply β)) : ByteFile β :=
  match op.call w with
  | some c => afterPart f c reply
  | none => match op with
    | .truncate length => match reply with
      | .ok _ => f.truncate length
      | .error _ => f
    | _ => f

end Op

end AuroraLtfs.Sched
