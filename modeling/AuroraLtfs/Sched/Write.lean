import AuroraLtfs.Sched.Request

/-!
# Queueing a write

The part of `unified_write` that works on the request list of one file: the
shortcut for appending, and the walk that inserts, overwrites, cuts, splits and
merges requests until the new bytes are queued.
-/

namespace AuroraLtfs.Sched

open RequestState

variable {β : Type*}

/-- The local variables of `unified_write` during the walk.  The requests
before the current one are `front`; `prev` is `prev_req`, which the walk leaves
behind when it skips a request.  `blocks` counts the requests that can be
inserted before the cache is exhausted, into free cache blocks or into the spare
one of a request that was removed. -/
structure Walk (β : Type*) where
  before : List (WriteRequest β)
  prev : Option (WriteRequest β)
  skipped : List (WriteRequest β)
  fileSize : ℕ
  offset : ℕ
  bytes : List β
  blocks : ℕ

/-- How a part of `unified_write` that holds the lock ends: everything is
queued, the lock is given up to wait for a cache block, or the walk has come to
the end of the list. -/
inductive Exit
  | finished
  | pressure
  | ended
  deriving DecidableEq, Repr

namespace Walk

def front (w : Walk β) : List (WriteRequest β) :=
  w.before ++ w.prev.toList ++ w.skipped

/-- Make `req` the previous request. -/
def pass (w : Walk β) (req : WriteRequest β) : Walk β :=
  { w with before := w.front, prev := some req, skipped := [] }

/-- Leave `req` behind without making it the previous request. -/
def skip (w : Walk β) (req : Option (WriteRequest β)) : Walk β :=
  { w with skipped := w.skipped ++ req.toList }

/-- The walk over the requests of `_unified_update_request`. -/
def promote (w : Walk β) (upTo : Option ℕ) : Walk β :=
  { w with
    before := w.before.map (WriteRequest.promote upTo)
    prev := w.prev.map (WriteRequest.promote upTo)
    skipped := w.skipped.map (WriteRequest.promote upTo) }

/-- `n` bytes of the buffer are queued. -/
def advance (w : Walk β) (n : ℕ) : Walk β :=
  { w with offset := w.offset + n, bytes := w.bytes.drop n }

def growTo (w : Walk β) (stop : ℕ) : Walk β :=
  { w with fileSize := if w.fileSize < stop then stop else w.fileSize }

/-- The request `_unified_insert_new_request` makes of the next bytes. -/
def newRequest (cs : ℕ) (w : Walk β) : WriteRequest β :=
  { offset := w.offset
    data := w.bytes.take cs
    state := if (w.bytes.take cs).length = cs then reqDp else reqPartial }

/-- `_unified_insert_new_request` in front of the current request. -/
def insert (cs : ℕ) (w : Walk β) : Walk β :=
  let req := w.newRequest cs
  let w := { w.pass req with blocks := w.blocks - 1 }
  (w.growTo req.stop).advance req.count

end Walk

/-- No request is inserted any more: nothing is left to queue, or it does not
belong before `limit`. -/
def Blocked (limit : Option ℕ) (w : Walk β) : Prop :=
  w.bytes = [] ∨ ∃ l, limit = some l ∧ l ≤ w.offset

instance (limit : Option ℕ) (w : Walk β) : Decidable (Blocked limit w) :=
  inferInstanceAs (Decidable (_ ∨ _))

/-- Insert requests while there are bytes to queue, up to file offset `limit`
if there is one.  `false` means that the cache is exhausted. -/
def insertRequests (cs : ℕ) (limit : Option ℕ) :
    ℕ → Walk β → Bool × Walk β
  | 0, w => (true, w)
  | fuel + 1, w =>
    if Blocked limit w then (true, w)
    else if w.blocks = 0 then (false, w)
    else insertRequests cs limit fuel (w.insert cs)

/-- How one round of the walk goes on: to the next request, back to the label
`do_insert_before` for the first request of the list, or out of the loop. -/
inductive Round (β : Type*)
  | next (w : Walk β) (todo : List (WriteRequest β))
  | again (w : Walk β) (todo : List (WriteRequest β))
  | stop (exit : Exit) (w : Walk β) (todo : List (WriteRequest β))

/-- `_unified_merge_requests` of the previous request and `req`, with its
effects on the rest of the list. -/
def mergePrev (cs : ℕ) (w : Walk β) (req : WriteRequest β)
    (rest : List (WriteRequest β)) :
    Walk β × Option (WriteRequest β) × List (WriteRequest β) × Bool :=
  match w.prev with
  | none => (w, some req, rest, false)
  | some dest =>
    let m := mergeRequests cs dest req
    let w := w.promote m.promoted
    (({ w with prev := some m.dest }).growTo m.reached, m.src,
      rest.map (WriteRequest.promote m.promoted), m.changed)

/-- The overlap between the new write and the current request, when there are
bytes left to queue. -/
def overlap (cs : ℕ) (w : Walk β) (req : WriteRequest β)
    (rest : List (WriteRequest β)) : Round β :=
  if w.offset < req.offset then .again w (req :: rest)
  else if ¬req.IsIp ∧ (w.offset < req.stop ∨
      (w.offset = req.stop ∧ req.count < cs)) then
    let u := updateRequest cs w.bytes w.offset req
    let w := ((w.promote u.promoted).growTo u.reached).advance u.copied
    .next (w.pass u.req) (rest.map (WriteRequest.promote u.promoted))
  else if req.IsIp ∧ w.offset < req.stop then
    if w.offset = req.offset ∧ req.count ≤ w.bytes.length then
      .next w rest
    else if w.offset = req.offset then
      .again w (req.trimBegin w.bytes.length :: rest)
    else if req.stop ≤ w.offset + w.bytes.length then
      .next (w.pass (req.trimEnd w.offset)) rest
    else if w.blocks = 0 then .stop .pressure w (req :: rest)
    else
      -- the part behind the new bytes becomes a request of its own
      let piece := req.trimBegin (w.offset - req.offset + w.bytes.length)
      let piece := { piece with data := piece.data.take cs }
      let w := ({ w with blocks := w.blocks - 1 }).growTo piece.stop
      .again (w.skip (some (req.trimEnd w.offset))) (piece :: rest)
  else .next (w.pass req) rest

/-- The body of the loop from the label `do_insert_before` on. -/
def visit (cs : ℕ) (w : Walk β) (req : WriteRequest β)
    (rest : List (WriteRequest β)) : Round β :=
  match insertRequests cs (some req.offset) w.bytes.length w with
  | (false, w) => .stop .pressure w (req :: rest)
  | (true, w) =>
    match mergePrev cs w req rest with
    | (w, none, rest, _) => .next w rest
    | (w, some req, rest, changed) =>
      if w.bytes = [] then
        if changed then .next (w.pass req) rest
        else .stop .finished (w.pass req) rest
      else overlap cs w req rest

/-- One round of the loop, from its head or from the label. -/
def round (cs : ℕ) (atHead : Bool) (w : Walk β) (req : WriteRequest β)
    (rest : List (WriteRequest β)) : Round β :=
  if atHead ∧ req.stop < w.offset then
    match mergePrev cs w req rest with
    | (w, req, rest, _) => .next (w.skip req) rest
  else visit cs w req rest

/-- The walk over the request list.  A round drops a request from the list or
leads to one that queues a byte, which bounds the number of rounds. -/
def walk (cs : ℕ) : ℕ → Bool → Walk β → List (WriteRequest β) →
    Exit × Walk β × List (WriteRequest β)
  | 0, _, w, todo => (.ended, w, todo)
  | _ + 1, _, w, [] => (.ended, w, [])
  | fuel + 1, atHead, w, req :: rest =>
    match round cs atHead w req rest with
    | .next w todo => walk cs fuel true w todo
    | .again w todo => walk cs fuel false w todo
    | .stop exit w todo => (exit, w, todo)

/-- The request list of a file and what is still to be queued. -/
structure Queue (β : Type*) where
  requests : List (WriteRequest β)
  fileSize : ℕ
  offset : ℕ
  bytes : List β
  blocks : ℕ

namespace Queue

/-- A walk that has left `skipped` behind and touched nothing. -/
def startAfter (q : Queue β) (skipped : List (WriteRequest β)) : Walk β :=
  { before := []
    prev := none
    skipped := skipped
    fileSize := q.fileSize
    offset := q.offset
    bytes := q.bytes
    blocks := q.blocks }

def ofWalk (w : Walk β) (todo : List (WriteRequest β)) : Queue β :=
  { requests := w.front ++ todo
    fileSize := w.fileSize
    offset := w.offset
    bytes := w.bytes
    blocks := w.blocks }

def lastOffset (q : Queue β) : ℕ :=
  match q.requests.getLast? with
  | none => 0
  | some req => req.stop

/-- The shortcut for a write behind the last request: fill that request, if it
can take bytes, before new ones are appended. -/
def fillLast (cs : ℕ) (q : Queue β) : Walk β :=
  match q.requests.getLast? with
  | none => q.startAfter []
  | some req =>
    if req.count < cs ∧ q.offset = req.stop ∧ ¬req.IsIp then
      let u := updateRequest cs q.bytes q.offset req
      let w := q.startAfter q.requests.dropLast
      ((w.promote u.promoted).growTo u.reached).advance u.copied |>.pass u.req
    else q.startAfter q.requests

end Queue

/-- `unified_write` from the label `do_append` on, until the bytes are queued
or the cache is exhausted.  The walk comes back to `do_append` only when it has
shortened the list or the bytes belong behind it. -/
def writeRequests (cs : ℕ) : ℕ → Queue β → Exit × Queue β
  | 0, q => (.ended, q)
  | fuel + 1, q =>
    if q.lastOffset ≤ q.offset then
      match insertRequests cs none q.bytes.length (q.fillLast cs) with
      | (true, w) => (.finished, .ofWalk w [])
      | (false, w) => (.pressure, .ofWalk w [])
    else
      match walk cs (q.requests.length + 2 * q.bytes.length + 2) true
          (q.startAfter []) q.requests with
      | (.ended, w, todo) =>
        if w.bytes = [] then (.finished, .ofWalk w todo)
        else writeRequests cs fuel (.ofWalk w todo)
      | (exit, w, todo) => (exit, .ofWalk w todo)

end AuroraLtfs.Sched
