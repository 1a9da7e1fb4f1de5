import Mathlib

/-!
# Queued write requests

The requests of one file in the unified scheduler and the two operations on
them that `unified.c` is built from: putting new bytes into a request and
merging a request into the one before it.
-/

namespace AuroraLtfs.Sched

variable {β : Type*}

/-- `enum request_state`. -/
inductive RequestState
  /-- not filled, normally not written until it is -/
  | reqPartial
  /-- ready for the data partition -/
  | reqDp
  /-- on the data partition, waiting for the index partition -/
  | reqIp
  deriving DecidableEq, Repr

open RequestState

/-- `struct write_request`.  `data` holds the `count` valid bytes of the cache
block. -/
@[ext]
structure WriteRequest (β : Type*) where
  offset : ℕ
  data : List β
  state : RequestState
  deriving DecidableEq, Repr

namespace WriteRequest

def count (r : WriteRequest β) : ℕ := r.data.length

def stop (r : WriteRequest β) : ℕ := r.offset + r.data.length

def IsIp (r : WriteRequest β) : Prop := r.state = reqIp

instance (r : WriteRequest β) : Decidable r.IsIp :=
  inferInstanceAs (Decidable (r.state = reqIp))

/-- Drop the first `n` bytes. -/
def trimBegin (r : WriteRequest β) (n : ℕ) : WriteRequest β :=
  { r with offset := r.offset + n, data := r.data.drop n }

/-- Keep what lies before file offset `stop`. -/
def trimEnd (r : WriteRequest β) (stop : ℕ) : WriteRequest β :=
  { r with data := r.data.take (stop - r.offset) }

/-- A request that was not full turns into one for the data partition if it
starts no later than `upTo`. -/
def promote (upTo : Option ℕ) (r : WriteRequest β) : WriteRequest β :=
  match upTo with
  | none => r
  | some offset => if r.state = reqPartial ∧ r.offset ≤ offset
      then { r with state := reqDp } else r

end WriteRequest

/-- What `_unified_update_request` leaves: the request, the number of bytes
taken from the buffer, up to where requests that were not full are now ready,
and up to where the file reaches at least. -/
structure Updated (β : Type*) where
  req : WriteRequest β
  copied : ℕ
  promoted : Option ℕ
  reached : ℕ

/-- A request nothing is put into. -/
def untouched (req : WriteRequest β) : Updated β :=
  { req := req, copied := 0, promoted := none, reached := 0 }

/-- `_unified_update_request`. -/
def updateRequest (cs : ℕ) (buf : List β) (offset : ℕ)
    (req : WriteRequest β) : Updated β :=
  if buf = [] then untouched req
  else
    let copyOffset := offset - req.offset
    let copied := min (req.offset + cs - offset) buf.length
    let data := req.data.take copyOffset ++ buf.take copied ++
      req.data.drop (copyOffset + copied)
    let promoted := if req.state = reqPartial ∧ data.length = cs
      then some offset else none
    { req := WriteRequest.promote promoted { req with data := data }
      copied := copied
      promoted := promoted
      reached := req.offset + data.length }

/-- What `_unified_merge_requests` leaves of the two requests; `changed` tells
whether the second was modified or freed. -/
structure Merged (β : Type*) where
  dest : WriteRequest β
  src : Option (WriteRequest β)
  promoted : Option ℕ
  reached : ℕ
  changed : Bool

/-- The bytes that move from `src` behind the end of `dest`.  They move only
between requests for the same partition. -/
def mergeCopy (cs : ℕ) (dest src : WriteRequest β) : Updated β :=
  let copyOffset := dest.stop - src.offset
  if dest.state ≠ src.state ∧ (dest.IsIp ∨ src.IsIp) then
    untouched dest
  else if dest.count < cs ∧ copyOffset < src.count then
    updateRequest cs (src.data.drop copyOffset) (src.offset + copyOffset) dest
  else untouched dest

/-- What is left of `src` behind its first `n` bytes. -/
def mergeRest (src : WriteRequest β) (n : ℕ) : WriteRequest β :=
  { src.trimBegin n with
    state := if src.state = reqDp then reqPartial else src.state }

/-- `_unified_merge_requests` for a `dest` that exists. -/
def mergeRequests (cs : ℕ) (dest src : WriteRequest β) : Merged β :=
  if dest.stop < src.offset then
    { dest := dest
      src := some src
      promoted := none
      reached := 0
      changed := false }
  else
    let copy := mergeCopy cs dest src
    let gone := dest.stop - src.offset + copy.copied
    { dest := copy.req
      -- the request that is cut is never left marked as full
      src := if gone = 0 then some src
        else if gone < src.count then some (mergeRest src gone) else none
      promoted := copy.promoted
      reached := copy.reached
      changed := gone ≠ 0 }

end AuroraLtfs.Sched
