import AuroraLtfs.Lib.ByteFile
import AuroraLtfs.Lib.Segments
import AuroraLtfs.Sched.Request

/-!
# The bytes that requests hold

Requests are segments of a file, and the first request that covers an offset
decides its byte.  Updating a request puts bytes there and merging two requests
changes no byte.
-/

namespace AuroraLtfs.Sched

open RequestState

variable {β : Type*}

/-- Requests as segments of bytes. -/
def requestSegments (β : Type*) : Segments (WriteRequest β) (Option β) where
  lo r := r.offset
  hi r := r.stop
  get r i := r.data[i - r.offset]?

theorem lookup_request (r : WriteRequest β) (rs : List (WriteRequest β))
    (i : ℕ) : (requestSegments β).lookup (r :: rs) i =
      if r.offset ≤ i ∧ i < r.stop then some ((requestSegments β).get r i)
      else (requestSegments β).lookup rs i := rfl

/-- A request holds at least one byte and fits into a cache block. -/
def Fits (cs : ℕ) (r : WriteRequest β) : Prop := 0 < r.count ∧ r.count ≤ cs

/-- What waits for the index partition is already in the file below. -/
def Backed (raw : SparseFile β) (r : WriteRequest β) : Prop :=
  r.IsIp → r.stop ≤ raw.size ∧ ∀ i, r.offset ≤ i → i < r.stop →
    (requestSegments β).get r i = raw.byte i

section Promotion

variable (upTo : Option ℕ) (r : WriteRequest β)

@[simp]
theorem promote_offset : (r.promote upTo).offset = r.offset := by
  cases upTo with
  | none => rfl
  | some offset =>
    simp only [WriteRequest.promote]
    split_ifs <;> rfl

@[simp]
theorem promote_data : (r.promote upTo).data = r.data := by
  cases upTo with
  | none => rfl
  | some offset =>
    simp only [WriteRequest.promote]
    split_ifs <;> rfl

@[simp]
theorem promote_count : (r.promote upTo).count = r.count := by
  simp [WriteRequest.count]

@[simp]
theorem promote_stop : (r.promote upTo).stop = r.stop := by
  simp [WriteRequest.stop]

@[simp]
theorem promote_isIp : (r.promote upTo).IsIp ↔ r.IsIp := by
  cases upTo with
  | none => rfl
  | some offset =>
    simp only [WriteRequest.promote, WriteRequest.IsIp]
    split_ifs with h
    · simp [h.1]
    · rfl

@[simp]
theorem get_promote (i : ℕ) :
    (requestSegments β).get (r.promote upTo) i =
      (requestSegments β).get r i := by
  simp [requestSegments]

@[simp]
theorem fits_promote (cs : ℕ) : Fits cs (r.promote upTo) ↔ Fits cs r := by
  simp [Fits]

@[simp]
theorem backed_promote (raw : SparseFile β) :
    Backed raw (r.promote upTo) ↔ Backed raw r := by
  simp [Backed]

end Promotion

section Update

variable {offset : ℕ} {buf : List β} {req : WriteRequest β}

/-- Bytes at `start` of a list are replaced by `buf`, which may reach past its
end. -/
theorem getElem?_splice (data buf : List β) {start : ℕ}
    (hstart : start ≤ data.length) (k : ℕ) :
    (data.take start ++ buf ++ data.drop (start + buf.length))[k]? =
      if start ≤ k ∧ k < start + buf.length then buf[k - start]?
      else data[k]? := by
  have htake : (data.take start).length = start := by
    rw [List.length_take]
    omega
  by_cases hbefore : k < start
  · rw [List.append_assoc, List.getElem?_append_left (by omega),
      List.getElem?_take_of_lt hbefore, if_neg (by omega)]
  by_cases hin : k < start + buf.length
  · rw [if_pos ⟨by omega, hin⟩, List.append_assoc,
      List.getElem?_append_right (by omega), htake,
      List.getElem?_append_left (by omega)]
  · rw [if_neg (by omega), List.getElem?_append_right
      (by rw [List.length_append]; omega), List.getElem?_drop,
      List.length_append, htake]
    congr 1
    omega

/-- What putting the bytes of a buffer into a request does. -/
structure UpdateSpec (cs : ℕ) (buf : List β) (offset : ℕ)
    (req : WriteRequest β) (u : Updated β) : Prop where
  copied : u.copied = min (req.offset + cs - offset) buf.length
  start : u.req.offset = req.offset
  count : u.req.count = max req.count (offset - req.offset + u.copied)
  isIp : u.req.IsIp ↔ req.IsIp
  reached : u.reached = u.req.stop
  get : ∀ i, req.offset ≤ i → (requestSegments β).get u.req i =
    if offset ≤ i ∧ i < offset + u.copied then buf[i - offset]?
    else (requestSegments β).get req i

theorem updateRequest_spec (cs : ℕ) (hbuf : buf ≠ []) (hlo : req.offset ≤ offset)
    (hhi : offset ≤ req.stop) :
    UpdateSpec cs buf offset req (updateRequest cs buf offset req) := by
  obtain ⟨n, hn⟩ : ∃ n, n = min (req.offset + cs - offset) buf.length := ⟨_, rfl⟩
  have hstart : offset - req.offset ≤ req.data.length := by
    rw [WriteRequest.stop] at hhi
    omega
  have htaken : (buf.take n).length = n := by
    rw [List.length_take]
    omega
  have hcount : (req.data.take (offset - req.offset) ++ buf.take n ++
      req.data.drop (offset - req.offset + n)).length =
        max req.data.length (offset - req.offset + n) := by
    simp only [List.length_append, List.length_take, List.length_drop]
    omega
  constructor
  · simp [updateRequest, hbuf]
  · simp [updateRequest, hbuf]
  · simp only [updateRequest, hbuf, if_false, promote_count, ← hn]
    exact hcount
  · simp only [updateRequest, hbuf, if_false, promote_isIp]
    rfl
  · simp [updateRequest, hbuf, WriteRequest.stop]
  · intro i hi
    have hsplice := getElem?_splice req.data (buf.take n) hstart (i - req.offset)
    rw [htaken] at hsplice
    simp only [updateRequest, hbuf, if_false, ← hn, requestSegments,
      promote_data, promote_offset]
    rw [hsplice]
    split_ifs with hin hin' hin'
    · have hk : i - req.offset - (offset - req.offset) < n := by omega
      rw [List.getElem?_take_of_lt hk]
      congr 1
      omega
    · omega
    · omega
    · rfl

end Update

section Merge

variable {cs : ℕ} {dest src : WriteRequest β}

theorem lookup_two (x y : WriteRequest β) (i : ℕ) :
    (requestSegments β).lookup [x, y] i =
      if x.offset ≤ i ∧ i < x.stop then some ((requestSegments β).get x i)
      else if y.offset ≤ i ∧ i < y.stop then
        some ((requestSegments β).get y i)
      else none := rfl

/-- What merging `src` into `dest` does: no byte changes, `dest` may take
bytes behind its end, and what is left of `src` starts behind it. -/
structure MergeSpec (cs : ℕ) (dest src : WriteRequest β) (m : Merged β) :
    Prop where
  start : m.dest.offset = dest.offset
  stop_le : dest.stop ≤ m.dest.stop
  destFits : Fits cs m.dest
  destIp : m.dest.IsIp ↔ dest.IsIp
  /-- bytes move only between requests for the same partition -/
  moved : dest.stop < m.dest.stop →
    dest.count < cs ∧ (dest.IsIp ↔ src.IsIp) ∧ m.dest.stop ≤ src.stop ∧
      src.offset ≤ dest.stop
  reached : m.reached ≤ m.dest.stop
  bytes : ∀ i, (requestSegments β).lookup (m.dest :: m.src.toList) i =
    (requestSegments β).lookup [dest, src] i
  rest : ∀ r, m.src = some r → Fits cs r ∧ (r.IsIp ↔ src.IsIp) ∧
    src.offset ≤ r.offset ∧ r.stop = src.stop ∧ m.dest.stop ≤ r.offset ∧
    ∀ i, r.offset ≤ i →
      (requestSegments β).get r i = (requestSegments β).get src i
  unchanged : m.changed = false → m.dest = dest ∧ m.src = some src
  freed : m.src = none → src.stop ≤ m.dest.stop

/-- What moving bytes behind the end of `dest` does to it: `n` bytes come from
`src`, and none if the requests are for different partitions. -/
structure CopySpec (cs : ℕ) (dest src : WriteRequest β) (u : Updated β)
    (n : ℕ) : Prop where
  copied : u.copied = n
  start : u.req.offset = dest.offset
  stop : u.req.stop = dest.stop + n
  isIp : u.req.IsIp ↔ dest.IsIp
  moved : 0 < n → (dest.IsIp ↔ src.IsIp) ∧ dest.count + n ≤ cs ∧
    dest.stop + n ≤ src.stop
  reached : u.reached ≤ dest.stop + n
  none : n = 0 → u.req = dest
  get : ∀ i, dest.offset ≤ i → (requestSegments β).get u.req i =
    if dest.stop ≤ i ∧ i < dest.stop + n then (requestSegments β).get src i
    else (requestSegments β).get dest i

theorem untouched_copySpec (cs : ℕ) (dest src : WriteRequest β) :
    CopySpec cs dest src (untouched dest) 0 := by
  constructor
  · rfl
  · rfl
  · rfl
  · rfl
  · intro h
    omega
  · exact Nat.zero_le _
  · exact fun _ => rfl
  · intro i _
    rw [if_neg (by omega)]
    rfl

theorem mergeCopy_spec (cs : ℕ) {dest src : WriteRequest β}
    (hoverlap : src.offset ≤ dest.stop) :
    ∃ n, CopySpec cs dest src (mergeCopy cs dest src) n := by
  simp only [mergeCopy]
  split_ifs with hapart hroom
  · exact ⟨0, untouched_copySpec cs dest src⟩
  · have hsame : dest.IsIp ↔ src.IsIp := by
      simp only [WriteRequest.IsIp] at hapart ⊢
      grind
    have hat : src.offset + (dest.stop - src.offset) = dest.stop := by omega
    rw [hat]
    have hdest : dest.stop = dest.offset + dest.count := rfl
    have hsrc : src.stop = src.offset + src.count := rfl
    have hleft : (src.data.drop (dest.stop - src.offset)).length =
        src.count - (dest.stop - src.offset) := by
      rw [List.length_drop]
      rfl
    have hbuf : src.data.drop (dest.stop - src.offset) ≠ [] := by
      apply List.length_pos_iff.1
      omega
    have hspec := updateRequest_spec cs hbuf (show dest.offset ≤ dest.stop by omega) le_rfl
    have hcount := hspec.count
    have hcopied := hspec.copied
    have hstop : (updateRequest cs (src.data.drop (dest.stop - src.offset))
        dest.stop dest).req.stop = dest.stop + (updateRequest cs
          (src.data.drop (dest.stop - src.offset)) dest.stop dest).copied := by
      rw [WriteRequest.stop, hspec.start]
      rw [WriteRequest.count] at hcount
      omega
    refine ⟨_, rfl, hspec.start, hstop, hspec.isIp, ?_, ?_, ?_, ?_⟩
    · intro _
      exact ⟨hsame, by omega, by omega⟩
    · rw [hspec.reached, hstop]
    · intro h
      omega
    · intro i hi
      rw [hspec.get i hi]
      split_ifs with hin
      · simp only [requestSegments, List.getElem?_drop]
        congr 1
        omega
      · rfl
  · exact ⟨0, untouched_copySpec cs dest src⟩

/-- The rest of a request has its bytes. -/
theorem get_mergeRest (src : WriteRequest β) (n : ℕ) {i : ℕ} (hi : src.offset + n ≤ i) :
    (requestSegments β).get (mergeRest src n) i =
      (requestSegments β).get src i := by
  simp only [requestSegments, mergeRest, WriteRequest.trimBegin, List.getElem?_drop]
  congr 1
  omega

theorem mergeRest_isIp (src : WriteRequest β) (n : ℕ) :
    (mergeRest src n).IsIp ↔ src.IsIp := by
  simp only [mergeRest, WriteRequest.IsIp]
  split_ifs with h
  · simp [h]
  · rfl

/-- Merging requests that lie apart does nothing. -/
theorem mergeRequests_apart (hdest : Fits cs dest) (hsrc : Fits cs src)
    (hapart : dest.stop < src.offset) :
    MergeSpec cs dest src (mergeRequests cs dest src) := by
  have hm : mergeRequests cs dest src =
      { dest := dest
        src := some src
        promoted := none
        reached := 0
        changed := false } := by
    simp [mergeRequests, hapart]
  rw [hm]
  constructor
  · rfl
  · exact le_rfl
  · exact hdest
  · rfl
  · intro h
    exact absurd h (lt_irrefl _)
  · exact Nat.zero_le _
  · exact fun _ => rfl
  · simp only [Option.some.injEq]
    rintro r rfl
    exact ⟨hsrc, Iff.rfl, le_rfl, rfl, hapart.le, fun _ _ => rfl⟩
  · exact fun _ => ⟨rfl, rfl⟩
  · intro h
    simp at h

/-- What is left of `src` when the first `gone` bytes went. -/
theorem mergeLeft_spec (hsrc : Fits cs src) {gone : ℕ} {r : WriteRequest β}
    (h : (if gone = 0 then some src
      else if gone < src.count then some (mergeRest src gone) else none) =
        some r) :
    Fits cs r ∧ (r.IsIp ↔ src.IsIp) ∧ r.offset = src.offset + gone ∧
      r.stop = src.stop ∧ ∀ i, r.offset ≤ i →
        (requestSegments β).get r i = (requestSegments β).get src i := by
  split_ifs at h with hzero hleft
  · obtain rfl : src = r := by simpa using h
    exact ⟨hsrc, Iff.rfl, by omega, rfl, fun _ _ => rfl⟩
  · obtain rfl : mergeRest src gone = r := by simpa using h
    have hcount : (mergeRest src gone).count = src.count - gone := by
      simp [mergeRest, WriteRequest.trimBegin, WriteRequest.count]
    have hoffset : (mergeRest src gone).offset = src.offset + gone := rfl
    obtain ⟨hpos, hle⟩ := hsrc
    refine ⟨⟨by omega, by omega⟩, mergeRest_isIp src gone, hoffset, ?_, ?_⟩
    · have hstop : (mergeRest src gone).stop = (mergeRest src gone).offset +
        (mergeRest src gone).count := rfl
      have hsrcStop : src.stop = src.offset + src.count := rfl
      omega
    · intro i hi
      exact get_mergeRest src gone hi

theorem mergeRequests_overlap (hdest : Fits cs dest) (hsrc : Fits cs src)
    (hstart : dest.offset ≤ src.offset) (hoverlap : src.offset ≤ dest.stop) :
    MergeSpec cs dest src (mergeRequests cs dest src) := by
  have hdestStop : dest.stop = dest.offset + dest.count := rfl
  have hsrcStop : src.stop = src.offset + src.count := rfl
  obtain ⟨n, hcopy⟩ := mergeCopy_spec cs hoverlap
  have hmoved := hcopy.moved
  obtain ⟨m, hm⟩ : ∃ m, m = mergeRequests cs dest src := ⟨_, rfl⟩
  have hd : m.dest = (mergeCopy cs dest src).req := by
    simp [hm, mergeRequests, not_lt.2 hoverlap]
  have hs : m.src = if dest.stop - src.offset + n = 0 then some src
      else if dest.stop - src.offset + n < src.count
        then some (mergeRest src (dest.stop - src.offset + n)) else none := by
    simp [hm, mergeRequests, not_lt.2 hoverlap, hcopy.copied]
  have hr : m.reached = (mergeCopy cs dest src).reached := by
    simp [hm, mergeRequests, not_lt.2 hoverlap]
  have hc : m.changed = decide (dest.stop - src.offset + n ≠ 0) := by
    simp [hm, mergeRequests, not_lt.2 hoverlap, hcopy.copied]
  have hstop : m.dest.stop = dest.stop + n := hd ▸ hcopy.stop
  have hoffset : m.dest.offset = dest.offset := hd ▸ hcopy.start
  have hcount : m.dest.stop = m.dest.offset + m.dest.count := rfl
  obtain ⟨hdestPos, hdestLe⟩ := hdest
  rw [← hm]
  constructor
  · exact hoffset
  · omega
  · exact ⟨by omega, by omega⟩
  · exact hd ▸ hcopy.isIp
  · intro hmore
    obtain ⟨hsame, hroom, hin⟩ := hmoved (by omega)
    exact ⟨by omega, hsame, by omega, hoverlap⟩
  · rw [hr, hstop]
    exact hcopy.reached
  · intro i
    rw [Segments.lookup_cons, lookup_two]
    have hlo : (requestSegments β).lo m.dest = dest.offset := hoffset
    have hhi : (requestSegments β).hi m.dest = dest.stop + n := hstop
    rw [hlo, hhi]
    by_cases hin : dest.offset ≤ i ∧ i < dest.stop + n
    · rw [if_pos hin, hd, hcopy.get i hin.1]
      by_cases hold : i < dest.stop
      · rw [if_neg (by omega), if_pos ⟨hin.1, hold⟩]
      · rw [if_pos (by omega), if_neg (by omega), if_pos (by omega)]
    · rw [if_neg hin, if_neg (by omega)]
      cases hleft : m.src with
      | none =>
        rw [hs] at hleft
        split_ifs at hleft
        rw [if_neg (by omega)]
        rfl
      | some r =>
        rw [hs] at hleft
        obtain ⟨-, -, hrlo, hrhi, hget⟩ := mergeLeft_spec hsrc hleft
        simp only [Option.toList_some, Segments.lookup_cons, Segments.lookup_nil]
        have hrlo' : (requestSegments β).lo r = dest.stop + n := by
          have : (requestSegments β).lo r = r.offset := rfl
          omega
        have hrhi' : (requestSegments β).hi r = src.stop := hrhi
        rw [hrlo', hrhi']
        by_cases hcovers : src.offset ≤ i ∧ i < src.stop
        · rw [if_pos (by omega), if_pos hcovers, hget i (by omega)]
        · rw [if_neg (by omega), if_neg hcovers]
  · intro r hrest
    rw [hs] at hrest
    obtain ⟨hfits, hip, hlo, hhi, hget⟩ := mergeLeft_spec hsrc hrest
    exact ⟨hfits, hip, by omega, hhi, by omega, hget⟩
  · intro hunchanged
    rw [hc, decide_eq_false_iff_not, not_not] at hunchanged
    rw [hs, if_pos hunchanged, hd]
    exact ⟨hcopy.none (by omega), rfl⟩
  · intro hfreed
    rw [hs] at hfreed
    split_ifs at hfreed
    omega

theorem mergeRequests_spec (hdest : Fits cs dest) (hsrc : Fits cs src)
    (hstart : dest.offset ≤ src.offset) :
    MergeSpec cs dest src (mergeRequests cs dest src) := by
  by_cases hapart : dest.stop < src.offset
  · exact mergeRequests_apart hdest hsrc hapart
  · exact mergeRequests_overlap hdest hsrc hstart (not_lt.1 hapart)

end Merge

end AuroraLtfs.Sched
