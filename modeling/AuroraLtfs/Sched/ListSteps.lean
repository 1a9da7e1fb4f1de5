import AuroraLtfs.Sched.File
import AuroraLtfs.Sched.WriteBetween

/-!
# Requests that are written out, dropped and cut

What the steps of the scheduler other than a write do to the request list of a
file: a request that has been written to the data partition waits for the index
partition or is gone, requests for the index partition may be dropped, and a
truncation cuts the list.
-/

namespace AuroraLtfs.Sched

open RequestState

variable {β : Type*}

section Steps

variable {cs : ℕ} {raw f : SparseFile β} {req : WriteRequest β}
  {a b : List (WriteRequest β)} {fileSize : ℕ}

/-- A request that waits for the index partition may be dropped. -/
theorem ListInv.remove (h : ListInv cs raw f (a ++ req :: b) fileSize)
    (hip : req.IsIp) : ListInv cs raw f (a ++ b) fileSize :=
  h.thin hip .nil

/-- So may all of them. -/
theorem ListInv.dropIp (h : ListInv cs raw f (a ++ b) fileSize) :
    ListInv cs raw f (a ++ b.filter fun r => ¬r.IsIp) fileSize := by
  induction b generalizing a with
  | nil => exact h
  | cons r b ih =>
    by_cases hip : r.IsIp
    · rw [List.filter_cons_of_neg (by simpa using hip)]
      exact ih (h.remove hip)
    · rw [List.append_cons] at h
      rw [List.filter_cons_of_pos (by simpa using hip), List.append_cons]
      exact ih h

/-- What is looked up does not depend on the state of a request. -/
theorem lookup_state (state : RequestState) (i : ℕ) :
    (requestSegments β).lookup (a ++ { req with state := state } :: b) i =
      (requestSegments β).lookup (a ++ req :: b) i := by
  rw [Segments.lookup_append, Segments.lookup_append]
  rfl

/-- The bytes of a request in the list are the bytes of the file. -/
theorem ListInv.get (h : ListInv cs raw f (a ++ req :: b) fileSize) {i : ℕ}
    (hlo : req.offset ≤ i) (hhi : i < req.stop) :
    f.byte i = (requestSegments β).get req i := by
  rw [h.shows.bytes, Segments.lookup_of_mem _ h.order (by simp) hlo hhi]
  rfl

/-- Once its bytes are in the file below, a request waits for the index
partition. -/
theorem ListInv.written (h : ListInv cs raw f (a ++ req :: b) fileSize) :
    ListInv cs (raw.put req.offset req.data) f
      (a ++ { req with state := reqIp } :: b) fileSize := by
  obtain ⟨ha, htail, hbefore⟩ := (Segments.ordered_append _).1 h.order
  obtain ⟨hbehind, hb⟩ := (Segments.ordered_cons _).1 htail
  obtain ⟨hfits, -⟩ := h.sound req (by simp)
  have hstop : req.stop = req.offset + req.data.length := rfl
  have hsize : (raw.put req.offset req.data).size = max raw.size req.stop := by
    rw [ByteFile.put_size, if_neg (List.length_pos_iff.1 hfits.1), hstop]
  have hin : ∀ i, req.offset ≤ i → i < req.stop →
      (raw.put req.offset req.data).byte i = (requestSegments β).get req i :=
    fun i hlo hhi => (raw.put_byte ..).trans (if_pos ⟨hlo, hhi⟩)
  have hout : ∀ i, ¬(req.offset ≤ i ∧ i < req.stop) →
      (raw.put req.offset req.data).byte i = raw.byte i :=
    fun i hi => (raw.put_byte ..).trans (if_neg hi)
  -- the other requests do not meet the one that was written
  have hother : ∀ x, x ∈ a ∨ x ∈ b → ∀ i, x.offset ≤ i → i < x.stop →
      ¬(req.offset ≤ i ∧ i < req.stop) := by
    intro x hx i hlo hhi
    cases hx with
    | inl hx =>
      have hle : x.stop ≤ req.offset := hbefore x hx req (by simp)
      omega
    | inr hx =>
      have hle : req.stop ≤ x.offset := hbehind x hx
      omega
  constructor
  · constructor
    · exact h.shows.size
    · intro x hx
      simp only [List.mem_append, List.mem_cons] at hx
      rcases hx with hx | rfl | hx
      · exact h.shows.within x (by simp [hx])
      · exact h.shows.within req (by simp)
      · exact h.shows.within x (by simp [hx])
    · intro i
      rw [lookup_state, h.shows.bytes]
      by_cases hi : req.offset ≤ i ∧ i < req.stop
      · rw [Segments.lookup_of_mem _ h.order (by simp) hi.1 hi.2]
        rfl
      · rw [hout i hi]
    · rw [hsize]
      exact max_le h.shows.above (h.shows.within req (by simp))
    · intro hmore
      rw [lookup_state]
      exact h.shows.top (lt_of_le_of_lt (hsize ▸ le_max_left _ _) hmore)
  · intro x hx
    have hkeep : ∀ y, y ∈ a ∨ y ∈ b → Fits cs y ∧
        Backed (raw.put req.offset req.data) y := by
      intro y hy
      obtain ⟨hyfits, hybacked⟩ := h.sound y (by
        simp only [List.mem_append, List.mem_cons]
        tauto)
      refine ⟨hyfits, fun hip => ?_⟩
      obtain ⟨hysize, hyget⟩ := hybacked hip
      refine ⟨hysize.trans (hsize ▸ le_max_left _ _), fun i hlo hhi => ?_⟩
      rw [hyget i hlo hhi, hout i (hother y hy i hlo hhi)]
    simp only [List.mem_append, List.mem_cons] at hx
    rcases hx with hx | rfl | hx
    · exact hkeep x (.inl hx)
    · refine ⟨hfits, fun _ => ⟨hsize ▸ le_max_right _ _, fun i hlo hhi => ?_⟩⟩
      exact (hin i hlo hhi).symm
    · exact hkeep x (.inr hx)
  · exact (Segments.ordered_append _).2 ⟨ha, (Segments.ordered_cons _).2
      ⟨hbehind, hb⟩, fun x hx y hy => by
        cases List.mem_cons.1 hy with
        | inl hy => exact hy ▸ hbefore x hx req (by simp)
        | inr hy => exact hbefore x hx y (by simp [hy])⟩

end Steps

section Truncate

variable {cs length : ℕ} {raw f : SparseFile β}
  {requests : List (WriteRequest β)} {fileSize : ℕ}

/-- The requests before `length`, none of them reaching over it. -/
def cutRequests (length : ℕ) (requests : List (WriteRequest β)) : List (WriteRequest β) :=
  (requests.filter fun r => r.offset < length).map (·.trimEnd length)

theorem trimEnd_of_le {r : WriteRequest β} (h : r.stop ≤ length) :
    r.trimEnd length = r := by
  have hstop : r.stop = r.offset + r.data.length := rfl
  apply WriteRequest.ext
  · rfl
  · exact List.take_of_length_le (by omega)
  · rfl

theorem trimEnd_stop {r : WriteRequest β} (h : r.offset < length) :
    (r.trimEnd length).stop = min r.stop length := by
  simp only [WriteRequest.stop, WriteRequest.trimEnd, List.length_take]
  omega

theorem get_trimEnd (r : WriteRequest β) {i : ℕ} (hlo : r.offset ≤ i)
    (hi : i < length) : (requestSegments β).get (r.trimEnd length) i =
      (requestSegments β).get r i := by
  simp only [requestSegments, WriteRequest.trimEnd]
  rw [List.getElem?_take_of_lt (by omega)]

/-- Requests that end by `length` stay as they are. -/
theorem cutRequests_of_le (hfits : ∀ r ∈ requests, 0 < r.count)
    (hle : ∀ r ∈ requests, r.stop ≤ length) : cutRequests length requests = requests := by
  have hfilter : requests.filter (fun r => r.offset < length) = requests := by
    apply List.filter_eq_self.2
    intro r hr
    have hstop : r.stop = r.offset + r.count := rfl
    have hpos := hfits r hr
    have hend := hle r hr
    simp only [decide_eq_true_eq]
    omega
  rw [cutRequests, hfilter]
  exact (List.map_congr_left fun r hr => trimEnd_of_le (hle r hr)).trans (List.map_id _)

theorem cutRequests_append (xs ys : List (WriteRequest β)) :
    cutRequests length (xs ++ ys) =
      cutRequests length xs ++ cutRequests length ys := by
  simp [cutRequests]

/-- The walk back from the last request may stop at the first one that ends by
`length`. -/
theorem truncateRequests_eq (rev : List (WriteRequest β))
    (hfits : ∀ r ∈ rev, 0 < r.count) (horder : InOrder rev.reverse) :
    truncateRequests length rev = cutRequests length rev.reverse := by
  induction rev with
  | nil => rfl
  | cons req prev ih =>
    rw [List.reverse_cons] at horder
    obtain ⟨hprev, -, hbefore⟩ := (Segments.ordered_append _).1 horder
    have ih := ih (fun r hr => hfits r (by simp [hr])) hprev
    rw [List.reverse_cons, cutRequests_append, truncateRequests, ih]
    split_ifs with hafter hover
    · simp [cutRequests, hafter]
    · simp [cutRequests, not_le.1 hafter]
    · rw [← cutRequests_append, cutRequests_of_le, List.reverse_cons]
      · intro r hr
        exact hfits r (by simpa [or_comm] using hr)
      · intro r hr
        have hstop : req.stop = req.offset + req.count := rfl
        cases List.mem_append.1 hr with
        | inl hr =>
          have hle : r.stop ≤ req.offset := hbefore r hr req (by simp)
          omega
        | inr hr =>
          obtain rfl : r = req := by simpa using hr
          omega

theorem lookup_cut (i : ℕ) :
    (requestSegments β).lookup (cutRequests length requests) i =
      if i < length then (requestSegments β).lookup requests i else none := by
  induction requests with
  | nil => simp [cutRequests]
  | cons r rs ih =>
    rw [← List.singleton_append, cutRequests_append, Segments.lookup_append,
      ih, Segments.lookup_append]
    by_cases hbefore : r.offset < length
    · have hcut : cutRequests length [r] = [r.trimEnd length] := by
        simp [cutRequests, hbefore]
      have hoffset : (r.trimEnd length).offset = r.offset := rfl
      rw [hcut, lookup_request, lookup_request, trimEnd_stop hbefore, hoffset]
      by_cases hi : i < length
      · simp only [hi, if_true, lt_min_iff, and_true]
        congr 1
        split_ifs with hcovers
        · rw [get_trimEnd r hcovers.1 hi]
        · rfl
      · simp [hi]
    · have hcut : cutRequests length [r] = [] := by
        simp [cutRequests, hbefore]
      rw [hcut, lookup_request]
      by_cases hi : i < length
      · rw [if_neg (by omega : ¬(r.offset ≤ i ∧ i < r.stop))]
        simp [hi]
      · simp [hi]

/-- A truncation of the file cuts its requests. -/
theorem ListInv.truncate (h : ListInv cs raw f requests fileSize)
    (length : ℕ) : ListInv cs (raw.truncate length) (f.truncate length)
      (cutRequests length requests) length := by
  have hmem : ∀ x ∈ cutRequests length requests,
      ∃ r ∈ requests, r.offset < length ∧ x = r.trimEnd length := by
    intro x hx
    simp only [cutRequests, List.mem_map, List.mem_filter, decide_eq_true_eq] at hx
    obtain ⟨r, ⟨hr, hlt⟩, rfl⟩ := hx
    exact ⟨r, hr, hlt, rfl⟩
  constructor
  · constructor
    · rfl
    · intro x hx
      obtain ⟨r, -, hlt, rfl⟩ := hmem x hx
      rw [trimEnd_stop hlt]
      exact min_le_right _ _
    · intro i
      rw [lookup_cut]
      simp only [ByteFile.truncate]
      split_ifs
      · exact h.shows.bytes i
      · rfl
    · exact le_rfl
    · exact fun hmore => absurd hmore (lt_irrefl _)
  · intro x hx
    obtain ⟨r, hr, hlt, rfl⟩ := hmem x hx
    obtain ⟨hfits, hbacked⟩ := h.sound r hr
    have hstop := trimEnd_stop hlt
    have hcount : (r.trimEnd length).stop = r.offset + (r.trimEnd length).count := rfl
    have hrstop : r.stop = r.offset + r.count := rfl
    refine ⟨⟨?_, ?_⟩, fun hip => ⟨?_, fun i hlo hhi => ?_⟩⟩
    · have := hfits.1
      omega
    · have := hfits.2
      omega
    · rw [hstop]
      exact min_le_right _ _
    · rw [hstop, lt_min_iff] at hhi
      simp only [ByteFile.truncate, hhi.2, if_true]
      rw [← (hbacked hip).2 i hlo hhi.1]
      exact get_trimEnd r hlo hhi.2
  · apply List.Pairwise.map (R := fun x y => x.stop ≤ y.offset)
    · intro x y hxy
      have hle : (x.trimEnd length).stop ≤ x.stop :=
        Nat.add_le_add_left (List.length_take_le' _ _) _
      exact hle.trans hxy
    · exact h.order.filter _

end Truncate

end AuroraLtfs.Sched
