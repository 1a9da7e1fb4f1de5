import AuroraLtfs.Sched.Sweep

/-!
# Private data between the steps

What holds of the private data of a file whatever the tape does.  A stored write
error means that nothing is left to be written to the data partition, for the
handler drops it together with storing the error.  A file that is not placed on
the index partition has no requests for it, and one is linked into the queue of
files with alternate extents exactly once if it has some.
-/

namespace AuroraLtfs.Sched

open AuroraLtfs.Tape
open AuroraLtfs.Index
open AuroraLtfs.Raw
open RequestState

variable {σ β : Type*}

/-- What holds of private data between the steps. -/
structure PrivOk (p : DentryPriv β) : Prop where
  cleared : p.writeError ≠ none → ∀ r ∈ p.requests, r.IsIp
  placed : p.writeIp = false → ∀ r ∈ p.requests, ¬r.IsIp
  linked : p.extLinks = if p.altExtentlist = [] then 0 else 1

/-- The same for the private data of a file, if there is some. -/
def FileOk (s : State σ β) : Prop :=
  ∀ p, s.file.ioschedPriv = some p → PrivOk p

theorem FileOk.withPriv {s : State σ β} {p : DentryPriv β} (h : PrivOk p) :
    FileOk (s.withPriv p) := by
  rintro q ⟨rfl⟩
  exact h

/-! ## The files that lists of requests show -/

section Files

variable {cs fileSize : ℕ} {raw f : SparseFile β}
  {requests : List (WriteRequest β)}

/-- Requests in order show some file. -/
theorem exists_listInv (cs : ℕ) (raw : SparseFile β)
    (hsound : Sound cs raw requests) (horder : InOrder requests)
    (hwithin : ∀ r ∈ requests, r.stop ≤ fileSize) (habove : raw.size ≤ fileSize)
    (htop : raw.size < fileSize →
      ((requestSegments β).lookup requests (fileSize - 1)).isSome) :
    ∃ g, ListInv cs raw g requests fileSize := by
  have hpast : ∀ i, fileSize ≤ i →
      ((requestSegments β).lookup requests i).getD (raw.byte i) = 0 := by
    intro i hi
    rw [Segments.lookup_eq_none]
    · exact raw.byte_past i (habove.trans hi)
    · intro r hr
      exact .inr ((hwithin r hr).trans hi)
  exact ⟨⟨fileSize, fun i => ((requestSegments β).lookup requests i).getD (raw.byte i),
    hpast⟩, ⟨rfl, hwithin, fun _ => rfl, habove, htop⟩, hsound, horder⟩

/-- A file without requests is what libltfs has of it. -/
theorem listInv_nil (cs : ℕ) (raw : SparseFile β) : ListInv cs raw raw [] raw.size := by
  refine ⟨⟨rfl, by simp, fun i => rfl, le_rfl, fun hlt => ?_⟩, by simp [Sound],
    List.Pairwise.nil⟩
  exact absurd hlt (lt_irrefl _)

/-- A byte that a request holds is no hole. -/
theorem isSome_get {r : WriteRequest β} {x : ℕ} (hlo : r.offset ≤ x) (hhi : x < r.stop) :
    ((requestSegments β).get r x).isSome := by
  have hstop : r.stop = r.offset + r.data.length := rfl
  simp only [requestSegments]
  rw [List.getElem?_eq_getElem (by omega)]
  rfl

/-- A byte of the file below is a byte of the file. -/
theorem Shows.isSome (h : Shows raw f requests fileSize) {x : ℕ}
    (hx : (raw.byte x).isSome ∨ ((requestSegments β).lookup requests x).isSome) :
    (f.byte x).isSome := by
  rw [h.bytes]
  cases hlookup : (requestSegments β).lookup requests x with
  | none =>
    rw [hlookup] at hx
    exact hx.resolve_right (by simp)
  | some b =>
    obtain ⟨r, -, hlo, hhi, rfl⟩ := Segments.exists_of_lookup _ hlookup
    exact isSome_get hlo hhi

/-- A byte of the file that is not in the file below has still to be
written. -/
theorem ListInv.pending (h : ListInv cs raw f requests fileSize) {x : ℕ}
    (hx : (f.byte x).isSome) : (raw.byte x).isSome ∨
      ∃ r ∈ requests, ¬r.IsIp ∧ r.offset ≤ x ∧ x < r.stop := by
  rw [h.shows.bytes] at hx
  cases hlookup : (requestSegments β).lookup requests x with
  | none =>
    rw [hlookup] at hx
    exact .inl hx
  | some b =>
    obtain ⟨r, hr, hlo, hhi, rfl⟩ := Segments.exists_of_lookup _ hlookup
    by_cases hip : r.IsIp
    · left
      rw [← ((h.sound r hr).2 hip).2 x hlo hhi]
      exact isSome_get hlo hhi
    · exact .inr ⟨r, hr, hip, hlo, hhi⟩

/-- The end of the last request, or `size` if that lies further. -/
theorem foldl_stop (requests : List (WriteRequest β)) (size : ℕ) :
    size ≤ requests.foldl (fun size r => max size r.stop) size ∧
    (∀ r ∈ requests,
      r.stop ≤ requests.foldl (fun size r => max size r.stop) size) ∧
    (size < requests.foldl (fun size r => max size r.stop) size →
      ∃ r ∈ requests,
        r.stop = requests.foldl (fun size r => max size r.stop) size) := by
  induction requests generalizing size with
  | nil => simp
  | cons r rs ih =>
    obtain ⟨hle, hall, hreached⟩ := ih (max size r.stop)
    rw [List.foldl_cons]
    refine ⟨(le_max_left _ _).trans hle, ?_, ?_⟩
    · intro x hx
      rcases List.mem_cons.1 hx with rfl | hx
      · exact (le_max_right _ _).trans hle
      · exact hall x hx
    · intro hlt
      rcases hle.lt_or_eq with hmore | heq
      · obtain ⟨x, hx, hstop⟩ := hreached hmore
        exact ⟨x, by simp [hx], hstop⟩
      · rw [← heq] at hlt ⊢
        have hmore := (lt_max_iff.1 hlt).resolve_left (lt_irrefl size)
        exact ⟨r, by simp, (max_eq_right hmore.le).symm⟩

/-- What is in the file below is there without the zeros behind it. -/
theorem Backed.of_pad {k : ℕ} {r : WriteRequest β} (h : Backed (raw.pad k) r)
    (hpos : 0 < r.count) : Backed raw r := by
  intro hip
  obtain ⟨-, hbytes⟩ := h hip
  refine ⟨?_, hbytes⟩
  by_contra hlt
  have hstop : r.stop = r.offset + r.count := rfl
  have hsome := isSome_get (r := r) (x := r.stop - 1) (by omega) (by omega)
  have hnone : raw.byte (r.stop - 1) = none := raw.byte_past _ (by omega)
  rw [hbytes (r.stop - 1) (by omega) (by omega)] at hsome
  simp [ByteFile.pad, hnone] at hsome

/-- Any of the requests show some file, which is no longer than before.  No byte
is lost if all that have still to be written are among them. -/
theorem ListInv.keepSome {k : ℕ} (h : ListInv cs (raw.pad k) f requests fileSize)
    (keep : WriteRequest β → Bool) :
    ∃ g : SparseFile β, g.size ≤ f.size ∧ ListInv cs raw g (requests.filter keep)
        ((requests.filter keep).foldl (fun size r => max size r.stop) raw.size) ∧
      ((∀ r ∈ requests, ¬r.IsIp → keep r) → ∀ x, (f.byte x).isSome →
        (g.byte x).isSome) := by
  obtain ⟨kept, hkept⟩ : ∃ kept, kept = requests.filter keep := ⟨_, rfl⟩
  have hmem : ∀ r ∈ kept, r ∈ requests := by
    rw [hkept]
    exact fun r hr => (List.mem_filter.1 hr).1
  have horder : InOrder kept := hkept ▸ h.order.filter _
  obtain ⟨hle, hall, hreached⟩ := foldl_stop kept raw.size
  rw [← hkept]
  generalize kept.foldl (fun size r => max size r.stop) raw.size = size
    at hle hall hreached ⊢
  obtain ⟨g, hg⟩ := exists_listInv cs raw (fun r hr =>
      have hsound := h.sound r (hmem r hr)
      ⟨hsound.1, hsound.2.of_pad hsound.1.1⟩) horder hall hle (by
      intro hmore
      obtain ⟨r, hr, hstop⟩ := hreached hmore
      have hpos := (h.sound r (hmem r hr)).1.1
      have hcount : r.stop = r.offset + r.count := rfl
      rw [Segments.lookup_of_mem _ horder hr (i := size - 1)
        (show r.offset ≤ size - 1 by omega)
        (show size - 1 < r.stop by omega)]
      rfl)
  refine ⟨g, ?_, hg, ?_⟩
  · rw [h.shows.size, hg.shows.size]
    rcases hle.lt_or_eq with hmore | heq
    · obtain ⟨r, hr, hstop⟩ := hreached hmore
      exact hstop.symm.le.trans (h.shows.within r (hmem r hr))
    · exact heq.symm.le.trans ((le_max_right _ _).trans h.shows.above)
  · intro hall x hx
    apply hg.shows.isSome
    rcases h.pending hx with hx | ⟨r, hr, hnot, hlo, hhi⟩
    · exact .inl hx
    · right
      have hr : r ∈ kept := hkept ▸ List.mem_filter.2 ⟨hr, hall r hr hnot⟩
      rw [Segments.lookup_of_mem _ horder hr hlo hhi]
      rfl

end Files

/-! ## Steps on private data -/

section Steps

variable {m : Mount} {p : DentryPriv β}

theorem unset_requests (p : DentryPriv β) :
    (unifiedUnsetWriteIp p).requests = p.requests.filter fun r => ¬r.IsIp := by
  rw [unifiedUnsetWriteIp, dropAltExtentlist]
  split_ifs <;> rfl

theorem unset_fileSize (p : DentryPriv β) :
    (unifiedUnsetWriteIp p).fileSize = p.fileSize := by
  rw [unifiedUnsetWriteIp, dropAltExtentlist]
  split_ifs <;> rfl

@[simp]
theorem unset_writeError (p : DentryPriv β) :
    (unifiedUnsetWriteIp p).writeError = p.writeError := by
  rw [unifiedUnsetWriteIp, dropAltExtentlist]
  split_ifs <;> rfl

@[simp]
theorem placeWrite_writeError (m : Mount) (stop : ℕ) (d : Device (List β))
    (p : DentryPriv β) : (placeWrite m stop d p).writeError = p.writeError := by
  rw [placeWrite]
  split_ifs
  · exact unset_writeError p
  · rfl

theorem PrivOk.unset (h : PrivOk p) : PrivOk (unifiedUnsetWriteIp p) where
  cleared := by
    rw [unset_writeError, unset_requests]
    intro herror r hr
    exact h.cleared herror r (List.mem_filter.1 hr).1
  placed := by
    intro _ r hr
    rw [unset_requests] at hr
    simpa using (List.mem_filter.1 hr).2
  linked := by
    have hlinked := h.linked
    by_cases hnone : p.altExtentlist = []
    · simp only [hnone, if_true] at hlinked
      simp [unifiedUnsetWriteIp, dropAltExtentlist, hnone, hlinked]
    · simp only [hnone, if_false] at hlinked
      simp [unifiedUnsetWriteIp, dropAltExtentlist, hnone, hlinked]

theorem PrivOk.setWriteIp (h : PrivOk p) : PrivOk (unifiedSetWriteIp p) :=
  ⟨h.cleared, by simp [unifiedSetWriteIp], h.linked⟩

theorem PrivOk.forgetError (h : PrivOk p) : PrivOk { p with writeError := none } :=
  ⟨fun herror => absurd rfl herror, h.placed, h.linked⟩

theorem PrivOk.placeWrite (h : PrivOk p) (stop : ℕ) (d : Device (List β)) :
    PrivOk (placeWrite m stop d p) := by
  rw [Sched.placeWrite]
  split_ifs
  · exact h.unset
  · exact h

theorem PrivOk.placeTruncate (h : PrivOk p) (length : ℕ) (f : File β) :
    PrivOk (placeTruncate m length f p) := by
  rw [Sched.placeTruncate]
  split_ifs
  · exact h.setWriteIp
  · exact h.unset
  · exact h

/-- What the handler stores: the first error stays, and running out of space on
the index partition is none. -/
theorem handle_writeError (ret : Option TapeError) (failedIp : Bool)
    (d : Device (List β)) (dentry : Dentry) (p : DentryPriv β) :
    (unifiedHandleWriteError ret failedIp d dentry p).writeError =
      if failedIp ∧ ret.any outOfSpace then p.writeError
      else p.writeError.or ret := rfl

theorem handle_writeError_dp (e : TapeError) (d : Device (List β))
    (dentry : Dentry) (p : DentryPriv β) :
    (unifiedHandleWriteError (some e) false d dentry p).writeError =
      p.writeError.or (some e) := by
  simp [handle_writeError]

/-- What the handler leaves was there before. -/
theorem handleWriteError_mem (ret : Option TapeError) (failedIp : Bool)
    (d : Device (List β)) (dentry : Dentry) {r : WriteRequest β}
    (hr : r ∈ (unifiedHandleWriteError ret failedIp d dentry p).requests) :
    r ∈ p.requests :=
  (List.mem_filter.1 hr).1

/-- Unless only the index partition is full, what had to be written to the data
partition is dropped. -/
theorem handleWriteError_isIp (ret : Option TapeError) (failedIp : Bool)
    (d : Device (List β)) (dentry : Dentry)
    (herror : ¬(failedIp ∧ ret.any outOfSpace)) {r : WriteRequest β}
    (hr : r ∈ (unifiedHandleWriteError ret failedIp d dentry p).requests) : r.IsIp := by
  have hkeep := (List.mem_filter.1 hr).2
  simp only [decide_eq_true_eq, not_or, not_and, not_not] at hkeep herror
  by_contra hnot
  have hclear := hkeep.2 hnot
  exact absurd (herror hclear.1) (by simp [hclear.2.1])

theorem PrivOk.handle (h : PrivOk p) (ret : Option TapeError) (failedIp : Bool)
    (d : Device (List β)) (dentry : Dentry) :
    PrivOk (unifiedHandleWriteError ret failedIp d dentry p) where
  cleared := by
    intro herror r hr
    by_cases hfull : failedIp ∧ ret.any outOfSpace
    · rw [handle_writeError, if_pos hfull] at herror
      exact h.cleared herror r (handleWriteError_mem ret failedIp d dentry hr)
    · exact handleWriteError_isIp ret failedIp d dentry hfull hr
  placed := by
    intro hoff r hr
    exact h.placed hoff r (handleWriteError_mem ret failedIp d dentry hr)
  linked := h.linked

theorem altWalk_ne_nil (bs : ℕ) (ext : Extent) (entries : List Extent) :
    altWalk bs ext false entries ≠ [] := by
  induction entries with
  | nil => simp [altWalk]
  | cons entry rest ih =>
    rw [altWalk]
    -- only an entry that is deleted leaves nothing, and the new extent stands
    -- before it
    split_ifs <;> simp_all

theorem PrivOk.updateAlt (h : PrivOk p) (bs : ℕ) (ext : Extent) :
    PrivOk (unifiedUpdateAltExtentlist bs ext p) := by
  rw [unifiedUpdateAltExtentlist]
  split_ifs with hnone
  · refine ⟨h.cleared, h.placed, ?_⟩
    simp [h.linked, hnone]
  · refine ⟨h.cleared, h.placed, ?_⟩
    simp [h.linked, hnone, altWalk_ne_nil]

theorem PrivOk.sublist {requests : List (WriteRequest β)} (h : PrivOk p)
    (hmem : ∀ r ∈ requests, r ∈ p.requests) : PrivOk { p with requests := requests } :=
  ⟨fun herror r hr => h.cleared herror r (hmem r hr),
    fun hoff r hr => h.placed hoff r (hmem r hr), h.linked⟩

theorem freeConditional_dentry (targetHandles : ℕ) (f : File β) :
    (unifiedFreeDentryPrivConditional targetHandles f).dentry = f.dentry := by
  rw [unifiedFreeDentryPrivConditional]
  split
  · rfl
  · split_ifs <;> rfl

end Steps

/-! ## Walks that write out -/

section States

variable (C : Catalog σ (List β)) {m : Mount} {cs : ℕ} {w : Sweep σ β}
  {dest src req : WriteRequest β}

theorem mergeCopy_isIp : (mergeCopy cs dest src).req.IsIp ↔ dest.IsIp := by
  rw [mergeCopy]
  split_ifs
  · rfl
  · rw [updateRequest]
    split_ifs
    · rfl
    · exact promote_isIp _ _
  · rfl

/-- Requests for the index partition are merged to such. -/
theorem mergeRequests_isIp (hdest : dest.IsIp) (hsrc : src.IsIp) :
    ∀ r ∈ (mergeRequests cs dest src).dest ::
      (mergeRequests cs dest src).src.toList, r.IsIp := by
  intro r hr
  by_cases hgap : dest.stop < src.offset
  · simp only [mergeRequests, hgap, if_true, Option.toList_some,
      List.mem_cons, List.not_mem_nil, or_false] at hr
    rcases hr with rfl | rfl
    · exact hdest
    · exact hsrc
  · simp only [mergeRequests, hgap, if_false] at hr
    rcases List.mem_cons.1 hr with rfl | hr
    · exact mergeCopy_isIp.2 hdest
    · split_ifs at hr
      · obtain rfl : r = src := by simpa using hr
        exact hsrc
      · obtain rfl : r = mergeRest src _ := by simpa using hr
        exact (mergeRest_isIp src _).2 hsrc
      · simp at hr

theorem merge_isIp (hfront : ∀ r ∈ w.front, r.IsIp) (hreq : req.IsIp) :
    ∀ r ∈ (w.merge cs req).front, r.IsIp := by
  rw [Sweep.merge]
  cases hlast : w.front.getLast? with
  | none =>
    intro r hr
    rcases List.mem_append.1 hr with hr | hr
    · exact hfront r hr
    · obtain rfl : r = req := by simpa using hr
      exact hreq
  | some dest =>
    have hdest := hfront dest (List.mem_of_getLast? hlast)
    intro r hr
    rcases List.mem_append.1 hr with hr | hr
    · exact hfront r (List.mem_of_mem_dropLast hr)
    · exact mergeRequests_isIp hdest hreq r hr

/-- A flush that succeeds leaves only requests for the index partition. -/
theorem flushRequests_isIp (writeIp : Bool) (requests : List (WriteRequest β))
    (hfront : ∀ r ∈ w.front, r.IsIp)
    (hok : (flushRequests C m writeIp requests w).1 = .ok ()) :
    ∀ r ∈ (flushRequests C m writeIp requests w).2.front, r.IsIp := by
  induction requests generalizing w with
  | nil => exact hfront
  | cons req rest ih =>
    rw [flushRequests] at hok ⊢
    by_cases hip : req.IsIp
    · rw [if_pos hip] at hok ⊢
      exact ih (merge_isIp hfront hip) hok
    rw [if_neg hip] at hok ⊢
    generalize writeOut C m req w.state = written at hok ⊢
    obtain ⟨_ | _, t⟩ := written
    · simp at hok
    · cases writeIp with
      | true =>
        refine ih ?_ hok
        exact merge_isIp (w := { w with state := t }) hfront rfl
      | false => exact ih (w := { w with state := t }) hfront hok

/-- Without requests for the index partition a flush makes none, unless the
file is placed there. -/
theorem flushRequests_not_isIp (requests : List (WriteRequest β))
    (hfront : ∀ r ∈ w.front ++ requests, ¬r.IsIp) :
    ∀ r ∈ (flushRequests C m false requests w).2.front, ¬r.IsIp := by
  induction requests generalizing w with
  | nil =>
    rw [List.append_nil] at hfront
    exact hfront
  | cons req rest ih =>
    have hreq : ¬req.IsIp := hfront req (by simp)
    rw [flushRequests, if_neg hreq]
    rcases writeOut C m req w.state with ⟨_ | _, t⟩
    · exact hfront
    · apply ih (w := { w with state := t })
      intro r hr
      apply hfront r
      simp only [List.mem_append, List.mem_cons] at hr ⊢
      tauto

theorem processRequests_isIp (queue : RequestState) (writeIp : Bool)
    (requests : List (WriteRequest β)) (hfront : ∀ r ∈ w.front ++ requests, r.IsIp) :
    ∀ r ∈ (processRequests C m queue writeIp requests w).2.front, r.IsIp := by
  induction requests generalizing w with
  | nil =>
    rw [List.append_nil] at hfront
    exact hfront
  | cons req rest ih =>
    have hreq : req.IsIp := hfront req (by simp)
    rw [processRequests, if_pos hreq]
    apply ih
    intro r hr
    rcases List.mem_append.1 hr with hr | hr
    · exact merge_isIp (fun r hr => hfront r (by simp [hr])) hreq r hr
    · exact hfront r (by simp [hr])

/-- Requests that are taken out are not written yet. -/
theorem processRequests_ok (queue : RequestState) (requests : List (WriteRequest β)) :
    (processRequests C m queue false requests w).1 = .ok () := by
  induction requests generalizing w with
  | nil => rfl
  | cons req rest ih =>
    rw [processRequests]
    split_ifs with hip htaken hoff
    · exact ih
    · simp at hoff
    · exact ih
    · exact ih

theorem processRequests_not_isIp (queue : RequestState) (requests : List (WriteRequest β))
    (hfront : ∀ r ∈ w.front ++ requests, ¬r.IsIp) :
    ∀ r ∈ (processRequests C m queue false requests w).2.front, ¬r.IsIp := by
  induction requests generalizing w with
  | nil =>
    rw [List.append_nil] at hfront
    exact hfront
  | cons req rest ih =>
    have hreq : ¬req.IsIp := hfront req (by simp)
    rw [processRequests, if_neg hreq]
    split_ifs with htaken hoff
    · simp at hoff
    · apply ih (w := { w with detached := w.detached ++ [req] })
      intro r hr
      apply hfront r
      simp only [List.mem_append, List.mem_cons] at hr ⊢
      tauto
    · apply ih (w := w.keep req)
      intro r hr
      apply hfront r
      simpa [Sweep.keep] using hr

/-- The private data after a walk, before an error is handled. -/
def sweptPriv (p : DentryPriv β) (w : Sweep σ β) : DentryPriv β :=
  { p with requests := w.front, fileSize := w.fileSize }

theorem PrivOk.flush {p : DentryPriv β} (h : PrivOk p) (hnone : p.writeError = none)
    (s : State σ β) : PrivOk (sweptPriv p
      (flushRequests C m p.writeIp p.requests (startSweep p s)).2) where
  cleared := by
    intro herror
    exact absurd hnone herror
  placed := by
    intro hoff
    have hoff : p.writeIp = false := hoff
    rw [hoff]
    exact flushRequests_not_isIp C p.requests (h.placed hoff)
  linked := h.linked

theorem PrivOk.process {p : DentryPriv β} (h : PrivOk p) (queue : RequestState)
    (s : State σ β) : PrivOk (sweptPriv p
      (processRequests C m queue p.writeIp p.requests (startSweep p s)).2) where
  cleared := by
    intro herror
    exact processRequests_isIp C queue p.writeIp p.requests (h.cleared herror)
  placed := by
    intro hoff
    have hoff : p.writeIp = false := hoff
    rw [hoff]
    exact processRequests_not_isIp C queue p.requests (h.placed hoff)
  linked := h.linked

theorem updateAlt_withRequests (bs : ℕ) (ext : Extent) (p : DentryPriv β)
    (requests : List (WriteRequest β)) :
    unifiedUpdateAltExtentlist bs ext { p with requests := requests } =
      { unifiedUpdateAltExtentlist bs ext p with requests := requests } := by
  simp only [unifiedUpdateAltExtentlist]
  split_ifs <;> rfl

theorem PrivOk.index {p : DentryPriv β} {s : State σ β}
    (requests front : List (WriteRequest β))
    (h : PrivOk { p with requests := front ++ requests }) :
    PrivOk (indexRequests C m requests front (p, s)).2.1 := by
  induction requests generalizing front p s with
  | nil =>
    rw [List.append_nil] at h
    exact h
  | cons req rest ih =>
    rw [indexRequests]
    by_cases hip : req.IsIp
    · rw [if_pos hip]
      dsimp only
      split
      · apply ih
        rw [← updateAlt_withRequests]
        apply PrivOk.updateAlt
        apply PrivOk.sublist (p := { p with requests := front ++ req :: rest }) h
        intro r hr
        simp only [List.mem_append, List.mem_cons] at hr ⊢
        tauto
      · exact h.handle _ true _ _
    · rw [if_neg hip]
      apply ih
      rwa [List.append_assoc, List.singleton_append]

end States

end AuroraLtfs.Sched
