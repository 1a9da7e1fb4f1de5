import AuroraLtfs.Raw.Refinement
import AuroraLtfs.Sched.ListSteps

/-!
# Writing out the queue

The walks that write requests to the data partition keep what the requests show
over the file below: a request that is written moves into the file below, one
that is taken out of the list is as good as written.  What they hand down are
the bytes the file has.
-/

namespace AuroraLtfs.Sched

open AuroraLtfs.Tape
open AuroraLtfs.Index
open AuroraLtfs.Raw
open RequestState

variable {σ β : Type*} [Zero β]

/-- Between the two states only bytes of `f` have been handed down. -/
def HandsOver (f : ByteFile β) (s t : State σ β) : Prop :=
  ∃ new, t.handed = new ++ s.handed ∧
    ∀ h ∈ new, h.bytes = f.read h.offset h.bytes.length

namespace HandsOver

variable {f : ByteFile β} {s t u : State σ β}

theorem of_eq (h : t.handed = s.handed) : HandsOver f s t :=
  ⟨[], h, by simp⟩

theorem trans (hst : HandsOver f s t) (htu : HandsOver f t u) : HandsOver f s u := by
  obtain ⟨new, hnew, hbytes⟩ := hst
  obtain ⟨new', hnew', hbytes'⟩ := htu
  refine ⟨new' ++ new, by rw [hnew', hnew, List.append_assoc], ?_⟩
  intro h hh
  cases List.mem_append.1 hh with
  | inl hh => exact hbytes' h hh
  | inr hh => exact hbytes h hh

theorem cons {h : Handed β} (ht : t.handed = h :: s.handed)
    (hbytes : h.bytes = f.read h.offset h.bytes.length) : HandsOver f s t :=
  ⟨[h], ht, by simpa using hbytes⟩

end HandsOver

section WriteOut

variable (C : Catalog σ (List β)) {m : Mount} {s : State σ β}
  {req : WriteRequest β}

/-- A request whose write fails leaves the file below as it was. -/
theorem writeOut_sound (hs : SoundFile m.blockSize s.fileState)
    (hpos : 0 < req.count) (hbound : req.stop ≤ 2 ^ 63) :
    SoundFile m.blockSize (writeOut C m req s).2.fileState ∧
      s.raw.vol.device.Grows (writeOut C m req s).2.raw.vol.device ∧
      cellsOf m.blockSize (writeOut C m req s).2.fileState =
        match (writeOut C m req s).1 with
        | .ok _ => (cellsOf m.blockSize s.fileState).put req.offset req.data
        | .error _ => cellsOf m.blockSize s.fileState := by
  have hfits : req.offset + req.data.length + m.blockSize ≤ 2 ^ 64 := by
    have hstop : req.stop = req.offset + req.data.length := rfl
    have hblock := m.blockSize_le
    omega
  exact ltfsFsrawWrite_sound C m.blockSize_pos hs .dp (List.length_pos_iff.1 hpos) hfits

theorem writeOut_ready (hs : SoundFile m.blockSize s.fileState)
    (hready : Ready s.raw) (hpos : 0 < req.count) (hbound : req.stop ≤ 2 ^ 63) :
    (writeOut C m req s).1 = .ok () ∧ Ready (writeOut C m req s).2.raw := by
  have hfits : req.offset + req.data.length + m.blockSize ≤ 2 ^ 64 := by
    have hstop : req.stop = req.offset + req.data.length := rfl
    have hblock := m.blockSize_le
    omega
  obtain ⟨next, hwrite, hvalid, -⟩ := ltfsFsrawWrite_spec C m.blockSize_pos
    ⟨hready, hs.dentry⟩ .dp (List.length_pos_iff.1 hpos) hfits
  rw [writeOut, hwrite]
  exact ⟨rfl, hvalid.ready⟩

/-- The bytes of a request in the list are those of the file. -/
theorem ListInv.data {cs fileSize : ℕ} {raw f : SparseFile β}
    {a b : List (WriteRequest β)} (h : ListInv cs raw f (a ++ req :: b) fileSize) :
    req.data = f.fill.read req.offset req.data.length := by
  have hstop : req.stop = req.offset + req.data.length := rfl
  have hsize : req.stop ≤ f.size := by
    rw [h.shows.size]
    exact h.shows.within req (by simp)
  apply ByteFile.eq_read
  · rw [ByteFile.fill_size]
    omega
  · intro k hk
    rw [ByteFile.fill_byte, h.get (by omega) (by omega)]
    simp only [requestSegments, Nat.add_sub_cancel_left]
    rw [List.getElem?_eq_getElem hk, Option.getD_some]

end WriteOut

section PutAll

omit [Zero β]

variable (requests : List (WriteRequest β)) (raw : SparseFile β)

/-- The file below once the requests are written. -/
def putAll : SparseFile β :=
  requests.foldl (fun raw r => raw.put r.offset r.data) raw

@[simp]
theorem putAll_nil : putAll [] raw = raw := rfl

@[simp]
theorem putAll_cons (r : WriteRequest β) :
    putAll (r :: requests) raw = putAll requests (raw.put r.offset r.data) := rfl

theorem putAll_concat (r : WriteRequest β) :
    putAll (requests ++ [r]) raw = (putAll requests raw).put r.offset r.data :=
  List.foldl_concat ..

/-- Writing requests makes a file no shorter. -/
theorem size_le_putAll : raw.size ≤ (putAll requests raw).size := by
  induction requests generalizing raw with
  | nil => exact le_rfl
  | cons r rs ih =>
    have hput : raw.size ≤ (raw.put r.offset r.data).size := by
      rw [ByteFile.put_size]
      split_ifs
      · exact le_rfl
      · exact le_max_left _ _
    exact hput.trans (ih _)

theorem isSome_putAll {x : ℕ} (h : (raw.byte x).isSome) :
    ((putAll requests raw).byte x).isSome := by
  induction requests generalizing raw with
  | nil => exact h
  | cons r rs ih => exact ih _ (ByteFile.isSome_put _ _ _ (.inl h))

end PutAll

section Sweeps

variable (C : Catalog σ (List β)) {m : Mount} {k : ℕ} {f : SparseFile β}
  {s t : State σ β} {w : Sweep σ β} {req : WriteRequest β} {rest : List (WriteRequest β)}

/-- The file below once the requests that were taken out are written.  It is taken
to have at least `k` bytes: a file whose last bytes could not be written looks so
until the failure is recorded. -/
def Sweep.below (bs k : ℕ) (w : Sweep σ β) : SparseFile β :=
  putAll w.detached ((cellsOf bs w.state.fileState).pad k)

/-- The invariant of a walk that started in state `s`. -/
structure SweepInv (m : Mount) (k : ℕ) (f : SparseFile β) (s : State σ β)
    (w : Sweep σ β) (rest : List (WriteRequest β)) : Prop where
  sound : SoundFile m.blockSize w.state.fileState
  list : ListInv m.cacheSize (w.below m.blockSize k) f (w.front ++ rest)
    w.fileSize
  detached : ∀ r ∈ w.detached, 0 < r.count ∧ r.stop ≤ 2 ^ 63 ∧
    r.data = f.fill.read r.offset r.data.length
  bound : f.size ≤ 2 ^ 63
  handed : HandsOver f.fill s w.state
  grows : s.raw.vol.device.Grows w.state.raw.vol.device
  covers : ∀ x, ((cellsOf m.blockSize s.fileState).byte x).isSome →
    ((cellsOf m.blockSize w.state.fileState).byte x).isSome

namespace SweepInv

variable (h : SweepInv m k f s w (req :: rest))

include h

theorem keep : SweepInv m k f s (w.keep req) rest := by
  refine ⟨h.sound, ?_, h.detached, h.bound, h.handed, h.grows, h.covers⟩
  have hlist := h.list
  rw [List.append_cons] at hlist
  exact hlist

theorem merge : SweepInv m k f s (w.merge m.cacheSize req) rest := by
  rw [Sweep.merge]
  cases hlast : w.front.getLast? with
  | none => exact h.keep
  | some dest =>
    obtain ⟨l, hl⟩ := List.getLast?_eq_some_iff.1 hlast
    have hlist := h.list
    rw [hl, List.append_assoc, List.singleton_append] at hlist
    obtain ⟨-, htail, -⟩ := (Segments.ordered_append _).1 hlist.order
    have hbefore : dest.stop ≤ req.offset :=
      ((Segments.ordered_cons _).1 htail).1 req (by simp)
    have hstart : dest.offset ≤ req.offset := (Nat.le_add_right _ _).trans hbefore
    have hm := mergeRequests_spec (hlist.sound dest (by simp)).1
      (hlist.sound req (by simp)).1 hstart
    have hmerged := hlist.merge hm
    have hreached : (mergeRequests m.cacheSize dest req).reached ≤
        w.fileSize := hm.reached.trans (hmerged.shows.within _ (by simp))
    refine ⟨h.sound, ?_, h.detached, h.bound, h.handed, h.grows, h.covers⟩
    dsimp only
    rw [max_eq_left hreached, hl, List.dropLast_concat, List.append_assoc, List.cons_append]
    exact hmerged

/-- Of the current request. -/
theorem request : 0 < req.count ∧ req.stop ≤ 2 ^ 63 := by
  refine ⟨(h.list.sound req (by simp)).1.1, ?_⟩
  have hsize := h.list.shows.size
  exact (h.list.shows.within req (by simp)).trans (hsize ▸ h.bound)

/-- A request that has been written waits for the index partition. -/
theorem written (hnone : w.detached = []) (hok : (writeOut C m req w.state).1 = .ok ()) :
    SweepInv m k f s { w with state := (writeOut C m req w.state).2 }
      ({ req with state := reqIp } :: rest) := by
  obtain ⟨hpos, hbound⟩ := h.request
  obtain ⟨hsound, hgrows, hfile⟩ := writeOut_sound C h.sound hpos hbound
  rw [hok] at hfile
  refine ⟨hsound, ?_, h.detached, h.bound, h.handed.trans (.cons rfl h.list.data),
    h.grows.trans hgrows, ?_⟩
  · have hlist := h.list.written
    simp only [Sweep.below, hnone, putAll_nil] at hlist ⊢
    rw [hfile, ← ByteFile.pad_put]
    exact hlist
  · intro x hx
    rw [hfile]
    exact ByteFile.isSome_put _ _ _ (.inl (h.covers x hx))

/-- A request whose write fails stays. -/
theorem failed (hnone : w.detached = []) {e : TapeError}
    (herror : (writeOut C m req w.state).1 = .error e) :
    SweepInv m k f s
      { w with
        front := w.front ++ req :: rest
        state := (writeOut C m req w.state).2 } [] := by
  obtain ⟨hpos, hbound⟩ := h.request
  obtain ⟨hsound, hgrows, hfile⟩ := writeOut_sound C h.sound hpos hbound
  rw [herror] at hfile
  refine ⟨hsound, ?_, h.detached, h.bound, h.handed.trans (.cons rfl h.list.data),
    h.grows.trans hgrows, ?_⟩
  · have hlist := h.list
    simp only [Sweep.below, hnone, putAll_nil, List.append_nil] at hlist ⊢
    rw [hfile]
    exact hlist
  · rw [hfile]
    exact h.covers

/-- A request that waits for the index partition may go. -/
theorem drop (hip : req.IsIp) : SweepInv m k f s w rest :=
  ⟨h.sound, h.list.remove hip, h.detached, h.bound, h.handed, h.grows, h.covers⟩

/-- A request that is taken out of the list is as good as written. -/
theorem detach : SweepInv m k f s { w with detached := w.detached ++ [req] } rest := by
  obtain ⟨hpos, hbound⟩ := h.request
  refine ⟨h.sound, ?_, ?_, h.bound, h.handed, h.grows, h.covers⟩
  · simp only [Sweep.below, putAll_concat]
    exact h.list.written.remove rfl
  · intro r hr
    cases List.mem_append.1 hr with
    | inl hr => exact h.detached r hr
    | inr hr =>
      obtain rfl : r = req := by simpa using hr
      exact ⟨hpos, hbound, h.list.data⟩

end SweepInv

omit [Zero β] in
theorem merge_detached (cs : ℕ) (w : Sweep σ β) (req : WriteRequest β) :
    (w.merge cs req).detached = w.detached := by
  rw [Sweep.merge]
  split <;> rfl

omit [Zero β] in
theorem merge_state (cs : ℕ) (w : Sweep σ β) (req : WriteRequest β) :
    (w.merge cs req).state = w.state := by
  rw [Sweep.merge]
  split <;> rfl

/-- What a walk leaves: it keeps the file, whether it succeeds or not, and
without tape errors it succeeds. -/
structure Swept (m : Mount) (k : ℕ) (f : SparseFile β) (s : State σ β) (writeIp : Bool)
    (w : Sweep σ β) (r : TapeCall (Sweep σ β) Unit) : Prop where
  inv : SweepInv m k f s r.2 []
  detached : writeIp = true → r.2.detached = []
  ready : Ready w.state.raw → r.1 = .ok () ∧ Ready r.2.state.raw

/-- The walk goes on behind a request that was written. -/
theorem Swept.after {writeIp : Bool} {v : Sweep σ β}
    {r : TapeCall (Sweep σ β) Unit} (hr : Swept m k f s writeIp v r)
    (hv : Ready w.state.raw → Ready v.state.raw) : Swept m k f s writeIp w r :=
  ⟨hr.inv, hr.detached, fun hready => hr.ready (hv hready)⟩

/-- A failed write ends the walk, and it is a tape error. -/
theorem SweepInv.fails (h : SweepInv m k f s w (req :: rest)) (writeIp : Bool)
    (hnone : w.detached = []) {e : TapeError}
    (hwrite : writeOut C m req w.state = (.error e, t)) :
    Swept m k f s writeIp w
      (.error e, { w with front := w.front ++ req :: rest, state := t }) := by
  have hfailed := h.failed C hnone (congrArg Prod.fst hwrite)
  rw [hwrite] at hfailed
  refine ⟨hfailed, fun _ => hnone, fun hready => ?_⟩
  obtain ⟨hok, -⟩ := writeOut_ready C h.sound hready h.request.1 h.request.2
  rw [hwrite] at hok
  exact absurd hok (by simp)

/-- A successful write goes on with the request for the index partition. -/
theorem SweepInv.succeeds (h : SweepInv m k f s w (req :: rest)) (hnone : w.detached = [])
    (hwrite : writeOut C m req w.state = (.ok (), t)) :
    SweepInv m k f s { w with state := t } ({ req with state := reqIp } :: rest) ∧
      (Ready w.state.raw → Ready t.raw) := by
  have hwritten := h.written C hnone (congrArg Prod.fst hwrite)
  rw [hwrite] at hwritten
  refine ⟨hwritten, fun hready => ?_⟩
  have hnext := (writeOut_ready C h.sound hready h.request.1 h.request.2).2
  rw [hwrite] at hnext
  exact hnext

theorem flushRequests_spec (writeIp : Bool) (requests : List (WriteRequest β))
    (h : SweepInv m k f s w requests) (hnone : w.detached = []) :
    Swept m k f s true w (flushRequests C m writeIp requests w) := by
  induction requests generalizing w with
  | nil => exact ⟨h, fun _ => hnone, fun hready => ⟨rfl, hready⟩⟩
  | cons req rest ih =>
    rw [flushRequests]
    by_cases hip : req.IsIp
    · rw [if_pos hip]
      exact (ih h.merge (by rw [merge_detached, hnone])).after
        (by rw [merge_state]; exact id)
    rw [if_neg hip]
    cases hwrite : writeOut C m req w.state with
    | mk ret t =>
      cases ret with
      | error e => exact h.fails C true hnone hwrite
      | ok x =>
        obtain ⟨hwritten, hready⟩ := h.succeeds C hnone hwrite
        cases writeIp with
        | true =>
          exact (ih hwritten.merge (by rw [merge_detached, hnone])).after
            (by rw [merge_state]; exact hready)
        | false => exact (ih (hwritten.drop rfl) hnone).after hready

theorem processRequests_spec (queue : RequestState) (writeIp : Bool)
    (requests : List (WriteRequest β)) (h : SweepInv m k f s w requests)
    (hnone : writeIp = true → w.detached = []) :
    Swept m k f s writeIp w (processRequests C m queue writeIp requests w) := by
  induction requests generalizing w with
  | nil => exact ⟨h, hnone, fun hready => ⟨rfl, hready⟩⟩
  | cons req rest ih =>
    rw [processRequests]
    by_cases hip : req.IsIp
    · rw [if_pos hip]
      exact (ih h.merge (by rw [merge_detached]; exact hnone)).after
        (by rw [merge_state]; exact id)
    rw [if_neg hip]
    by_cases htaken : req.state = reqDp ∨ queue = reqPartial
    · rw [if_pos htaken]
      cases writeIp with
      | true =>
        rw [if_pos rfl]
        cases hwrite : writeOut C m req w.state with
        | mk ret t =>
          cases ret with
          | error e => exact h.fails C true (hnone rfl) hwrite
          | ok x =>
            obtain ⟨hwritten, hready⟩ := h.succeeds C (hnone rfl) hwrite
            exact (ih hwritten.merge
              (by rw [merge_detached]; exact hnone)).after
                (by rw [merge_state]; exact hready)
      | false =>
        rw [if_neg (by simp)]
        exact (ih h.detach (by simp)).after id
    · rw [if_neg htaken]
      exact (ih h.keep hnone).after id

end Sweeps

end AuroraLtfs.Sched
