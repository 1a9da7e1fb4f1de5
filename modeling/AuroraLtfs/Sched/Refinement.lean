import AuroraLtfs.Sched.Steps
import AuroraLtfs.Sched.Stored

/-!
# The scheduler refines a byte file

Runs of the scheduler on one file: any interleaving of writes, truncations,
flushes, background work on the queues, changes of the data placement, opens,
closes and reads.  In every run without tape errors in which no write is garbled,
reads and the file size are those of the byte file, and a write that finds enough
cache blocks puts down its whole buffer.  What is handed down to the tape are bytes
of the byte file, unless a write comes over requests that the background thread has
taken out of the list and not yet sent.
-/

namespace AuroraLtfs.Sched

open AuroraLtfs.Tape
open AuroraLtfs.Index
open AuroraLtfs.Raw
open RequestState

variable {σ β : Type*} [Zero β]

/-- The work and the byte files that a run reaches whose steps all satisfy `ok`. -/
inductive Run (C : Catalog σ (List β)) (m : Mount) (ok : Work σ β → Op β → Prop)
    (s₀ : State σ β) (f₀ : ByteFile β) : Work σ β → ByteFile β → Prop
  | start : Run C m ok s₀ f₀ (.ofState s₀) f₀
  | step {w : Work σ β} {f : ByteFile β} (op : Op β)
      (hrun : Run C m ok s₀ f₀ w f) (henabled : op.Enabled w)
      (hrange : op.InRange) (hok : ok w op) :
      Run C m ok s₀ f₀ (op.exec C m w).2 (op.after f w (op.exec C m w).1)

/-- A file that the scheduler has not touched, on a volume without tape
errors. -/
structure Fresh (m : Mount) (s : State σ β) : Prop where
  valid : ValidFile m.blockSize s.fileState
  unused : s.file.ioschedPriv = none
  bound : s.file.dentry.size ≤ 2 ^ 63

/-- What holds in every state of a run.  The requests in the list lie over those
that have been taken out of it, and the byte file is one whose holes are not told
from zeros. -/
structure RunInv (m : Mount) (f : ByteFile β) (w : Work σ β) : Prop where
  ready : Ready w.state.raw
  stored : storedError w.state = none
  sends : ∀ e, w.background ≠ .failed e
  taken : ∀ r ∈ w.background.taken, 0 < r.count ∧ r.stop ≤ 2 ^ 63
  waiting : ∀ c ∈ w.waiting, c.offset + c.bytes.length ≤ 2 ^ 63
  shows : ∃ g : SparseFile β, g.fill = f ∧ FileInvOver m (putAll w.background.taken
    (cellsOf m.blockSize w.state.fileState)) g w.state

/-- What has been taken out of the list are bytes of the file. -/
def Current (f : ByteFile β) (w : Work σ β) : Prop :=
  ∀ r ∈ w.background.taken, r.data = f.read r.offset r.data.length

section Runs

variable (C : Catalog σ (List β)) {m : Mount} {f f₀ : ByteFile β}
  {w : Work σ β} {s s₀ : State σ β}

/-- A file without private data is what libltfs has of it. -/
theorem fileInv_fresh (hsound : SoundFile m.blockSize s.fileState)
    (hunused : s.file.ioschedPriv = none) (hbound : s.file.dentry.size ≤ 2 ^ 63) :
    FileInv m (cellsOf m.blockSize s.fileState) s := by
  refine ⟨hsound, ?_, hbound⟩
  rw [File.requests, File.fileSize, hunused]
  exact listInv_nil _ _

theorem Fresh.runInv (h : Fresh m s) :
    RunInv m (fileOf m.blockSize s.fileState) (.ofState s) where
  ready := h.valid.ready
  stored := by simp [storedError, Work.ofState, h.unused]
  sends := by simp [Work.ofState]
  taken := by simp [Work.ofState, Background.taken]
  waiting := by simp [Work.ofState]
  shows := ⟨_, (fileOf_eq _ _).symm, fileInv_fresh h.valid.sound h.unused h.bound⟩

/-- What a step leaves.  Only bytes of the file are handed down, as long as what
has been taken out of the list is current. -/
structure StepSpec (m : Mount) (f : ByteFile β) (w : Work σ β) (op : Op β)
    (r : TapeCall (Work σ β) (Reply β)) : Prop where
  inv : RunInv m (op.after f w r.1) r.2
  handed : Current f w → HandsOver f w.state r.2.state
  current : Current f w → op.Apart w → Current (op.after f w r.1) r.2

/-- A step that only changes the state, and not the byte file. -/
theorem RunInv.step (h : RunInv m f w) {op : Op β}
    {ret : Except TapeError (Reply β)} (hafter : op.after f w ret = f)
    (hready : Ready s.raw) (hstored : storedError s = none)
    (hshows : ∃ g : SparseFile β, g.fill = f ∧ FileInvOver m
      (putAll w.background.taken (cellsOf m.blockSize s.fileState)) g s)
    (hhanded : HandsOver f w.state s) : StepSpec m f w op (ret, w.withState s) := by
  constructor
  · rw [hafter]
    exact ⟨hready, hstored, h.sends, h.taken, h.waiting, hshows⟩
  · exact fun _ => hhanded
  · rw [hafter]
    exact fun hcurrent _ => hcurrent

/-- While nothing is taken out of the list, the requests lie over what libltfs has
of the file. -/
theorem RunInv.fileInv (h : RunInv m f w) (htaken : w.background.taken = []) :
    ∃ g : SparseFile β, g.fill = f ∧ FileInv m g w.state := by
  obtain ⟨g, hfill, hg⟩ := h.shows
  rw [htaken] at hg
  exact ⟨g, hfill, hg⟩

/-- A step that writes out requests while nothing is taken out of the list. -/
theorem RunInv.keeps (h : RunInv m f w) (htaken : w.background.taken = []) {op : Op β}
    (hafter : ∀ ret, op.after f w ret = f) {r : TapeCall (State σ β) Unit}
    (hkeeps : ∀ g, FileInv m g w.state → Keeps m 0 g w.state r)
    (hstored : storedError r.2 = none) :
    StepSpec m f w op
      ((r.andThen fun _ s => (.ok .done, s)).within w.withState) := by
  obtain ⟨g, rfl, hg⟩ := h.fileInv htaken
  have hk := hkeeps g hg
  rw [Outcome.within, andThen_reply]
  refine h.step (hafter _) (hk.ready h.ready) hstored ⟨g, rfl, ?_⟩ hk.handed
  rw [htaken]
  exact (hk.inv (.inr h.ready)).fileInv

/-! ## Writes -/

/-- A write with enough cache blocks is queued whole. -/
theorem unifiedWrite_whole {raw g : SparseFile β} (h : FileInvOver m raw g s)
    (resumed : Bool) {blocks offset : ℕ} {bytes : List β}
    (hclean : ¬GarblesWrite m blocks offset bytes s)
    (hblocks : bytes.length < blocks) (hstored : storedError s = none)
    (hwritable : resumed = true ∨
      ltfsGetVolumeReadonly m s.raw.vol.device = .ok ()) :
    (unifiedWrite m resumed blocks offset bytes s).1 = .ok bytes.length := by
  by_cases hbytes : bytes = []
  · simp [unifiedWrite, hbytes]
  obtain ⟨p, hp, hinv, -⟩ := h.getPriv
  obtain ⟨q, hq, herror⟩ := getDentryPriv_error m s
  obtain rfl : p = q := Option.some.inj (hp.symm.trans hq)
  have hnone : p.writeError = none := herror.trans hstored
  have hopen : (if resumed then .ok () else
      ltfsGetVolumeReadonly m s.raw.vol.device) = .ok () := by
    split_ifs with hresumed
    · rfl
    · exact hwritable.resolve_left hresumed
  have hwhole := queueWrite_whole
    (placeWrite_list (m := m) (offset + bytes.length) s.raw.vol.device
      (hinv.privList hp)) hbytes (placeWrite_clean hp hclean) hblocks
  rw [unifiedWrite, if_neg hbytes]
  simp only [hp, hnone, hopen]
  exact congrArg Except.ok hwhole

omit [Zero β] in
theorem writePart_through {resumed : Bool} {blocks : ℕ} {c : Waiting β}
    (h : (unifiedWrite m resumed blocks c.offset c.bytes w.state).1 =
      .ok c.bytes.length) : (writePart m resumed blocks c w).1 = .ok (.written c.size) := by
  rw [writePart]
  generalize unifiedWrite m resumed blocks c.offset c.bytes w.state = r at h ⊢
  obtain ⟨ret, t⟩ := r
  obtain rfl : ret = .ok c.bytes.length := h
  simp

/-- What a part of a write leaves. -/
theorem writePart_spec (h : RunInv m f w) (resumed : Bool) {blocks : ℕ}
    {c : Waiting β} (hrange : c.offset + c.bytes.length ≤ 2 ^ 63)
    (hclean : ¬GarblesWrite m blocks c.offset c.bytes w.state) :
    RunInv m (afterPart f c (writePart m resumed blocks c w).1)
        (writePart m resumed blocks c w).2 ∧
      (writePart m resumed blocks c w).2.state.handed = w.state.handed ∧
      (writePart m resumed blocks c w).2.background = w.background := by
  obtain ⟨g, rfl, hg⟩ := h.shows
  have hspec := unifiedWrite_spec hg resumed hrange hclean
  have hle := unifiedWrite_le m resumed blocks c.offset c.bytes w.state
  have hstored : storedError
      (unifiedWrite m resumed blocks c.offset c.bytes w.state).2 = none := by
    by_cases hbytes : c.bytes = []
    · simpa [unifiedWrite, hbytes] using h.stored
    · exact (unifiedWrite_reports m resumed blocks c.offset hbytes w.state).1
  rw [writePart]
  generalize unifiedWrite m resumed blocks c.offset c.bytes w.state = r
    at hspec hle hstored ⊢
  obtain ⟨ret, t⟩ := r
  obtain ⟨hinv, -, -, hhanded, hsame⟩ := hspec
  have hready : Ready t.raw := by
    have hraw : t.raw = w.state.raw := congrArg Prod.fst hsame
    rw [hraw]
    exact h.ready
  rw [← hsame] at hinv
  cases ret with
  | error e =>
    exact ⟨⟨hready, hstored, h.sends, h.taken, h.waiting, g, rfl, hinv⟩, hhanded, rfl⟩
  | ok n =>
    have hn : n ≤ c.bytes.length := hle n rfl
    dsimp only
    split_ifs with hall
    · refine ⟨⟨hready, hstored, h.sends, h.taken, h.waiting, _, ?_, hinv⟩, hhanded, rfl⟩
      rw [afterWrite, hall, List.take_length, ByteFile.fill_put, afterPart]
    · refine ⟨⟨hready, hstored, h.sends, h.taken, ?_, _, ?_, hinv⟩, hhanded, rfl⟩
      · intro d hd
        rcases List.mem_cons.1 hd with rfl | hd
        · simp only [List.length_drop]
          omega
        · exact h.waiting d hd
      · rw [afterWrite, ByteFile.fill_put, afterPart]

/-- What has been taken is current behind a write that lies apart. -/
theorem current_afterPart {c : Waiting β} (hcurrent : Current f w)
    (hapart : ∀ r ∈ w.background.taken,
      c.offset + c.bytes.length ≤ r.offset ∨ r.stop ≤ c.offset)
    (ret : Except TapeError (Reply β)) : Current (afterPart f c ret) w := by
  have hwrite : ∀ n, Current (f.write c.offset (c.bytes.take n)) w := by
    intro n r hr
    have hlength := List.length_take_le' n c.bytes
    apply ByteFile.read_write_of_apart _ (hcurrent r hr)
    have hstop : r.stop = r.offset + r.data.length := rfl
    have := hapart r hr
    omega
  have hall := hwrite c.bytes.length
  rw [List.take_length] at hall
  rcases ret with _ | reply
  · exact hcurrent
  · cases reply with
    | written _ => exact hall
    | queued n => exact hwrite n
    | data _ => exact hcurrent
    | done => exact hcurrent

/-! ## Closing and reading while requests are being sent -/

omit [Zero β] in
theorem freeConditional_kept (targetHandles : ℕ) {file : File β}
    (h : ∀ p, file.ioschedPriv = some p →
      ¬(file.numhandles ≤ targetHandles ∧ p.requests = [] ∧ p.altExtentlist = [])) :
    unifiedFreeDentryPrivConditional targetHandles file = file := by
  rw [unifiedFreeDentryPrivConditional]
  cases hp : file.ioschedPriv with
  | none => rfl
  | some p => exact if_neg (h p hp)

omit [Zero β] in
theorem flush_unmoved (hempty : s.file.requests = []) :
    (unifiedFlushUnlocked C m s).2 = (unifiedGetWriteError s).2 := by
  rw [unifiedFlushUnlocked]
  rw [File.requests] at hempty
  cases hp : s.file.ioschedPriv with
  | none => rw [unifiedGetWriteError, hp]
  | some p =>
    rw [hp] at hempty
    have hempty : p.requests = [] := hempty
    simp only [hempty, if_true]
    exact andThen_reply _ fun _ => ()

omit [Zero β] in
/-- A close that has nothing to write and nothing to free. -/
theorem unifiedClose_unmoved {flushed : Bool} (h : ClosesAtOnce flushed s) :
    Unmoved s (unifiedClose C m flushed s).2 := by
  obtain ⟨t, ht, hmoved, hkept⟩ : ∃ t, t = (if flushed then
      unifiedFlushUnlocked C m s else (.ok (), s)).2 ∧ Unmoved s t ∧
      ∀ p, t.file.ioschedPriv = some p →
        ¬(t.file.numhandles ≤ 3 ∧ p.requests = [] ∧ p.altExtentlist = []) := by
    cases flushed with
    | false => exact ⟨_, rfl, ⟨rfl, rfl, rfl, rfl, id⟩, h.kept⟩
    | true =>
      have hflush := flush_unmoved C (m := m) (h.flushed rfl)
      refine ⟨_, rfl, ?_, ?_⟩
      · simp only [if_true, hflush]
        exact unifiedGetWriteError_unmoved s
      · simp only [if_true, hflush, unifiedGetWriteError_file]
        intro q hq
        obtain ⟨p, hp, rfl⟩ := Option.map_eq_some_iff.1 hq
        exact h.kept p hp
  have hread := unifiedGetWriteError_unmoved t
  have hfree : unifiedFreeDentryPrivConditional 3 (unifiedGetWriteError t).2.file =
      (unifiedGetWriteError t).2.file := by
    apply freeConditional_kept
    rw [unifiedGetWriteError_file]
    intro q hq
    obtain ⟨p, hp, rfl⟩ := Option.map_eq_some_iff.1 hq
    exact hkept p hp
  have hclose : (unifiedClose C m flushed s).2 =
      { (unifiedGetWriteError t).2 with file := { (unifiedGetWriteError t).2.file with
        numhandles := (unifiedGetWriteError t).2.file.numhandles - 1 } } := by
    rw [unifiedClose]
    dsimp only
    rw [← ht, hfree]
    split <;> rfl
  rw [hclose]
  have hboth := hmoved.trans hread
  exact ⟨hboth.fileState, hboth.handed, hboth.requests, hboth.fileSize, hboth.priv⟩

/-- A read that finds all it wants in the list. -/
theorem unifiedRead_cached {raw g : SparseFile β} (h : FileInvOver m raw g s)
    {offset size : ℕ} (hserved : ServedFromCache offset size s) :
    unifiedRead m offset size s = (.ok (g.fill.read offset size), s) := by
  by_cases hsize : size = 0
  · have hempty : g.fill.read offset size = [] := by
      apply List.eq_nil_of_length_eq_zero
      rw [ByteFile.length_read]
      omega
    rw [unifiedRead, if_pos hsize, hempty]
  obtain ⟨hdone, hcached⟩ := hserved hsize
  have hplan : PlanSpec raw g s.file.requests offset size s.file.fileSize _ :=
    planRead_spec _ (fun i _ => h.list.shows.bytes i) h.list.order
      h.list.shows.within
  have htotal := hplan.total
  have hwithin := hplan.within
  have hfsize := h.list.shows.size
  have hall : (planRead s.file.requests offset size).offset - offset =
      min (offset + size) g.size - offset := by
    omega
  rw [unifiedRead, if_neg hsize]
  dsimp only
  rw [fillHoles_cached _ hcached false raw.fill, Outcome.andThen_ok, if_pos hdone,
    hplan.bytes, hall]
  rfl

/-! ## Sending -/

/-- A request that is sent moves into the file below. -/
theorem FileInvOver.sent {g : SparseFile β} {req : WriteRequest β}
    {rest : List (WriteRequest β)}
    (h : FileInvOver m (putAll (req :: rest) (cellsOf m.blockSize s.fileState)) g s)
    (hpos : 0 < req.count) (hbound : req.stop ≤ 2 ^ 63)
    (hok : (writeOut C m req s).1 = .ok ()) :
    FileInvOver m (putAll rest
      (cellsOf m.blockSize (writeOut C m req s).2.fileState)) g
      (writeOut C m req s).2 := by
  obtain ⟨hsound, -, hfile⟩ := writeOut_sound C h.sound hpos hbound
  simp only [hok] at hfile
  have hlist := h.list
  rw [putAll_cons, ← hfile] at hlist
  have hsize : (writeOut C m req s).2.file.fileSize = s.file.fileSize := by
    have hpriv : (writeOut C m req s).2.file.ioschedPriv = s.file.ioschedPriv := rfl
    rw [File.fileSize, hpriv]
    cases hp : s.file.ioschedPriv with
    | some p => rw [File.fileSize, hp]
    | none =>
      -- without private data the size is that of the file below, which has all
      -- of it
      have habove := (size_le_putAll rest _).trans hlist.shows.above
      rw [File.fileSize, hp] at habove ⊢
      refine le_antisymm habove ?_
      have hgrown : (cellsOf m.blockSize s.fileState).size ≤
          (cellsOf m.blockSize (writeOut C m req s).2.fileState).size := by
        rw [hfile, ByteFile.put_size]
        split_ifs
        · exact le_rfl
        · exact le_max_left _ _
      exact hgrown
  refine ⟨hsound, ?_, h.bound⟩
  rw [hsize]
  exact hlist

section Steps

variable (h : RunInv m f w)

include h

theorem send_spec {req : WriteRequest β} {rest : List (WriteRequest β)}
    (hsending : w.background = .sending (req :: rest)) :
    StepSpec m f w .send (Op.send.exec C m w) := by
  have htaken : w.background.taken = req :: rest := by rw [hsending]; rfl
  obtain ⟨g, rfl, hg⟩ := h.shows
  obtain ⟨hpos, hbound⟩ := h.taken req (by simp [htaken])
  obtain ⟨hok, hready⟩ := writeOut_ready C hg.sound h.ready hpos hbound
  rw [htaken] at hg
  have hsent := hg.sent C hpos hbound hok
  have hwrite : writeOut C m req w.state = (.ok (), (writeOut C m req w.state).2) :=
    Prod.ext hok rfl
  have hexec : Op.send.exec C m w = (.ok .done,
      { w with
        state := (writeOut C m req w.state).2
        background := .ofTaken rest }) := by
    rw [Op.exec, hsending]
    dsimp only
    rw [hwrite]
  rw [hexec]
  constructor
  · refine ⟨hready, h.stored, ?_, ?_, h.waiting, g, rfl, ?_⟩
    · intro e
      cases rest <;> simp [Background.ofTaken]
    · intro r hr
      rw [Background.taken_ofTaken] at hr
      exact h.taken r (by simp [htaken, hr])
    · rw [Background.taken_ofTaken]
      exact hsent
  · intro hcurrent
    exact .cons rfl (hcurrent req (by simp [htaken]))
  · intro hcurrent _ r hr
    have hr : r ∈ (Background.ofTaken rest).taken := hr
    rw [Background.taken_ofTaken] at hr
    exact hcurrent r (by simp [htaken, hr])

theorem take_spec (queue : RequestState) (hidle : w.background = .idle) :
    StepSpec m f w (.take queue) ((Op.take queue).exec C m w) := by
  have htaken : w.background.taken = [] := by rw [hidle]; rfl
  obtain ⟨g, rfl, hg⟩ := h.fileInv htaken
  have hspec := takeRequests_spec C queue hg
  have hstored := takeRequests_stored C m queue w.state
  have hexec : (Op.take queue).exec C m w =
      ((takeRequests C m queue w.state).andThen fun _ s => (.ok .done, s)).within
        fun taken => { w with state := taken.2, background := .ofTaken taken.1 } := by
    rw [Op.exec, hidle]
  rw [hexec, Outcome.within, andThen_reply]
  generalize takeRequests C m queue w.state = r at hspec hstored ⊢
  obtain ⟨ret, requests, t⟩ := r
  obtain ⟨hok, hready⟩ := hspec.ready h.ready
  obtain rfl : ret = .ok () := hok
  constructor
  · refine ⟨hready, hstored.trans h.stored, ?_, ?_, h.waiting, g, rfl, ?_⟩
    · intro e
      cases requests <;> simp [Background.ofTaken]
    · intro r hr
      rw [Background.taken_ofTaken] at hr
      obtain ⟨hpos, hbound, -⟩ := hspec.requests r hr
      exact ⟨hpos, hbound⟩
    · rw [Background.taken_ofTaken]
      exact hspec.inv (.inl rfl)
  · exact fun _ => hspec.handed
  · intro _ _ r hr
    have hr : r ∈ (Background.ofTaken requests).taken := hr
    rw [Background.taken_ofTaken] at hr
    exact (hspec.requests r hr).2.2

/-! ## All steps -/

/-- A step that carries on a write. -/
theorem RunInv.part {op : Op β} {c : Waiting β} (hcall : op.call w = some c)
    {waiting : List (Waiting β)} (hwaiting : ∀ d ∈ waiting, d ∈ w.waiting) (resumed : Bool)
    {blocks : ℕ} (hrange : c.offset + c.bytes.length ≤ 2 ^ 63)
    (hclean : ¬GarblesWrite m blocks c.offset c.bytes w.state) :
    StepSpec m f w op
      (writePart m resumed blocks c { w with waiting := waiting }) := by
  have hw : RunInv m f { w with waiting := waiting } :=
    ⟨h.ready, h.stored, h.sends, h.taken, fun d hd => h.waiting d (hwaiting d hd),
      h.shows⟩
  obtain ⟨hinv, hhanded, hback⟩ := writePart_spec hw resumed hrange hclean
  have hafter : ∀ ret, op.after f w ret = afterPart f c ret := by
    intro ret
    simp only [Op.after, hcall]
  refine ⟨by rw [hafter]; exact hinv, fun _ => .of_eq hhanded, ?_⟩
  intro hcurrent hapart r hr
  rw [hback] at hr
  rw [hafter]
  exact current_afterPart hcurrent (hapart c hcall) _ r hr

theorem truncate_spec {length : ℕ} (hrange : length ≤ 2 ^ 63)
    (htaken : w.background.taken = []) :
    StepSpec m f w (.truncate length) ((Op.truncate length).exec C m w) := by
  obtain ⟨g, rfl, hg⟩ := h.fileInv htaken
  obtain ⟨⟨k, hk, hinv⟩, -, hhanded, hraw⟩ :=
    unifiedTruncate_spec (paddedInv_zero.2 hg) hrange
  obtain rfl : k = 0 := by omega
  rw [paddedInv_zero] at hinv
  have hstored := unifiedTruncate_stored m length w.state
  rw [Op.exec]
  generalize unifiedTruncate m length w.state = r at hinv hhanded hraw hstored ⊢
  obtain ⟨ret, t⟩ := r
  have hready : Ready t.raw := hraw.symm ▸ h.ready
  have hcurrent : ∀ f', Current f' (w.withState t) := by
    intro f' r hr
    have hr : r ∈ w.background.taken := hr
    simp [htaken] at hr
  cases ret with
  | error e =>
    refine h.step rfl hready (hstored.trans h.stored) ⟨g, rfl, ?_⟩ (.of_eq hhanded)
    rw [htaken]
    exact hinv
  | ok x =>
    refine ⟨⟨hready, hstored.trans h.stored, h.sends, h.taken, h.waiting, _,
      ByteFile.fill_truncate .., ?_⟩, fun _ => .of_eq hhanded, fun _ _ => hcurrent _⟩
    have hback : (w.withState t).background.taken = [] := htaken
    simp only [Outcome.within, Outcome.andThen_ok]
    rw [hback]
    exact hinv

theorem close_spec {flushed : Bool} (henabled : (Op.close flushed : Op β).Enabled w) :
    StepSpec m f w (.close flushed) ((Op.close flushed).exec C m w) := by
  have hstored := unifiedClose_clears C m flushed w.state
  rcases henabled with htaken | hatonce
  · exact h.keeps htaken (fun _ => rfl)
      (fun g hg => unifiedClose_spec C flushed (paddedInv_zero.2 hg)) hstored
  · have hmoved := unifiedClose_unmoved C (m := m) hatonce
    obtain ⟨g, rfl, hg⟩ := h.shows
    rw [Op.exec, Outcome.within, andThen_reply]
    refine h.step rfl ?_ hstored ⟨g, rfl, ?_⟩ (.of_eq hmoved.handed)
    · have hraw : (unifiedClose C m flushed w.state).2.raw = w.state.raw :=
        congrArg Prod.fst hmoved.fileState
      exact hraw.symm ▸ h.ready
    · rw [hmoved.fileState]
      exact hg.unmoved hmoved

theorem read_spec {offset size : ℕ} (hrange : offset + size < 2 ^ 64)
    (henabled : (Op.read offset size : Op β).Enabled w) :
    (unifiedRead m offset size w.state).1 = .ok (f.read offset size) ∧
      StepSpec m f w (.read offset size) ((Op.read offset size).exec C m w) := by
  rw [Op.exec, Outcome.within, andThen_reply]
  rcases henabled with htaken | hserved
  · obtain ⟨g, rfl, hg⟩ := h.fileInv htaken
    obtain ⟨next, hread, hvalid, hsame, hdentry⟩ := unifiedRead_spec
      ⟨h.ready, hg.sound.dentry⟩ hg.list.shows hg.list.order hrange
    have hfile : (w.state.withFileState next).file = w.state.file := by
      rw [State.withFileState, hdentry]
    rw [hread]
    refine ⟨rfl, h.step rfl hvalid.ready h.stored ⟨g, rfl, hvalid.sound, ?_, hg.bound⟩
      (.of_eq rfl)⟩
    have hlist := hg.list
    rw [← hsame] at hlist
    rw [htaken, hfile]
    exact hlist
  · obtain ⟨g, rfl, hg⟩ := h.shows
    rw [unifiedRead_cached hg hserved]
    exact ⟨rfl, h.step rfl h.ready h.stored ⟨g, rfl, hg⟩ (.of_eq rfl)⟩

theorem place_spec (matchesNameCriteria deleted : Bool) :
    StepSpec m f w (.place matchesNameCriteria deleted)
      ((Op.place matchesNameCriteria deleted).exec C m w) := by
  obtain ⟨g, rfl, hg⟩ := h.shows
  have hnamed : FileInvOver m _ g { w.state with file := { w.state.file with
      matchesNameCriteria := matchesNameCriteria
      deleted := deleted } } := ⟨hg.sound, hg.list, hg.bound⟩
  refine h.step rfl h.ready ((place_stored m _).trans h.stored) ⟨g, rfl, ?_⟩ (.of_eq rfl)
  rw [State.fileState, place_dentry]
  exact (unifiedUpdateDataPlacement_spec hnamed).1

theorem exec_spec {op : Op β} (henabled : op.Enabled w) (hrange : op.InRange)
    (hclean : op.Clean m w) : StepSpec m f w op (op.exec C m w) := by
  cases op with
  | write blocks offset bytes =>
    exact h.part (c := ⟨offset, bytes, bytes.length⟩) rfl (fun _ => id) false hrange hclean
  | resume call blocks =>
    obtain ⟨c, hget⟩ : ∃ c, w.waiting[call]? = some c :=
      ⟨_, List.getElem?_eq_getElem henabled⟩
    have hcall : (Op.resume call blocks : Op β).call w = some c := hget
    rw [Op.exec, hget]
    exact h.part hcall (fun d => List.mem_of_mem_eraseIdx) true
      (h.waiting c (List.mem_of_getElem? hget)) (hclean c hget)
  | truncate length => exact truncate_spec C h hrange henabled
  | flush | flushAll =>
    have htaken : w.background.taken = [] := by rw [henabled]; rfl
    exact h.keeps htaken (fun _ => rfl)
      (fun g hg => unifiedFlushUnlocked_spec C (paddedInv_zero.2 hg))
      (unifiedFlushUnlocked_clears C m w.state)
  | close flushed => exact close_spec C h henabled
  | place matchesNameCriteria deleted =>
    exact place_spec C h matchesNameCriteria deleted
  | openFile =>
    obtain ⟨g, hfill, hg⟩ := h.shows
    exact h.step rfl h.ready h.stored ⟨g, hfill, hg.sound, hg.list, hg.bound⟩ (.of_eq rfl)
  | read offset size => exact (read_spec C h hrange henabled).2
  | index =>
    have htaken : w.background.taken = [] := by rw [henabled]; rfl
    obtain ⟨g, -, hg⟩ := h.fileInv htaken
    have hok := unifiedProcessIndexQueue_succeeds C hg h.ready
    refine h.keeps htaken (fun _ => rfl)
      (fun g hg => (unifiedProcessIndexQueue_spec C hg).1) ?_
    have hstored := unifiedProcessIndexQueue_stored C m (s := w.state)
      (by rw [hok]; simp) (.inl ⟨hok, h.stored⟩)
    rw [hstored, hok]
    exact h.stored
  | take queue => exact take_spec C h queue henabled
  | send =>
    have hsome : w.background.taken ≠ [] := henabled
    cases hback : w.background with
    | idle => simp [hback, Background.taken] at hsome
    | failed e => simp [hback, Background.taken] at hsome
    | sending requests =>
      cases requests with
      | nil => simp [hback, Background.taken] at hsome
      | cons req rest => exact send_spec C h hback
  | record =>
    obtain ⟨e, he⟩ := henabled
    exact absurd he (h.sends e)

end Steps

/-! ## Runs -/

variable {ok : Work σ β → Op β → Prop}

theorem Run.inv (hfresh : Fresh m s₀)
    (hrun : Run C m ok s₀ (fileOf m.blockSize s₀.fileState) w f)
    (hclean : ∀ w op, ok w op → op.Clean m w) : RunInv m f w := by
  induction hrun with
  | start => exact hfresh.runInv
  | step op _ henabled hrange hok ih =>
    exact (exec_spec C ih henabled hrange (hclean _ _ hok)).inv

theorem Run.current (hfresh : Fresh m s₀)
    (hrun : Run C m ok s₀ (fileOf m.blockSize s₀.fileState) w f)
    (hclean : ∀ w op, ok w op → op.Clean m w)
    (hapart : ∀ w op, ok w op → op.Apart w) : Current f w := by
  induction hrun with
  | start => simp [Current, Work.ofState, Background.taken]
  | step op hrun henabled hrange hok ih =>
    have hinv := hrun.inv C hfresh hclean
    exact (exec_spec C hinv henabled hrange (hclean _ _ hok)).current ih (hapart _ _ hok)

end Runs

def runOps (C : Catalog σ (List β)) (m : Mount) :
    List (Op β) → Work σ β × ByteFile β → Work σ β × ByteFile β
  | [], x => x
  | op :: ops, (w, f) =>
    let r := op.exec C m w
    runOps C m ops (r.2, op.after f w r.1)

/-- Every step can be taken and satisfies `ok`. -/
def AllOk (C : Catalog σ (List β)) (m : Mount) (ok : Work σ β → Op β → Prop) :
    List (Op β) → Work σ β → Prop
  | [], _ => True
  | op :: ops, w => (op.Enabled w ∧ op.InRange ∧ ok w op) ∧
    AllOk C m ok ops (op.exec C m w).2

theorem Run.of_list {C : Catalog σ (List β)} {m : Mount} {ok : Work σ β → Op β → Prop}
    {s₀ : State σ β} {w : Work σ β} {f₀ f : ByteFile β} (hrun : Run C m ok s₀ f₀ w f)
    (ops : List (Op β)) (hok : AllOk C m ok ops w) :
    Run C m ok s₀ f₀ (runOps C m ops (w, f)).1 (runOps C m ops (w, f)).2 := by
  induction ops generalizing w f with
  | nil => exact hrun
  | cons op ops ih =>
    obtain ⟨⟨henabled, hrange, hop⟩, hok⟩ := hok
    exact ih (hrun.step op henabled hrange hop) hok

/-- A mount with small blocks that places every file of up to 100 bytes on the
index partition. -/
def smallMount (cacheSize : ℕ) (h : 0 < cacheSize := by decide) : Mount where
  cacheSize := cacheSize
  blockSize := 16
  maxFilesize := 100
  readonlyMount := false
  lockStatus := .unlocked
  cacheSize_pos := h
  blockSize_pos := by decide
  blockSize_le := by decide

/-- An empty file on an empty volume that is placed on the index partition. -/
def emptyState (β : Type*) : State Unit β where
  raw := (emptyFile β).1
  file :=
    { dentry := (emptyFile β).2
      ioschedPriv := none
      matchesNameCriteria := true
      deleted := false
      numhandles := 1 }
  handed := []

theorem emptyState_fresh (cacheSize : ℕ) (h : 0 < cacheSize) :
    Fresh (smallMount cacheSize h) (emptyState β) :=
  ⟨emptyFile_valid 16, rfl, by simp [emptyState, emptyFile]⟩

/-- What a list of steps makes of the empty file. -/
def fromEmpty (cacheSize : ℕ) (ops : List (Op ℕ)) (h : 0 < cacheSize := by decide) :
    Work Unit ℕ × ByteFile ℕ :=
  runOps emptyCatalog (smallMount cacheSize h) ops
    (.ofState (emptyState ℕ), fileOf 16 (emptyState ℕ).fileState)

theorem fromEmpty_run {cacheSize : ℕ} (h : 0 < cacheSize)
    (ok : Work Unit ℕ → Op ℕ → Prop) (ops : List (Op ℕ))
    (hok : AllOk emptyCatalog (smallMount cacheSize h) ok ops
      (.ofState (emptyState ℕ))) :
    Run emptyCatalog (smallMount cacheSize h) ok (emptyState ℕ)
      (fileOf 16 (emptyState ℕ).fileState) (fromEmpty cacheSize ops h).1
      (fromEmpty cacheSize ops h).2 :=
  Run.start.of_list ops hok

omit [Zero β] in
/-- No request for the index partition starts where the write does. -/
theorem Op.clean_write {m : Mount} {w : Work σ β} {blocks offset : ℕ} {bytes : List β}
    (h : ∀ r ∈ w.state.file.requests, r.IsIp → r.offset ≠ offset) :
    (Op.write blocks offset bytes).Clean m w := by
  rintro ⟨p, hp, ⟨-, a, r, t, b, hsplit, -, ht, -, hoffset, -⟩, -⟩
  have hsplit : p.requests = a ++ r :: t :: b := hsplit
  rw [File.requests, hp] at h
  exact h t (by simp [hsplit]) ht hoffset

/-- A file that is written, flushed, sent to the index partition, taken off it, cut
and sent to the data partition, with a write between the taking and the sending. -/
def cleanOps : List (Op ℕ) :=
  [.write 7 0 [1, 2, 3, 4, 5, 6], .flush, .write 2 2 [9], .index, .truncate 5,
    .place false false, .write 2 1 [7], .take .reqPartial, .write 2 7 [8], .send]

/-- A write that starts between two requests for the index partition, left by
an earlier write that has split one of them. -/
def garbledOps : List (Op ℕ) :=
  [.write 9 0 [1, 2, 3, 4, 5, 6, 7, 8], .write 4 8 [9, 10, 11],
    .flush, .write 5 20 [20, 21, 22, 23], .write 2 6 [60], .write 3 8 [99, 98]]

/-- A write over a request for the data partition that the background thread has
taken out of the list. -/
def overtakingOps : List (Op ℕ) :=
  [.place false false, .write 5 0 [1, 2, 3, 4], .take .reqDp, .write 2 0 [9]]

end AuroraLtfs.Sched
